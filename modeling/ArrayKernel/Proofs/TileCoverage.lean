import ArrayKernel.Proofs.Tiling

/-!
# Tiling covers the shape

The iteration over a shape that a tiling specializer has replaced by loops still runs its body once for each
tuple of indices: the loops count as `Tiling` says, and no statement below the body assigns to what they
count with.
-/

namespace ArrayKernel.Running

open Ast

variable {os : List Operand} {s : Session}

/-! ## What the body assigns to -/

section Body

variable {s u t : Session} {base : NodeId → Prop} {first : Nat} {o o' : Operand} {a b y : NodeId}

theorem like_ids {f f' : Form} (h : f.Like False f') (hf : ∀ k, f ≠ .function k) : f'.ids = f.ids := by
  cases f with
  | loop l =>
    obtain ⟨l', rfl, h1, h2, h3, h4, -⟩ := h
    simp [Form.ids, Form.children, h1, h2, h3, h4]
  | function k => exact absurd rfl (hf k)
  | sequence o =>
    obtain ⟨o', rfl, ho⟩ := h
    rw [ho not_false]
  | _ => rw [h]

/-- A node of a set, or a handler around operands in the set. -/
def Inside (first : Nat) (t : Session) (base : NodeId → Prop) (a : NodeId) : Prop :=
  ∃ o, Wrapped first t o (.node a) ∧ ∀ c ∈ o.ids, base c

theorem inside_of_base (ha : base a) : Inside first t base a :=
  ⟨.node a, .bare, fun c hc => by rw [List.mem_singleton.1 hc]; exact ha⟩

theorem inside_of_wrapped (h : Wrapped first t o o') (ho : ∀ c ∈ o.ids, base c) (hb : b ∈ o'.ids) :
    Inside first t base b := by
  cases h with
  | bare => exact inside_of_base (ho b hb)
  | handler hle hf hs hc hw =>
    rw [List.mem_singleton.1 hb]
    exact ⟨o, .handler hle hf hs hc hw, ho⟩

variable (hbase : ∀ a, base a → ∃ f, s.form? a = some f ∧ (∀ k, f ≠ .function k) ∧ ∀ c ∈ f.ids, base c)
  (hk : Keeps (fun _ => False) s u) (hd : Dressed first u t)

include hbase hk hd

/-- The operands of a node of the set are in the set, but for the body of a loop, which may be in
handlers. -/
theorem base_ids (ha : base a) {f : Form} (hf : t.form? a = some f) : (∀ b ∈ f.ids, base b) ∨
    ∃ l body, f = .loop { l with body } ∧ (∀ b ∈ (Form.loop l).ids, base b) ∧ Wrapped first t l.body body := by
  obtain ⟨f0, hf0, hfun, hids⟩ := hbase a ha
  obtain ⟨f1, hf1, hlike⟩ := hk.form? hf0
  obtain ⟨f2, hf2, hdress⟩ := hd.form? hf1
  rw [hf] at hf2
  cases hf2
  rw [← like_ids hlike hfun] at hids
  obtain rfl | ⟨l, body, rfl, rfl, hw⟩ := hdress
  · exact .inl hids
  · exact .inr ⟨l, body, rfl, hids, hw⟩

theorem inside_operand (ha : Inside first t base a) (h : IsOperand t a b) : Inside first t base b := by
  obtain ⟨o, hw, ho⟩ := ha
  obtain ⟨f, hf, hb⟩ := h
  cases hw with
  | bare =>
    obtain hids | ⟨l, body, rfl, hids, hw⟩ := base_ids hbase hk hd (ho a (List.mem_singleton.2 rfl)) hf
    · exact inside_of_base (hids b hb)
    · simp only [Form.ids, Form.children, List.flatMap_cons, List.flatMap_nil, List.append_nil,
        List.mem_append] at hids hb
      rcases hb with hb | hb | hb | hb
      · exact inside_of_base (hids b (.inl hb))
      · exact inside_of_base (hids b (.inr (.inl hb)))
      · exact inside_of_base (hids b (.inr (.inr (.inl hb))))
      · exact inside_of_wrapped hw (fun c hc => hids c (.inr (.inr (.inr hc)))) hb
  | handler hle hf' hs hc hw =>
    rw [hf] at hf'
    cases hf'
    rw [hc] at hb
    exact inside_of_wrapped hw ho hb

/-- Below a node of the set, only nodes of the set are assigned to: handlers make no assignments. -/
theorem assigns_inside (ha : base a) (h : Assigns t a y) : base y := by
  obtain ⟨c, r, d, hpath, hc⟩ := h
  obtain ⟨o, hw, ho⟩ : Inside first t base c := by
    clear hc
    induction hpath with
    | refl => exact inside_of_base ha
    | tail _ hop ih => exact inside_operand hbase hk hd ih hop
  cases hw with
  | bare =>
    obtain hids | ⟨l, body, hl, -⟩ := base_ids hbase hk hd (ho c (List.mem_singleton.2 rfl)) hc
    · exact hids y (by simp [Form.ids, Form.children, Operand.ids])
    · cases hl
  | handler _ hf _ _ _ =>
    rw [hc] at hf
    cases hf

end Body

/-! ## A specializer that tiles -/

section Tiled

variable {s t : Session} {sp depth : Nat} {fid leaf id : NodeId} {x : Name} {F : Function} {σ : Specializer}
variable {o : Operand} {inputs : Inputs} {n : Int}

def Below (s : Session) (os : List Operand) (id : NodeId) : Prop :=
  ∃ o ∈ os, ∃ r ∈ o.ids, Relation.ReflTransGen (IsOperand s) r id

def Plain (s : Session) (os : List Operand) : Prop :=
  ∀ id, Below s os id → ∃ f, s.form? id = some f ∧ (∀ k, f ≠ .function k) ∧ ∀ b, f ≠ .iterate b

def operandsOf (leaf : NodeId) (F : Function) : List Operand :=
  [.node leaf, F.shape, F.ompSize] ++ F.totalShape.toList

/-- A specializer without SIMD tiles a kernel whose shape is passed under a name. -/
structure TilesKernel (s : Session) (sp : Nat) (fid leaf : NodeId) (x : Name) (F : Function)
    (σ : Specializer) : Prop where
  specializer : s.specializers[sp]? = some σ
  scheme : s.settings.tileAllDimensions = true ∨ σ.scheme.pattern = .tiled
  scalar : σ.scheme.vectorSize = none
  at_work : σ.function = some fid
  function : s.form? fid = some (.function F)
  shape : ∃ shape, HasShape s fid shape x
  rank : 1 ≤ F.ndim
  plain : Plain s (operandsOf leaf F)

def regionOf (s : Session) (os : List Operand) : Region where
  base := Below s os
  start := s.nodes.size
  allows f := (∀ k, f ≠ .function k) ∧ ∀ b, f ≠ .iterate b
  passive f hf := by
    constructor <;> rintro _ rfl <;> cases hf

theorem below_operand {a b : NodeId} (h : Below s os a) (hb : IsOperand s a b) : Below s os b := by
  obtain ⟨o, ho, r, hr, hpath⟩ := h
  exact ⟨o, ho, r, hr, hpath.tail hb⟩

theorem below_of_mem {a : NodeId} (ho : o ∈ os) (ha : a ∈ o.ids) : Below s os a :=
  ⟨o, ho, a, ha, .refl⟩

theorem Plain.hasAll (h : Plain s os) (ho : o ∈ os) : (regionOf s os).HasAll s o := by
  intro a ha
  obtain ⟨f, hf, -⟩ := h a (below_of_mem ho ha)
  exact ⟨.inl (below_of_mem ho ha), form?_lt hf⟩

theorem Plain.closed (h : Plain s os) : (regionOf s os).Closed s := by
  rintro a f ⟨hbase | hnew, hlt⟩ hf
  · obtain ⟨f', hf', hallowed⟩ := h a hbase
    rw [hf] at hf'
    cases hf'
    refine ⟨hallowed, fun c hc => ?_⟩
    have hbelow := below_operand hbase ⟨f, hf, hc⟩
    obtain ⟨_, hfc, -⟩ := h c hbelow
    exact ⟨.inl hbelow, form?_lt hfc⟩
  · exact absurd hlt (Nat.not_lt.2 hnew)

theorem TilesKernel.kernel (h : TilesKernel s sp fid leaf x F σ) :
    ∃ shape, Kernel (regionOf s (operandsOf leaf F)) sp fid shape x F σ s := by
  obtain ⟨shape, hshape⟩ := h.shape
  obtain ⟨F', hF, hF'⟩ := hshape.table
  rw [h.function] at hF
  cases hF
  refine ⟨shape, ⟨Nat.le_refl _, fun _ _ _ _ => by constructor <;> simp, hshape, ?_⟩, h.plain.closed,
    h.specializer, h.at_work, h.function, ⟨fun hbelow => ?_, form?_lt h.function⟩, fun o ho => ?_,
    h.plain.hasAll (by simp [operandsOf])⟩
  · exact h.plain.hasAll (o := F.shape) (by simp [operandsOf]) shape (by rw [hF']; exact List.mem_singleton.2 rfl)
  · obtain ⟨f, hf, hfun, -⟩ := h.plain fid hbelow
    rw [h.function] at hf
    exact hfun F (Option.some.inj hf).symm
  · exact h.plain.hasAll (by simp [operandsOf, ho])

theorem tiled_perm (order : Layout.Order) {n : Nat} (hn : 2 ≤ n) :
    (ascending 0 n).Perm ((order.untiledDims n).dims ++ (order.tiledDims n).dims) := by
  have hT := arrange_perm order (order.untiledDims n).dims
  have hD := arrange_perm order (order.tiledDims n).dims
  rw [arrange_untiledDims order hn] at hT
  rw [arrange_tiledDims] at hD
  refine .trans ?_ (hT.append hD)
  cases order
  · have h := ascending_append 0 (n - 2) 2
    rw [show (0 : Int) + (n - 2 : Nat) = n - 2 by omega, show n - 2 + 2 = n by omega] at h
    exact .of_eq h.symm
  · have h := ascending_append 0 2 (n - 2)
    rw [show 2 + (n - 2) = n by omega] at h
    rw [← h]
    exact List.perm_append_comm

theorem visit_tiles {k : Tiles} {edge : Operand} {T D : List Int} {u : Session}
    (h : Runs (Layout.specializeWithin sp depth (.node k.root)) u o t)
    (hS : k.Stand (regionOf s (operandsOf leaf F)) sp x F σ (.node leaf) edge T D s u)
    (hv : σ.scheme.vectorSize = none) (hp : σ.scheme.pattern = .tiled) :
    o = .node k.root ∧ Dressed s.nodes.size u t := by
  obtain ⟨σ', hσ', hscheme, -⟩ := hS.specializer
  have hready : Ready (regionOf s (operandsOf leaf F)) s.nodes.size sp u :=
    ⟨hS.closed, hS.size_le, hS.size_le, σ', hσ', by rw [hscheme, hv], by
      rw [hscheme, Layout.Scheme.isContiguous, hp]
      rfl⟩
  obtain ⟨ho, -, hd, -⟩ := specializeWithin_dresses (Nat.le_refl _) (fun _ hf => hf) depth _ _ _ _ hready
    (Region.hasAll_node.2 hS.root) h
  exact ⟨ho, hd⟩

/-- A nest of tiles stands where the iteration was, and the visit of it has only dressed its loops. -/
theorem expand_spec (h : Runs (Layout.expand sp (Layout.specializeWithin sp depth) id (.node leaf)) s o t)
    (hk : TilesKernel s sp fid leaf x F σ) : ∃ (k : Tiles) (edge : Operand) (T D : List Int) (u : Session),
      o = .node k.root ∧
      k.Stand (regionOf s (operandsOf leaf F)) sp x F σ (.node leaf) edge T D s u ∧
      Dressed s.nodes.size u t ∧ (ascending 0 F.ndim).Perm (T ++ D) := by
  obtain ⟨shape, hK⟩ := hk.kernel
  have hbody := hk.plain.hasAll (o := .node leaf) (by simp [operandsOf])
  unfold Layout.expand at h
  rw [runs_bind] at h
  obtain ⟨_, _, hset, h⟩ := h
  obtain ⟨rfl, rfl⟩ := runs_settings.1 hset
  split at h
  · obtain ⟨htiled, k, edge, u, hrun, hS⟩ := tileAll_spec h hK hk.rank hbody
    obtain ⟨ho, hd⟩ := visit_tiles hrun hS hk.scalar (by simpa [Layout.Scheme.isTiled] using htiled)
    refine ⟨k, edge, [], _, u, ho, hS, hd, ?_⟩
    rw [← arrange_dims σ.scheme.order F.ndim, List.nil_append]
    exact arrange_perm _ _
  · rename_i hall
    have hpattern := hk.scheme.resolve_left hall
    rw [runs_bind] at h
    obtain ⟨_, _, hspec, h⟩ := h
    obtain ⟨hσ, rfl⟩ := runs_specializer.1 hspec
    rw [hk.specializer] at hσ
    cases hσ
    rw [hpattern] at h
    simp only [runs_bind] at h
    obtain ⟨_, _, hcur, _, _, hfun, h⟩ := h
    obtain ⟨rfl, rfl⟩ := runs_currentFunction hk.specializer hk.at_work hcur
    obtain ⟨_, hid, hF, rfl⟩ := runs_functionOf.1 hfun
    cases hid
    rw [hk.function] at hF
    cases hF
    split at h
    · simp [runs_throw] at h
    · rename_i hrank
      obtain ⟨k, edge, u, hrun, hS⟩ := tileTwo_spec h hK (Nat.not_lt.1 hrank) hbody
      obtain ⟨ho, hd⟩ := visit_tiles hrun hS hk.scalar hpattern
      exact ⟨k, edge, _, _, u, ho, hS, hd, tiled_perm _ (Nat.not_lt.1 hrank)⟩

/-- Tiling neither drops nor repeats an element: the loops that replace an iteration over a shape end, and
run its body once for each tuple of indices below the extents, in sequential and in parallel builds. The
tuple is read off the indices of the specializer. -/
theorem tiling_covers_shape {n : Int}
    (h : Runs (Layout.expand sp (Layout.specializeWithin sp depth) id (.node leaf)) s o t)
    (hk : TilesKernel s sp fid leaf x F σ) (hn : edgeLength s.settings inputs = some n) (hpos : 1 ≤ n) :
    ∃ (σ' : Specializer) (indices : List NodeId), t.specializers[sp]? = some σ' ∧ σ'.indices = some (indices.map .node) ∧
      ∀ parallel τ, (∃ es τ', Exec ⟨t, inputs, parallel, leaf⟩ [.run o] τ es .done τ') ∧
        ∀ es τ', Exec ⟨t, inputs, parallel, leaf⟩ [.run o] τ es .done τ' →
          (es.map fun τ => indices.map τ).Perm (tuples ((ascending 0 F.ndim).map (inputs.item x))) := by
  obtain ⟨k, edge, T, D, u, rfl, hS, hd, hperm⟩ := expand_spec h hk
  obtain ⟨σ', hσ', -, -, hindices⟩ := hS.specializer
  have hnd := ascending_nodup 0 F.ndim
  refine ⟨σ', (ascending 0 F.ndim).map (indexOf k D), by rw [hd.specializers, hσ'], ?_, fun parallel τ => ?_⟩
  · rw [hindices, List.map_map]
    rfl
  have hbase : ∀ a, Below s (operandsOf leaf F) a →
      ∃ f, s.form? a = some f ∧ (∀ k, f ≠ .function k) ∧ ∀ c ∈ f.ids, Below s (operandsOf leaf F) c := by
    intro a ha
    obtain ⟨f, hf, hfun, -⟩ := hk.plain a ha
    exact ⟨f, hf, hfun, fun c hc => below_operand ha ⟨f, hf, hc⟩⟩
  have hold : ∀ {a}, Below s (operandsOf leaf F) a → a.index < s.nodes.size := fun ha => by
    obtain ⟨f, hf, -⟩ := hk.plain _ ha
    exact form?_lt hf
  have hleaf : Below s (operandsOf leaf F) leaf :=
    below_of_mem (o := .node leaf) (by simp [operandsOf]) (List.mem_singleton.2 rfl)
  have hcounts := hd.steady.tileCounts hS.counts
  have hedge : IsEdge s.settings t edge := hd.steady.isEdge hS.edge_is
  -- The loops count with new temporaries, and the body assigns to none of these.
  have hseen : ∀ {τ τ'}, AgreeOff (fun y => y.index < s.nodes.size) τ τ' →
      indicesOf k D (ascending 0 F.ndim) τ' = indicesOf k D (ascending 0 F.ndim) τ := by
    intro τ τ' hoff
    refine List.map_congr_left fun d hmem => hoff _ (Nat.not_lt.2 ?_)
    unfold indexOf
    split
    · rename_i hD
      exact (hcounts.inner d hD).stored.new.2.1
    · rename_i hD
      exact (hcounts.outer d ((List.mem_append.1 (hperm.mem_iff.1 hmem)).resolve_right hD)).stored.new.2.1
  obtain ⟨W, hp⟩ := performs_tiles (m := ⟨t, inputs, parallel, leaf⟩) (hold hleaf) hcounts (hd.hangs hS.hangs)
    hS.apart (arrange_perm σ.scheme.order D) (fun τ => value_edge hedge hn) (Int.lt_of_lt_of_le Int.one_pos hpos)
    (by obtain ⟨_, rfl, -⟩ := hedge; rfl) (fun y hy => hold (assigns_inside hbase hS.keeps hd hleaf hy)) hseen
  refine ⟨hp.ends τ, fun es τ' hrun => ?_⟩
  have hrecords := hp.records hrun
  simp only [List.map_map]
  rw [show (es.map fun τ => (ascending 0 F.ndim).map (τ ∘ indexOf k D)) = _ from hrecords]
  exact tiledRecords_perm hS.apart (arrange_perm σ.scheme.order D) hperm hnd
    (Int.lt_of_lt_of_le Int.one_pos hpos)

end Tiled

/-! ## A small kernel -/

theorem mem_of_below {S : List NodeId} {id : NodeId} (ho : ∀ o ∈ os, ∀ r ∈ o.ids, r ∈ S)
    (hS : ∀ a ∈ S, ∀ f, s.form? a = some f → ∀ c ∈ f.ids, c ∈ S) (h : Below s os id) : id ∈ S := by
  obtain ⟨o, hmem, r, hr, hpath⟩ := h
  induction hpath with
  | refl => exact ho o hmem r hr
  | tail _ hop ih =>
    obtain ⟨f, hf, hc⟩ := hop
    exact hS _ ih f hf _ hc

theorem plain_of_closed (S : List NodeId) (ho : ∀ o ∈ os, ∀ r ∈ o.ids, r ∈ S)
    (hS : ∀ a ∈ S, ∃ f, s.form? a = some f ∧ ((∀ k, f ≠ .function k) ∧ ∀ b, f ≠ .iterate b) ∧
      ∀ c ∈ f.ids, c ∈ S) : Plain s os := by
  intro id hid
  have hmem : id ∈ S := mem_of_below ho (fun a ha f hf => by
    obtain ⟨f', hf', -, hids⟩ := hS a ha
    cases hf.symm.trans hf'
    exact hids) hid
  obtain ⟨f, hf, hforms, -⟩ := hS id hmem
  exact ⟨f, hf, hforms⟩

def smallFunction : Function where
  name := .null
  body := .absent
  arguments := .absent
  scalarArguments := .absent
  arrays := []
  byName := []
  shape := .node ⟨1⟩
  posinfo := .absent
  errorValue := .absent
  successValue := .absent
  ompSize := .node ⟨2⟩
  ndim := 2
  totalShape := some (.node ⟨2⟩)

def smallSpecializer : Specializer where
  scheme := { pattern := .tiled, order := .columnMajor }
  name := "tiled"
  builder := 0
  function := some ⟨0⟩

/-- Tiles of two by two items, in both dimensions or in all of them. -/
def smallKernel (all : Bool) : Session where
  nodes := #[⟨.function smallFunction, none, .unknown, {}⟩,
    ⟨.var { role := .plain, name := .datum (.text "shape") }, some (.pointer CType.signedSize []), .unknown, {}⟩,
    ⟨.constant (.int 1024), some CType.long, .unknown, {}⟩,
    ⟨.sequence (.group []), none, .unknown, {}⟩]
  settings := { tileAllDimensions := all, blocksize := some (.int 2) }
  specializers := #[smallSpecializer]

theorem smallKernel_tiles (all : Bool) :
    TilesKernel (smallKernel all) 0 ⟨0⟩ ⟨3⟩ (.datum (.text "shape")) smallFunction smallSpecializer where
  specializer := rfl
  scheme := .inr rfl
  scalar := rfl
  at_work := rfl
  function := rfl
  shape := ⟨⟨1⟩, ⟨_, rfl, rfl⟩, ⟨_, rfl, rfl, rfl⟩, _, _, rfl, rfl, rfl⟩
  rank := by decide
  plain := by
    refine plain_of_closed [⟨1⟩, ⟨2⟩, ⟨3⟩] (by simp [operandsOf, smallFunction, Operand.ids]) ?_
    simp only [List.mem_cons, List.not_mem_nil, or_false, forall_eq_or_imp, forall_eq]
    exact ⟨⟨_, rfl, by simp [smallKernel], by decide +revert⟩, ⟨_, rfl, by simp [smallKernel], by decide +revert⟩,
      ⟨_, rfl, by simp [smallKernel], by decide +revert⟩⟩

def CoversThreeByFour (all : Bool) : Prop := ∃ o t,
  Runs (Layout.expand 0 (Layout.specializeWithin 0 20) ⟨3⟩ (.node ⟨3⟩)) (smallKernel all) o t ∧
  ∃ (σ : Specializer) (indices : List NodeId), t.specializers[0]? = some σ ∧ σ.indices = some (indices.map .node) ∧
    ∀ parallel τ, (∃ es τ', Exec ⟨t, ⟨fun _ => 0, fun _ d => d + 3, fun _ => 8⟩, parallel, ⟨3⟩⟩ [.run o] τ es .done τ') ∧
      ∀ es τ', Exec ⟨t, ⟨fun _ => 0, fun _ d => d + 3, fun _ => 8⟩, parallel, ⟨3⟩⟩ [.run o] τ es .done τ' →
        (es.map fun τ => indices.map τ).Perm [[0, 0], [0, 1], [0, 2], [0, 3], [1, 0], [1, 1], [1, 2], [1, 3],
          [2, 0], [2, 1], [2, 2], [2, 3]]

/-- The body of the small kernel runs twelve times if the shape is three by four, which takes four tiles; two of them
are cut off. -/
theorem tiling_covers_three_by_four : CoversThreeByFour false ∧ CoversThreeByFour true := by
  constructor
  · obtain ⟨o, t, h⟩ := exists_runs (a := Layout.expand 0 (Layout.specializeWithin 0 20) ⟨3⟩ (.node ⟨3⟩))
      (s := smallKernel false) (by decide +kernel)
    exact ⟨o, t, h, tiling_covers_shape h (smallKernel_tiles false) rfl (by decide)⟩
  · obtain ⟨o, t, h⟩ := exists_runs (a := Layout.expand 0 (Layout.specializeWithin 0 20) ⟨3⟩ (.node ⟨3⟩))
      (s := smallKernel true) (by decide +kernel)
    exact ⟨o, t, h, tiling_covers_shape h (smallKernel_tiles true) rfl (by decide)⟩

end ArrayKernel.Running
