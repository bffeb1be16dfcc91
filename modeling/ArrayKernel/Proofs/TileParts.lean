import ArrayKernel.Proofs.Shape

/-!
# The edges and ends of tiles

A tile is as long as the client says, or 64 items, but does not go beyond the shape: where it ends is
computed into a temporary at the start of the tile, for each dimension.
-/

namespace ArrayKernel.Ast

open Running

variable {s s₀ t u : Session} {o edge : Operand} {id fid shape tile ix : NodeId} {g : Region}
variable {first sp : Nat} {x : Name} {d : Int}
variable {l : Limit} {items : List Operand} {statement : Operand} {st : Settings}

/-! ## The edge of a tile -/

/-- An operand is the edge of a tile: the name or the number the client has set, or 64. -/
def IsEdge (st : Settings) (s : Session) (o : Operand) : Prop :=
  ∃ id, o = .node id ∧
    match st.blocksize with
    | some (.text name) => IsPassed s id (.datum (.text name))
    | some n => s.form? id = some (.constant n)
    | none => s.form? id = some (.constant (.int 64))

theorem Steady.isEdge (h : Steady s t) (he : IsEdge st s o) : IsEdge st t o := by
  obtain ⟨id, rfl, he⟩ := he
  refine ⟨id, rfl, ?_⟩
  split at he
  · exact h.passed he
  · exact h.form? he rfl
  · exact h.form? he rfl

theorem blocksize_spec (h : Runs (Layout.blocksize sp) s o t) (hg : g.start ≤ s.nodes.size) :
    Grows g s t ∧ g.HasAll t o ∧ IsEdge s.settings t o := by
  simp only [Layout.blocksize, runs_bind, runs_settings] at h
  obtain ⟨_, s, ⟨rfl, rfl⟩, h⟩ := h
  have hconstant : ∀ {v : Datum}, Runs (Build.constant v) s o t →
      Grows g s t ∧ g.HasAll t o ∧ ∃ id, o = .node id ∧ t.form? id = some (.constant v) := by
    intro v hv
    obtain ⟨hgr, _, hm⟩ := constant_spec hv
    have hm' := hm.hasAll hg
    obtain ⟨id, rfl, -, hf, -⟩ := hm
    exact ⟨hgr, hm', id, rfl, hf⟩
  unfold IsEdge
  generalize s.settings.blocksize = size at h ⊢
  cases size with
  | none =>
    simp only [runs_bind, runs_specializer] at h
    obtain ⟨_, _, ⟨-, rfl⟩, h⟩ := h
    split at h
    · exact hconstant h
    · simp [runs_throw] at h
  | some size =>
    cases size with
    | text name =>
      obtain ⟨hgr, hm⟩ := create_spec h (g.passive _ rfl) (by simp [Form.ids, Form.children])
      have hm' := hm.hasAll hg
      obtain ⟨id, rfl, -, hf, -⟩ := hm
      exact ⟨hgr, hm', id, rfl, _, hf, rfl, rfl⟩
    | _ => exact hconstant h

def edgeLength (st : Settings) (i : Inputs) : Option Int :=
  match st.blocksize with
  | some (.text name) => some (i.value (.datum (.text name)))
  | some (.int n) => some n
  | some _ => none
  | none => some 64

theorem value_edge {m : Machine} {τ : Temporaries} {n : Int}
    (h : IsEdge st m.store o) (hn : edgeLength st m.inputs = some n) : HasValue m τ o n := by
  obtain ⟨id, rfl, h⟩ := h
  unfold edgeLength at hn
  generalize st.blocksize = size at h hn
  cases size with
  | none =>
    cases hn
    exact .constant h
  | some size =>
    cases size with
    | text name =>
      obtain ⟨v, hf, hr, hx⟩ := h
      cases hn
      rw [← hx]
      exact .passed hf hr
    | int k =>
      cases hn
      exact .constant h
    | _ => cases hn

/-- The end of a tile in one dimension: a temporary, and the parts of the statement that sets it to the
smaller one of the tile's stop and the extent. -/
structure Limit where
  temp : NodeId
  statement : NodeId
  assignment : NodeId
  least : NodeId
  test : NodeId
  stop : Operand
  extent : Operand
  deriving Inhabited

structure Limit.In (l : Limit) (first : Nat) (s : Session) (x : Name) (edge : Operand) (d : Int)
    (ix : NodeId) : Prop where
  new : first ≤ l.temp.index ∧ first ≤ l.statement.index ∧ first ≤ l.assignment.index
  temp_form : ∃ v shown, s.form? l.temp = some (.var v) ∧ v.role = .temporary shown
  temp_type : ∃ ty, s.type? l.temp = some ty ∧ ty.isPointer = false
  statement_form : s.form? l.statement = some (.statement (.node l.assignment))
  assignment_form : ∃ d, s.form? l.assignment = some (.assign (.node l.temp) (.node l.least) d)
  least_form : s.form? l.least = some (.conditional (.node l.test) l.stop l.extent)
  test_form : s.form? l.test = some (.binop "<" l.stop l.extent)
  stop_sum : IsSum s "+" (.node ix) edge l.stop
  extent_is : IsExtent x d s l.extent

theorem Limit.In.earlier {first' : Nat} (h : l.In first s x edge d ix)
    (hle : first' ≤ first) : l.In first' s x edge d ix :=
  { h with new := by have := h.new; omega }

theorem Limit.In.temp_lt (h : l.In first s x edge d ix) : l.temp.index < s.nodes.size := by
  obtain ⟨v, shown, hf, -⟩ := h.temp_form
  exact form?_lt hf

theorem Steady.limit (h : Steady s t) (hl : l.In first s x edge d ix) : l.In first t x edge d ix where
  new := hl.new
  temp_form := by
    obtain ⟨v, shown, hf, hr⟩ := hl.temp_form
    exact ⟨v, shown, h.form? hf rfl, hr⟩
  temp_type := h.scalar hl.temp_type
  statement_form := h.form? hl.statement_form rfl
  assignment_form := by
    obtain ⟨d, hf⟩ := hl.assignment_form
    exact ⟨d, h.form? hf rfl⟩
  least_form := h.form? hl.least_form rfl
  test_form := h.form? hl.test_form rfl
  stop_sum := h.sum hl.stop_sum
  extent_is := h.extent hl.extent_is

theorem min_spec {l r : Operand} (h : Runs (Build.min l r) s o t) (hg : g.start ≤ s.nodes.size)
    (hl : g.HasAll s l) (hr : g.HasAll s r) :
    Grows g s t ∧ ∃ id test, o = .node id ∧ g.Has t id ∧ t.form? id = some (.conditional (.node test) l r) ∧
      t.form? test = some (.binop "<" l r) := by
  simp only [Build.min, Build.conditional, runs_bind] at h
  obtain ⟨_, _, h1, test, s1, h2, _, _, h3, h⟩ := h
  obtain rfl := joinTypes_spec h1
  obtain rfl := joinTypes_spec h3
  obtain ⟨g1, hm1⟩ := binop_spec h2 hl hr
  have htest := hm1.hasAll hg
  obtain ⟨tid, rfl, -, htf, -⟩ := hm1
  obtain ⟨g2, hm2⟩ := create_spec h (g.passive _ rfl) (by
    intro c hc
    simp only [Form.ids, Form.children, List.flatMap_cons, List.flatMap_nil, List.append_nil,
      List.mem_append] at hc
    rcases hc with hc | hc | hc
    · exact htest c hc
    · exact hl.mono g1.size_le c hc
    · exact hr.mono g1.size_le c hc)
  have hid := hm2.hasAll (Nat.le_trans hg g1.size_le)
  obtain ⟨id, rfl, -, hf, -⟩ := hm2
  exact ⟨g1.trans g2, id, tid, rfl, Region.hasAll_node.1 hid, hf, g2.form? htf⟩

theorem runs_appendTo {r : Unit} (h : Runs (appendTo (.node tile) statement) s r t)
    (hf : s.form? tile = some (.sequence (.group items))) :
    t = s.alter tile (Node.reform fun _ => .sequence (.group (items ++ [statement]))) := by
  simp only [appendTo, runs_bind, runs_identity, runs_node] at h
  obtain ⟨_, _, ⟨hid, rfl⟩, n, _, ⟨hn, rfl⟩, h⟩ := h
  cases hid
  rw [form_of_node? hn hf] at h
  exact runs_updateForm.1 h

structure Refills (tile : NodeId) (s t : Session) : Prop where
  keeps : Keeps (· = tile) s t
  form? : ∀ {id f}, id ≠ tile → s.form? id = some f → t.form? id = some f
  size_le : s.nodes.size ≤ t.nodes.size
  specializers : t.specializers = s.specializers

theorem Refills.trans (h : Refills tile s t) (h' : Refills tile t u) : Refills tile s u :=
  ⟨h.keeps.trans h'.keeps, fun hne hf => h'.form? hne (h.form? hne hf), Nat.le_trans h.size_le h'.size_le,
    h'.specializers.trans h.specializers⟩

theorem Grows.refills (h : Grows g s t) : Refills tile s t :=
  ⟨h.keeps.weaken, fun _ hf => h.form? hf, h.size_le, h.specializers⟩

/-- A session that extends another one, with a tile of these statements that the other does not have. -/
structure HasTile (g : Region) (s₀ : Session) (tile : NodeId) (items : List Operand) (s : Session) : Prop where
  grown : Extends g s₀ s
  new : s₀.nodes.size ≤ tile.index
  form : s.form? tile = some (.sequence (.group items))

theorem HasTile.grows (h : HasTile g s₀ tile items s) (hg : Grows g s t) : HasTile g s₀ tile items t :=
  ⟨h.grown.grows hg, h.new, hg.form? h.form⟩

theorem HasTile.refill {items' : List Operand} (h : HasTile g s₀ tile items s) (hi : ∀ o ∈ items', g.HasAll s o) :
    let t := s.alter tile (Node.reform fun _ => .sequence (.group items'))
    HasTile g s₀ tile items' t ∧ Refills tile s t := by
  refine ⟨⟨h.grown.alter_new h.new fun n _ => ?_, h.new, ?_⟩, ⟨fun {j f} hj => ?_, fun ht => ?_⟩, fun hne hj => ?_,
    by simp, rfl⟩
  · exact ⟨g.passive _ rfl, ids_single (Region.hasAll_group hi) rfl⟩
  · rw [form?_reform, if_pos rfl, h.form]
    rfl
  · rw [form?_reform]
    split
    · subst j
      rw [h.form] at hj ⊢
      cases hj
      exact ⟨_, rfl, _, rfl, fun h => absurd rfl h⟩
    · exact ⟨f, hj, .refl _ _⟩
  · rwa [type?_reform]
  · rwa [form?_reform, if_neg hne]

theorem HasTile.hasAll (h : HasTile g s₀ tile items s) : ∀ o ∈ items, g.HasAll s o := by
  intro o ho c hc
  refine (Grows.new h.grown h.new h.form).2 c ?_
  simp only [Form.ids, Form.children, List.flatMap_cons, List.flatMap_nil, List.append_nil, Operand.ids]
  exact mem_idsAll.2 ⟨o, ho, hc⟩

theorem appendTo_spec {r : Unit}
    (h : Runs (appendTo (.node tile) statement) s r t) (ht : HasTile g s₀ tile items s) (hs : g.HasAll s statement) :
    HasTile g s₀ tile (items ++ [statement]) t ∧ Refills tile s t := by
  obtain rfl := runs_appendTo h ht.form
  refine ht.refill fun o ho => ?_
  rcases List.mem_append.1 ho with ho | ho
  · exact ht.hasAll o ho
  · rw [List.mem_singleton.1 ho]
    exact hs

theorem tileLimit_spec (h : Runs (Layout.tileLimit (.node fid) (.node tile) edge d (.node ix)) s o t)
    (ht : HasTile g s₀ tile items s) (hs : Site g fid shape x s₀) (hix : g.Has s ix)
    (hty : ∃ ty, s.type? ix = some ty ∧ ty.isPointer = false) (hedge : g.HasAll s edge) :
    ∃ l : Limit, o = .node l.temp ∧ HasTile g s₀ tile (items ++ [.node l.statement]) t ∧ Refills tile s t ∧
      l.In s.nodes.size t x edge d ix := by
  have hsite := ht.grown.site hs
  simp only [Layout.tileLimit, runs_bind, runs_typeOf, runs_pure] at h
  obtain ⟨ty, s, ⟨_, hid, hixty, rfl⟩, limit, s1, h1, stop, s2, h2, ext, s3, h3, least, s4, h4, st, s5, h5,
    _, s6, h6, rfl, rfl⟩ := h
  cases hid
  obtain ⟨ty', hty', hpointer⟩ := hty
  rw [hixty] at hty'
  cases hty'
  obtain ⟨g1, v, shown, hm1, hrole⟩ := temporary_spec h1
  have hlimit := hm1.hasAll hsite.start_le
  obtain ⟨lid, rfl, hlid, hlf, hlt⟩ := hm1
  obtain ⟨g2, hstop, hsum⟩ := add_spec h2 (Nat.le_trans hsite.start_le g1.size_le)
    (Region.hasAll_node.2 (hix.mono g1.size_le)) (hedge.mono g1.size_le)
  have g12 := g1.trans g2
  have hsite2 := (ht.grown.grows g12).site hs
  obtain ⟨g3, hext, hextent⟩ := shapeIndex_spec h3 hsite2.shaped.1 hsite2.start_le hsite2.shaped.2
  have g13 := g12.trans g3
  obtain ⟨g4, mid, tid, rfl, hmin, hmf, htf⟩ := min_spec h4 (Nat.le_trans hsite.start_le g13.size_le)
    (hstop.mono g3.size_le) hext
  have g14 := g13.trans g4
  have g24 := (g2.trans g3).trans g4
  obtain ⟨g5, hst, sid, aid, rfl, hsid, haid, hsf, haf⟩ := assign_spec h5
    (Nat.le_trans hsite.start_le g14.size_le) (hsite.assigns _ _ _ hlid) (hlimit.mono g24.size_le) hmin
  have g15 := g14.trans g5
  have g25 := g24.trans g5
  obtain ⟨ht6, hr6⟩ := appendTo_spec h6 (ht.grows g15) hst
  have hlim : Limit.In ⟨lid, sid, aid, mid, tid, stop, ext⟩ s.nodes.size s5 x edge d ix := {
    new := ⟨hlid, Nat.le_trans g14.size_le hsid, Nat.le_trans g14.size_le haid⟩
    temp_form := ⟨v, shown, g25.form? hlf, hrole⟩
    temp_type := ⟨_, g25.type? hlt, hpointer⟩
    statement_form := hsf
    assignment_form := ⟨_, haf⟩
    least_form := g5.form? hmf
    test_form := g5.form? htf
    stop_sum := ((g3.trans g4).trans g5).steady.sum hsum
    extent_is := (g4.trans g5).steady.extent hextent }
  exact ⟨_, rfl, ht6, g15.refills.trans hr6, hr6.keeps.steady.limit hlim⟩

theorem limits_spec {α β : Type} {xs : List α} {k : α → Action β} {dim : α → Int} {ix : α → NodeId}
    {pack : α → Operand → β} {rs : List β}
    (hk : ∀ a ∈ xs, ∀ s r t, Runs (k a) s r t → ∃ o, r = pack a o ∧
      Runs (Layout.tileLimit (.node fid) (.node tile) edge (dim a) (.node (ix a))) s o t)
    (h : Runs (xs.mapM k) s rs t) (ht : HasTile g s₀ tile items s) (hs : Site g fid shape x s₀)
    (hix : ∀ a ∈ xs, g.Has s (ix a))
    (hty : ∀ a ∈ xs, ∃ ty, s.type? (ix a) = some ty ∧ ty.isPointer = false) (hedge : g.HasAll s edge) :
    ∃ ls : List Limit, HasTile g s₀ tile (items ++ ls.map (.node ·.statement)) t ∧ Refills tile s t ∧
      rs = List.zipWith (fun a l => pack a (.node l.temp)) xs ls ∧
      List.Forall₂ (fun a l => l.In s.nodes.size t x edge (dim a) (ix a)) xs ls ∧
      ls.Pairwise fun l l' => l.temp.index < l'.temp.index := by
  induction xs generalizing s rs items with
  | nil =>
    obtain ⟨rfl, rfl⟩ := runs_mapM_nil.1 h
    exact ⟨[], by simpa using ht, (Grows.refl : Grows g _ _).refills, rfl, .nil, .nil⟩
  | cons a xs ih =>
    obtain ⟨r, s1, rs, hr, hrs, rfl⟩ := runs_mapM_cons.1 h
    obtain ⟨o, rfl, ho⟩ := hk a (by simp) _ _ _ hr
    obtain ⟨l, rfl, ht1, hr1, hl⟩ := tileLimit_spec ho ht hs (hix a (by simp)) (hty a (by simp)) hedge
    obtain ⟨ls, ht2, hr2, rfl, hls, hpair⟩ := ih (fun b hb => hk b (by simp [hb])) hrs ht1
      (fun b hb => (hix b (by simp [hb])).mono hr1.size_le)
      (fun b hb => hr1.keeps.steady.scalar (hty b (by simp [hb]))) (hedge.mono hr1.size_le)
    refine ⟨l :: ls, by simpa using ht2, hr1.trans hr2, rfl, ?_, ?_⟩
    · exact .cons (hr2.keeps.steady.limit hl) (hls.imp fun _ _ h => h.earlier hr1.size_le)
    · refine List.pairwise_cons.2 ⟨fun l' hl' => ?_, hpair⟩
      obtain ⟨_, -, hb⟩ := forall₂_exists hls hl'
      exact Nat.lt_of_lt_of_le hl.temp_lt hb.new.1

end ArrayKernel.Ast
