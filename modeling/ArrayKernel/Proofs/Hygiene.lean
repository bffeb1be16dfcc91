import ArrayKernel.Proofs.Scripts
import ArrayKernel.Proofs.Upkeep

/-!
# Hygiene of identifiers

In the code of a well-named kernel different things have different identifiers.
-/

namespace ArrayKernel.Naming

open Ast Stateful Build Emit

variable {own : String → Prop}
variable {n count : Nat} {id k : NodeId} {w : Variable} {word : String} {e : Emitter}
variable {x b : String} {s : Session} {v : Variable} {f : Form} {i : NodeId} {y : String}

/-! ## Names of temporaries -/

inductive Given (own : String → Prop) (count : Nat) : String → Prop where
  | number {b : String} {n : Nat} (hb : Stem own b) : Given own count (mangle (b ++ toString n))
  | fallback {b : String} {n : Nat} (hb : Stem own b) (hn : n < count) :
    Given own count (mangle (b ++ "_" ++ toString n))

theorem Given.mono {m : Nat} (h : Given own m x) (hmn : m ≤ n) : Given own n x := by
  cases h with
  | number hb => exact .number hb
  | fallback hb hn => exact .fallback hb (by omega)

theorem isStem_underscore (b : String) : IsStem (b ++ "_") := IsStem.append b (by decide) nofun

theorem isStem_mangle (h : IsStem b) : IsStem (mangle b) := IsStem.append _ h fun _ => by decide

theorem fallback_not_given (hown : Apart own) (b : String) (count : Nat) :
    ¬ Given own count (mangle (b ++ "_" ++ toString count)) := by
  intro h
  generalize hx : mangle (b ++ "_" ++ toString count) = x at h
  cases h with
  | @number c n hc =>
    obtain ⟨hbc, -⟩ := (isStem_underscore b).number_inj (hc.isStem hown) (mangle_inj.1 hx)
    exact hc.last hown (by rw [← hbc]; simp)
  | @fallback c n hc hn =>
    obtain ⟨-, hcount⟩ := (isStem_underscore b).number_inj (isStem_underscore c) (mangle_inj.1 hx)
    omega

theorem distinctName_given (hown : Apart own) {names : List String}
    (hb : Stem own b) (hnames : ∀ x ∈ names, Given own count x) :
    distinctName (mangle (b ++ toString n)) names count ∉ names ∧
      Given own (count + 1) (distinctName (mangle (b ++ toString n)) names count) := by
  have hfallback : withoutDigits (mangle (b ++ toString n)) ++ "_" ++ toString count
      = mangle (b ++ "_" ++ toString count) := by
    have hstem : withoutDigits (mangle (b ++ toString n)) = mangle b := by
      rw [mangle, ← String.append_assoc, withoutDigits_append]
      exact isStem_mangle (hb.isStem hown)
    rw [hstem]
    simp [mangle, String.append_assoc]
  unfold distinctName
  split
  · rw [hfallback]
    exact ⟨fun hmem => fallback_not_given hown b count (hnames _ hmem), .fallback hb (by omega)⟩
  · rename_i hnew
    exact ⟨by simpa using hnew, .number hb⟩

/-! ## Well-named pages -/

def Bears (s : Session) (id : NodeId) (x : String) : Prop :=
  ∃ v shown, s.form? id = some (.var v) ∧ v.role = .temporary shown ∧ v.name = .ofString x

/-- A page is well named: so is its session, and the temporaries declared on it have different names. -/
structure Lettered (own : String → Prop) (p : Page) : Prop where
  named : Named own p.1
  given : ∀ x ∈ p.2.names, Given own p.2.declared.length x
  nodup : p.2.names.Nodup
  bears : List.Forall₂ (Bears p.1) p.2.declared p.2.names.reverse

theorem Lettered.start (h : Named own s) : Lettered own (s, Emitter.start) where
  named := h
  given := nofun
  nodup := .nil
  bears := .nil

variable {p q : Page}

theorem Lettered.reform (h : Lettered own p) {g : Node → Node}
    (hg : ∀ n, p.1.node? id = some n → Refits own n.form (g n).form)
    (htemp : ∀ n v shown, p.1.node? id = some n → n.form = .var v → v.role = .temporary shown →
      (g n).form = n.form) : Lettered own (p.1.alter id g, p.2) where
  named := h.named.alter hg
  given := h.given
  nodup := h.nodup
  bears := by
    refine h.bears.imp ?_
    rintro j x ⟨v, shown, hv, hrole, hx⟩
    refine ⟨v, shown, ?_, hrole, hx⟩
    obtain ⟨n, hn, hform⟩ := node?_of_form? hv
    rw [form?_alter_of]
    split
    · rename_i hj
      subst hj
      rw [hn, ← hform]
      exact congrArg some (htemp n v shown hn hform hrole)
    · exact hv

theorem Lettered.of_eq (h : Lettered own p) (hs : q.1 = p.1) (hd : q.2.declared = p.2.declared)
    (hn : q.2.names = p.2.names) : Lettered own q := by
  obtain ⟨s, e⟩ := q
  subst hs
  refine ⟨h.named, ?_, ?_, ?_⟩
  · rw [hn, hd]
    exact h.given
  · rw [hn]
    exact h.nodup
  · rw [hn, hd]
    exact h.bears

theorem Lettered.name (hown : Apart own) (h : Lettered own p) {shown : String}
    (hv : p.1.form? id = some (.var v)) (hrole : v.role = .temporary shown) (hid : id ∉ p.2.declared) :
    Lettered own (p.name id shown) := by
  have hsuits := h.named.all id v hv
  rw [WellNamed, hrole] at hsuits
  obtain ⟨b, n, hb, rfl⟩ := hsuits
  obtain ⟨hnew, hgiven⟩ := distinctName_given hown hb h.given
  have hbears : Bears (p.name id (b ++ toString n)).1 id (p.freshName (b ++ toString n)) :=
    ⟨{ v with name := .ofString (p.freshName (b ++ toString n)) }, _, form?_alter hv, hrole, rfl⟩
  have hothers : ∀ j x, j ∈ p.2.declared ∧ Bears p.1 j x → Bears (p.name id (b ++ toString n)).1 j x := by
    rintro j x ⟨hj, w, shown, hw, hx⟩
    refine ⟨w, shown, ?_, hx⟩
    show (p.1.alter id _).form? j = _
    have hne : j ≠ id := fun heq => hid (heq ▸ hj)
    rw [form?_alter_of, if_neg hne, hw]
  refine ⟨h.named.alter fun m hm => ?_, ?_, List.nodup_cons.2 ⟨hnew, h.nodup⟩, ?_⟩
  · have hform : m.form = .var v := form_of_node? hm hv
    intro w hw
    simp only [Node.reform, hform] at hw
    cases hw
    refine ⟨v, hform, fun hplain => ?_, fun s hs => ?_⟩
    · rw [show v.role = .plain from hplain] at hrole
      cases hrole
    · rw [WellNamed, hrole] at hs
      rw [WellNamed, show v.role = _ from hrole]
      exact hs
  · intro x hx
    show Given own (p.2.declared ++ [id]).length x
    rw [List.length_append]
    rcases List.mem_cons.1 hx with rfl | hx
    · exact hgiven
    · exact (h.given x hx).mono (by simp)
  · show List.Forall₂ _ (p.2.declared ++ [id]) (p.freshName _ :: p.2.names).reverse
    rw [List.reverse_cons]
    refine List.rel_append ?_ (.cons hbears .nil)
    exact ((List.forall₂_and_left _ _).2 ⟨fun _ hj => hj, h.bears⟩).imp hothers

/-! ## Writing -/

theorem Titles.refits {f' : Form} (h : Titles f f') : Refits own f f' := by
  cases h with
  | @plain v x hrole hnone hx =>
    intro w hw
    cases hw
    refine ⟨v, rfl, fun _ => ⟨hrole, rfl⟩, fun s hs => ?_⟩
    rw [WellNamed, hrole] at hs
    rw [WellNamed, show v.role = _ from hrole]
    obtain ⟨y, hy, hfree, -⟩ := hs
    refine ⟨y, hy, hfree, ?_⟩
    rintro z hz
    cases hz
    exact hx y hy
  | label | function hf =>
    intro w hw
    cases hw

theorem Lettered.does (hown : Apart own) (h : Lettered own p) {a : Act} (ha : Does a p q) : Lettered own q := by
  cases ha with
  | name hv hrole hid => exact h.name hown hv hrole hid
  | @title id f f' _ hf htitle =>
    have hform : ∀ n, p.1.node? id = some n → n.form = f :=
      fun n hn => form_of_node? hn hf
    refine h.reform (fun n hn => ?_) fun n v shown hn hv hrole => ?_
    · rw [hform n hn]
      exact Titles.refits htitle
    · rw [hform n hn] at hv
      cases htitle with
      | plain hplain =>
        cases hv
        cases hplain.symm.trans hrole
      | _ => cases hv
  | mark id => exact h.reform (fun n _ => refits_of_kept rfl) fun _ _ _ _ _ _ => rfl
  | dispose hd =>
    obtain ⟨xs, -, rfl⟩ := ends_disposeWithin.1 hd
    exact h.of_eq rfl rfl rfl
  | _ => exact h.of_eq rfl rfl rfl

theorem Lettered.performs (hown : Apart own) {visit : Operand → Emitting Rendered}
    (hv : ∀ {id p r q}, Ends (visit (.node id)) p r q → Lettered own p → Lettered own q) {as : List Act}
    (h : Performs (writing visit) as p q) (hp : Lettered own p) : Lettered own q := by
  induction h with
  | nil => exact hp
  | visit hvisit _ ih =>
    obtain ⟨r, hr⟩ := hvisit
    exact ih (hv hr hp)
  | block _ _ ihb ih =>
    exact ih ((ihb (hp.of_eq rfl rfl rfl)).of_eq rfl rfl rfl)
  | act ha _ ih => exact ih (hp.does hown ha)

theorem Lettered.emitWithin (hown : Apart own) {depth : Nat} {o : Operand} {r : Rendered}
    (h : Ends (emitWithin depth o) p r q) (hp : Lettered own p) : Lettered own q := by
  induction depth generalizing o p r q with
  | zero => exact (ends_throw.1 h).elim
  | succ d ih =>
    obtain ⟨d', id, f, as, hd, rfl, -, -, hperf, -⟩ := emitWithin_script h
    obtain rfl : d = d' := by omega
    exact Lettered.performs hown (fun hr hp => ih hr hp) hperf hp

/-! ## What identifiers stand for -/

/-- What is told apart in a function: its variables, which are its shape and its scalars among others, the
pointers of its arrays, and its temporaries. -/
inductive Entity where
  | value (name : String)
  | data (array : String)
  | strides (array : String)
  | temporary (id : NodeId)

/-- What a node stands for on a page. Variables are known by their names, and so are arrays; a function that is
called is no entity. -/
inductive Stands (p : Page) (i : NodeId) : Entity → Prop where
  | value {v : Variable} {x : String} {t : CType} (hv : p.1.form? i = some (.var v)) (hrole : v.role = .plain)
    (hname : v.name = .ofString x) (ht : p.1.type? i = some t) (hfun : t.isFunction = false) : Stands p i (.value x)
  | data {v w : Variable} {k : NodeId} {x : String} (hv : p.1.form? i = some (.var v))
    (hrole : v.role = .dataPointer (.node k)) (hw : p.1.form? k = some (.var w)) (hplain : w.role = .plain)
    (hname : w.name = .ofString x) : Stands p i (.data x)
  | strides {v w : Variable} {k : NodeId} {x : String} (hv : p.1.form? i = some (.var v))
    (hrole : v.role = .stridePointer (.node k)) (hw : p.1.form? k = some (.var w)) (hplain : w.role = .plain)
    (hname : w.name = .ofString x) : Stands p i (.strides x)
  | temporary {v : Variable} {shown : String} (hv : p.1.form? i = some (.var v))
    (hrole : v.role = .temporary shown) (hi : i ∈ p.2.declared) : Stands p i (.temporary i)

def Spelled (p : Page) (i : NodeId) (x : String) : Prop := ∃ q, Ends (emit (.node i)) p (.text x) q

inductive Identifier (own : String → Prop) (p : Page) : Entity → String → Prop where
  | value {x : String} (hx : Free own x) : Identifier own p (.value x) (mangle x)
  | data {x : String} (hx : Free own x) : Identifier own p (.data x) (x ++ "_data")
  | strides {x : String} (hx : Free own x) : Identifier own p (.strides x) (x ++ "_strides")
  | temporary {i : NodeId} {x : String} (hi : i ∈ p.2.declared) (hx : Bears p.1 i x) :
    Identifier own p (.temporary i) x

theorem Bears.unique (hx : Bears s i x) (hy : Bears s i y) : x = y := by
  obtain ⟨v, -, hv, -, hvx⟩ := hx
  obtain ⟨w, -, hw, -, hwy⟩ := hy
  rw [hv] at hw
  cases hw
  rw [hvx] at hwy
  cases hwy
  rfl

theorem Lettered.eq_of_bears (h : Lettered own p) {j : NodeId} (hi : i ∈ p.2.declared)
    (hj : j ∈ p.2.declared) (hix : Bears p.1 i x) (hjx : Bears p.1 j x) : i = j := by
  obtain ⟨hlength, hat⟩ := List.forall₂_iff_get.1 h.bears
  obtain ⟨m, rfl⟩ := List.mem_iff_get.1 hi
  obtain ⟨n, rfl⟩ := List.mem_iff_get.1 hj
  have hm := (hat m.1 m.2 (hlength ▸ m.2)).unique hix
  have hn := (hat n.1 n.2 (hlength ▸ n.2)).unique hjx
  have hmn := (List.nodup_reverse.2 h.nodup).get_inj_iff.1 (hm.trans hn.symm)
  have hval : m.1 = n.1 := by simpa using hmn
  exact congrArg p.2.declared.get (Fin.ext hval)

theorem Lettered.exists_bears (h : Lettered own p) (hi : i ∈ p.2.declared) : ∃ x, Bears p.1 i x := by
  obtain ⟨hlength, hat⟩ := List.forall₂_iff_get.1 h.bears
  obtain ⟨m, rfl⟩ := List.mem_iff_get.1 hi
  exact ⟨_, hat m.1 m.2 (hlength ▸ m.2)⟩

theorem Lettered.given_of_bears (h : Lettered own p) (hi : i ∈ p.2.declared)
    (hx : Bears p.1 i x) : Given own p.2.declared.length x := by
  obtain ⟨hlength, hat⟩ := List.forall₂_iff_get.1 h.bears
  obtain ⟨m, rfl⟩ := List.mem_iff_get.1 hi
  have hm := (hat m.1 m.2 (hlength ▸ m.2)).unique hx
  exact h.given x (List.mem_reverse.1 (hm ▸ List.get_mem _ _))

theorem Given.eq_mangle (h : Given own count x) : ∃ y, x = mangle y := by
  cases h <;> exact ⟨_, rfl⟩

theorem mangle_ne_data (hx : Free own x) : mangle y ≠ x ++ "_data" :=
  mangle_ne_pointer hx.reserved "data" (by decide)

theorem mangle_ne_strides (hx : Free own x) : mangle y ≠ x ++ "_strides" :=
  mangle_ne_pointer hx.reserved "strides" (by decide)

theorem data_ne_strides (x y : String) : x ++ "_data" ≠ y ++ "_strides" := by
  intro h
  have hlast := congrArg (fun z => z.toList.getLast?) h
  simp at hlast

theorem free_not_given (hx : Free own x) : ¬ Given own count (mangle x) := by
  intro h
  generalize hy : mangle x = y at h
  cases h with
  | number hb => exact hx.number _ _ hb (mangle_inj.1 hy)
  | fallback hb _ => exact hx.fallback _ _ hb (mangle_inj.1 hy)

theorem Identifier.unique (h : Lettered own p) {a b : Entity} (ha : Identifier own p a x)
    (hb : Identifier own p b x) : a = b := by
  generalize hxy : x = y at hb
  cases ha with
  | value hx =>
    cases hb with
    | value hy => rw [mangle_inj.1 hxy]
    | data hy => exact absurd hxy (mangle_ne_data hy)
    | strides hy => exact absurd hxy (mangle_ne_strides hy)
    | temporary hj hy => exact absurd (hxy ▸ h.given_of_bears hj hy) (free_not_given hx)
  | data hx =>
    cases hb with
    | value hy => exact absurd hxy.symm (mangle_ne_data hx)
    | data hy => rw [(String.append_left_inj _).1 hxy]
    | strides hy => exact absurd hxy (data_ne_strides _ _)
    | temporary hj hy =>
      obtain ⟨z, rfl⟩ := (h.given_of_bears hj hy).eq_mangle
      exact absurd hxy.symm (mangle_ne_data hx)
  | strides hx =>
    cases hb with
    | value hy => exact absurd hxy.symm (mangle_ne_strides hx)
    | data hy => exact absurd hxy.symm (data_ne_strides _ _)
    | strides hy => rw [(String.append_left_inj _).1 hxy]
    | temporary hj hy =>
      obtain ⟨z, rfl⟩ := (h.given_of_bears hj hy).eq_mangle
      exact absurd hxy.symm (mangle_ne_strides hx)
  | temporary hi hx =>
    have hgiven := h.given_of_bears hi hx
    cases hb with
    | value hy => exact absurd (hxy ▸ hgiven) (free_not_given hy)
    | data hy =>
      obtain ⟨z, rfl⟩ := hgiven.eq_mangle
      exact absurd hxy (mangle_ne_data hy)
    | strides hy =>
      obtain ⟨z, rfl⟩ := hgiven.eq_mangle
      exact absurd hxy (mangle_ne_strides hy)
    | temporary hj hy =>
      subst hxy
      rw [h.eq_of_bears hi hj hx hy]

theorem Named.free (h : Named own s)
    (hw : s.form? k = some (.var w)) (hrole : w.role = .plain) (hname : w.name = .ofString x) :
    Free own x ∧ ∀ y, w.emitted = some y → y = mangle x := by
  have hsuits := h.all k w hw
  rw [WellNamed, hrole] at hsuits
  obtain ⟨x', hx', hfree, hemitted⟩ := hsuits
  rw [hname] at hx'
  cases hx'
  exact ⟨hfree, hemitted⟩

variable {name : Name}

theorem Called.eq (h : Called s (.node k) word name) (hw : s.form? k = some (.var w)) (hrole : w.role = .plain)
    (hname : w.name = .ofString x) : name = .ofString (x ++ word) := by
  obtain ⟨k', f, hk, hf, hall⟩ := h
  cases hk
  exact hall w x (Option.some.inj (hf.symm.trans hw)) hrole hname

theorem emitVariable_text {t : CType}
    (h : Ends (emitVariable i v) (s, e) (.text x) q) (hname : v.name = .ofString y)
    (hemitted : ∀ z, v.emitted = some z → z = mangle y) (ht : s.type? i = some t) (hfun : t.isFunction = false) :
    x = mangle y := by
  simp only [emitVariable, ends_act_bind] at h
  obtain ⟨name, _, hshown, type, _, htype, hrest⟩ := h
  rw [hname] at hshown
  obtain ⟨rfl, rfl⟩ := runs_shownName.1 hshown
  obtain ⟨htype, rfl⟩ := runs_knownType htype
  rw [ht] at htype
  cases htype
  rw [if_neg (by simp [hfun])] at hrest
  split at hrest
  · rename_i z hz
    cases (ends_pure.1 hrest).1
    exact hemitted _ hz
  · simp only [ends_act_bind] at hrest
    obtain ⟨_, _, -, hlast⟩ := hrest
    cases (ends_pure.1 hlast).1
    rfl

theorem shown_text (h : Ends (do return .text (← shownName name) : Emitting Rendered) (s, e) (.text x) q)
    (hname : name = .ofString y) : x = y := by
  rw [ends_act_bind] at h
  obtain ⟨z, _, hz, hlast⟩ := h
  rw [hname] at hz
  obtain ⟨rfl, -⟩ := runs_shownName.1 hz
  cases (ends_pure.1 hlast).1
  rfl

theorem Stands.identifier (h : Lettered own p) {a : Entity} (ha : Stands p i a)
    (hx : Spelled p i x) : Identifier own p a x := by
  obtain ⟨q, hx⟩ := hx
  obtain ⟨s, e⟩ := p
  replace hx : Ends (emitNode (emitWithin 999) i) (s, e) (.text x) q := hx
  rw [emitNode, ends_act_bind] at hx
  obtain ⟨n, _, hn, hx⟩ := hx
  obtain ⟨hn, rfl⟩ := runs_node.1 hn
  have hform : ∀ {v}, Session.form? _ i = some (.var v) → n.form = .var v :=
    fun hv => form_of_node? hn hv
  cases ha with
  | value hv hrole hname ht hfun =>
    simp only [hform hv, hrole] at hx
    obtain ⟨hfree, hemitted⟩ := h.named.free hv hrole hname
    rw [emitVariable_text hx hname hemitted ht hfun]
    exact .value hfree
  | data hv hrole hw hplain hname =>
    simp only [hform hv, hrole] at hx
    have hcalled := h.named.all i _ hv
    rw [WellNamed, hrole] at hcalled
    rw [shown_text hx (Called.eq hcalled hw hplain hname)]
    exact .data (h.named.free hw hplain hname).1
  | strides hv hrole hw hplain hname =>
    simp only [hform hv, hrole] at hx
    have hcalled := h.named.all i _ hv
    rw [WellNamed, hrole] at hcalled
    rw [shown_text hx (Called.eq hcalled hw hplain hname)]
    exact .strides (h.named.free hw hplain hname).1
  | temporary hv hrole hi =>
    simp only [hform hv, hrole] at hx
    refine .temporary hi ?_
    obtain ⟨y, hy⟩ := h.exists_bears hi
    obtain ⟨v, shown, hv', -, hname⟩ := id hy
    rw [emitTemporary, ends_get_bind, if_neg (by simpa using hi)] at hx
    simp only [ends_act_bind, runs_nameOf_var hv'] at hx
    obtain ⟨_, _, ⟨rfl, rfl⟩, z, _, hz, hlast⟩ := hx
    rw [hname] at hz
    obtain ⟨rfl, -⟩ := runs_shownName.1 hz
    cases (ends_pure.1 hlast).1
    exact hy

/-- In the code of a well-named kernel different entities are written as different identifiers. -/
theorem identifiers_distinct {kernel o : Operand} {scheme : Layout.Scheme} {s t : Session} {r : Rendered}
    (hown : Apart own) (hs : Named own s) (hkernel : Runs (specializeKernel kernel scheme) s o t)
    (hcode : Ends (emit o) (t, Emitter.start) r q) {i j : NodeId} {a b : Entity} {x y : String} (hi : Stands q i a)
    (hj : Stands q j b) (hab : a ≠ b) (hx : Spelled q i x) (hy : Spelled q j y) : x ≠ y := by
  have hpage := Lettered.emitWithin hown hcode (.start (specializeKernel_kept (warns_naming own) (resolves_naming own) (fun _ => id) hkernel hs))
  rintro rfl
  exact hab (Identifier.unique hpage (hi.identifier hpage hx) (hj.identifier hpage hy))

/-! ### Two kernels -/

def ending {α : Type} (a : Action α) (s : Session) : Option (α × Session) :=
  match a.runOn s with
  | (.ok r, t) => some (r, t)
  | (.error _, _) => none

theorem runs_of_ending {α : Type} {a : Action α} {r : α × Session} (h : ending a s = some r) :
    Runs a s r.1 r.2 := by
  unfold ending at h
  split at h
  · rename_i hrun
    cases h
    exact hrun
  · cases h

def holdsOfCode (kernel : Action Operand) (test : Session → Page → Bool) : Bool :=
  (ending kernel {}).any fun k => (ending (specializeKernel k.1 ⟨.contiguous, .rowMajor, none⟩) k.2).any fun o =>
    (ending ((emit o.1).run Emitter.start) o.2).any fun e => test k.2 (e.2, e.1.2)

theorem exists_of_holdsOfCode {kernel : Action Operand} {test : Session → Page → Bool}
    (h : holdsOfCode kernel test = true) : ∃ k s o t r q, Runs kernel {} k s ∧
      Runs (specializeKernel k ⟨.contiguous, .rowMajor, none⟩) s o t ∧ Ends (emit o) (t, Emitter.start) r q ∧
      test s q = true := by
  obtain ⟨k, hk, h⟩ := (Option.any_eq_true _ _).1 h
  obtain ⟨o, ho, h⟩ := (Option.any_eq_true _ _).1 h
  obtain ⟨e, he, h⟩ := (Option.any_eq_true _ _).1 h
  exact ⟨k.1, k.2, o.1, o.2, e.1.1, (e.2, e.1.2), runs_of_ending hk, runs_of_ending ho, runs_of_ending he, h⟩

def textOf? : Rendered → Option String
  | .text s => some s
  | _ => none

def spelling? (p : Page) (i : NodeId) : Option String :=
  (ending ((emit (.node i)).run p.2) p.1).bind fun r => textOf? r.1.1

theorem spelled_of_spelling? (h : spelling? p i = some x) : Spelled p i x := by
  obtain ⟨⟨⟨r, e⟩, s⟩, hr, hx⟩ := Option.bind_eq_some_iff.1 h
  unfold textOf? at hx
  split at hx
  · rename_i y hy
    cases hx
    cases hy
    exact ⟨(s, e), runs_of_ending hr⟩
  · cases hx

def nameText? : Name → Option String
  | .datum (.text x) => some x
  | _ => none

theorem eq_of_nameText? (h : nameText? name = some x) : name = .ofString x := by
  unfold nameText? at h
  split at h
  · cases h
    rfl
  · cases h

def plainName? : Form → Option String
  | .var { role := .plain, name, .. } => nameText? name
  | _ => none

theorem exists_of_plainName? (h : plainName? f = some x) :
    ∃ v, f = .var v ∧ v.role = .plain ∧ v.name = .ofString x := by
  unfold plainName? at h
  split at h
  · exact ⟨_, rfl, rfl, eq_of_nameText? h⟩
  · cases h

def isCalled (s : Session) (array : Operand) (word : String) (name : Name) : Bool :=
  ((array.id?.bind s.form?).bind plainName?).any fun x => nameText? name == some (x ++ word)

def isWellNamed (s : Session) (v : Variable) : Bool :=
  match v.role with
  | .plain => v.emitted.isNone && (nameText? v.name).any fun x =>
      decide (IsStem x) && !"__mini_mangle_".toList.isPrefixOf (x.toList ++ ['_'])
  | .temporary shown => (List.range 10).any fun n => shown == "temp" ++ toString n
  | .dataPointer array => isCalled s array "_data" v.name
  | .stridePointer array => isCalled s array "_strides" v.name
  | .element _ | .register _ => true

def asVariable? : Form → Option Variable
  | .var v => some v
  | _ => none

def isNamed (s : Session) : Bool :=
  s.settings.blocksize.isNone && s.nodes.all fun n => (asVariable? n.form).all (isWellNamed s)

theorem called_of_isCalled {array : Operand}
    (h : isCalled s array word name = true) : Called s array word name := by
  obtain ⟨x, hx, hname⟩ := (Option.any_eq_true _ _).1 h
  obtain ⟨f, hf, hx⟩ := Option.bind_eq_some_iff.1 hx
  obtain ⟨k, hk, hf⟩ := Option.bind_eq_some_iff.1 hf
  obtain ⟨v, rfl, -, hv⟩ := exists_of_plainName? hx
  have harray : array = .node k := by
    cases array <;> cases hk
    rfl
  refine ⟨k, _, harray, hf, ?_⟩
  rintro w y hw - hy
  cases hw
  rw [hv] at hy
  cases hy
  exact eq_of_nameText? (eq_of_beq hname)

theorem wellNamed_of_isWellNamed (h : isWellNamed s v = true) : WellNamed own s v := by
  obtain ⟨role, name, emitted, data, strides⟩ := v
  cases role with
  | plain =>
    obtain ⟨hemitted, hname⟩ := Bool.and_eq_true_iff.1 h
    obtain ⟨x, hx, hfree⟩ := (Option.any_eq_true _ _).1 hname
    obtain ⟨hstem, hprefix⟩ := Bool.and_eq_true_iff.1 hfree
    refine ⟨x, eq_of_nameText? hx, free_of_isStem (of_decide_eq_true hstem) fun hr => ?_, fun y hy => ?_⟩
    · rw [List.isPrefixOf_iff_prefix.2 hr] at hprefix
      cases hprefix
    · cases hy
      cases hemitted
  | temporary shown =>
    obtain ⟨n, -, hn⟩ := List.any_eq_true.1 h
    exact ⟨"temp", n, .coined coined_temp, eq_of_beq hn⟩
  | dataPointer array | stridePointer array => exact called_of_isCalled h
  | element o | register o => trivial

theorem named_of_isNamed (h : isNamed s = true) : Named own s := by
  obtain ⟨hedge, hall⟩ := Bool.and_eq_true_iff.1 h
  refine ⟨fun id v hv => ?_, fun x hx => ?_⟩
  · obtain ⟨n, hn, hform⟩ := node?_of_form? hv
    obtain ⟨hlt, rfl⟩ := Array.getElem?_eq_some_iff.1 hn
    have hnode := Array.all_eq_true.1 hall id.index hlt
    rw [hform] at hnode
    exact wellNamed_of_isWellNamed hnode
  · rw [hx] at hedge
    cases hedge

theorem stands_of_shown? (h : shown? p.1 i = some x) (hi : i ∈ p.2.declared) :
    Stands p i (.temporary i) := by
  obtain ⟨v, hf, hrole⟩ := exists_of_shown? h
  exact .temporary hf hrole hi

theorem stands_of_plainName? (h : (p.1.form? i).bind plainName? = some x)
    (ht : (p.1.type? i).any (!·.isFunction) = true) : Stands p i (.value x) := by
  obtain ⟨f, hf, hx⟩ := Option.bind_eq_some_iff.1 h
  obtain ⟨v, rfl, hrole, hname⟩ := exists_of_plainName? hx
  obtain ⟨t, ht, hfun⟩ := (Option.any_eq_true _ _).1 ht
  exact .value hf hrole hname ht (by simpa using hfun)

theorem Apart.none : Apart fun _ => False := ⟨fun _ => False.elim, fun _ => False.elim⟩

/-- A kernel that fills an array with a scalar, by way of a temporary of the client. -/
def fillThroughTemporary : Action Operand := do
  let out ← Build.variableOf (CType.array CType.float64 1 false false false none) (.text "out")
  let scalar ← Build.variableOf CType.float64 (.text "x")
  let temp ← Build.temporary CType.float64
  let body ← Build.sequence [← Build.assign temp scalar, ← Build.assign out temp]
  Build.functionOver [out, scalar] body (.text "f")

/-- The client's temporary and the one with the number of elements are shown under one name. They are written
under two. -/
theorem temporaries_shown_alike_written_apart : ∃ kernel s o t r q i j x y, Runs fillThroughTemporary {} kernel s ∧
    Named (fun _ => False) s ∧ Runs (specializeKernel kernel ⟨.contiguous, .rowMajor, none⟩) s o t ∧
    Ends (emit o) (t, Emitter.start) r q ∧ Stands q i (.temporary i) ∧ Stands q j (.temporary j) ∧ i ≠ j ∧
    shown? q.1 i = shown? q.1 j ∧ Spelled q i x ∧ Spelled q j y ∧ x ≠ y := by
  have h : holdsOfCode fillThroughTemporary (fun s p => isNamed s && p.2.declared[0]?.any fun i =>
      p.2.declared[2]?.any fun j => i != j && (shown? p.1 i == some "temp0" &&
        (shown? p.1 j == some "temp0" && ((spelling? p i).isSome && (spelling? p j).isSome)))) = true := by
    decide +kernel
  obtain ⟨kernel, s, o, t, r, q, hbuild, hkernel, hcode, htest⟩ := exists_of_holdsOfCode h
  obtain ⟨hnamed, htest⟩ := Bool.and_eq_true_iff.1 htest
  obtain ⟨i, hi, htest⟩ := (Option.any_eq_true _ _).1 htest
  obtain ⟨j, hj, htest⟩ := (Option.any_eq_true _ _).1 htest
  simp only [Bool.and_eq_true, bne_iff_ne, beq_iff_eq, Option.isSome_iff_exists] at htest
  obtain ⟨hij, hshown, hshown', ⟨x, hx⟩, y, hy⟩ := htest
  have hs : Named (fun _ => False) s := named_of_isNamed hnamed
  have hi := stands_of_shown? hshown (List.mem_of_getElem? hi)
  have hj := stands_of_shown? hshown' (List.mem_of_getElem? hj)
  refine ⟨kernel, s, o, t, r, q, i, j, x, y, hbuild, hs, hkernel, hcode, hi, hj, hij, hshown.trans hshown'.symm,
    spelled_of_spelling? hx, spelled_of_spelling? hy, ?_⟩
  exact identifiers_distinct .none hs hkernel hcode hi hj (fun heq => hij (Entity.temporary.inj heq))
    (spelled_of_spelling? hx) (spelled_of_spelling? hy)

/-- A kernel that fills an array with a scalar that is called like a temporary. -/
def fillFromClash : Action Operand := do
  let out ← Build.variableOf (CType.array CType.float64 1 false false false none) (.text "out")
  let scalar ← Build.variableOf CType.float64 (.text "temp0")
  Build.functionOver [out, scalar] (← Build.assign out scalar) (.text "f")

def emitted? (f : Form) : Option String := (asVariable? f).bind (·.emitted)

/-- The number of elements is kept in a temporary that is written like the scalar. -/
theorem scalar_written_as_temporary : ∃ kernel s o t r q i j x, Runs fillFromClash {} kernel s ∧
    Runs (specializeKernel kernel ⟨.contiguous, .rowMajor, none⟩) s o t ∧ Ends (emit o) (t, Emitter.start) r q ∧
    Stands q i (.value "temp0") ∧ (q.1.form? i).bind emitted? = some x ∧ Stands q j (.temporary j) ∧
    Spelled q i x ∧ Spelled q j x := by
  have h : holdsOfCode fillFromClash (fun _ p => (p.1.form? ⟨32⟩).bind plainName? == some "temp0" &&
      ((p.1.type? ⟨32⟩).any (!·.isFunction) && ((p.1.form? ⟨32⟩).bind emitted? == some "__mini_mangle_temp0" &&
        p.2.declared[0]?.any fun j => (shown? p.1 j).isSome &&
          (spelling? p ⟨32⟩ == some "__mini_mangle_temp0" && spelling? p j == some "__mini_mangle_temp0")))) = true := by
    decide +kernel
  obtain ⟨kernel, s, o, t, r, q, hbuild, hkernel, hcode, htest⟩ := exists_of_holdsOfCode h
  simp only [Bool.and_eq_true, beq_iff_eq] at htest
  obtain ⟨hname, htype, hemitted, htest⟩ := htest
  obtain ⟨j, hj, htest⟩ := (Option.any_eq_true _ _).1 htest
  simp only [Bool.and_eq_true, beq_iff_eq, Option.isSome_iff_exists] at htest
  obtain ⟨⟨shown, hshown⟩, hx, hy⟩ := htest
  exact ⟨kernel, s, o, t, r, q, ⟨32⟩, j, _, hbuild, hkernel, hcode, stands_of_plainName? hname htype, hemitted,
    stands_of_shown? hshown (List.mem_of_getElem? hj), spelled_of_spelling? hx, spelled_of_spelling? hy⟩

end ArrayKernel.Naming
