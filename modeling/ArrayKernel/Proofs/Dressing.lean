import ArrayKernel.Layout.Specialize
import ArrayKernel.Proofs.Nest
import ArrayKernel.Proofs.Traversal

/-!
# Specializing a body

Below the iteration over the shape, a specializer that does not vectorize only puts handlers around the bodies
of loops that may fail.
-/

namespace ArrayKernel.Ast

open Running

variable {s t u : Session} {o : Operand} {id : NodeId} {g : Region} {first : Nat}
variable {b : Operand} {β : Type} {news : List (String × Operand)} {l : Loop}
variable {body a : Operand} {α : Type} {f f' : Form}

/-! ## Dressed sessions -/

def Form.Dress (first : Nat) (t : Session) (f f' : Form) : Prop :=
  f' = f ∨ ∃ l b, f = .loop l ∧ f' = .loop { l with body := b } ∧ Wrapped first t l.body b

/-- All nodes stay, except that bodies of loops are put into handlers. -/
structure Dressed (first : Nat) (s t : Session) : Prop where
  form? : ∀ {id f}, s.form? id = some f → ∃ f', t.form? id = some f' ∧ f.Dress first t f'
  type? : ∀ {id ty}, s.type? id = some ty → t.type? id = some ty
  size_le : s.nodes.size ≤ t.nodes.size
  settings : t.settings = s.settings
  specializers : t.specializers = s.specializers

theorem Wrapped.trans {c : Operand} (h : Wrapped first s a b) (h' : Wrapped first s b c) :
    Wrapped first s a c := by
  induction h' with
  | bare => exact h
  | handler hle hf hs hc _ ih => exact .handler hle hf hs hc ih

theorem Dressed.steady (h : Dressed first s t) : Steady s t where
  form? {id f} hf hs := by
    obtain ⟨f', hf', rfl | ⟨l, b, rfl, -, -⟩⟩ := h.form? hf
    · exact hf'
    · cases hs
  type? := h.type?

theorem Dressed.trans (h : Dressed first s t) (h' : Dressed first t u) : Dressed first s u where
  form? {id f} hf := by
    obtain ⟨f', hf', rfl | ⟨l, b, rfl, rfl, hw⟩⟩ := h.form? hf
    · exact h'.form? hf'
    · obtain ⟨f'', hf'', rfl | ⟨l', b', hl, rfl, hw'⟩⟩ := h'.form? hf'
      · exact ⟨_, hf'', .inr ⟨l, b, rfl, rfl, h'.steady.wrapped hw⟩⟩
      · cases hl
        exact ⟨_, hf'', .inr ⟨l, b', rfl, rfl, (h'.steady.wrapped hw).trans hw'⟩⟩
  type? ht := h'.type? (h.type? ht)
  size_le := Nat.le_trans h.size_le h'.size_le
  settings := h'.settings.trans h.settings
  specializers := h'.specializers.trans h.specializers

theorem Grows.dressed (h : Grows g s t) : Dressed first s t where
  form? hf := ⟨_, h.form? hf, .inl rfl⟩
  type? := h.type?
  size_le := h.size_le
  settings := h.settings
  specializers := h.specializers

theorem Alike.dressed (h : Alike s t) : Dressed first s t where
  form? {id f} hf := ⟨f, by rw [h.form?, hf], .inl rfl⟩
  type? ht := by rw [h.type?, ht]
  size_le := Nat.le_of_eq h.size.symm
  settings := h.settings
  specializers := h.specializers

theorem Dressed.refl : Dressed first s s := (Alike.refl s).dressed

theorem Dressed.stands {c : Counter} (h : Dressed first s t)
    (hs : Stands first c s body) : Stands first c t body := by
  obtain ⟨l, hf, hd, hw, ht⟩ := hs
  obtain ⟨f', hf', rfl | ⟨l', b, hl, rfl, hw'⟩⟩ := h.form? hf
  · exact ⟨l, hf', hd, h.steady.wrapped hw, ht⟩
  · cases hl
    exact ⟨_, hf', hd, (h.steady.wrapped hw).trans hw', ht⟩

theorem Dressed.chain {cs : List Counter} (h : Dressed first s t)
    (hc : Chain first s body cs o) : Chain first t body cs o := by
  induction cs generalizing body with
  | nil => exact hc
  | cons c cs ih => exact ⟨h.stands hc.1, ih hc.2⟩

theorem Alike.closed (h : Alike s t) (hg : g.Closed s) : g.Closed t := by
  intro id f hid hf
  rw [h.form?] at hf
  have hlt : id.index < s.nodes.size := by rw [← h.size]; exact hid.2
  obtain ⟨ha, hc⟩ := hg id f ⟨hid.1, hlt⟩ hf
  exact ⟨ha, fun c hcc => (hc c hcc).mono (Nat.le_of_eq h.size.symm)⟩

/-! ## Actions that only read -/

def ReadOnly {α : Type} (a : Action α) : Prop := ∀ s r t, Runs a s r t → t = s

theorem readOnly_pure (x : α) : ReadOnly (pure x) := fun _ _ _ h => (runs_pure.1 h).2

theorem readOnly_throw (e : Fault) : ReadOnly (throw e : Action α) :=
  fun _ _ _ h => absurd h (by simp [runs_throw])

theorem ReadOnly.bind {a : Action α} {k : α → Action β} (ha : ReadOnly a)
    (hk : ∀ x, ReadOnly (k x)) : ReadOnly (a >>= k) := by
  intro s r t h
  obtain ⟨x, u, h1, h2⟩ := runs_bind.1 h
  rw [hk x _ _ _ h2, ha _ _ _ h1]

theorem readOnly_node (id : NodeId) : ReadOnly (node id) := fun _ _ _ h => (runs_node.1 h).2

theorem readOnly_settings : ReadOnly settings := fun _ _ _ h => (runs_settings.1 h).2

theorem ReadOnly.foldlM {k : β → α → Action β} (hk : ∀ b a, ReadOnly (k b a))
    (xs : List α) (b : β) : ReadOnly (xs.foldlM k b) := by
  induction xs generalizing b with
  | nil => exact readOnly_pure b
  | cons x xs ih =>
    exact (hk b x).bind ih

theorem mayFailWithin_readOnly (depth : Nat) (found : Bool) (o : Operand) :
    ReadOnly (mayFailWithin depth found o) := by
  induction depth generalizing found o with
  | zero => exact readOnly_throw _
  | succ depth ih =>
    cases o with
    | datum d | group items => exact readOnly_throw _
    | node id =>
      refine ReadOnly.bind (readOnly_node id) fun n => ?_
      split
      · split
        · exact readOnly_pure _
        · refine readOnly_settings.bind fun st => ?_
          split
          · exact readOnly_throw _
          · exact readOnly_pure _
      · exact (ih _ _).bind fun _ => (ih _ _).bind fun _ => ih _ _
      · exact ReadOnly.foldlM ih _ _

theorem mayFail_readOnly (o : Operand) : ReadOnly (mayFail o) :=
  ReadOnly.bind (fun _ _ _ h => (runs_identity.1 h).2) fun _ => mayFailWithin_readOnly _ _ _

/-! ## Visits that dress -/

/-- A session in which a specializer without SIMD works on a region. -/
structure Ready (g : Region) (first sp : Nat) (s : Session) : Prop where
  closed : g.Closed s
  start_le : g.start ≤ s.nodes.size
  first_le : first ≤ s.nodes.size
  scheme : ∃ σ, s.specializers[sp]? = some σ ∧ σ.scheme.vectorSize = none ∧ σ.scheme.isContiguous = false

/-- Visits that give back what they are given, which is a node, and only dress loops. -/
def Dresses (g : Region) (first sp : Nat) (visit : Operand → Action Operand) : Prop :=
  ∀ o s r t, Ready g first sp s → g.HasAll s o → Runs (visit o) s r t →
    r = o ∧ (∃ id, o = .node id) ∧ Dressed first s t ∧ Ready g first sp t

variable {sp : Nat} {visit : Operand → Action Operand} {k : Form → Form}

theorem Region.HasAll.dressed (h : g.HasAll s o) (hd : Dressed first s t) : g.HasAll t o :=
  h.mono hd.size_le

theorem visitsAll_dress {os rs : List Operand} (h : VisitsAll visit os s rs t)
    (hv : Dresses g first sp visit) (hs : Ready g first sp s) (hos : ∀ o ∈ os, g.HasAll s o) :
    rs = os ∧ (∀ o ∈ os, ∃ id, o = .node id) ∧ Dressed first s t ∧ Ready g first sp t := by
  induction h with
  | nil s => exact ⟨rfl, by simp, .refl, hs⟩
  | cons h _ ih =>
    obtain ⟨rfl, hid, hd, hr⟩ := hv _ _ _ _ hs (hos _ (by simp)) h
    obtain ⟨rfl, hids, hd', hr'⟩ := ih hr fun o ho => (hos o (by simp [ho])).dressed hd
    refine ⟨rfl, fun o ho => ?_, hd.trans hd', hr'⟩
    rcases List.mem_cons.1 ho with rfl | ho
    · exact hid
    · exact hids o ho

theorem visits_dress {names : List String}
    (h : Visits visit id names s news t) (hv : Dresses g first sp visit) (hs : Ready g first sp s)
    (hid : g.Has s id) :
    Dressed first s t ∧ Ready g first sp t ∧ ∀ new ∈ news, ∃ u f, Dressed first s u ∧ Dressed first u t ∧
      Ready g first sp u ∧ u.form? id = some f ∧ f.children.lookup new.1 = some new.2 := by
  induction h with
  | nil s => exact ⟨.refl, hs, by simp⟩
  | none hf hl _ ih => exact ih hs hid
  | @one name names f news o r s s' t hf hl hv' hr h ih =>
    have ho : g.HasAll s o := fun c hc => (hs.closed _ _ hid hf).2 c (ids_of_lookup hl hc)
    obtain ⟨rfl, -, hd, hs'⟩ := hv _ _ _ _ hs ho hv'
    obtain ⟨hd', ht, hnews⟩ := ih hs' (hid.mono hd.size_le)
    refine ⟨hd.trans hd', ht, fun new hnew => ?_⟩
    rcases List.mem_cons.1 hnew with rfl | hnew
    · exact ⟨s, f, .refl, hd.trans hd', hs, hf, hl⟩
    · obtain ⟨u, f, h1, h2, hu⟩ := hnews new hnew
      exact ⟨u, f, hd.trans h1, h2, hu⟩
  | @many name names f news os rs s s' t hf hl hv' h ih =>
    have hos : ∀ o ∈ os, g.HasAll s o := fun o ho c hc =>
      (hs.closed _ _ hid hf).2 c (ids_of_lookup hl (mem_idsAll.2 ⟨o, ho, hc⟩))
    obtain ⟨rfl, hids, hd, hs'⟩ := visitsAll_dress hv' hv hs hos
    obtain ⟨hd', ht, hnews⟩ := ih hs' (hid.mono hd.size_le)
    refine ⟨hd.trans hd', ht, fun new hnew => ?_⟩
    rcases List.mem_cons.1 hnew with rfl | hnew
    · exact ⟨s, f, .refl, hd.trans hd', hs, hf, by rw [flattened_nodes hids]; exact hl⟩
    · obtain ⟨u, f, h1, h2, hu⟩ := hnews new hnew
      exact ⟨u, f, hd.trans h1, h2, hu⟩

/-! ## Putting children in place -/

theorem Region.Closed.reform (hc : g.Closed s)
    (hk : ∀ f, s.form? id = some f → g.Has s id → g.allows (k f) ∧ ∀ c ∈ (k f).ids, g.Has s c) :
    g.Closed (s.alter id (Node.reform k)) := by
  intro j f hj hf
  have hj' : g.Has s j := ⟨hj.1, by simpa using hj.2⟩
  rw [form?_reform] at hf
  split at hf
  · subst j
    obtain ⟨f', hf', rfl⟩ := Option.map_eq_some_iff.1 hf
    obtain ⟨ha, hcc⟩ := hk f' hf' hj'
    exact ⟨ha, fun c hc => (hcc c hc).mono (by simp)⟩
  · obtain ⟨ha, hcc⟩ := hc j f hj' hf
    exact ⟨ha, fun c hc => (hcc c hc).mono (by simp)⟩

theorem dress_loop :
    (Form.loop l).Dress first t f ↔ ∃ b, f = .loop { l with body := b } ∧ Wrapped first t l.body b := by
  constructor
  · rintro (rfl | ⟨l', b, hl, rfl, hw⟩)
    · exact ⟨l.body, rfl, .bare⟩
    · cases hl
      exact ⟨b, rfl, hw⟩
  · rintro ⟨b, rfl, hw⟩
    exact .inr ⟨l, b, rfl, rfl, hw⟩

theorem dress_other (hf : ∀ l, f ≠ .loop l) : f.Dress first t f' ↔ f' = f := by
  constructor
  · rintro (h | ⟨l, b, hl, -, -⟩)
    · exact h
    · exact absurd hl (hf l)
  · exact .inl

theorem setChild_dress {fu fv : Form} {name : String} {o : Operand} (hw : Steady u t)
    (hu : f.Dress first u fu) (hv : f.Dress first t fv) (hl : fu.children.lookup name = some o) :
    f.Dress first t (fv.setChild name o) := by
  by_cases hloop : ∃ l, f = .loop l
  · obtain ⟨l, rfl⟩ := hloop
    obtain ⟨b, rfl, hb⟩ := dress_loop.1 hu
    obtain ⟨b', rfl, hb'⟩ := dress_loop.1 hv
    have hb := hw.wrapped hb
    refine dress_loop.2 ?_
    simp only [Form.setChild]
    split <;> simp [Form.children, List.lookup_cons] at hl
    · exact ⟨b', by rw [← hl], hb'⟩
    · exact ⟨b', by rw [← hl], hb'⟩
    · exact ⟨b', by rw [← hl], hb'⟩
    · exact ⟨b, by rw [← hl], hb⟩
    · exact ⟨b', rfl, hb'⟩
  · have hf : ∀ l, f ≠ .loop l := fun l h => hloop ⟨l, h⟩
    obtain rfl := (dress_other hf).1 hu
    obtain rfl := (dress_other hf).1 hv
    exact (dress_other hf).2 (setChild_self hl)

theorem setChildren_dress (hnews : ∀ new ∈ news, ∃ u fu, Steady u t ∧ f.Dress first u fu ∧
      fu.children.lookup new.1 = some new.2) :
    ∀ fv, f.Dress first t fv → f.Dress first t (setChildren news fv) := by
  induction news with
  | nil => exact fun fv hv => hv
  | cons new news ih =>
    intro fv hv
    obtain ⟨u, fu, hst, hu, hl⟩ := hnews new (by simp)
    exact ih (fun new hnew => hnews new (by simp [hnew])) _ (setChild_dress hst hu hv hl)

theorem Form.Dress.mono (h : f.Dress first s f') (hst : Steady s t) : f.Dress first t f' := by
  rcases h with rfl | ⟨l, b, rfl, rfl, hw⟩
  · exact .inl rfl
  · exact .inr ⟨l, b, rfl, rfl, hst.wrapped hw⟩

theorem Wrapped.hasAll (h : Wrapped first s a b) (hg : g.start ≤ first) (ha : g.HasAll s a) : g.HasAll s b := by
  cases h with
  | bare => exact ha
  | handler hle hf hs hc hb =>
    exact Region.hasAll_node.2 ⟨.inr (Nat.le_trans hg hle), form?_lt hf⟩

theorem Form.Dress.hasAll (h : f.Dress first s f') (hg : g.start ≤ first)
    (ha : g.allows f) (hc : ∀ c ∈ f.ids, g.Has s c) : g.allows f' ∧ ∀ c ∈ f'.ids, g.Has s c := by
  rcases h with rfl | ⟨l, b, rfl, rfl, hw⟩
  · exact ⟨ha, hc⟩
  · refine ⟨g.passive _ rfl, fun c hcc => ?_⟩
    have hbody : g.HasAll s b := hw.hasAll hg fun c hcb => hc c (by simp [Form.ids, Form.children, hcb])
    simp only [Form.ids, Form.children, List.flatMap_cons, List.flatMap_nil, List.append_nil,
      List.mem_append] at hc hcc
    rcases hcc with hcc | hcc | hcc | hcc
    · exact hc c (.inl hcc)
    · exact hc c (.inr (.inl hcc))
    · exact hc c (.inr (.inr (.inl hcc)))
    · exact hbody c hcc

theorem Dressed.reform (hd : Dressed first s t)
    (hs : s.form? id = some f) (hk : ∀ fv, t.form? id = some fv → f.Dress first t (k fv)) :
    Dressed first s (t.alter id (Node.reform k)) := by
  obtain ⟨fv, hfv, hdv⟩ := hd.form? hs
  have hst : Steady t (t.alter id (Node.reform k)) := by
    refine ⟨fun {j f'} hj hsteady => ?_, fun hty => by rwa [type?_reform]⟩
    rw [form?_reform]
    split
    · subst j
      rw [hfv] at hj
      cases hj
      rw [hfv]
      rcases hdv with rfl | ⟨l, b, -, rfl, -⟩
      · rcases hk _ hfv with hk | ⟨l, b, rfl, -, -⟩
        · simp [hk]
        · cases hsteady
      · cases hsteady
    · exact hj
  refine ⟨fun {j f'} hf' => ?_, fun hty => by rw [type?_reform]; exact hd.type? hty, by simpa using hd.size_le,
    hd.settings, hd.specializers⟩
  rw [form?_reform]
  split
  · subst j
    rw [hs] at hf'
    cases hf'
    exact ⟨k fv, by rw [hfv]; rfl, (hk fv hfv).mono hst⟩
  · obtain ⟨f'', hf'', hdress⟩ := hd.form? hf'
    exact ⟨f'', hf'', hdress.mono hst⟩

theorem Ready.of_dressed (h : Ready g first sp s) (hd : Dressed first s t) (hc : g.Closed t) :
    Ready g first sp t where
  closed := hc
  start_le := Nat.le_trans h.start_le hd.size_le
  first_le := Nat.le_trans h.first_le hd.size_le
  scheme := by rw [hd.specializers]; exact h.scheme

theorem transformChildren_dress {r : Unit} (h : Runs (transformChildren visit id) s r t)
    (hv : Dresses g first sp visit) (hs : Ready g first sp s) (hid : g.Has s id)
    (hg : g.start ≤ first) : Dressed first s t ∧ Ready g first sp t := by
  obtain ⟨f, news, v, hf, hvis, rfl⟩ := transformChildren_visits (m := Action) h
  obtain ⟨hd, hr, hnews⟩ := visits_dress hvis hv hs hid
  have hnews' : ∀ new ∈ news, ∃ u fu, Steady u v ∧ f.Dress first u fu ∧
      fu.children.lookup new.1 = some new.2 := by
    intro new hnew
    obtain ⟨u, fu, hsu, huv, -, hfu, hl⟩ := hnews new hnew
    obtain ⟨fu', hfu', hdu⟩ := hsu.form? hf
    rw [hfu] at hfu'
    cases hfu'
    exact ⟨u, fu, huv.steady, hdu, hl⟩
  have hset : ∀ fv, v.form? id = some fv → f.Dress first v (setChildren news fv) := by
    intro fv hfv
    obtain ⟨fv', hfv', hdv⟩ := hd.form? hf
    rw [hfv] at hfv'
    cases hfv'
    exact setChildren_dress hnews' fv hdv
  have hdt := hd.reform hf hset
  refine ⟨hdt, hs.of_dressed hdt (hr.closed.reform fun fv hfv _ => ?_)⟩
  obtain ⟨ha, hc⟩ := hs.closed id f hid hf
  exact (hset fv hfv).hasAll hg ha fun c hcc => (hc c hcc).mono hd.size_le

/-! ## The pass -/

theorem handler_spec (h : Runs (Build.handler body) s o t) (hb : g.HasAll s body) :
    Grows g s t ∧ ∃ k : Handler, Made s t o (.handler k) none ∧ k.body = body ∧
      k.errorStart = .absent ∧ (Form.handler k).ids = body.ids := by
  simp only [Build.handler, runs_bind, Build.label] at h
  obtain ⟨l1, s1, h1, l2, s2, h2, h3⟩ := h
  obtain ⟨g1, -⟩ := create_spec h1 (g.passive _ rfl) (by simp [Form.ids, Form.children])
  obtain ⟨g2, -⟩ := create_spec h2 (g.passive _ rfl) (by simp [Form.ids, Form.children])
  have g12 := g1.trans g2
  obtain ⟨g3, hm⟩ := create_spec h3 (g.passive _ rfl) (by
    intro c hc
    refine hb.mono g12.size_le c ?_
    simpa [Form.ids, Form.children, Operand.absent, Operand.ids] using hc)
  refine ⟨g12.trans g3, _, hm.later g12.size_le, rfl, rfl, ?_⟩
  simp [Form.ids, Form.children, Operand.absent, Operand.ids]

theorem runs_specializer {r : Specializer} :
    Runs (specializer sp) s r t ↔ s.specializers[sp]? = some r ∧ t = s := by
  rw [specializer, runs_get_bind]
  cases s.specializers[sp]? with
  | none => simp [runs_throw]
  | some x => simp only [runs_pure, Option.some.injEq, eq_comm]

/-- Without SIMD a node that is neither a function nor an iteration only has its children visited, and the
body of a loop may be put into a handler first. -/
theorem specializeNode_runs {r : Operand}
    (h : Runs (Layout.specializeNode sp visit id) s r t) (hr : Ready g first sp s)
    (hf : s.form? id = some f) (hk : ∀ k, f ≠ .function k) (hi : ∀ b, f ≠ .iterate b) :
    r = .node id ∧ (Runs (transformChildren visit id) s () t ∨
      ∃ l h u, f = .loop l ∧ Runs (Build.handler l.body) s h u ∧ Runs (transformChildren visit id)
          (u.alter id (Node.reform (Form.onLoop fun l => { l with body := h }))) () t) := by
  obtain ⟨σ, hσ, hvec, hcon⟩ := hr.scheme
  simp only [Layout.specializeNode, runs_bind, runs_specializer, runs_node] at h
  obtain ⟨_, _, ⟨hσ', rfl⟩, n, _, ⟨hn, rfl⟩, h⟩ := h
  rw [hσ] at hσ'
  cases hσ'
  obtain rfl : n.form = f := by simpa [form?_of_node? hn] using hf
  have hsize : (if σ.vectorizing = true then σ.scheme.vectorSize else none) = none := by simp [hvec]
  rw [hsize] at h
  have hplain : ∀ {s}, Runs (do transformChildren visit id; return Operand.node id) s r t →
      r = .node id ∧ Runs (transformChildren visit id) s () t := by
    intro s h
    simp only [runs_bind, runs_pure] at h
    obtain ⟨_, _, h, rfl, rfl⟩ := h
    exact ⟨rfl, h⟩
  cases hform : n.form with
  | function k => exact absurd hform (hk k)
  | iterate b => exact absurd hform (hi b)
  | loop l =>
    rw [hform] at h
    simp only [runs_bind] at h
    obtain ⟨b, u, hb, h⟩ := h
    obtain rfl := mayFail_readOnly _ _ _ _ hb
    split at h
    · simp only [runs_bind, runs_updateLoop] at h
      obtain ⟨k, u, hk, _, _, rfl, h⟩ := h
      obtain ⟨rfl, h'⟩ := hplain (by simpa only [runs_bind] using h)
      exact ⟨rfl, .inr ⟨l, k, u, rfl, hk, h'⟩⟩
    · obtain ⟨rfl, h'⟩ := hplain (by simpa only [runs_bind] using h)
      exact ⟨rfl, .inl h'⟩
  | var v =>
    rw [hform] at h
    simp only [hcon, Bool.false_eq_true, if_false] at h
    split at h
    · simp [runs_throw] at h
    · obtain ⟨rfl, h'⟩ := hplain h
      exact ⟨rfl, .inl h'⟩
  | _ =>
    rw [hform] at h
    obtain ⟨rfl, h'⟩ := hplain h
    exact ⟨rfl, .inl h'⟩

theorem handler_dress {h : Operand} (hh : Runs (Build.handler l.body) s h u)
    (hf : s.form? id = some (.loop l)) (hr : Ready g first sp s) (hid : g.Has s id)
    (hg : g.start ≤ first) :
    Dressed first s (u.alter id (Node.reform (Form.onLoop fun l => { l with body := h }))) ∧
      Ready g first sp (u.alter id (Node.reform (Form.onLoop fun l => { l with body := h }))) := by
  obtain ⟨ha, hc⟩ := hr.closed id _ hid hf
  have hbody : g.HasAll s l.body := fun c hcc => hc c (by simp [Form.ids, Form.children, hcc])
  obtain ⟨hgr, k, ⟨j, rfl, hj, hk, -⟩, hkb, hks, hki⟩ := handler_spec hh hbody
  have hset : ∀ fv, u.form? id = some fv →
      (Form.loop l).Dress first u (fv.onLoop fun l => { l with body := .node j }) := by
    intro fv hfv
    rw [hgr.form? hf] at hfv
    cases hfv
    exact dress_loop.2 ⟨.node j, rfl, .handler (Nat.le_trans hr.first_le hj) hk hks (hkb ▸ hki) (hkb ▸ .bare)⟩
  have hdress : Dressed first s u := hgr.dressed
  have hd := hdress.reform hf hset
  refine ⟨hd, hr.of_dressed hd ((hgr.closed hr.closed).reform fun fv hfv _ => ?_)⟩
  exact (hset fv hfv).hasAll hg ha fun c hcc => (hc c hcc).mono hgr.size_le

theorem specializeWithin_dresses (hg : g.start ≤ first)
    (hforms : ∀ f, g.allows f → (∀ k, f ≠ .function k) ∧ ∀ b, f ≠ .iterate b) (depth : Nat) :
    Dresses g first sp (Layout.specializeWithin sp depth) := by
  induction depth with
  | zero => exact fun o s r t _ _ h => absurd h (by simp [Layout.specializeWithin, runs_throw])
  | succ depth ih =>
    intro o s r t hs ho h
    obtain ⟨id, s1, t1, t, rfl, ha1, hv, ha2, rfl⟩ := atPosition_visit (m := Action) h
    have hd1 : Dressed first s s1 := ha1.dressed
    have hs1 : Ready g first sp s1 := hs.of_dressed hd1 (ha1.closed hs.closed)
    have hid : g.Has s1 id := (Region.hasAll_node.1 ho).mono hd1.size_le
    obtain ⟨n, hn⟩ := node?_of_lt hid.2
    have hf := form?_of_node? hn
    obtain ⟨hk, hi⟩ := hforms _ (hs1.closed id _ hid hf).1
    obtain ⟨rfl, hrun⟩ := specializeNode_runs hv hs1 hf hk hi
    have hvisit : Dressed first s1 t1 ∧ Ready g first sp t1 := by
      rcases hrun with hrun | ⟨l, h, u, hl, hh, hrun⟩
      · exact transformChildren_dress hrun ih hs1 hid hg
      · rw [hl] at hf
        obtain ⟨hd, hr⟩ := handler_dress hh hf hs1 hid hg
        obtain ⟨hd', hr'⟩ := transformChildren_dress hrun ih hr (hid.mono hd.size_le) hg
        exact ⟨hd.trans hd', hr'⟩
    have hd2 : Dressed first t1 t := ha2.dressed
    exact ⟨rfl, ⟨id, rfl⟩, (hd1.trans hvisit.1).trans hd2, hvisit.2.of_dressed hd2 (ha2.closed hvisit.2.closed)⟩

end ArrayKernel.Ast
