import ArrayKernel.Layout.Loops
import ArrayKernel.Proofs.Counting

/-! # Loops that builders make -/

namespace ArrayKernel.Ast

open Running

variable {s t u : Session} {o : Operand} {id : NodeId} {g : Region}
variable {h : Form → Form} {f : Form} {n : Int} {l upper : Operand} {cs : List Counter}
variable {k : Loop → Loop} {j : NodeId} {ty : CType} {r body step : Operand} {c : Counter} {first : Nat}
variable {b : Layout.Bounds} {I : Session → Prop}

/-! ## Changing loops -/

def Form.onLoop (k : Loop → Loop) : Form → Form
  | .loop l => .loop (k l)
  | f => f

theorem runs_updateLoop {r : Unit} :
    Runs (updateLoop id k) s r t ↔ t = s.alter id (Node.reform (Form.onLoop k)) :=
  runs_updateForm

theorem form?_onLoop (h : s.form? j = some f)
    (hf : ∀ l, f ≠ .loop l) : (s.alter id (Node.reform (Form.onLoop k))).form? j = some f := by
  rw [form?_reform, h]
  split
  · cases f <;> first | rfl | exact absurd rfl (hf _)
  · rfl

theorem Grows.alter_new {k : Node → Node} (h : Grows g s t) (hid : s.nodes.size ≤ id.index)
    (hk : ∀ n, t.node? id = some n → g.allows (k n).form ∧ ∀ c ∈ (k n).form.ids, g.Has t c) :
    Grows g s (t.alter id k) where
  kept {j n} hn := by
    have := node?_lt hn
    rw [node?_alter, if_neg (by rintro rfl; omega)]
    exact h.kept hn
  size_le := by simpa using h.size_le
  new {j f} hle hf := by
    obtain ⟨n, hn, rfl⟩ := node?_of_form? hf
    rw [node?_alter] at hn
    split at hn
    · subst j
      obtain ⟨n', hn', rfl⟩ := Option.map_eq_some_iff.1 hn
      obtain ⟨ha, hc⟩ := hk n' hn'
      exact ⟨ha, fun c hcc => (hc c hcc).mono (by simp)⟩
    · obtain ⟨ha, hc⟩ := h.new hle (form?_of_node? hn)
      exact ⟨ha, fun c hcc => (hc c hcc).mono (by simp)⟩
  settings := h.settings
  specializers := h.specializers

theorem Grows.onLoop_new (h : Grows g s t) (hid : s.nodes.size ≤ id.index)
    (hk : ∀ l, (Form.loop (k l)).children = (Form.loop l).children) :
    Grows g s (t.alter id (Node.reform (Form.onLoop k))) := by
  refine h.alter_new hid fun n hn => ?_
  obtain ⟨ha, hc⟩ := h.new hid (form?_of_node? hn)
  simp only [Node.reform]
  cases hf : n.form with
  | loop l =>
    rw [hf] at hc
    exact ⟨g.passive _ rfl, fun c hcc => hc c (by simpa [Form.ids, Form.onLoop, hk] using hcc)⟩
  | _ =>
    rw [hf] at ha hc
    exact ⟨ha, hc⟩

/-! ## Counting upwards -/

def orNumber (o : Operand) (n : Int) (type : CType) : Action Operand :=
  if o.isAbsent then Build.constant (.int n) type else pure o

def counterParts (type : CType) (lower upper step : Operand) :
    Action (Operand × Operand × Operand × Operand) := do
  let temp ← Build.temporary type
  let start ← Build.assignment temp lower
  let test ← Build.binop CType.bool "<" temp upper
  let advance ← Build.assignment temp (← Build.add temp step)
  return (temp, start, test, advance)

def counterLoop (body temp start test advance : Operand) : Action Operand := do
  let result ← Build.loop body start test advance
  updateLoop (← identity result) fun l => { l with target := some temp }
  return result

theorem countUpwards_eq (body upper lower step : Operand) : Build.countUpwards body upper lower step = (do
      let type ← Action.ofExcept ((← typeOf upper).unqualify ["const"])
      let lower ← orNumber lower 0 type
      let step ← orNumber step 1 type
      let (temp, start, test, advance) ← counterParts type lower upper step
      counterLoop body temp start test advance) := by
  unfold Build.countUpwards orNumber counterParts counterLoop
  by_cases hl : lower.isAbsent = true <;> by_cases hs : step.isAbsent = true <;>
    simp only [hl, hs, if_true, if_false, Bool.false_eq_true, bind_assoc, pure_bind]

def IsOr (s : Session) (o : Operand) (n : Int) (r : Operand) : Prop :=
  if o.isAbsent then ∃ id, r = .node id ∧ s.form? id = some (.constant (.int n)) else r = o

theorem orNumber_spec (h : Runs (orNumber o n ty) s r t) (hg : g.start ≤ s.nodes.size) (ho : g.HasAll s o) :
    Grows g s t ∧ g.HasAll t r ∧ IsOr t o n r := by
  unfold IsOr
  by_cases ha : o.isAbsent = true
  · rw [orNumber, if_pos ha] at h
    obtain ⟨hgr, ty, hm⟩ := constant_spec h
    refine ⟨hgr, hm.hasAll hg, ?_⟩
    obtain ⟨id, rfl, -, hf, -⟩ := hm
    rw [if_pos ha]
    exact ⟨id, rfl, hf⟩
  · rw [orNumber, if_neg ha] at h
    obtain ⟨rfl, rfl⟩ := runs_pure.1 h
    rw [if_neg ha]
    exact ⟨.refl, ho, rfl⟩

theorem isPointer_unqualify {ty' : CType} {q : List String} (h : ty.unqualify q = .ok ty') :
    ty'.isPointer = ty.isPointer := by
  unfold CType.unqualify CType.withQualifiers at h
  split at h <;> cases h <;> rfl

theorem loop_spec {condition : Operand} {d : Datum} {a : NodeId}
    (h : Runs (Build.loop body (.node a) condition step) s o t)
    (ha : s.form? a = some (.assign l r d)) (hb : g.HasAll s body) (hs : g.Has s a)
    (hc : g.HasAll s condition) (hst : g.HasAll s step) :
    Grows g s t ∧ Made s t o (.loop { start := .node a, condition, step, body, index := l }) none := by
  simp only [Build.loop, Operand.truthy, Operand.absent, Datum.truthy, Bool.false_eq_true, if_false,
    runs_bind] at h
  obtain ⟨x, _, hx, h⟩ := h
  obtain ⟨rfl, rfl⟩ := runs_leftOf_assign ha hx
  refine create_spec h (g.passive _ rfl) fun c hcc => ?_
  simp only [Form.ids, Form.children, List.flatMap_cons, List.flatMap_nil, List.append_nil,
    List.mem_append] at hcc
  rcases hcc with hcc | hcc | hcc | hcc
  · exact Region.hasAll_node.2 hs c hcc
  · exact hc c hcc
  · exact hst c hcc
  · exact hb c hcc

/-! ## What later steps keep -/

def Loop.Like (l l' : Loop) : Prop :=
  l'.start = l.start ∧ l'.condition = l.condition ∧ l'.step = l.step ∧ l'.body = l.body ∧
    l'.index = l.index ∧ l'.target = l.target

/-- What becomes of a form: loops and functions may be marked, and a free sequence may be refilled. -/
def Form.Like (free : Prop) : Form → Form → Prop
  | .loop l, f => ∃ l', f = .loop l' ∧ l.Like l'
  | .function _, f => ∃ k, f = .function k
  | .sequence o, f => ∃ o', f = .sequence o' ∧ (¬ free → o' = o)
  | f, f' => f' = f

/-- All nodes stay, except that the sequences in `X` may be refilled. -/
structure Keeps (X : NodeId → Prop) (s t : Session) : Prop where
  form? : ∀ {id f}, s.form? id = some f → ∃ f', t.form? id = some f' ∧ f.Like (X id) f'
  type? : ∀ {id ty}, s.type? id = some ty → t.type? id = some ty

variable {X : NodeId → Prop}

theorem Form.Like.refl (free : Prop) (f : Form) : f.Like free f := by
  cases f <;> simp [Form.Like, Loop.Like]

theorem Form.Like.trans {free : Prop} {f' f'' : Form} (h : f.Like free f') (h' : f'.Like free f'') :
    f.Like free f'' := by
  cases f with
  | loop l =>
    obtain ⟨l', rfl, h⟩ := h
    obtain ⟨l'', rfl, h'⟩ := h'
    refine ⟨l'', rfl, ?_⟩
    simp_all [Loop.Like]
  | function k =>
    obtain ⟨k', rfl⟩ := h
    exact h'
  | sequence o =>
    obtain ⟨o', rfl, h⟩ := h
    obtain ⟨o'', rfl, h'⟩ := h'
    exact ⟨o'', rfl, fun hn => (h' hn).trans (h hn)⟩
  | _ =>
    subst h
    exact h'

theorem Keeps.trans (h : Keeps X s t) (h' : Keeps X t u) : Keeps X s u where
  form? hf := by
    obtain ⟨f', hf', hl⟩ := h.form? hf
    obtain ⟨f'', hf'', hl'⟩ := h'.form? hf'
    exact ⟨f'', hf'', hl.trans hl'⟩
  type? ht := h'.type? (h.type? ht)

theorem Keeps.weaken (h : Keeps (fun _ => False) s t) : Keeps X s t where
  form? {id f} hf := by
    obtain ⟨f', hf', hl⟩ := h.form? hf
    refine ⟨f', hf', ?_⟩
    cases f <;> simp_all [Form.Like]
  type? := h.type?

theorem Grows.keeps (h : Grows g s t) : Keeps (fun _ => False) s t where
  form? hf := ⟨_, h.form? hf, .refl _ _⟩
  type? ht := h.type? ht

theorem Keeps.onLoop (hk : ∀ l : Loop, l.Like (k l)) :
    Keeps (fun _ => False) s (s.alter id (Node.reform (Form.onLoop k))) where
  form? {j f} hf := by
    by_cases hl : ∃ l, f = .loop l
    · obtain ⟨l, rfl⟩ := hl
      rw [form?_reform, hf]
      split
      · exact ⟨_, rfl, k l, rfl, hk l⟩
      · exact ⟨_, rfl, .refl _ _⟩
    · exact ⟨f, form?_onLoop hf fun l hl' => hl ⟨l, hl'⟩, .refl _ _⟩
  type? ht := by rwa [type?_reform]

/-- Forms that no step changes: all but loops, functions and sequences. -/
def Form.isSteady : Form → Bool
  | .loop _ | .function _ | .sequence _ => false
  | _ => true

structure Steady (s t : Session) : Prop where
  form? : ∀ {id f}, s.form? id = some f → f.isSteady = true → t.form? id = some f
  type? : ∀ {id ty}, s.type? id = some ty → t.type? id = some ty

theorem Keeps.steady (h : Keeps X s t) : Steady s t where
  form? {id f} hf hs := by
    obtain ⟨f', hf', hl⟩ := h.form? hf
    cases f <;> simp_all [Form.Like, Form.isSteady]
  type? := h.type?

theorem Grows.steady (h : Grows g s t) : Steady s t where
  form? hf _ := h.form? hf
  type? := h.type?

theorem Steady.trans (h : Steady s t) (h' : Steady t u) : Steady s u where
  form? hf hs := h'.form? (h.form? hf hs) hs
  type? ht := h'.type? (h.type? ht)

theorem Steady.onLoop : Steady s (s.alter id (Node.reform (Form.onLoop k))) where
  form? hf hs := form?_onLoop hf (by rintro l rfl; cases hs)
  type? ht := by rwa [type?_reform]

theorem Steady.sum {op : String} (h : Steady s t) (hs : IsSum s op l r o) : IsSum t op l r o := by
  rcases hs with ⟨ho, id, v, hid, hf, hv⟩ | ⟨ho, id, v, hid, hf, hv⟩ | ⟨id, hid, hf⟩
  · exact .inl ⟨ho, id, v, hid, h.form? hf rfl, hv⟩
  · exact .inr (.inl ⟨ho, id, v, hid, h.form? hf rfl, hv⟩)
  · exact .inr (.inr ⟨id, hid, h.form? hf rfl⟩)

theorem Steady.or (h : Steady s t) (hr : IsOr s o n r) : IsOr t o n r := by
  unfold IsOr at hr ⊢
  by_cases ha : o.isAbsent = true
  · rw [if_pos ha] at hr ⊢
    obtain ⟨id, hid, hf⟩ := hr
    exact ⟨id, hid, h.form? hf rfl⟩
  · rwa [if_neg ha] at hr ⊢

theorem Steady.scalar (h : Steady s t) (hi : ∃ ty, s.type? id = some ty ∧ ty.isPointer = false) :
    ∃ ty, t.type? id = some ty ∧ ty.isPointer = false := by
  obtain ⟨ty, hty, hp⟩ := hi
  exact ⟨ty, h.type? hty, hp⟩

theorem Steady.counter (h : Steady s t) (hc : c.In first s) : c.In first t where
  new := hc.new
  temp_form := by
    obtain ⟨v, shown, hf, hr⟩ := hc.temp_form
    exact ⟨v, shown, h.form? hf rfl, hr⟩
  temp_type := h.scalar hc.temp_type
  start_form := by
    obtain ⟨d, hf⟩ := hc.start_form
    exact ⟨d, h.form? hf rfl⟩
  test_form := h.form? hc.test_form rfl
  advance_form := by
    obtain ⟨d, hf⟩ := hc.advance_form
    exact ⟨d, h.form? hf rfl⟩
  next_sum := h.sum hc.next_sum

/-- A statement inside handlers that do nothing besides. The handlers are new from a number on. -/
inductive Wrapped (first : Nat) (s : Session) (o : Operand) : Operand → Prop where
  | bare : Wrapped first s o o
  | handler {j : NodeId} {h : Handler} (hle : first ≤ j.index) (hf : s.form? j = some (.handler h))
    (hs : h.errorStart = .absent) (hc : (Form.handler h).ids = h.body.ids)
    (hb : Wrapped first s o h.body) : Wrapped first s o (.node j)

/-- A loop in the store runs by a counter and has this body, maybe inside handlers. -/
def Stands (first : Nat) (c : Counter) (s : Session) (body : Operand) : Prop :=
  ∃ l, s.form? c.loop = some (.loop l) ∧ c.Drives l ∧ Wrapped first s body l.body ∧
    l.target = some (.node c.temp)

theorem Steady.wrapped {o' : Operand} (h : Steady s t) (hw : Wrapped first s o o') : Wrapped first t o o' := by
  induction hw with
  | bare => exact .bare
  | handler hle hf hs hc _ ih => exact .handler hle (h.form? hf rfl) hs hc ih

theorem Keeps.stands (h : Keeps X s t) (hs : Stands first c s body) : Stands first c t body := by
  obtain ⟨l, hf, ⟨h1, h2, h3, h4⟩, hb, ht⟩ := hs
  obtain ⟨_, hf', l', rfl, k1, k2, k3, k4, k5, k6⟩ := h.form? hf
  refine ⟨l', hf', ⟨k1.trans h1, k2.trans h2, k3.trans h3, k5.trans h4⟩, ?_, k6.trans ht⟩
  rw [k4]
  exact h.steady.wrapped hb

/-! ## The counter of a loop -/

structure Region.Open (g : Region) (s : Session) : Prop where
  start_le : g.start ≤ s.nodes.size
  assigns : ∀ temp r d, s.nodes.size ≤ temp.index → g.allows (.assign (.node temp) r d)

theorem Region.Open.mono (h : g.Open s) (hle : s.nodes.size ≤ t.nodes.size) : g.Open t :=
  ⟨Nat.le_trans h.start_le hle, fun temp r d ht => h.assigns temp r d (Nat.le_trans hle ht)⟩

theorem counterParts_spec {lower : NodeId} {p : Operand × Operand × Operand × Operand}
    (h : Runs (counterParts ty (.node lower) upper step) s p t) (hg : g.Open s) (hl : g.Has s lower) (hu : g.HasAll s upper) (hs : g.HasAll s step) (hp : ty.isPointer = false) :
    Grows g s t ∧ ∃ temp start test advance next, p = (.node temp, .node start, .node test, .node advance) ∧
      (∀ id ∈ [temp, start, test, advance], s.nodes.size ≤ id.index ∧ g.Has t id) ∧
      ∀ loop, s.nodes.size ≤ loop.index →
        Counter.In ⟨loop, temp, start, test, advance, .node lower, upper, step, next⟩ s.nodes.size t := by
  obtain ⟨hg, ha⟩ := hg
  simp only [counterParts, runs_bind, runs_pure] at h
  obtain ⟨temp, s1, h1, start, s2, h2, test, s3, h3, next, s4, h4, advance, s5, h5, rfl, rfl⟩ := h
  obtain ⟨g1, v, shown, hm1, hrole⟩ := temporary_spec h1
  obtain ⟨tid, rfl, htid, htf, htt⟩ := id hm1
  have htg := hm1.hasAll hg
  obtain ⟨g2, _, hm2⟩ := assignment_spec h2 (ha tid _ _ htid) htg (hl.mono g1.size_le)
  have g12 := g1.trans g2
  obtain ⟨g3, hm3⟩ := binop_spec h3 (htg.mono g2.size_le) (hu.mono g12.size_le)
  have g13 := g12.trans g3
  obtain ⟨g4, hn, hsum⟩ := add_spec h4 (Nat.le_trans hg g13.size_le)
    (htg.mono (g2.trans g3).size_le) (hs.mono g13.size_le)
  have g14 := g13.trans g4
  have g24 := (g2.trans g3).trans g4
  obtain ⟨nid, rfl⟩ : ∃ nid, next = .node nid := by
    rcases hsum with ⟨-, k, w, hk, hw, -⟩ | ⟨rfl, -⟩ | ⟨k, rfl, -⟩
    · cases hk
      rw [g24.form? htf] at hw
      cases hw
    · exact ⟨_, rfl⟩
    · exact ⟨_, rfl⟩
  obtain ⟨g5, _, hm5⟩ := assignment_spec h5 (ha tid _ _ htid) (htg.mono g24.size_le)
    (Region.hasAll_node.1 hn)
  have g15 := g14.trans g5
  have g25 := g24.trans g5
  have g35 := (g3.trans g4).trans g5
  have hstart := hm2.mono g35
  have htest := hm3.mono (g4.trans g5)
  have hstart' := hstart.hasAll (Nat.le_trans hg g1.size_le)
  have htest' := htest.hasAll (Nat.le_trans hg g12.size_le)
  have hadvance' := hm5.hasAll (Nat.le_trans hg g14.size_le)
  obtain ⟨aid, rfl, haid, haf, -⟩ := hstart.later g1.size_le
  obtain ⟨kid, rfl, hkid, hkf, -⟩ := htest.later g12.size_le
  obtain ⟨did, rfl, hdid, hdf, -⟩ := hm5.later g14.size_le
  refine ⟨g15, tid, aid, kid, did, .node nid, rfl, ?_, fun loop hloop => ?_⟩
  · intro id hid
    simp only [List.mem_cons, List.not_mem_nil, or_false] at hid
    rcases hid with rfl | rfl | rfl | rfl
    · exact ⟨htid, Region.hasAll_node.1 (htg.mono g25.size_le)⟩
    · exact ⟨haid, Region.hasAll_node.1 hstart'⟩
    · exact ⟨hkid, Region.hasAll_node.1 htest'⟩
    · exact ⟨hdid, Region.hasAll_node.1 hadvance'⟩
  · exact {
      new := ⟨hloop, htid, haid, hdid⟩
      temp_form := ⟨v, shown, g25.form? htf, hrole⟩
      temp_type := ⟨ty, g25.type? htt, hp⟩
      start_form := ⟨_, haf⟩
      test_form := hkf
      advance_form := ⟨_, hdf⟩
      next_sum := g5.steady.sum hsum }

theorem counterLoop_spec
    (h : Runs (counterLoop body (.node c.temp) (.node c.start) (.node c.test) (.node c.advance)) s o t)
    (hc : ∀ loop, first ≤ loop.index → Counter.In { c with loop } first s)
    (hle : first ≤ s.nodes.size) (hb : g.HasAll s body)
    (hids : ∀ id ∈ [c.start, c.test, c.advance], g.Has s id) :
    Grows g s t ∧ ∃ loop, s.nodes.size ≤ loop.index ∧ o = .node loop ∧
      Counter.In { c with loop } first t ∧ t.form? loop = some (.loop (c.made body none)) := by
  simp only [counterLoop, runs_bind, runs_identity, runs_updateLoop, runs_pure] at h
  obtain ⟨result, s1, h1, loop, _, ⟨rfl, rfl⟩, _, _, rfl, rfl, rfl⟩ := h
  obtain ⟨d, ha⟩ := (hc ⟨first⟩ (Nat.le_refl _)).start_form
  obtain ⟨g1, hm⟩ := loop_spec h1 ha hb (hids _ (by simp)) (Region.hasAll_node.2 (hids _ (by simp)))
    (Region.hasAll_node.2 (hids _ (by simp)))
  obtain ⟨_, hid, hle', hf, -⟩ := hm
  cases hid
  refine ⟨g1.onLoop_new hle' fun _ => rfl, loop, hle', rfl, ?_, ?_⟩
  · exact Steady.onLoop.counter (g1.steady.counter (hc loop (Nat.le_trans hle hle')))
  · rw [form?_reform, if_pos rfl, hf]
    rfl

/-- Counting upwards makes a counter between the bounds; a missing lower bound is zero, and a missing step
is one. -/
theorem countUpwards_spec {lower : Operand}
    (h : Runs (Build.countUpwards body upper lower step) s o t) (hg : g.Open s)
    (hbody : g.HasAll s body) (hu : g.HasAll s upper) (hl : g.HasAll s lower) (hs : g.HasAll s step)
    (hln : lower.isAbsent = true ∨ ∃ j, lower = .node j)
    (hp : ∀ j ty, upper = .node j → s.type? j = some ty → ty.isPointer = false) :
    Grows g s t ∧ ∃ c : Counter, o = .node c.loop ∧ c.In s.nodes.size t ∧
      t.form? c.loop = some (.loop (c.made body none)) ∧
      c.upper = upper ∧ IsOr t lower 0 c.lower ∧ IsOr t step 1 c.step := by
  rw [countUpwards_eq] at h
  simp only [runs_bind, runs_typeOf, runs_ofExcept] at h
  obtain ⟨_, _, ⟨j, rfl, hty, rfl⟩, ty, _, ⟨hq, rfl⟩, lo, s1, h1, st, s2, h2, ps, s3, h3, h4⟩ := h
  obtain ⟨g1, hlo, hlo'⟩ := orNumber_spec h1 hg.start_le hl
  obtain ⟨g2, hst, hst'⟩ := orNumber_spec h2 (hg.mono g1.size_le).start_le (hs.mono g1.size_le)
  have g12 := g1.trans g2
  obtain ⟨lid, rfl⟩ : ∃ lid, lo = .node lid := by
    unfold IsOr at hlo'
    rcases hln with hz | ⟨k, rfl⟩
    · rw [if_pos hz] at hlo'
      exact ⟨_, hlo'.choose_spec.1⟩
    · exact ⟨k, by simpa [Operand.isAbsent] using hlo'⟩
  have hp' : ty.isPointer = false := by
    rw [isPointer_unqualify hq]
    exact hp j _ rfl hty
  obtain ⟨g3, temp, start, test, advance, next, rfl, hids, hc⟩ :=
    counterParts_spec h3 (hg.mono g12.size_le) (Region.hasAll_node.1 (hlo.mono g2.size_le)) (hu.mono g12.size_le) hst hp'
  have g13 := g12.trans g3
  obtain ⟨g4, loop, hle, rfl, hin, hmade⟩ := counterLoop_spec
    (c := ⟨⟨0⟩, temp, start, test, advance, .node lid, .node j, st, next⟩)
    h4 hc g3.size_le (hbody.mono g13.size_le) fun id hid => (hids id (List.mem_cons_of_mem _ hid)).2
  exact ⟨g13.trans g4, _, rfl, hin.earlier g12.size_le, hmade, rfl,
    (g2.trans (g3.trans g4)).steady.or hlo', (g3.trans g4).steady.or hst'⟩

/-! ## Nests -/

def Yields (g : Region) (I : Session → Prop) (a : Action Operand) (Q : Session → Operand → Prop) : Prop :=
  ∀ {s o t}, I s → g.start ≤ s.nodes.size → Runs a s o t → Grows g s t ∧ g.HasAll t o ∧ Q t o

/-- What is needed of the bounds of a nest: which operands they give, and that these stay what they are. -/
structure BoundsOk (g : Region) (I : Session → Prop) (b : Layout.Bounds) (d : Int)
    (L U : Session → Operand → Prop) : Prop where
  lower : Yields g I (b.lower d) L
  upper : Yields g I (b.upper d) U
  lower_node : ∀ {s o}, L s o → o.isAbsent = true ∨ ∃ j, o = .node j
  upper_type : ∀ {s j ty}, U s (.node j) → s.type? j = some ty → ty.isPointer = false
  lower_steady : ∀ {s t o}, Steady s t → L s o → L t o
  upper_steady : ∀ {s t o}, Steady s t → U s o → U t o

structure CountsDim (s : Session) (first : Nat) (step : Operand) (L U : Session → Operand → Prop)
    (d : Int) (c : Counter) : Prop where
  stored : c.In first s
  upper : U s c.upper
  lower : ∃ lo, L s lo ∧ IsOr s lo 0 c.lower
  step : IsOr s step 1 c.step

theorem Steady.countsDim {L U : Session → Operand → Prop} {d : Int}
    (h : Steady s t) (hL : ∀ {o}, L s o → L t o) (hU : ∀ {o}, U s o → U t o)
    (hc : CountsDim s first step L U d c) : CountsDim t first step L U d c where
  stored := h.counter hc.stored
  upper := hU hc.upper
  lower := by
    obtain ⟨lo, hlo, hor⟩ := hc.lower
    exact ⟨lo, hL hlo, h.or hor⟩
  step := h.or hc.step

theorem Stands.hasAll (h : Stands first c s body)
    (hg : g.start ≤ c.loop.index) : g.HasAll s (.node c.loop) := by
  obtain ⟨l, hf, -⟩ := h
  exact Region.hasAll_node.2 ⟨.inr hg, form?_lt hf⟩

theorem forall₂_exists {α β : Type} {R : α → β → Prop} {as : List α} {bs : List β}
    (h : List.Forall₂ R as bs) {b : β} (hb : b ∈ bs) : ∃ a ∈ as, R a b := by
  induction h with
  | nil => cases hb
  | cons hr _ ih =>
    rcases List.mem_cons.1 hb with rfl | hb
    · exact ⟨_, by simp, hr⟩
    · obtain ⟨a, ha, hr⟩ := ih hb
      exact ⟨a, by simp [ha], hr⟩

def Chain (first : Nat) (s : Session) : Operand → List Counter → Operand → Prop
  | body, [], outermost => outermost = body
  | body, c :: cs, outermost => Stands first c s body ∧ Chain first s (.node c.loop) cs outermost

theorem Keeps.chain (h : Keeps X s t) (hc : Chain first s body cs o) : Chain first t body cs o := by
  induction cs generalizing body with
  | nil => exact hc
  | cons c cs ih => exact ⟨h.stands hc.1, ih hc.2⟩

theorem runs_targetOf (h : Runs (Layout.targetOf o) s r t) :
    t = s ∧ ∃ id l, o = .node id ∧ s.form? id = some (.loop l) ∧ l.target = some r := by
  simp only [Layout.targetOf, runs_bind, runs_loopOf, runs_required] at h
  obtain ⟨l, _, ⟨id, rfl, hf, rfl⟩, ht, rfl⟩ := h
  exact ⟨rfl, id, l, rfl, hf, ht⟩

theorem targets_spec {out : Operand} {r : List Operand}
    (h : Runs ((cs.map (.node ·.loop)).mapM Layout.targetOf) s r t) (hc : Chain 0 s body cs out) :
    t = s ∧ r = cs.map (.node ·.temp) := by
  induction cs generalizing body r with
  | nil =>
    obtain ⟨rfl, rfl⟩ := runs_mapM_nil.1 h
    exact ⟨rfl, rfl⟩
  | cons c cs ih =>
    obtain ⟨y, u, ys, hy, hys, rfl⟩ := runs_mapM_cons.1 h
    obtain ⟨⟨l, hf, -, -, ht⟩, hrest⟩ := hc
    obtain ⟨rfl, id, l', hid, hf', ht'⟩ := runs_targetOf hy
    cases hid
    rw [hf] at hf'
    cases hf'
    rw [ht] at ht'
    cases ht'
    obtain ⟨rfl, rfl⟩ := ih hys hrest
    exact ⟨rfl, rfl⟩

structure NestOf (s : Session) (first : Nat) (order : Layout.Order) (dims : List Int) (body : Operand)
    (b : Layout.Bounds) (L U : Int → Session → Operand → Prop) (r : Layout.Nest)
    (cs : List Counter) : Prop where
  loops : r.loops = (cs.map (.node ·.loop)).reverse
  indices : r.indices = order.arrange (cs.map (.node ·.temp))
  chain : ∀ first, Chain first s body cs r.statement
  counts : List.Forall₂ (fun d c => CountsDim s first b.step (L d) (U d) d c) dims cs
  temps : cs.Pairwise fun c c' => c.temp.index < c'.temp.index

section

variable (hmono : ∀ {s t}, Grows g s t → I s → I t) (hI : I s) (hg : g.Open s) (hbody : g.HasAll s body)
variable (hs : g.HasAll s b.step)

include hmono hI hg hbody hs

theorem wrapInLoop_spec {d : Int} {L U : Session → Operand → Prop} (h : Runs (Layout.wrapInLoop b body d) s o t)
    (hb : BoundsOk g I b d L U) :
    Grows g s t ∧ ∃ c : Counter, o = .node c.loop ∧ CountsDim t s.nodes.size b.step L U d c ∧
      ∀ first, Stands first c t body := by
  simp only [Layout.wrapInLoop, runs_bind, runs_identity, runs_updateLoop, runs_pure] at h
  obtain ⟨lo, s1, h1, up, s2, h2, loop, _, h3, id, s3, ⟨rfl, rfl⟩, _, _, rfl, rfl, rfl⟩ := h
  obtain ⟨g1, hlo, hL⟩ := hb.lower hI hg.start_le h1
  obtain ⟨g2, hup, hU⟩ := hb.upper (hmono g1 hI) (hg.mono g1.size_le).start_le h2
  have g12 := g1.trans g2
  obtain ⟨g3, c, hc, hin, hmade, rfl, hor, hstep⟩ := countUpwards_spec h3 (hg.mono g12.size_le) (hbody.mono g12.size_le) hup
    (hlo.mono g2.size_le) (hs.mono g12.size_le) (hb.lower_node hL)
    (fun j ty hj hty => hb.upper_type (hj ▸ hU) hty)
  cases hc
  have hloop : (s3.alter c.loop (Node.reform (Form.onLoop fun l => { l with dim := some d.toNat }))).form?
      c.loop = some (.loop (c.made body (some d.toNat))) := by
    rw [form?_reform, if_pos rfl, hmade]
    rfl
  refine ⟨(g12.trans g3).onLoop_new (Nat.le_trans g12.size_le hin.new.1) fun _ => rfl, c, rfl, ?_,
    fun _ => ⟨_, hloop, ⟨rfl, rfl, rfl, rfl⟩, .bare, rfl⟩⟩
  · refine Steady.onLoop.countsDim (hb.lower_steady Steady.onLoop) (hb.upper_steady Steady.onLoop) ?_
    exact ⟨hin.earlier g12.size_le, hb.upper_steady g3.steady hU,
      ⟨lo, hb.lower_steady (g2.trans g3).steady hL, hor⟩, hstep⟩

/-- Wrapping a body in loops makes a counter for each dimension, the first one innermost. Their
temporaries are different. -/
theorem wrapInLoops_spec {dims : List Int} {L U : Int → Session → Operand → Prop} {r : List Operand × Operand}
    (h : Runs (Layout.wrapInLoops b dims body) s r t) (hb : ∀ d ∈ dims, BoundsOk g I b d (L d) (U d)) :
    Grows g s t ∧ ∃ cs : List Counter, r.1 = cs.map (.node ·.loop) ∧ (∀ first, Chain first t body cs r.2) ∧
      List.Forall₂ (fun d c => CountsDim t s.nodes.size b.step (L d) (U d) d c) dims cs ∧
      cs.Pairwise (fun c c' => c.temp.index < c'.temp.index) := by
  induction dims generalizing s body r with
  | nil =>
    obtain ⟨rfl, rfl⟩ := runs_pure.1 h
    exact ⟨.refl, [], rfl, fun _ => rfl, .nil, .nil⟩
  | cons d dims ih =>
    simp only [Layout.wrapInLoops, runs_bind, runs_pure] at h
    obtain ⟨loop, s1, h1, ⟨loops, outer⟩, s2, h2, rfl, rfl⟩ := h
    have hd := hb d (by simp)
    obtain ⟨g1, c, rfl, hc, hst⟩ := wrapInLoop_spec hmono hI hg hbody hs h1 hd
    obtain ⟨g2, cs, hcs, hchain, hall, hpair⟩ := ih (hmono g1 hI) (hg.mono g1.size_le)
      ((hst 0).hasAll (Nat.le_trans hg.start_le hc.stored.new.1)) (hs.mono g1.size_le) h2
      fun d hd => hb d (by simp [hd])
    refine ⟨g1.trans g2, c :: cs, by simpa using hcs, fun _ => ⟨g2.keeps.stands (hst _), hchain _⟩, ?_, ?_⟩
    · refine .cons (g2.steady.countsDim (hd.lower_steady g2.steady) (hd.upper_steady g2.steady) hc) ?_
      exact hall.imp fun d c hc => { hc with stored := hc.stored.earlier g1.size_le }
    · refine List.pairwise_cons.2 ⟨fun c' hc' => ?_, hpair⟩
      obtain ⟨d', -, hd'⟩ := forall₂_exists hall hc'
      exact Nat.lt_of_lt_of_le hc.stored.temp_lt hd'.stored.new.2.1

theorem nest_spec {order : Layout.Order} {dims : Layout.DimRange} {L U : Int → Session → Operand → Prop}
    {r : Layout.Nest} (h : Runs (Layout.nest order body dims b) s r t)
    (hb : ∀ d ∈ dims.dims, BoundsOk g I b d (L d) (U d)) :
    Grows g s t ∧ ∃ cs, NestOf t s.nodes.size order dims.dims body b L U r cs := by
  simp only [Layout.nest, runs_bind, runs_pure] at h
  obtain ⟨⟨loops, outer⟩, s1, h1, indices, s2, h2, rfl, rfl⟩ := h
  obtain ⟨hgr, cs, hcs, hchain, hall, hpair⟩ := wrapInLoops_spec hmono hI hg hbody hs h1 hb
  subst hcs
  obtain ⟨rfl, rfl⟩ := targets_spec h2 (hchain 0)
  exact ⟨hgr, cs, rfl, rfl, hchain, hall, hpair⟩

end

end ArrayKernel.Ast
