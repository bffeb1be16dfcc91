import ArrayKernel.Ast.Clone
import ArrayKernel.Proofs.Heap

/-!
# Building only adds nodes

A region is a set of nodes that is closed under going to an operand. Each builder of expressions adds
nodes whose operands are in the region and leaves all other nodes alone; its lemma also says what the
node it returns is.
-/

namespace ArrayKernel.Ast

variable {α : Type} {s t u : Session} {o : Operand} {id : NodeId} {n : Node} {f : Form}
variable {type : Option CType}
variable {ty : CType} {l r : Operand} {op : String} {os : List Operand}

/-! ## Regions -/

theorem mem_idsAll : id ∈ Operand.idsAll os ↔ ∃ o ∈ os, id ∈ o.ids := by
  induction os with
  | nil => simp [Operand.idsAll]
  | cons o os ih => simp [Operand.idsAll, ih]

def Form.ids (f : Form) : List NodeId := f.children.flatMap (·.2.ids)

def Form.isPassive : Form → Bool
  | .function _ | .iterate _ | .assign .. => false
  | _ => true

/-- Some nodes that are there already, together with all nodes from a number on. -/
structure Region where
  base : NodeId → Prop
  start : Nat
  allows : Form → Prop
  passive : ∀ f, f.isPassive = true → allows f

namespace Region

variable {g : Region}

def Has (g : Region) (s : Session) (id : NodeId) : Prop :=
  (g.base id ∨ g.start ≤ id.index) ∧ id.index < s.nodes.size

def HasAll (g : Region) (s : Session) (o : Operand) : Prop := ∀ id ∈ o.ids, g.Has s id

def Closed (g : Region) (s : Session) : Prop :=
  ∀ id f, g.Has s id → s.form? id = some f → g.allows f ∧ ∀ c ∈ f.ids, g.Has s c

theorem Has.mono (h : g.Has s id) (hle : s.nodes.size ≤ t.nodes.size) : g.Has t id :=
  ⟨h.1, Nat.lt_of_lt_of_le h.2 hle⟩

theorem HasAll.mono (h : g.HasAll s o) (hle : s.nodes.size ≤ t.nodes.size) : g.HasAll t o :=
  fun id hid => (h id hid).mono hle

theorem hasAll_node : g.HasAll s (.node id) ↔ g.Has s id := by
  simp [HasAll, Operand.ids]

theorem hasAll_datum (d : Datum) : g.HasAll s (.datum d) := by
  simp [HasAll, Operand.ids]

theorem hasAll_group {items : List Operand} (h : ∀ o ∈ items, g.HasAll s o) : g.HasAll s (.group items) := by
  intro id hid
  obtain ⟨o, ho, hid⟩ := mem_idsAll.1 hid
  exact h o ho id hid

end Region

/-! ## Growth -/

/-- Nodes were added inside a region, and nothing else changed but the counts of temporaries. -/
structure Grows (g : Region) (s t : Session) : Prop where
  kept : ∀ {id n}, s.node? id = some n → t.node? id = some n
  size_le : s.nodes.size ≤ t.nodes.size
  new : ∀ {id f}, s.nodes.size ≤ id.index → t.form? id = some f →
    g.allows f ∧ ∀ c ∈ f.ids, g.Has t c
  settings : t.settings = s.settings
  specializers : t.specializers = s.specializers

variable {g : Region} {m : Datum}

theorem Grows.refl : Grows g s s where
  kept h := h
  size_le := Nat.le_refl _
  new hle hf := by
    exact absurd (form?_lt hf) (Nat.not_lt.2 hle)
  settings := rfl
  specializers := rfl

theorem Grows.form? (h : Grows g s t) (hf : s.form? id = some f) : t.form? id = some f := by
  obtain ⟨n, hn, rfl⟩ := node?_of_form? hf
  exact form?_of_node? (h.kept hn)

theorem Grows.trans (h : Grows g s t) (h' : Grows g t u) : Grows g s u where
  kept hn := h'.kept (h.kept hn)
  size_le := Nat.le_trans h.size_le h'.size_le
  new {id f} hle hf := by
    by_cases hlt : id.index < t.nodes.size
    · obtain ⟨n, hn⟩ := node?_of_lt hlt
      have hf' := h'.form? (form?_of_node? hn)
      obtain rfl : n.form = f := by rw [hf] at hf'; exact (Option.some.inj hf').symm
      obtain ⟨ha, hc⟩ := h.new hle (form?_of_node? hn)
      exact ⟨ha, fun c hcc => (hc c hcc).mono h'.size_le⟩
    · exact h'.new (Nat.not_lt.1 hlt) hf
  settings := h'.settings.trans h.settings
  specializers := h'.specializers.trans h.specializers

theorem Grows.type? (h : Grows g s t) (hty : s.type? id = some ty) : t.type? id = some ty := by
  obtain ⟨n, hn, hty⟩ := Option.bind_eq_some_iff.1 hty
  rw [type?_of_node? (h.kept hn), hty]

theorem Grows.closed (h : Grows g s t) (hg : g.Closed s) : g.Closed t := by
  intro id f hid hf
  by_cases hlt : id.index < s.nodes.size
  · obtain ⟨n, hn⟩ := node?_of_lt hlt
    have hf' := h.form? (form?_of_node? hn)
    obtain rfl : n.form = f := by rw [hf] at hf'; exact (Option.some.inj hf').symm
    obtain ⟨ha, hc⟩ := hg id _ ⟨hid.1, hlt⟩ (form?_of_node? hn)
    exact ⟨ha, fun c hcc => (hc c hcc).mono h.size_le⟩
  · exact h.new (Nat.not_lt.1 hlt) hf

/-! ## New nodes -/

def Made (s t : Session) (o : Operand) (f : Form) (type : Option CType) : Prop :=
  ∃ id, o = .node id ∧ s.nodes.size ≤ id.index ∧ t.form? id = some f ∧ t.type? id = type

theorem Made.hasAll (h : Made s t o f type) (hg : g.start ≤ s.nodes.size) : g.HasAll t o := by
  obtain ⟨id, rfl, hle, hf, -⟩ := h
  exact Region.hasAll_node.2 ⟨.inr (Nat.le_trans hg hle), form?_lt hf⟩

theorem grows_add (ha : g.allows n.form) (hc : ∀ c ∈ n.form.ids, g.Has s c) : Grows g s (s.add n) where
  kept {id m} hm := by
    have := node?_lt hm
    rw [node?_add, if_neg (by rintro rfl; simp [Session.next] at this), hm]
  size_le := by simp
  new {id f} hle hf := by
    obtain ⟨m, hm, rfl⟩ := node?_of_form? hf
    have hlt := node?_lt hm
    simp only [size_add] at hlt
    obtain rfl : id = s.next := by
      obtain ⟨i⟩ := id
      simp only [Session.next, NodeId.mk.injEq] at hle hlt ⊢
      omega
    rw [node?_add, if_pos rfl] at hm
    obtain rfl := Option.some.inj hm
    exact ⟨ha, fun c hcc => (hc c hcc).mono (by simp)⟩
  settings := rfl
  specializers := rfl

theorem made_add : Made s (s.add n) (.node s.next) n.form n.type :=
  ⟨s.next, rfl, Nat.le_refl _, by simp [Session.form?, node?_add], by simp [Session.type?, node?_add]⟩

theorem create_spec (h : Runs (Build.create f type) s o t) (ha : g.allows f)
    (hc : ∀ c ∈ f.ids, g.Has s c) : Grows g s t ∧ Made s t o f type := by
  obtain ⟨p, rfl, rfl⟩ := runs_create h
  exact ⟨grows_add ha hc, made_add⟩

theorem Made.mono (h : Made s t o f type) (ht : Grows g t u) : Made s u o f type := by
  obtain ⟨id, rfl, hle, hf, rfl⟩ := h
  obtain ⟨n, hn, rfl⟩ := node?_of_form? hf
  refine ⟨id, rfl, hle, form?_of_node? (ht.kept hn), ?_⟩
  rw [type?_of_node? (ht.kept hn), type?_of_node? hn]

theorem Made.later (h : Made t u o f type) (hle : s.nodes.size ≤ t.nodes.size) : Made s u o f type := by
  obtain ⟨id, rfl, hid, hf⟩ := h
  exact ⟨id, rfl, Nat.le_trans hle hid, hf⟩

/-! ## Expressions -/

theorem constant_spec {v : Datum} (h : Runs (Build.constant v ty) s o t) :
    Grows g s t ∧ ∃ ty, Made s t o (.constant v) (some ty) := by
  unfold Build.constant at h
  split at h
  · simp only [runs_bind] at h
    obtain ⟨ty, s', hty, h⟩ := h
    obtain rfl : s' = s := by
      cases v <;> simp_all [Build.inferType, runs_pure, runs_throw]
    obtain ⟨hgr, hm⟩ := create_spec h (g.passive _ rfl) (by simp [Form.ids, Form.children])
    exact ⟨hgr, ty, hm⟩
  · simp only [runs_bind, runs_pure] at h
    obtain ⟨_, _, ⟨rfl, rfl⟩, h⟩ := h
    obtain ⟨hgr, hm⟩ := create_spec h (g.passive _ rfl) (by simp [Form.ids, Form.children])
    exact ⟨hgr, _, hm⟩

theorem nextTemporary_grows {r : Nat} (h : Runs Build.nextTemporary s r t) : Grows g s t := by
  obtain ⟨-, rfl⟩ := runs_nextTemporary.1 h
  exact { Grows.refl with }

theorem temporary_spec {name : String} (h : Runs (Build.temporary ty name) s o t) :
    Grows g s t ∧ ∃ v shown, Made s t o (.var v) (some ty) ∧ v.role = .temporary shown := by
  simp only [Build.temporary, Build.temporaryNamed, runs_bind, runs_pure] at h
  obtain ⟨_, _, ⟨rfl, rfl⟩, n, s', hn, h⟩ := h
  have hgr := nextTemporary_grows (g := g) hn
  obtain ⟨hgr', hm⟩ := create_spec h (g.passive _ rfl) (by simp [Form.ids, Form.children])
  exact ⟨hgr.trans hgr', _, _, hm.later hgr.size_le, rfl⟩

def IsNumber (s : Session) (o : Operand) (n : Int) : Prop :=
  ∃ id v, o = .node id ∧ s.form? id = some (.constant v) ∧ (v == .int n) = true

theorem isConstant_spec {n : Int} {b : Bool} (h : Runs (Build.isConstant o n) s b t) :
    t = s ∧ (b = true ↔ IsNumber s o n) := by
  simp only [Build.isConstant, runs_bind, runs_nodeOf] at h
  obtain ⟨m, _, ⟨id, rfl, hm, rfl⟩, h⟩ := h
  split at h
  · obtain ⟨rfl, rfl⟩ := runs_pure.1 h
    refine ⟨rfl, fun hb => ⟨id, _, rfl, by simp [Session.form?, *], hb⟩, ?_⟩
    rintro ⟨_, v, hid, hf, hv⟩
    simp_all [Session.form?]
  · obtain ⟨rfl, rfl⟩ := runs_pure.1 h
    refine ⟨rfl, by simp, ?_⟩
    rintro ⟨_, v, hid, hf, hv⟩
    simp_all [Session.form?]

theorem resultType_spec {r : CType} {r' : Operand} (h : Runs (Build.resultType ty l r') s r t) : t = s := by
  unfold Build.resultType Build.joinTypes at h
  split at h
  · simp only [runs_bind, runs_typeOf, runs_ofExcept] at h
    obtain ⟨_, _, ⟨_, _, _, rfl⟩, _, _, ⟨_, _, _, rfl⟩, _, rfl⟩ := h
    rfl
  · exact (runs_pure.1 h).2

theorem ids_pair {p q : String} (hl : g.HasAll s l) (hr : g.HasAll s r)
    (hf : f.children = [(p, l), (q, r)]) : ∀ c ∈ f.ids, g.Has s c := by
  intro c hc
  simp only [Form.ids, hf, List.flatMap_cons, List.flatMap_nil, List.append_nil, List.mem_append] at hc
  exact hc.elim (hl c) (hr c)

theorem ids_single {p : String} {x : Operand} (hx : g.HasAll s x) (hf : f.children = [(p, x)]) :
    ∀ c ∈ f.ids, g.Has s c := by
  intro c hc
  simp only [Form.ids, hf, List.flatMap_cons, List.flatMap_nil, List.append_nil] at hc
  exact hx c hc

/-- What a sum or a difference is: one operand if the other is zero, and else an operation on both. -/
def IsSum (s : Session) (operator : String) (l r o : Operand) : Prop :=
  (o = r ∧ IsNumber s l 0) ∨ (o = l ∧ IsNumber s r 0) ∨
    ∃ id, o = .node id ∧ s.form? id = some (.binop operator l r)

theorem runs_add (h : Runs (Build.add l r ty op) s o t) :
    (o = r ∧ t = s ∧ IsNumber s l 0) ∨ (o = l ∧ t = s ∧ ¬ IsNumber s l 0 ∧ IsNumber s r 0) ∨
      (¬ IsNumber s l 0 ∧ ¬ IsNumber s r 0 ∧ ∃ ty, Runs (Build.create (.binop op l r) (some ty)) s o t) := by
  unfold Build.add at h
  rw [runs_bind] at h
  obtain ⟨b, _, hb, h⟩ := h
  obtain ⟨rfl, hb⟩ := isConstant_spec hb
  split at h
  · obtain ⟨rfl, rfl⟩ := runs_pure.1 h
    exact .inl ⟨rfl, rfl, hb.1 ‹_›⟩
  · have hl := fun hl => ‹¬ b = true› (hb.2 hl)
    rw [runs_bind] at h
    obtain ⟨b', _, hb', h⟩ := h
    obtain ⟨rfl, hb'⟩ := isConstant_spec hb'
    split at h
    · obtain ⟨rfl, rfl⟩ := runs_pure.1 h
      exact .inr (.inl ⟨rfl, rfl, hl, hb'.1 ‹_›⟩)
    · rw [runs_bind] at h
      obtain ⟨ty, _, hty, h⟩ := h
      obtain rfl := resultType_spec hty
      exact .inr (.inr ⟨hl, fun hr => ‹¬ b' = true› (hb'.2 hr), ty, h⟩)

theorem runs_mul (h : Runs (Build.mul l r ty op) s o t) :
    (op = "*" ∧ o = r ∧ t = s ∧ IsNumber s l 1) ∨
    (o = l ∧ t = s ∧ (op = "*" → ¬ IsNumber s l 1) ∧ IsNumber s r 1) ∨
      ((op = "*" → ¬ IsNumber s l 1) ∧ ¬ IsNumber s r 1 ∧
        ∃ ty, Runs (Build.create (.binop op l r) (some ty)) s o t) := by
  have hrest : (op = "*" → ¬ IsNumber s l 1) → Runs (do
      if ← Build.isConstant r 1 then return l
      Build.binop (← Build.resultType ty l r) op l r) s o t →
      (o = l ∧ t = s ∧ (op = "*" → ¬ IsNumber s l 1) ∧ IsNumber s r 1) ∨
        (op = "*" → ¬ IsNumber s l 1) ∧ ¬ IsNumber s r 1 ∧
          ∃ ty, Runs (Build.create (.binop op l r) (some ty)) s o t := by
    intro hl hr
    rw [runs_bind] at hr
    obtain ⟨b, _, hb, hr⟩ := hr
    obtain ⟨rfl, hb⟩ := isConstant_spec hb
    split at hr
    · obtain ⟨rfl, rfl⟩ := runs_pure.1 hr
      exact .inl ⟨rfl, rfl, hl, hb.1 ‹_›⟩
    · rw [runs_bind] at hr
      obtain ⟨ty, _, hty, hr⟩ := hr
      obtain rfl := resultType_spec hty
      exact .inr ⟨hl, fun hn => ‹¬ b = true› (hb.2 hn), ty, hr⟩
  unfold Build.mul at h
  split at h
  · rw [runs_bind] at h
    obtain ⟨b, _, hb, h⟩ := h
    obtain ⟨rfl, hb⟩ := isConstant_spec hb
    split at h
    · obtain ⟨rfl, rfl⟩ := runs_pure.1 h
      exact .inl ⟨by simpa using ‹(op == "*") = true›, rfl, rfl, hb.1 ‹_›⟩
    · exact .inr (hrest (fun _ hl => ‹¬ b = true› (hb.2 hl)) h)
  · exact .inr (hrest (fun hop => absurd hop (by simpa using ‹¬ (op == "*") = true›)) h)

theorem add_spec (h : Runs (Build.add l r ty op) s o t)
    (hg : g.start ≤ s.nodes.size) (hl : g.HasAll s l) (hr : g.HasAll s r) :
    Grows g s t ∧ g.HasAll t o ∧ IsSum t op l r o := by
  rcases runs_add h with ⟨rfl, rfl, hz⟩ | ⟨rfl, rfl, -, hz⟩ | ⟨-, -, ty, h⟩
  · exact ⟨.refl, hr, .inl ⟨rfl, hz⟩⟩
  · exact ⟨.refl, hl, .inr (.inl ⟨rfl, hz⟩)⟩
  · obtain ⟨hgr, hm⟩ := create_spec h (g.passive _ rfl) (ids_pair hl hr rfl)
    obtain ⟨id, rfl, -, hf, -⟩ := id hm
    exact ⟨hgr, hm.hasAll hg, .inr (.inr ⟨id, rfl, hf⟩)⟩

theorem binop_spec (h : Runs (Build.binop ty op l r) s o t) (hl : g.HasAll s l) (hr : g.HasAll s r) :
    Grows g s t ∧ Made s t o (.binop op l r) (some ty) :=
  create_spec h (g.passive _ rfl) (ids_pair hl hr rfl)

theorem index_spec {p i : Operand} (h : Runs (Build.index p i) s o t) (hp : g.HasAll s p) (hi : g.HasAll s i) :
    Grows g s t ∧ ∃ id ty base, p = .node id ∧ s.type? id = some ty ∧ ty.base? = some base ∧
      Made s t o (.index p i) (some base) := by
  simp only [Build.index, CType.isAbsent, Bool.not_true, Bool.false_eq_true, if_false, runs_bind,
    runs_typeOf] at h
  obtain ⟨ty, _, ⟨id, rfl, hty, rfl⟩, base, _, hb, h⟩ := h
  unfold baseOf at hb
  split at hb
  · obtain ⟨rfl, rfl⟩ := runs_pure.1 hb
    obtain ⟨hgr, hm⟩ := create_spec h (g.passive _ rfl) (ids_pair hp hi rfl)
    exact ⟨hgr, id, ty, _, rfl, hty, ‹_›, hm⟩
  · exact absurd hb (by simp [runs_throw])

theorem joinTypes_spec (h : Runs (Build.joinTypes l r) s ty t) : t = s := by
  simp only [Build.joinTypes, runs_bind, runs_typeOf, runs_ofExcept] at h
  obtain ⟨_, _, ⟨_, _, _, rfl⟩, _, _, ⟨_, _, _, rfl⟩, _, rfl⟩ := h
  rfl

/-! ## Statements -/

theorem assignment_spec (h : Runs (Build.assignment l (.node id) m) s o t)
    (ha : g.allows (.assign l (.node id) m)) (hl : g.HasAll s l) (hv : g.Has s id) :
    Grows g s t ∧ ∃ ty, Made s t o (.assign l (.node id) m) (some ty) := by
  simp only [Build.assignment, pure_bind] at h
  split at h
  · simp [runs_throw] at h
  · simp only [runs_bind, runs_typeOf] at h
    obtain ⟨_, _, ⟨_, _, _, rfl⟩, h⟩ := h
    obtain ⟨hgr, hm⟩ := create_spec h ha (ids_pair hl (Region.hasAll_node.2 hv) rfl)
    exact ⟨hgr, _, hm⟩

theorem statement_spec {e : Operand} (h : Runs (Build.statement e) s o t) (he : g.HasAll s e) :
    Grows g s t ∧ ∃ ty, Made s t o (.statement e) (some ty) := by
  simp only [Build.statement, runs_bind, runs_nodeOf, runs_typeOf, runs_addNode, runs_pure] at h
  obtain ⟨_, _, ⟨_, _, _, rfl⟩, _, _, ⟨_, _, _, rfl⟩, _, _, ⟨rfl, rfl⟩, rfl, rfl⟩ := h
  exact ⟨grows_add (g.passive _ rfl) (ids_single he rfl), _, made_add⟩

theorem assign_spec (h : Runs (Build.assign l (.node id) m) s o t)
    (hg : g.start ≤ s.nodes.size) (ha : g.allows (.assign l (.node id) m)) (hl : g.HasAll s l)
    (hv : g.Has s id) :
    Grows g s t ∧ g.HasAll t o ∧ ∃ k a, o = .node k ∧ s.nodes.size ≤ k.index ∧ s.nodes.size ≤ a.index ∧
      t.form? k = some (.statement (.node a)) ∧ t.form? a = some (.assign l (.node id) m) := by
  simp only [Build.assign, runs_bind] at h
  obtain ⟨a, s1, h1, h2⟩ := h
  obtain ⟨g1, _, hm1⟩ := assignment_spec h1 ha hl hv
  obtain ⟨g2, _, hm2⟩ := statement_spec h2 (hm1.hasAll hg)
  have hk := hm2.hasAll (Nat.le_trans hg g1.size_le)
  obtain ⟨a, rfl, hle, hf, -⟩ := hm1
  obtain ⟨k, rfl, hle', hf', -⟩ := hm2
  exact ⟨g1.trans g2, hk, k, a, rfl, Nat.le_trans g1.size_le hle', hle, hf', g2.form? hf⟩

theorem sequence_spec (h : Runs (Build.sequence os) s o t) (hos : ∀ x ∈ os, g.HasAll s x) :
    Grows g s t ∧ Made s t o (.sequence (.group os)) none :=
  create_spec h (g.passive _ rfl) (ids_single (Region.hasAll_group hos) rfl)

end ArrayKernel.Ast
