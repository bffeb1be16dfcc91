import ArrayKernel.Pipeline
import ArrayKernel.Proofs.Copying
import ArrayKernel.Proofs.Dressing

/-!
# What the passes keep

The passes add nodes and change operands. They leave constants, sequences, names of variables and the values
that functions return as they are. `Keeping` collects what a property of sessions needs to survive such
changes.
-/

namespace ArrayKernel.Ast

variable {f f' : Form} {id : NodeId} {n : Node} {g : Node → Node} {P : Session → Prop} {name : String} {d : Datum}

/-! ## Changes of a form -/

/-- A role without what it refers to, where passes may replace that. -/
def VariableRole.bare : VariableRole → VariableRole
  | .element _ => .element .absent
  | .register _ => .register .absent
  | role => role

inductive Kept where
  | constant (d : Datum)
  | returning
  | sequence
  | statement
  | loop
  | function (success : Operand)
  | named (role : VariableRole) (name : Name) (emitted : Option String)
  | handling
  | jumping
  | foreign
  | other

namespace Form

def kept : Form → Kept
  | .constant d => .constant d
  | .yield _ => .returning
  | .sequence _ => .sequence
  | .statement _ => .statement
  | .loop _ => .loop
  | .function f => .function f.successValue
  | .var v => .named v.role.bare v.name v.emitted
  | .handler _ => .handling
  | .jump _ => .jumping
  | .foreign _ _ => .foreign
  | _ => .other

def isPlain (f : Form) : Bool := f.kept matches .constant _ | .sequence | .statement | .loop | .other

def isFailing (f : Form) : Bool := f.kept matches .returning | .handling | .jumping

def isFixed (f : Form) : Bool := f.kept matches .returning | .foreign

end Form

structure Soft (f f' : Form) : Prop where
  kept : f'.kept = f.kept
  fixed : f.isFixed = true → f' = f

theorem Soft.refl (f : Form) : Soft f f := ⟨rfl, fun _ => rfl⟩

theorem Form.isFixed_of_kept (h : f'.kept = f.kept) : f'.isFixed = f.isFixed := by
  unfold Form.isFixed
  rw [h]

theorem Soft.trans {g h : Form} (hfg : Soft f g) (hgh : Soft g h) : Soft f h where
  kept := hgh.kept.trans hfg.kept
  fixed hf := by
    have hg := hfg.fixed hf
    subst hg
    exact hgh.fixed hf

theorem Soft.of_kept (hf : f.isFixed = false) (h : f'.kept = f.kept) : Soft f f' :=
  ⟨h, fun hfixed => by rw [hf] at hfixed; cases hfixed⟩

/-! ## Changes of a session -/

structure Stays (s t : Session) : Prop where
  kept : ∀ id f, s.form? id = some f → ∃ f', t.form? id = some f' ∧ f'.kept = f.kept
  settings : t.settings = s.settings

theorem Stays.refl (s : Session) : Stays s s := ⟨fun _ f h => ⟨f, h, rfl⟩, rfl⟩

theorem Stays.trans {s t u : Session} (h : Stays s t) (h' : Stays t u) : Stays s u where
  kept id f hf := by
    obtain ⟨g, hg, hfg⟩ := h.kept id f hf
    obtain ⟨k, hk, hgk⟩ := h'.kept id g hg
    exact ⟨k, hk, hgk.trans hfg⟩
  settings := h'.settings.trans h.settings

theorem eq_constant_of_kept (h : f.kept = .constant d) : f = .constant d := by
  cases f <;> first | cases h; rfl | cases h

theorem eq_yield_of_kept (h : f.kept = .returning) : ∃ o, f = .yield o := by
  cases f <;> first | exact ⟨_, rfl⟩ | cases h

theorem eq_function_of_kept {success : Operand} (h : f.kept = .function success) :
    ∃ g, f = .function g ∧ g.successValue = success := by
  cases f <;> first | cases h; exact ⟨_, rfl, rfl⟩ | cases h

section

variable {s t : Session}

theorem Stays.constant (h : Stays s t) (hd : s.form? id = some (.constant d)) :
    t.form? id = some (.constant d) := by
  obtain ⟨f, hf, hkept⟩ := h.kept id _ hd
  rw [hf, eq_constant_of_kept hkept]

theorem Stays.of_forms (h : ∀ id, t.form? id = s.form? id) (hs : t.settings = s.settings) : Stays s t :=
  ⟨fun id f hf => ⟨f, by rw [h]; exact hf, rfl⟩, hs⟩

theorem form?_add (id : NodeId) : (s.add n).form? id = if id = s.next then some n.form else s.form? id := by
  unfold Session.form?
  rw [node?_add]
  split <;> rfl

theorem form?_alter_of (id j : NodeId) :
    (s.alter id g).form? j = if j = id then ((s.node? j).map g).map (·.form) else s.form? j := by
  unfold Session.form?
  rw [node?_alter]
  split <;> rfl

theorem form?_next : s.form? s.next = none := by
  unfold Session.form? Session.node? Session.next
  simp

theorem form?_add_of_some (h : s.form? id = some f) : (s.add n).form? id = some f := by
  rw [form?_add, if_neg, h]
  rintro rfl
  rw [form?_next] at h
  cases h

theorem type?_add_of_some {ty : CType} (h : s.type? id = some ty) : (s.add n).type? id = some ty := by
  obtain ⟨m, hm, -⟩ := Option.bind_eq_some_iff.1 h
  rw [Session.type?, node?_add, if_neg]
  · exact h
  · rintro rfl
    exact Nat.lt_irrefl _ (node?_lt hm)

theorem form?_add_cases (h : (s.add n).form? id = some f) : f = n.form ∨ s.form? id = some f := by
  rw [form?_add] at h
  split at h
  · exact .inl (Option.some.inj h).symm
  · exact .inr h

theorem Stays.add (n : Node) : Stays s (s.add n) :=
  ⟨fun _ f hf => ⟨f, form?_add_of_some hf, rfl⟩, rfl⟩

theorem form?_alter_cases {j : NodeId} (h : (s.alter id g).form? j = some f') :
    s.form? j = some f' ∨ ∃ n, j = id ∧ s.node? id = some n ∧ f' = (g n).form := by
  rw [form?_alter_of] at h
  split at h
  · rename_i hj
    subst hj
    obtain ⟨n', hn', rfl⟩ := Option.map_eq_some_iff.1 h
    obtain ⟨n, hn, rfl⟩ := Option.map_eq_some_iff.1 hn'
    exact .inr ⟨n, rfl, hn, rfl⟩
  · exact .inl h

theorem Stays.alter
    (hg : ∀ n, s.node? id = some n → (g n).form.kept = n.form.kept) : Stays s (s.alter id g) := by
  refine ⟨fun j f hf => ?_, rfl⟩
  obtain ⟨n, hn, rfl⟩ := node?_of_form? hf
  rw [form?_alter_of]
  by_cases hj : j = id
  · subst hj
    rw [if_pos rfl, hn]
    exact ⟨(g n).form, rfl, hg n hn⟩
  · rw [if_neg hj, hf]
    exact ⟨_, rfl, rfl⟩

end

/-! ## Properties that survive the passes -/

def Coined (name : String) : Prop :=
  name ∈ ["temp", "hoisted_temp", "xmm", "if_temp"] ∨ (∃ x d, name = x ++ "_stride" ++ toString (d : Nat)) ∨
    ∃ x, name = x ++ "_stride_temp"

theorem coined_temp : Coined "temp" := .inl (by decide)

theorem coined_hoisted : Coined "hoisted_temp" := .inl (by decide)

theorem coined_register : Coined "xmm" := .inl (by decide)

theorem coined_choice : Coined "if_temp" := .inl (by decide)

theorem coined_stride (x : String) (d : Nat) : Coined (x ++ "_stride" ++ toString d) := .inr (.inl ⟨x, d, rfl⟩)

theorem coined_strideTemp (x : String) : Coined (x ++ "_stride_temp") := .inr (.inr ⟨x, rfl⟩)

theorem Coined.isEmpty (h : Coined name) : name.isEmpty = false := by
  rcases h with h | ⟨x, d, rfl⟩ | ⟨x, rfl⟩
  · simp only [List.mem_cons, List.not_mem_nil, or_false] at h
    rcases h with rfl | rfl | rfl | rfl <;> rfl
  · simp
  · simp

/-- The names of the variables that passes add: functions of the C library, and the edge of a tile. -/
def Lent (s : Session) (name : String) : Prop :=
  name ∈ ["fmod", "fmodf", "fmodl"] ∨ s.settings.blocksize = some (.text name)

structure Keeping where
  Holds : Session → Prop
  Admits : Session → Form → Prop
  reports : Prop
  same {s t : Session} : Holds s → (∀ id, t.form? id = s.form? id) → t.settings = s.settings → Holds t
  add {s : Session} {n : Node} : Holds s → Admits s n.form → Holds (s.add n)
  alter {s : Session} {id : NodeId} {g : Node → Node} :
    Holds s → (∀ n, s.node? id = some n → Soft n.form (g n).form) → Holds (s.alter id g)
  returned {s t : Session} {id : NodeId} {o o' : Operand} : Holds s → s.form? id = some (.yield o) →
    Stays s t → Holds t → (∀ c d, o = .node c → s.form? c = some (.constant d) → o' = o) →
    Holds (t.alter id (Node.reform fun _ => .yield o'))
  copied {s t : Session} {ρ : NodeId → NodeId} : Holds s → Copied s t ρ → Holds t
  plain {s : Session} {f : Form} : f.isPlain = true → Admits s f
  held {s : Session} {v : Variable} : (∃ o, v.role = .element o ∨ v.role = .register o) → Admits s (.var v)
  temporary {s : Session} {name : String} {n : Nat} : Coined name →
    Admits s (.var { role := .temporary (Build.shownTemporary name n), name := .ofString name })
  lent {s : Session} {name : String} : Holds s → Lent s name →
    Admits s (.var { role := .plain, name := .datum (.text name) })
  strides {s t : Session} {array : Operand} {name : String} : Runs (nameOf array) s (.ofString name) s → Stays s t →
    Admits t (.var { role := .stridePointer array, name := .ofString (name ++ "_strides") })
  success {s : Session} {id : NodeId} {f : Function} : Holds s → s.form? id = some (.function f) →
    Admits s (.yield f.successValue)
  failing {s : Session} {f : Form} : reports → f.isFailing = true → Admits s f
  handled {s : Session} {id : NodeId} {h : Handler} : Holds s → s.form? id = some (.handler h) → reports

def unconditional : Keeping where
  Holds _ := True
  Admits _ _ := True
  reports := True
  same _ _ _ := trivial
  add _ _ := trivial
  alter _ _ := trivial
  returned _ _ _ _ _ := trivial
  copied _ _ := trivial
  plain _ := trivial
  held _ := trivial
  temporary _ := trivial
  lent _ _ := trivial
  strides _ _ := trivial
  success _ _ := trivial
  failing _ _ := trivial
  handled _ _ := trivial

/-- Where a property of sessions holds that does not report failures, nothing may fail. -/
def Warns (K : Keeping) : Prop := ∀ o s t, K.Holds s → Runs (mayFail o) s true t → K.reports

def Resolves (K : Keeping) : Prop := ∀ {s : Session} {id : NodeId} {text : String} {type : CType}, K.Holds s →
  (∃ f, s.form? id = some f ∧ f.kept = .foreign) →
  K.Holds (s.alter id (Node.reform fun _ => .foreign ("resolved_" ++ text) type))

/-! ## Children and copies -/

theorem kept_setChild (f : Form) (name : String) (o : Operand) : (f.setChild name o).kept = f.kept := by
  cases f with
  | var v =>
    obtain ⟨role, n, e, d, st⟩ := v
    simp only [Form.setChild]
    split <;> simp_all [Form.kept, VariableRole.bare]
  | _ =>
    simp only [Form.setChild]
    try split
    all_goals rfl

theorem soft_setChild {o : Operand}
    (hname : name ≠ "operand" ∨ f.kept ≠ .returning) : Soft f (f.setChild name o) := by
  refine ⟨kept_setChild f name o, fun hfixed => ?_⟩
  cases f with
  | yield x =>
    have hne : name ≠ "operand" := hname.resolve_right fun h => h rfl
    simp only [Form.setChild, beq_iff_eq, hne, if_false]
  | foreign text type => rfl
  | _ => cases hfixed

theorem kept_setChildren (f : Form) (news : List (String × Operand)) : (setChildren news f).kept = f.kept := by
  induction news generalizing f with
  | nil => rfl
  | cons new news ih => exact (ih (f.setChild new.1 new.2)).trans (kept_setChild f new.1 new.2)

theorem soft_setChildren {f : Form} (hf : f.kept ≠ .returning) (news : List (String × Operand)) :
    Soft f (setChildren news f) := by
  induction news generalizing f with
  | nil => exact .refl f
  | cons new news ih =>
    have hfirst : Soft f (f.setChild new.1 new.2) := soft_setChild (.inr hf)
    exact hfirst.trans (ih (by rw [hfirst.kept]; exact hf))

theorem Copied.stays {s t : Session} {ρ : NodeId → NodeId} (h : Copied s t ρ) : Stays s t :=
  ⟨fun id f hf => ⟨f, h.old id f hf, rfl⟩, h.settings⟩

/-! ## Names -/

theorem readOnly_nameOf (o : Operand) : ReadOnly (nameOf o) := by
  intro s r t h
  obtain ⟨n, u, hn, hform⟩ := runs_bind.1 h
  obtain ⟨-, -, -, rfl⟩ := runs_nodeOf.1 hn
  split at hform <;> first | exact (runs_pure.1 hform).2 | exact absurd hform (by simp [runs_throw])

theorem readOnly_dtypeOf (type : CType) : ReadOnly (dtypeOf type) := by
  intro s r t h
  unfold dtypeOf at h
  split at h
  · exact (runs_pure.1 h).2
  · cases runs_throw.1 h

end ArrayKernel.Ast
