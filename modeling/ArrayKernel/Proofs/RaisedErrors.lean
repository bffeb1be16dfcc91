import ArrayKernel.Proofs.Level
import ArrayKernel.Proofs.Stepping
import ArrayKernel.Proofs.Upkeep

/-!
# Raised errors

A kernel that raises an error calls the function that sets it and goes on. Handlers and error branches are
made only for foreign nodes that may fail, so without them the value of success is returned in any case.
-/

namespace ArrayKernel

open Ast

/-! ## Specialized kernels -/

section

variable {T : Terms}

theorem Ast.Level.weaken {s : Session} (hl : Level T s) : Level { T with allowed := fun _ => True } s :=
  ⟨hl.still, hl.returns, hl.success, fun _ _ _ _ => trivial, hl.failing⟩

theorem specializeKernel_level (hsafe : Layout.Safe T) {kernel o : Operand} {scheme : Layout.Scheme} {s t : Session}
    (h : Runs (specializeKernel kernel scheme) s o t) (hl : Level T s) :
    Level { T with allowed := fun _ => True } t :=
  specializeKernel_kept (L := Terms.keeping { T with allowed := fun _ => True }) hsafe.warns
    (Layout.resolves_of_allowed fun _ => trivial) (fun _ => Level.weaken) h hl

end

namespace Running

/-! ## Leaving a function -/

/-- At every statement that an execution of a body comes to it goes on, or returns one constant. -/
def ReturnsOnly (m : Machine) (body : Operand) (value : Datum) : Prop :=
  ∀ τ ls τ' id f, Reaches m [.run body] τ (.run (.node id) :: ls) τ' → m.store.form? id = some f →
    (∃ ev js τ₁, Next m (.run (.node id)) τ' ev js τ₁) ∨
      ∃ c, f = .yield (.node c) ∧ m.store.form? c = some (.constant value)

theorem leaves_cases {parallel : Bool} {f : Form} (h : effect parallel f = .leaves) :
    (∃ o, f = .yield o) ∨ f.isStill = false := by
  unfold effect at h
  split at h <;> first | exact .inl ⟨_, rfl⟩ | exact .inr rfl | cases h

theorem returnsOnly_of_level {T : Terms} {m : Machine} (hl : Level T m.store) (body : Operand) :
    ReturnsOnly m body T.value := by
  intro τ ls τ' id f _ hf
  by_cases hleaves : effect m.parallel f = .leaves
  · rcases leaves_cases hleaves with ⟨o, rfl⟩ | hjumps
    · obtain ⟨c, rfl, hc⟩ := hl.returns id o hf
      exact .inr ⟨c, rfl, hc⟩
    · rw [hl.still id f hf] at hjumps
      cases hjumps
  · exact .inl (exists_next hf hleaves τ')

/-- Nothing that may fail occurs, and a value is that of success. -/
def unfailing (value : Datum) (failing : Option (List String)) : Terms :=
  ⟨value, failing, fun text => ∀ texts, failing = some texts → text ∉ texts⟩

/-- Whatever a kernel raises, its function returns nothing but the value of success. -/
theorem raised_errors_return_success {value : Datum} {kernel o : Operand} {scheme : Layout.Scheme} {s t : Session}
    (hl : Level (unfailing value s.settings.failing) s) (h : Runs (specializeKernel kernel scheme) s o t)
    (inputs : Inputs) (parallel : Bool) (leaf : NodeId) {id : NodeId} {f : Function}
    (hf : t.form? id = some (.function f)) :
    (∃ c, f.successValue = .node c ∧ t.form? c = some (.constant value)) ∧
      ReturnsOnly ⟨t, inputs, parallel, leaf⟩ f.body value := by
  have hsafe : Layout.Safe (unfailing value s.settings.failing) :=
    fun texts hfailing _ hmem hallowed => hallowed texts hfailing hmem
  have hlast := specializeKernel_level hsafe h hl
  exact ⟨hlast.success id f hf, returnsOnly_of_level (m := ⟨t, inputs, parallel, leaf⟩) hlast f.body⟩

/-! ### A kernel that raises an error -/

def raising : Action Operand := do
  let out ← Build.variableOf (CType.array CType.float64 1 false false false none) (.text "out")
  let exception ← Build.variableOf CType.objectType (.text "PyExc_ValueError")
  let message ← Build.variableOf CType.cStringType (.text "msg")
  Build.functionOver [out] (← Build.raise .absent exception message (.group [])) (.text "f")

/-- Whether a session holds no foreign nodes, handlers, jumps and returns, and functions succeed with a
number. -/
def isAtRest (value : Int) (s : Session) : Bool :=
  s.nodes.all fun n => match n.form with
    | .handler _ | .jump _ | .yield _ | .foreign _ _ => false
    | .function f => match (f.successValue.id?).bind s.form? with
      | some (.constant (.int n)) => n == value
      | _ => false
    | _ => true

theorem level_of_isAtRest {value : Int} {s : Session} (h : isAtRest value s = true) :
    Level (unfailing (.int value) s.settings.failing) s := by
  have hall : ∀ id f, s.form? id = some f → (match f with
      | .handler _ | .jump _ | .yield _ | .foreign _ _ => false
      | .function f => match (f.successValue.id?).bind s.form? with
        | some (.constant (.int n)) => n == value
        | _ => false
      | _ => true) = true := by
    intro id f hf
    obtain ⟨n, hn, rfl⟩ := node?_of_form? hf
    obtain ⟨hlt, rfl⟩ := Array.getElem?_eq_some_iff.1 hn
    exact Array.all_eq_true.1 h id.index hlt
  refine ⟨?_, ?_, ?_, ?_, rfl⟩
  · intro id f hf
    have hform := hall id f hf
    cases f <;> first | rfl | cases hform
  · intro id o ho
    exact absurd (hall id _ ho) (by simp)
  · intro id f hf
    have hform := hall id _ hf
    dsimp only at hform
    split at hform
    · rename_i n hn
      obtain ⟨c, hc, hv⟩ := Option.bind_eq_some_iff.1 hn
      obtain rfl := eq_of_beq hform
      cases ho : f.successValue <;> rw [ho] at hc <;> cases hc
      exact ⟨c, rfl, hv⟩
    · cases hform
  · intro id text type hf
    exact absurd (hall id _ hf) (by simp)

def number? (t : Session) (o : Operand) : Option Int :=
  match (o.id?).bind t.form? with
  | some (.constant (.int n)) => some n
  | _ => none

def returned? (t : Session) (o : Operand) : Option Int :=
  match (o.id?).bind t.form? with
  | some (.yield c) => number? t c
  | _ => none

def callee? (t : Session) (o : Operand) : Option String :=
  match (o.id?).bind t.form? with
  | some (.call c _ _) => match (c.id?).bind t.form? with
    | some (.functionName (.text name) _) => some name
    | _ => none
  | _ => none

def onOne (t : Session) : Machine := ⟨t, ⟨fun _ => 0, fun _ _ => 1, fun _ => 8⟩, false, t.next⟩

def goesOn (t : Session) (body : Operand) : Bool :=
  match advanceBy (onOne t) 15 ([.run body], fun _ => 0) with
  | some (.run r :: ls, τ) => callee? t r == some "PyErr_Format" &&
    match advanceBy (onOne t) 4 (.run r :: ls, τ) with
    | some (.run y :: _, _) => returned? t y == some 0
    | _ => false
  | _ => false

/-- Whether the kernel that raises an error can be specialized, fails with another number than it succeeds
with, and goes on. -/
def raisingGoesOn : Bool :=
  match raising.runOn {} with
  | (.ok kernel, s) => isAtRest 0 s &&
    match (specializeKernel kernel ⟨.contiguous, .rowMajor, none⟩).runOn s with
    | (.ok (.node id), t) => match t.form? id with
      | some (.function f) => number? t f.errorValue == some (-1) && goesOn t f.body
      | _ => false
    | _ => false
  | _ => false

theorem raising_specializes : ∃ kernel s id t f, Runs raising {} kernel s ∧ isAtRest 0 s = true ∧
    Runs (specializeKernel kernel ⟨.contiguous, .rowMajor, none⟩) s (.node id) t ∧
      t.form? id = some (.function f) ∧ number? t f.errorValue = some (-1) ∧ goesOn t f.body = true := by
  have h : raisingGoesOn = true := by decide +kernel
  unfold raisingGoesOn at h
  split at h
  · rename_i kernel s hbuild
    obtain ⟨hrest, h1⟩ := Bool.and_eq_true_iff.1 h
    split at h1
    · rename_i id t hrun
      split at h1
      · rename_i f hf
        obtain ⟨herror, hgoes⟩ := Bool.and_eq_true_iff.1 h1
        exact ⟨kernel, s, id, t, f, hbuild, hrest, hrun, hf, eq_of_beq herror, hgoes⟩
      · cases h1
    · cases h1
  · cases h

theorem raising_returns_success : ∃ kernel s id t f, Runs raising {} kernel s ∧
    Runs (specializeKernel kernel ⟨.contiguous, .rowMajor, none⟩) s (.node id) t ∧
      t.form? id = some (.function f) ∧
      (∃ c, f.successValue = .node c ∧ t.form? c = some (.constant (.int 0))) ∧
      ReturnsOnly (onOne t) f.body (.int 0) := by
  obtain ⟨kernel, s, id, t, f, hbuild, hrest, hrun, hf, -, -⟩ := raising_specializes
  exact ⟨kernel, s, id, t, f, hbuild, hrun, hf,
    raised_errors_return_success (level_of_isAtRest hrest) hrun _ _ _ hf⟩

/-- The function fails with `-1`. It sets an error, goes on, and returns `0`. -/
theorem raising_goes_on : ∃ kernel s id t f r ls τ y ls' τ', Runs raising {} kernel s ∧
    Runs (specializeKernel kernel ⟨.contiguous, .rowMajor, none⟩) s (.node id) t ∧
      t.form? id = some (.function f) ∧ number? t f.errorValue = some (-1) ∧
      Reaches (onOne t) [.run f.body] (fun _ => 0) (.run r :: ls) τ ∧ callee? t r = some "PyErr_Format" ∧
      Reaches (onOne t) (.run r :: ls) τ (.run y :: ls') τ' ∧ returned? t y = some 0 := by
  obtain ⟨kernel, s, id, t, f, hbuild, -, hrun, hf, herror, h⟩ := raising_specializes
  unfold goesOn at h
  split at h
  · rename_i r ls τ hcall
    obtain ⟨hcallee, h₁⟩ := Bool.and_eq_true_iff.1 h
    split at h₁
    · rename_i y ls' τ' hreturn
      exact ⟨kernel, s, id, t, f, r, ls, τ, y, ls', τ', hbuild, hrun, hf, herror, reaches_of_advanceBy hcall,
        eq_of_beq hcallee, reaches_of_advanceBy hreturn, eq_of_beq h₁⟩
    · cases h₁
  · cases h

end Running

end ArrayKernel
