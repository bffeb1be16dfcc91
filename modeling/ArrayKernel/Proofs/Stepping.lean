import ArrayKernel.Proofs.Execution

/-! # Points of an execution -/

namespace ArrayKernel.Running

open Ast

variable {m : Machine} {ks ls : List Step} {τ : Temporaries}
variable {depth : Nat} {o : Operand} {τ' : Temporaries}

/-! ## Coming to a statement -/

/-- What is still to be done, and the temporaries, at a point of an execution. -/
inductive Reaches (m : Machine) : List Step → Temporaries → List Step → Temporaries → Prop where
  | refl (ks : List Step) (τ : Temporaries) : Reaches m ks τ ks τ
  | step {k js ks ls ev} {τ τ₁ τ' : Temporaries} (hn : Next m k τ ev js τ₁) (h : Reaches m (js ++ ks) τ₁ ls τ') :
    Reaches m (k :: ks) τ ls τ'

theorem Reaches.trans {ms : List Step} {τ1 τ2 : Temporaries} (h : Reaches m ks τ ls τ1)
    (h' : Reaches m ls τ1 ms τ2) : Reaches m ks τ ms τ2 := by
  induction h with
  | refl => exact h'
  | step hn _ ih => exact .step hn (ih h')

theorem exists_next {id : NodeId} {f : Form} (hf : m.store.form? id = some f)
    (hstay : effect m.parallel f ≠ .leaves) (τ : Temporaries) : ∃ ev js τ', Next m (.run (.node id)) τ ev js τ' := by
  have hmay : ∀ o, ∃ n, May m τ o n := by
    intro o
    by_cases h : ∃ n, HasValue m τ o n
    · obtain ⟨n, hn⟩ := h
      exact ⟨n, fun k hk => value_unique hn hk⟩
    · exact ⟨0, fun n hn => absurd ⟨n, hn⟩ h⟩
  by_cases hid : id = m.leaf
  · subst hid
    exact ⟨_, _, _, .leaf fun _ _ => rfl⟩
  cases he : effect m.parallel f with
  | steps ks => exact ⟨_, _, _, .steps hid hf he⟩
  | assigns target value =>
    obtain ⟨n, hn⟩ := hmay value
    exact ⟨_, _, _, .assigns hid hf he hn⟩
  | branches c a b =>
    obtain ⟨n, hn⟩ := hmay c
    exact ⟨_, _, _, .branches hid hf he hn⟩
  | leaves => exact absurd he hstay
  | other => exact ⟨_, _, _, .other hid hf he fun _ _ => rfl⟩

/-! ## Computed steps -/

/-- The value of an expression of numbers, temporaries and passed items, if it is found within a depth. -/
def value? (m : Machine) (τ : Temporaries) : Nat → Operand → Option Int
  | depth + 1, .node id => match m.store.form? id with
    | some (.constant (.int n)) => some n
    | some (.var { role := .temporary _, .. }) => some (τ id)
    | some (.index (.node p) i) => match m.store.form? p with
      | some (.var v) => if isPassed v.role then (value? m τ depth i).map (m.inputs.item v.name) else none
      | _ => none
    | some (.binop operator (.node l) r) => do
      let a ← value? m τ depth (.node l)
      let b ← value? m τ depth r
      if operator = "<" then return if a < b then 1 else 0
      if operator = "+" then return a + m.inputs.scale (m.store.type? l) * b
      none
    | _ => none
  | _, _ => none

theorem hasValue_of_value? {n : Int} (h : value? m τ depth o = some n) : HasValue m τ o n := by
  induction depth generalizing o n with
  | zero => simp [value?] at h
  | succ depth ih =>
    unfold value? at h
    split at h
    · rename_i heq
      cases heq
      split at h
      · rename_i hform
        cases h
        exact .constant hform
      · rename_i hform
        cases h
        exact .temporary hform rfl
      · rename_i p i hform
        split at h
        · rename_i v hp
          split at h
          · rename_i hpassed
            obtain ⟨k, hk, rfl⟩ := Option.map_eq_some_iff.1 h
            exact .item hform hp hpassed (ih hk)
          · cases h
        · cases h
      · rename_i operator l r hform
        obtain ⟨a, ha, h1⟩ := Option.bind_eq_some_iff.1 h
        obtain ⟨b, hb, h2⟩ := Option.bind_eq_some_iff.1 h1
        split at h2
        · subst operator
          cases h2
          exact .less hform (ih ha) (ih hb)
        · split at h2
          · subst operator
            cases h2
            exact .sum hform (ih ha) (ih hb)
          · cases h2
      · cases h
    · cases h

theorem may_of_value? {n : Int} (h : value? m τ depth o = some n) : May m τ o n :=
  (may_iff (hasValue_of_value? h)).2 rfl

def advance (m : Machine) : List Step × Temporaries → Option (List Step × Temporaries)
  | (.run (.datum _) :: ks, τ) => some (ks, τ)
  | (.run (.node id) :: ks, τ) => do
    if id = m.leaf then none
    match effect m.parallel (← m.store.form? id) with
    | .steps js => return (js ++ ks, τ)
    | .assigns t r => return (ks, Function.update τ t (← value? m τ 9 r))
    | .other => return (ks, τ)
    | _ => none
  | (.again l :: ks, τ) => do
    if (← value? m τ 9 l.condition) = 0 then return (ks, τ)
    return (.run l.body :: .run l.step :: .again l :: ks, τ)
  | _ => none

theorem reaches_of_advance (h : advance m (ks, τ) = some (ls, τ')) : Reaches m ks τ ls τ' := by
  unfold advance at h
  split at h
  · rename_i heq
    cases heq
    cases h
    exact .step .skip (.refl _ _)
  · rename_i id ks' τ0 heq
    cases heq
    split at h
    · cases h
    · rename_i hid
      obtain ⟨f, hf, h1⟩ := Option.bind_eq_some_iff.1 h
      split at h1
      · rename_i js he
        cases h1
        exact .step (.steps hid hf he) (.refl _ _)
      · rename_i t r he
        obtain ⟨n, hn, h2⟩ := Option.bind_eq_some_iff.1 h1
        cases h2
        exact .step (.assigns hid hf he (may_of_value? hn)) (.refl _ _)
      · rename_i he
        cases h1
        exact .step (.other hid hf he fun _ _ => rfl) (.refl _ _)
      · cases h1
  · rename_i l ks' τ0 heq
    cases heq
    obtain ⟨n, hn, h1⟩ := Option.bind_eq_some_iff.1 h
    split at h1
    · subst n
      cases h1
      exact .step (.exit (may_of_value? hn)) (.refl _ _)
    · rename_i hne
      cases h1
      exact .step (.again (may_of_value? hn) hne) (.refl _ _)
  · cases h

def advanceBy (m : Machine) : Nat → List Step × Temporaries → Option (List Step × Temporaries)
  | 0, p => some p
  | n + 1, p => (advance m p).bind (advanceBy m n)

theorem reaches_of_advanceBy {n : Nat} (h : advanceBy m n (ks, τ) = some (ls, τ')) : Reaches m ks τ ls τ' := by
  induction n generalizing ks τ with
  | zero =>
    cases h
    exact .refl _ _
  | succ n ih =>
    obtain ⟨⟨js, τ1⟩, h1, h2⟩ := Option.bind_eq_some_iff.1 h
    exact (reaches_of_advance h1).trans (ih h2)

end ArrayKernel.Running
