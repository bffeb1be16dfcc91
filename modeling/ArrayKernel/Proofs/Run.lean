import ArrayKernel.Builder.Function
import Mathlib.Data.List.Basic

/-!
# Successful runs

An action changes a session and may fail. What a successful run did is read off the action step by step:
`runs_bind` takes a run apart at each step, and a small lemma for each primitive says what that step did.
-/

namespace ArrayKernel.Ast

/-- An action ends well on a session: its result, and the session it leaves. -/
def Runs (a : Action α) (s : Session) (r : α) (t : Session) : Prop := a.runOn s = (.ok r, t)

variable {α β : Type} {s t u x : Session} {r : α} {a : Action α}

theorem runOn_bind (a : Action α) (f : α → Action β) (s : Session) : (a >>= f).runOn s = match a.runOn s with
      | (.ok x, u) => (f x).runOn u
      | (.error e, u) => (.error e, u) := by
  unfold Action.runOn
  rcases h : a.run.run s with ⟨_ | x, u⟩
  all_goals
    have h' : a s = _ := h
    show (StateT.bind a (ExceptT.bindCont f)) s = _
    simp only [StateT.bind, h']
    rfl

theorem runs_bind {f : α → Action β} {r : β} :
    Runs (a >>= f) s r t ↔ ∃ x u, Runs a s x u ∧ Runs (f x) u r t := by
  unfold Runs
  rw [runOn_bind]
  rcases h : a.runOn s with ⟨_ | x, u⟩ <;> simp

def Action.succeeds (a : Action α) (s : Session) : Bool :=
  match (a.runOn s).1 with
  | .ok _ => true
  | .error _ => false

theorem exists_runs (h : a.succeeds s = true) : ∃ r t, Runs a s r t := by
  unfold Action.succeeds at h
  unfold Runs
  rcases hrun : a.runOn s with ⟨_ | r, t⟩
  · simp [hrun] at h
  · exact ⟨r, t, rfl⟩

theorem runs_unique {t' : Session} {r' : α} (h : Runs a s r t) (h' : Runs a s r' t') : r = r' ∧ t = t' := by
  have heq := h.symm.trans h'
  simpa using heq

theorem runs_pure {x : α} : Runs (pure x) s r t ↔ r = x ∧ t = s := by
  show ((Except.ok x, s) : Except Fault α × Session) = (Except.ok r, t) ↔ _
  simp [eq_comm]

theorem runs_throw {e : Fault} : Runs (throw e) s r t ↔ False := by
  show ((Except.error e, s) : Except Fault α × Session) = (Except.ok r, t) ↔ _
  simp

theorem runs_get {r : Session} : Runs get s r t ↔ r = s ∧ t = s := by
  show ((Except.ok s, s) : Except Fault Session × Session) = (Except.ok r, t) ↔ _
  simp [eq_comm]

theorem runs_set {r : PUnit} : Runs (set x) s r t ↔ t = x := by
  show ((Except.ok ⟨⟩, x) : Except Fault PUnit × Session) = (Except.ok r, t) ↔ _
  simp [eq_comm]

theorem runs_get_bind {f : Session → Action α} : Runs (get >>= f) s r t ↔ Runs (f s) s r t := by
  simp only [runs_bind, runs_get]
  constructor
  · rintro ⟨_, _, ⟨rfl, rfl⟩, h⟩
    exact h
  · exact fun h => ⟨s, s, ⟨rfl, rfl⟩, h⟩

theorem runs_set_bind {f : PUnit → Action α} : Runs (set x >>= f) s r t ↔ Runs (f ⟨⟩) x r t := by
  simp only [runs_bind, runs_set]
  constructor
  · rintro ⟨_, _, rfl, h⟩
    exact h
  · exact fun h => ⟨⟨⟩, x, rfl, h⟩

theorem runs_modify {f : Session → Session} {r : PUnit} : Runs (modify f) s r t ↔ t = f s := by
  show ((Except.ok ⟨⟩, f s) : Except Fault PUnit × Session) = (Except.ok r, t) ↔ _
  simp [eq_comm]

theorem runs_ofExcept {e : Except Fault α} : Runs (Action.ofExcept e) s r t ↔ e = .ok r ∧ t = s := by
  cases e with
  | ok a => simp only [Action.ofExcept, runs_pure, Except.ok.injEq, eq_comm]
  | error e => simp [Action.ofExcept, runs_throw]

theorem runs_required {x : Option α} : Runs (required x) s r t ↔ x = some r ∧ t = s := by
  cases x with
  | none => simp [required, runs_throw]
  | some a => simp only [required, runs_pure, Option.some.injEq, eq_comm]

theorem runs_settings {r : Settings} : Runs settings s r t ↔ r = s.settings ∧ t = s := by
  rw [settings, runs_get_bind, runs_pure]

/-! ## Lists -/

variable {f : α → Action β} {x : α} {xs : List α} {r : List β}

theorem runs_mapM_nil : Runs (([] : List α).mapM f) s r t ↔ r = [] ∧ t = s := by
  rw [List.mapM_nil, runs_pure]

theorem runs_mapM_cons :
    Runs ((x :: xs).mapM f) s r t ↔ ∃ y u ys, Runs (f x) s y u ∧ Runs (xs.mapM f) u ys t ∧ r = y :: ys := by
  simp only [List.mapM_cons, runs_bind, runs_pure]
  constructor
  · rintro ⟨y, u, hy, ys, _, hys, rfl, rfl⟩
    exact ⟨y, u, ys, hy, hys, rfl⟩
  · rintro ⟨y, u, ys, hy, hys, rfl⟩
    exact ⟨y, u, hy, ys, t, hys, rfl, rfl⟩

end ArrayKernel.Ast
