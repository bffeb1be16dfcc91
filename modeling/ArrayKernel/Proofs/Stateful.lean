import ArrayKernel.Proofs.Run

/-! # Actions that know more than a session -/

namespace ArrayKernel.Ast

/-- A monad of actions on a session, which may have a state besides the session. -/
class Stateful (m : Type → Type) [Monad m] [MonadLiftT Action m] [MonadExceptOf Fault m]
    (σ : outParam Type) where
  session : σ → Session
  put : σ → Session → σ
  Ends : {α : Type} → m α → σ → α → σ → Prop
  ends_pure {α : Type} {x r : α} {p q : σ} : Ends (pure x) p r q ↔ r = x ∧ q = p
  ends_bind {α β : Type} {a : m α} {f : α → m β} {p q : σ} {r : β} :
    Ends (a >>= f) p r q ↔ ∃ x p', Ends a p x p' ∧ Ends (f x) p' r q
  ends_throw {α : Type} {e : Fault} {p q : σ} {r : α} : Ends (throw e : m α) p r q ↔ False
  ends_lift {α : Type} {a : Action α} {p q : σ} {r : α} :
    Ends (liftM a : m α) p r q ↔ ∃ t, Runs a (session p) r t ∧ q = put p t
  put_session (p : σ) : put p (session p) = p
  session_put (p : σ) (s : Session) : session (put p s) = s
  put_put (p : σ) (s t : Session) : put (put p s) t = put p t

instance : Stateful Action Session where
  session s := s
  put _ t := t
  Ends := Runs
  ends_pure := runs_pure
  ends_bind := runs_bind
  ends_throw := runs_throw
  ends_lift {α a p q r} := by
    simp
  put_session _ := rfl
  session_put _ _ := rfl
  put_put _ _ _ := rfl

section

variable {τ α β : Type} {p q : Session × τ} {a : Action α} {f : α → StateT τ Action β} {r : β}

def RunsWith (a : StateT τ Action α) (p : Session × τ) (r : α) (q : Session × τ) : Prop :=
  Runs (a.run p.2) p.1 (r, q.2) q.1

theorem runsWith_bind {a : StateT τ Action α} :
    RunsWith (a >>= f) p r q ↔ ∃ x p', RunsWith a p x p' ∧ RunsWith (f x) p' r q := by
  simp only [RunsWith, StateT.run_bind, runs_bind]
  constructor
  · rintro ⟨⟨x, t⟩, u, h, h'⟩
    exact ⟨x, (u, t), h, h'⟩
  · rintro ⟨x, ⟨u, t⟩, h, h'⟩
    exact ⟨(x, t), u, h, h'⟩

theorem runsWith_lift {r : α} :
    RunsWith (liftM a : StateT τ Action α) p r q ↔ ∃ t, Runs a p.1 r t ∧ q = (t, p.2) := by
  show Runs (a >>= fun x => pure (x, p.2)) p.1 (r, q.2) q.1 ↔ _
  simp only [runs_bind, runs_pure]
  constructor
  · rintro ⟨x, t, h, heq, ht⟩
    obtain ⟨rfl, hq⟩ := Prod.mk.inj heq
    exact ⟨t, h, Prod.ext ht hq⟩
  · rintro ⟨t, h, rfl⟩
    exact ⟨r, t, h, rfl, rfl⟩

instance : Stateful (StateT τ Action) (Session × τ) where
  session p := p.1
  put p t := (t, p.2)
  Ends := RunsWith
  ends_pure {α x r p q} := by
    simp only [RunsWith, StateT.run_pure, runs_pure, Prod.mk.injEq]
    constructor
    · rintro ⟨⟨hr, h₂⟩, h₁⟩
      exact ⟨hr, Prod.ext h₁ h₂⟩
    · rintro ⟨rfl, rfl⟩
      exact ⟨⟨rfl, rfl⟩, rfl⟩
  ends_bind := runsWith_bind
  ends_throw {α e p q r} := by
    show Runs ((throw e : Action α) >>= fun x => pure (x, p.2)) p.1 (r, q.2) q.1 ↔ _
    simp [runs_throw]
  ends_lift := runsWith_lift
  put_session _ := rfl
  session_put _ _ := rfl
  put_put _ _ _ := rfl

theorem ends_get {r : τ} : Stateful.Ends (get : StateT τ Action τ) p r q ↔ r = p.2 ∧ q = p := by
  show Runs (pure (p.2, p.2)) p.1 (r, q.2) q.1 ↔ _
  rw [runs_pure]
  constructor
  · rintro ⟨heq, h1⟩
    obtain ⟨rfl, h2⟩ := Prod.mk.inj heq
    exact ⟨rfl, Prod.ext h1 h2⟩
  · rintro ⟨rfl, rfl⟩
    exact ⟨rfl, rfl⟩

theorem ends_set {x : τ} {r : PUnit} : Stateful.Ends (set x : StateT τ Action PUnit) p r q ↔ q = (p.1, x) := by
  show Runs (pure (⟨⟩, x)) p.1 (r, q.2) q.1 ↔ _
  rw [runs_pure]
  constructor
  · rintro ⟨heq, h1⟩
    exact Prod.ext h1 (Prod.mk.inj heq).2
  · rintro rfl
    exact ⟨rfl, rfl⟩

theorem ends_modify {f : τ → τ} {r : PUnit} :
    Stateful.Ends (modify f : StateT τ Action PUnit) p r q ↔ q = (p.1, f p.2) := by
  show Runs (pure (⟨⟩, f p.2)) p.1 (r, q.2) q.1 ↔ _
  rw [runs_pure]
  constructor
  · rintro ⟨heq, h1⟩
    exact Prod.ext h1 (Prod.mk.inj heq).2
  · rintro rfl
    exact ⟨rfl, rfl⟩

/-! ### First steps -/

variable {s : Session} {e : τ}

theorem ends_act {r : α} :
    Stateful.Ends (liftM a : StateT τ Action α) (s, e) r q ↔ ∃ t, Runs a s r t ∧ q = (t, e) := runsWith_lift

theorem ends_act_bind :
    Stateful.Ends (liftM a >>= f) (s, e) r q ↔ ∃ x t, Runs a s x t ∧ Stateful.Ends (f x) (t, e) r q := by
  rw [Stateful.ends_bind]
  constructor
  · rintro ⟨x, p, h, h'⟩
    obtain ⟨t, ht, rfl⟩ := runsWith_lift.1 h
    exact ⟨x, t, ht, h'⟩
  · rintro ⟨x, t, h, h'⟩
    exact ⟨x, (t, e), runsWith_lift.2 ⟨t, h, rfl⟩, h'⟩

theorem ends_get_bind {f : τ → StateT τ Action β} :
    Stateful.Ends (get >>= f) (s, e) r q ↔ Stateful.Ends (f e) (s, e) r q := by
  rw [Stateful.ends_bind]
  constructor
  · rintro ⟨x, p, h, h'⟩
    obtain ⟨rfl, rfl⟩ := ends_get.1 h
    exact h'
  · exact fun h => ⟨e, (s, e), ends_get.2 ⟨rfl, rfl⟩, h⟩

end

end ArrayKernel.Ast
