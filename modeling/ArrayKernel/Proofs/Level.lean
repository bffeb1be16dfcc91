import ArrayKernel.Proofs.Keeping

/-! # Level sessions -/

namespace ArrayKernel.Ast

variable {id : NodeId} {f : Form} {o : Operand}

/-! ## What is level -/

def Form.isStill : Form → Bool
  | .handler _ | .jump _ => false
  | _ => true

/-- What a session is held to: the value that is returned, the foreign nodes that may fail, and those that
may occur. -/
structure Terms where
  value : Datum
  failing : Option (List String)
  allowed : String → Prop

/-- No node handles errors or jumps, every node that returns gives back one constant, which is also the value
of success of every function, and foreign nodes are those that may occur. -/
structure Level (T : Terms) (s : Session) : Prop where
  still : ∀ id f, s.form? id = some f → f.isStill = true
  returns : ∀ id o, s.form? id = some (.yield o) → ∃ c, o = .node c ∧ s.form? c = some (.constant T.value)
  success : ∀ id f, s.form? id = some (.function f) →
    ∃ c, f.successValue = .node c ∧ s.form? c = some (.constant T.value)
  foreign : ∀ id text type, s.form? id = some (.foreign text type) → T.allowed text
  failing : s.settings.failing = T.failing

structure Admitted (T : Terms) (s : Session) (f : Form) : Prop where
  still : f.isStill = true
  returns : ∀ o, f = .yield o → ∃ c, o = .node c ∧ s.form? c = some (.constant T.value)
  success : ∀ g, f = .function g → ∃ c, g.successValue = .node c ∧ s.form? c = some (.constant T.value)
  foreign : ∀ text type, f = .foreign text type → T.allowed text

section

variable {T : Terms} {s t : Session} {f' : Form}

theorem level_iff : Level T s ↔ s.settings.failing = T.failing ∧ ∀ id f, s.form? id = some f → Admitted T s f := by
  constructor
  · intro h
    refine ⟨h.failing, fun id f hf => ⟨h.still id f hf, ?_, ?_, ?_⟩⟩
    · rintro o rfl
      exact h.returns id o hf
    · rintro g rfl
      exact h.success id g hf
    · rintro text type rfl
      exact h.foreign id text type hf
  · rintro ⟨hfailing, h⟩
    exact ⟨fun id f hf => (h id f hf).still, fun id o ho => (h id _ ho).returns o rfl,
      fun id f hf => (h id _ hf).success f rfl, fun id text type hf => (h id _ hf).foreign text type rfl, hfailing⟩

theorem Level.admitted (h : Level T s) (hf : s.form? id = some f) : Admitted T s f :=
  (level_iff.1 h).2 id f hf

theorem Admitted.mono (h : Admitted T s f)
    (hst : ∀ c d, s.form? c = some (.constant d) → t.form? c = some (.constant d)) : Admitted T t f where
  still := h.still
  returns o ho := by
    obtain ⟨c, hc, hv⟩ := h.returns o ho
    exact ⟨c, hc, hst c _ hv⟩
  success g hg := by
    obtain ⟨c, hc, hv⟩ := h.success g hg
    exact ⟨c, hc, hst c _ hv⟩
  foreign := h.foreign

theorem isStill_of_kept (h : f'.kept = f.kept) : f'.isStill = f.isStill := by
  have hkept : ∀ f : Form, f.isStill = !(f.kept matches .handling | .jumping) := by
    intro f
    cases f <;> rfl
  rw [hkept, hkept, h]

theorem Admitted.of_soft (h : Admitted T s f) (hsoft : Soft f f') : Admitted T s f' where
  still := (isStill_of_kept hsoft.kept).trans h.still
  returns o ho := by
    have hsame := hsoft.fixed ((Form.isFixed_of_kept hsoft.kept).symm.trans (by rw [ho]; rfl))
    exact h.returns o (hsame.symm.trans ho)
  success g hg := by
    obtain ⟨g', hg', hvalue⟩ := eq_function_of_kept (hsoft.kept.symm.trans (by rw [hg]; rfl))
    rw [← hvalue]
    exact h.success g' hg'
  foreign text type hf := by
    have hsame := hsoft.fixed ((Form.isFixed_of_kept hsoft.kept).symm.trans (by rw [hf]; rfl))
    exact h.foreign text type (hsame.symm.trans hf)

theorem Admitted.of_isPlain (h : f.isPlain = true) : Admitted T s f where
  still := by cases f <;> first | rfl | cases h
  returns o ho := by
    subst ho
    cases h
  success g hg := by
    subst hg
    cases h
  foreign text type hf := by
    subst hf
    cases h

theorem Admitted.var (v : Variable) : Admitted T s (.var v) where
  still := rfl
  returns _ h := by cases h
  success _ h := by cases h
  foreign _ _ h := by cases h

theorem Admitted.yield {c : NodeId} (hc : s.form? c = some (.constant T.value)) :
    Admitted T s (.yield (.node c)) where
  still := rfl
  returns o ho := by
    cases ho
    exact ⟨c, rfl, hc⟩
  success _ h := by cases h
  foreign _ _ h := by cases h

/-! ## Level sessions stay level -/

theorem Level.same (hl : Level T s) (h : ∀ id, t.form? id = s.form? id) (hs : t.settings = s.settings) :
    Level T t := by
  refine level_iff.2 ⟨by rw [hs]; exact hl.failing, fun id f hf => ?_⟩
  rw [h] at hf
  exact (hl.admitted hf).mono fun c d hd => by rw [h]; exact hd

theorem Level.add (hl : Level T s) {n : Node} (hn : Admitted T s n.form) : Level T (s.add n) := by
  refine level_iff.2 ⟨hl.failing, fun id f hf => ?_⟩
  have hold : Admitted T s f := by
    rcases form?_add_cases hf with rfl | hf
    · exact hn
    · exact hl.admitted hf
  exact hold.mono fun c d => form?_add_of_some

theorem Level.alter (hl : Level T s) {g : Node → Node}
    (hg : ∀ n, s.node? id = some n → Soft n.form (g n).form) : Level T (s.alter id g) := by
  have hstays : Stays s (s.alter id g) := .alter fun n hn => (hg n hn).kept
  refine level_iff.2 ⟨hl.failing, fun j f hf => ?_⟩
  have hold : Admitted T s f := by
    rcases form?_alter_cases hf with hf | ⟨n, rfl, hn, rfl⟩
    · exact hl.admitted hf
    · exact (hl.admitted (form?_of_node? hn)).of_soft (hg n hn)
  exact hold.mono fun c d => hstays.constant

theorem Level.returned (hl : Level T s) {o' : Operand} (ho : s.form? id = some (.yield o))
    (hst : Stays s t) (hl' : Level T t)
    (hsame : ∀ c d, o = .node c → s.form? c = some (.constant d) → o' = o) :
    Level T (t.alter id (Node.reform fun _ => .yield o')) := by
  obtain ⟨c, rfl, hc⟩ := hl.returns id o ho
  obtain rfl := hsame c _ rfl hc
  obtain ⟨f, hf, hkept⟩ := hst.kept id _ ho
  have hstays : Stays t (t.alter id (Node.reform fun _ => .yield (.node c))) := by
    refine .alter fun n hn => ?_
    rw [form_of_node? hn hf, hkept]
    rfl
  refine level_iff.2 ⟨hl'.failing, fun j f hf => ?_⟩
  have hold : Admitted T t f := by
    rcases form?_alter_cases hf with hf | ⟨n, rfl, hn, rfl⟩
    · exact hl'.admitted hf
    · exact .yield (hst.constant hc)
  exact hold.mono fun c d => hstays.constant

theorem isStill_rename (ρ : NodeId → NodeId) (n : Node) : (n.rename ρ).form.isStill = n.form.isStill := by
  rw [rename_form]
  cases n.form <;> rfl

theorem Level.copied (hl : Level T s) {ρ : NodeId → NodeId} (hc : Copied s t ρ) : Level T t := by
  have hold : ∀ c d, s.form? c = some (.constant d) → t.form? c = some (.constant d) := fun c d => hc.old c _
  have hcopy : ∀ c, s.form? c = some (.constant T.value) → t.form? (ρ c) = some (.constant T.value) := by
    intro c hv
    obtain ⟨n, hn, hform⟩ := node?_of_form? hv
    obtain ⟨f, hf, hcase⟩ := hc.name c n hn
    rw [hf]
    rcases hcase with rfl | rfl
    · rw [hform]
    · rw [constant_rename ρ hform]
  refine level_iff.2 ⟨by rw [hc.settings]; exact hl.failing, fun id f hf => ?_⟩
  rcases hc.new id f hf with hf | ⟨j, n, hn, rfl⟩
  · exact (hl.admitted hf).mono hold
  have hn := hl.admitted (form?_of_node? hn)
  refine ⟨(isStill_rename ρ n).trans hn.still, ?_, ?_, ?_⟩
  · intro o ho
    obtain ⟨o', ho', rfl⟩ := yield_rename ho
    obtain ⟨c, rfl, hv⟩ := hn.returns o' ho'
    exact ⟨ρ c, by simp [Operand.rename], hcopy c hv⟩
  · intro g hg
    obtain ⟨g', hg', hsame⟩ := function_rename hg
    obtain ⟨c, hco, hv⟩ := hn.success g' hg'
    rw [hsame, hco]
    exact ⟨ρ c, by simp [Operand.rename], hcopy c hv⟩
  · intro text type hf
    exact hn.foreign text type (foreign_rename hf)

end

def Terms.keeping (T : Terms) : Keeping where
  Holds := Level T
  Admits := Admitted T
  reports := False
  same := Level.same
  add hl hn := Level.add hl hn
  alter hl hg := Level.alter hl hg
  returned hl ho hst hl' h := Level.returned hl ho hst hl' h
  copied hl hc := Level.copied hl hc
  plain := .of_isPlain
  held _ := .var _
  temporary _ := .var _
  lent _ _ := .var _
  strides _ _ := .var _
  success hl hf := by
    obtain ⟨c, hc, hv⟩ := hl.success _ _ hf
    rw [hc]
    exact .yield hv
  failing h := h.elim
  handled hl hf := by
    have hstill := hl.still _ _ hf
    cases hstill

end ArrayKernel.Ast

namespace ArrayKernel.Layout

open Ast

variable {T : Terms}

/-! ## Nothing may fail -/

def Safe (T : Terms) : Prop := ∀ texts, T.failing = some texts → ∀ text ∈ texts, ¬ T.allowed text

theorem mayFailWithin_found (hsafe : Safe T) {s t : Session} (hl : Level T s) {depth : Nat} {found b : Bool}
    (h : Runs (mayFailWithin depth found o) s b t) : b = found := by
  induction depth generalizing found b o s t with
  | zero => exact absurd h (by simp [mayFailWithin, runs_throw])
  | succ depth ih =>
    have hfold : ∀ (os : List Operand) (found b : Bool) (s t), Level T s →
        Runs (os.foldlM (mayFailWithin depth) found) s b t → b = found := by
      intro os
      induction os with
      | nil =>
        intro found b s t _ h
        exact (runs_pure.1 h).1
      | cons o os ihs =>
        intro found b s t hl h
        rw [List.foldlM_cons] at h
        obtain ⟨b', u, h1, h2⟩ := runs_bind.1 h
        obtain rfl := mayFailWithin_readOnly _ _ _ _ _ _ h1
        obtain rfl := ih hl h1
        exact ihs _ _ _ _ hl h2
    cases o with
    | datum d | group items => exact absurd h (by simp [mayFailWithin, runs_throw])
    | node id =>
      obtain ⟨n, u, hn, hk⟩ := runs_bind.1 h
      obtain ⟨hn, rfl⟩ := runs_node.1 hn
      cases hform : n.form with
      | foreign text type =>
        have hallowed := hl.foreign id text type (by rw [form?_of_node? hn, hform])
        rw [hform] at hk
        cases found with
        | true => exact (runs_pure.1 hk).1
        | false =>
          obtain ⟨st, u, hst, hk⟩ := runs_bind.1 hk
          obtain ⟨rfl, rfl⟩ := runs_settings.1 hst
          rw [hl.failing] at hk
          cases hfailing : T.failing with
          | none =>
            rw [hfailing] at hk
            exact absurd hk (by simp [runs_throw])
          | some texts =>
            rw [hfailing] at hk
            obtain ⟨rfl, -⟩ := runs_pure.1 hk
            have hnot : text ∉ texts := fun hmem => hsafe texts hfailing text hmem hallowed
            simpa using hnot
      | loop l =>
        rw [hform] at hk
        obtain ⟨b1, u, h1, hk'⟩ := runs_bind.1 hk
        obtain rfl := mayFailWithin_readOnly _ _ _ _ _ _ h1
        obtain rfl := ih hl h1
        obtain ⟨b2, u, h2, h3⟩ := runs_bind.1 hk'
        obtain rfl := mayFailWithin_readOnly _ _ _ _ _ _ h2
        obtain rfl := ih hl h2
        exact ih hl h3
      | _ =>
        rw [hform] at hk
        exact hfold _ _ _ _ _ hl hk

theorem mayFail_false (hsafe : Safe T) {s t : Session} (hl : Level T s) {b : Bool}
    (h : Runs (mayFail o) s b t) : b = false ∧ t = s := by
  have ht := mayFail_readOnly _ _ _ _ h
  obtain ⟨id, u, hid, hwithin⟩ := runs_bind.1 h
  obtain ⟨-, rfl⟩ := runs_identity.1 hid
  exact ⟨mayFailWithin_found hsafe hl hwithin, ht⟩

theorem Safe.warns (hsafe : Safe T) : Warns T.keeping := by
  intro o s t hl h
  obtain ⟨hfalse, -⟩ := mayFail_false hsafe hl h
  cases hfalse

theorem resolves_of_allowed (hall : ∀ text, T.allowed text) : Resolves T.keeping := by
  rintro s id text type hl ⟨g, hg, hkept⟩
  refine level_iff.2 ⟨hl.failing, fun j f hform => ?_⟩
  have hstays : Stays s (s.alter id (Node.reform fun _ => .foreign ("resolved_" ++ text) type)) := by
    refine .alter fun n hn => ?_
    rw [form_of_node? hn hg, hkept]
    rfl
  have hold : Admitted T s f := by
    rcases form?_alter_cases hform with hform | ⟨n, rfl, hn, rfl⟩
    · exact hl.admitted hform
    · exact ⟨rfl, fun _ h => (by cases h), fun _ h => (by cases h), fun text' _ _ => hall text'⟩
  exact hold.mono fun c d => hstays.constant

end ArrayKernel.Layout
