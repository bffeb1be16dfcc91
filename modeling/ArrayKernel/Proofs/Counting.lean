import ArrayKernel.Proofs.Execution
import Mathlib.Data.List.Nodup
import Mathlib.Data.List.Range
import Mathlib.Tactic.Ring

/-!
# What loops record

For steps that always end, `Performs` says which observations they record, as a function of the temporaries
they start with.
-/

namespace ArrayKernel.Running

open Ast

/-! ## Inversion of one step -/

variable {m : Machine} {τ τ' τ₁ : Temporaries} {ev es : List Temporaries} {out : Outcome}
variable {n a : Int} {s : Session}
variable {id t : NodeId} {f : Form} {js ks : List Step} {r : Operand}

theorem next_steps (h : Next m (.run (.node id)) τ ev js τ₁) (hid : id ≠ m.leaf)
    (hf : m.store.form? id = some f) (he : effect m.parallel f = .steps ks) :
    ev = [] ∧ js = ks ∧ τ₁ = τ := by
  cases h <;> simp_all

theorem next_assigns (h : Next m (.run (.node id)) τ ev js τ₁) (hid : id ≠ m.leaf)
    (hf : m.store.form? id = some f) (he : effect m.parallel f = .assigns t r) :
    ev = [] ∧ js = [] ∧ ∃ n, May m τ r n ∧ τ₁ = Function.update τ t n := by
  cases h with
  | leaf ha => exact absurd rfl hid
  | assigns _ hf' he' hn =>
    rw [hf] at hf'
    cases hf'
    rw [he] at he'
    cases he'
    exact ⟨rfl, rfl, _, hn, rfl⟩
  | _ => simp_all

theorem exec_steps (hid : id ≠ m.leaf) (hf : m.store.form? id = some f) (he : effect m.parallel f = .steps js) :
    Exec m (.run (.node id) :: ks) τ es .done τ' ↔ Exec m (js ++ ks) τ es .done τ' := by
  constructor
  · intro h
    cases h with
    | step hn h =>
      obtain ⟨rfl, rfl, rfl⟩ := next_steps hn hid hf he
      exact h
  · intro h
    exact .step (.steps hid hf he) h

theorem exec_assigns (hid : id ≠ m.leaf) (hf : m.store.form? id = some f)
    (he : effect m.parallel f = .assigns t r) (hr : HasValue m τ r n) :
    Exec m (.run (.node id) :: ks) τ es .done τ' ↔ Exec m ks (Function.update τ t n) es .done τ' := by
  constructor
  · intro h
    cases h with
    | step hn h =>
      obtain ⟨rfl, rfl, k, hk, rfl⟩ := next_assigns hn hid hf he
      rw [(may_iff hr).1 hk] at h
      exact h
  · intro h
    exact .step (.assigns hid hf he ((may_iff hr).2 rfl)) h

theorem exec_again {l : Loop} (hn : HasValue m τ l.condition n) : Exec m (.again l :: ks) τ es .done τ' ↔
      if n = 0 then Exec m ks τ es .done τ'
      else Exec m (.run l.body :: .run l.step :: .again l :: ks) τ es .done τ' := by
  constructor
  · intro h
    cases h with
    | step hs h =>
      cases hs with
      | exit hz => simpa [← (may_iff hn).1 hz] using h
      | again hk hne =>
        obtain rfl := (may_iff hn).1 hk
        simpa [hne] using h
  · intro h
    by_cases hz : n = 0
    · subst hz
      exact .step (.exit ((may_iff hn).2 rfl)) (by simpa using h)
    · exact .step (.again ((may_iff hn).2 rfl) hz) (by simpa [hz] using h)

/-! ## Recorded observations -/

def AgreeOff (W : NodeId → Prop) (τ τ' : Temporaries) : Prop := ∀ t, ¬ W t → τ' t = τ t

/-- Steps that always end, record these observations, and change only some temporaries, on which the
observations do not depend. -/
structure Performs {β : Type} (m : Machine) (seen : Temporaries → β) (ks : List Step)
    (W : NodeId → Prop) (E : Temporaries → List β) : Prop where
  ends : ∀ τ, ∃ es τ', Exec m ks τ es .done τ'
  records : ∀ {τ es τ'}, Exec m ks τ es .done τ' → es.map seen = E τ
  keeps : ∀ {τ es τ'}, Exec m ks τ es .done τ' → AgreeOff W τ τ'
  stable : ∀ {τ τ'}, AgreeOff W τ τ' → E τ' = E τ

variable {β : Type} {seen : Temporaries → β} {W : NodeId → Prop} {E : Temporaries → List β} {c : Counter}

theorem AgreeOff.refl : AgreeOff W τ τ := fun _ _ => rfl

theorem AgreeOff.trans (h : AgreeOff W τ τ₁) (h' : AgreeOff W τ₁ τ') : AgreeOff W τ τ' :=
  fun t ht => (h' t ht).trans (h t ht)

theorem AgreeOff.weaken {W' : NodeId → Prop} (h : AgreeOff W τ τ') (hw : ∀ t, W t → W' t) : AgreeOff W' τ τ' :=
  fun t ht => h t fun hW => ht (hw t hW)

theorem performs_leaf (hW : ∀ t, Assigns m.store m.leaf t → W t)
    (hs : ∀ {τ τ'}, AgreeOff W τ τ' → seen τ' = seen τ) :
    Performs m seen [.run (.node m.leaf)] W fun τ => [seen τ] where
  ends τ := ⟨[τ], τ, .step (.leaf fun _ _ => rfl) (.nil τ)⟩
  records h := by
    cases h with
    | step hn h =>
      cases hn with
      | leaf ha => cases h; rfl
      | _ => simp_all
  keeps h := by
    cases h with
    | step hn h =>
      cases hn with
      | leaf ha =>
        cases h
        exact fun t ht => ha t fun hat => ht (hW t hat)
      | _ => simp_all
  stable h := by rw [hs h]

theorem Performs.opened (hid : id ≠ m.leaf) (hf : m.store.form? id = some f)
    (he : effect m.parallel f = .steps js) (h : Performs m seen (js ++ ks) W E) :
    Performs m seen (.run (.node id) :: ks) W E where
  ends τ := by
    obtain ⟨es, τ', hx⟩ := h.ends τ
    exact ⟨es, τ', (exec_steps hid hf he).2 hx⟩
  records hx := h.records ((exec_steps hid hf he).1 hx)
  keeps hx := h.keeps ((exec_steps hid hf he).1 hx)
  stable := h.stable

theorem Performs.skipped (d : Datum) (h : Performs m seen ks W E) :
    Performs m seen (.run (.datum d) :: ks) W E := by
  have hskip : ∀ {τ es τ'}, Exec m (.run (.datum d) :: ks) τ es .done τ' ↔ Exec m ks τ es .done τ' := by
    intro τ es τ'
    constructor
    · intro hx
      cases hx with
      | step hn hx =>
        cases hn
        exact hx
    · exact fun hx => .step .skip hx
  exact ⟨fun τ => by simpa only [hskip] using h.ends τ, fun hx => h.records (hskip.1 hx),
    fun hx => h.keeps (hskip.1 hx), h.stable⟩

/-- An assignment before other steps. Its value does not depend on what the assignment and the steps
change. -/
theorem Performs.assigned {e : Temporaries → Int} (hid : id ≠ m.leaf)
    (hf : m.store.form? id = some f) (he : effect m.parallel f = .assigns t r)
    (hr : ∀ τ, HasValue m τ r (e τ)) (h : Performs m seen ks W E)
    (hs : ∀ {τ τ'}, AgreeOff (fun x => x = t ∨ W x) τ τ' → e τ' = e τ) :
    Performs m seen (.run (.node id) :: ks) (fun x => x = t ∨ W x) fun τ => E (Function.update τ t (e τ)) where
  ends τ := by
    obtain ⟨es, τ', hx⟩ := h.ends (Function.update τ t (e τ))
    exact ⟨es, τ', (exec_assigns hid hf he (hr τ)).2 hx⟩
  records hx := h.records ((exec_assigns hid hf he (hr _)).1 hx)
  keeps {τ es τ'} hx x hxt := by
    obtain ⟨hne, hW⟩ := not_or.1 hxt
    rw [h.keeps ((exec_assigns hid hf he (hr _)).1 hx) x hW, Function.update_of_ne hne]
  stable {τ τ'} ha := by
    refine h.stable fun x hx => ?_
    by_cases hxt : x = t
    · subst hxt
      simp [hs ha]
    · rw [Function.update_of_ne hxt, Function.update_of_ne hxt]
      exact ha x (not_or.2 ⟨hxt, hx⟩)

/-! ## Ranges -/

theorem lt_count {b c : Int} {k : Nat} (hc : 0 < c) : k < ((b - a + c - 1) / c).toNat ↔ a + c * k < b := by
  rw [Int.lt_toNat, ← Int.add_one_le_iff, Int.le_ediv_iff_mul_le hc, Int.add_mul, Int.mul_comm c]
  omega

theorem mem_range {b c x : Int} (hc : 0 < c) : x ∈ Position.range a b c ↔ ∃ k : Nat, x = a + c * k ∧ x < b := by
  simp only [Position.range, gt_iff_lt, if_pos hc, List.mem_map, List.mem_range, lt_count hc]
  constructor
  · rintro ⟨k, hk, rfl⟩
    exact ⟨k, rfl, hk⟩
  · rintro ⟨k, rfl, hk⟩
    exact ⟨k, hk, rfl⟩

theorem range_nodup {b c : Int} (hc : 0 < c) : (Position.range a b c).Nodup := by
  simp only [Position.range, gt_iff_lt, if_pos hc]
  refine List.Nodup.map (fun i j hij => ?_) List.nodup_range
  have : c * i = c * j := by simpa using hij
  exact Int.ofNat_inj.1 (Int.eq_of_mul_eq_mul_left (by omega) this)

theorem range_of_le {b c : Int} (hc : 0 < c) (h : b ≤ a) : Position.range a b c = [] := by
  refine List.eq_nil_iff_forall_not_mem.2 fun x hx => ?_
  obtain ⟨k, rfl, hk⟩ := (mem_range hc).1 hx
  have := Int.mul_nonneg (Int.le_of_lt hc) (Int.natCast_nonneg k)
  omega

theorem range_of_lt {b c : Int} (hc : 0 < c) (h : a < b) :
    Position.range a b c = a :: Position.range (a + c) b c := by
  have hcount : ((b - a + c - 1) / c).toNat = ((b - (a + c) + c - 1) / c).toNat + 1 := by
    have hle : 1 ≤ (b - a + c - 1) / c := (Int.le_ediv_iff_mul_le hc).2 (by omega)
    have hsub : (b - (a + c) + c - 1) / c = (b - a + c - 1) / c + -1 := by
      rw [← Int.add_mul_ediv_right _ _ (by omega)]
      congr 1
      omega
    omega
  simp only [Position.range, gt_iff_lt, if_pos hc, hcount, List.range_succ_eq_map, List.map_cons,
    List.map_map, Int.natCast_zero, Int.mul_zero, Int.add_zero, List.cons.injEq, true_and]
  refine List.map_congr_left fun k _ => ?_
  simp only [Function.comp, Nat.succ_eq_add_one, Int.natCast_add, Int.natCast_one]
  ring

/-! ## Loops that count -/

instance : Inhabited NodeId := ⟨⟨0⟩⟩

structure Counter where
  loop : NodeId
  temp : NodeId
  start : NodeId
  test : NodeId
  advance : NodeId
  lower : Operand
  upper : Operand
  step : Operand
  next : Operand
  deriving Inhabited

def Counter.Drives (c : Counter) (l : Loop) : Prop :=
  l.start = .node c.start ∧ l.condition = .node c.test ∧ l.step = .node c.advance ∧
    l.index = .node c.temp

def Counter.made (c : Counter) (body : Operand) (dim : Option Nat) : Loop :=
  { start := .node c.start, condition := .node c.test, step := .node c.advance, body,
    index := .node c.temp, target := some (.node c.temp), dim }

/-- The parts of a counter are in the store, and those that run are new from a number on. -/
structure Counter.In (c : Counter) (first : Nat) (s : Session) : Prop where
  new : first ≤ c.loop.index ∧ first ≤ c.temp.index ∧ first ≤ c.start.index ∧ first ≤ c.advance.index
  temp_form : ∃ v shown, s.form? c.temp = some (.var v) ∧ v.role = .temporary shown
  temp_type : ∃ ty, s.type? c.temp = some ty ∧ ty.isPointer = false
  start_form : ∃ d, s.form? c.start = some (.assign (.node c.temp) c.lower d)
  test_form : s.form? c.test = some (.binop "<" (.node c.temp) c.upper)
  advance_form : ∃ d, s.form? c.advance = some (.assign (.node c.temp) c.next d)
  next_sum : IsSum s "+" (.node c.temp) c.step c.next

theorem Counter.In.earlier {first first' : Nat} (h : c.In first s) (hle : first' ≤ first) : c.In first' s :=
  { h with new := by have := h.new; omega }

theorem Counter.In.temp_lt {first : Nat} (h : c.In first s) : c.temp.index < s.nodes.size := by
  obtain ⟨v, shown, hf, -⟩ := h.temp_form
  exact form?_lt hf

theorem eq_zero_of_same (h : (Datum.int n == .int 0) = true) : n = 0 := by
  change Datum.same (.int n) (.int 0) = true at h
  simpa [Datum.same, Datum.sameNumber, Datum.numeric?, Datum.Numeric.same] using h

variable {c : Counter} {first : Nat} {l : Loop}

theorem value_temp (h : c.In first m.store) : HasValue m τ (.node c.temp) (τ c.temp) := by
  obtain ⟨v, shown, hf, hr⟩ := h.temp_form
  exact .temporary hf hr

theorem value_next (h : c.In first m.store) (hn : HasValue m τ c.step n) (hpos : 0 < n) :
    HasValue m τ c.next (τ c.temp + n) := by
  obtain ⟨v, shown, hf, hr⟩ := h.temp_form
  obtain ⟨ty, hty, hp⟩ := h.temp_type
  rcases h.next_sum with ⟨-, id, w, hid, hw, -⟩ | ⟨-, id, w, hid, hw, hz⟩ | ⟨id, hx, hid⟩
  · cases hid
    simp [hf] at hw
  · rw [hid] at hn
    cases hn with
    | constant h =>
      rw [hw] at h
      cases h
      exact absurd (eq_zero_of_same hz) (by omega)
    | _ => simp_all
  · have hsum := HasValue.sum hid (value_temp h) hn
    have hscale : m.inputs.scale (m.store.type? c.temp) = 1 := by
      cases ty <;> simp_all [Inputs.scale, CType.isPointer]
    rw [hx]
    simpa [hscale] using hsum

structure Limits where
  lower : Temporaries → Int
  upper : Temporaries → Int
  step : Temporaries → Int

/-- The bounds of a counting loop have these values, which do not depend on what the loop changes. -/
structure Counter.Bounded (c : Counter) (m : Machine) (b : Limits) (W : NodeId → Prop) : Prop where
  lower : ∀ τ, HasValue m τ c.lower (b.lower τ)
  upper : ∀ τ, HasValue m τ c.upper (b.upper τ)
  step : ∀ τ, HasValue m τ c.step (b.step τ)
  step_pos : ∀ τ, 0 < b.step τ
  stable : ∀ {τ τ'}, AgreeOff (fun x => x = c.temp ∨ W x) τ τ' →
    b.lower τ' = b.lower τ ∧ b.upper τ' = b.upper τ ∧ b.step τ' = b.step τ

theorem Counter.Bounded.weaken {b : Limits} {W V : NodeId → Prop} (h : c.Bounded m b V)
    (hV : ∀ t, W t → V t) : c.Bounded m b W :=
  { h with stable := fun ha => h.stable (ha.weaken fun t ht => ht.imp id (hV t)) }

variable {b : Limits}

theorem exec_count (hc : c.In first m.store) (hleaf : m.leaf.index < first) (hl : c.Drives l)
    (hb : c.Bounded m b W) :
    Exec m [.again l] τ es .done τ' ↔
      if τ c.temp < b.upper τ then ∃ es1 es2 τ₁, es = es1 ++ es2 ∧ Exec m [.run l.body] τ es1 .done τ₁ ∧
        Exec m [.again l] (Function.update τ₁ c.temp (τ₁ c.temp + b.step τ₁)) es2 .done τ'
      else es = [] ∧ τ' = τ := by
  obtain ⟨-, htest, hadv, -⟩ := hl
  have htv : HasValue m τ l.condition (if τ c.temp < b.upper τ then 1 else 0) := by
    rw [htest]
    exact .less hc.test_form (value_temp hc) (hb.upper τ)
  rw [exec_again htv]
  by_cases hlt : τ c.temp < b.upper τ
  · obtain ⟨d, hd⟩ := hc.advance_form
    have hne : c.advance ≠ m.leaf := fun h => by have := hc.new; rw [h] at this; omega
    have hadvance : ∀ {τ₁ es τ'}, Exec m [.run l.step, .again l] τ₁ es .done τ' ↔
        Exec m [.again l] (Function.update τ₁ c.temp (τ₁ c.temp + b.step τ₁)) es .done τ' := by
      intro τ₁ es τ'
      rw [hadv]
      exact exec_assigns hne hd rfl (value_next hc (hb.step τ₁) (hb.step_pos τ₁))
    simp only [hlt, if_true, one_ne_zero, if_false]
    constructor
    · intro h
      obtain ⟨es1, es2, τ₁, rfl, h1, h2⟩ :=
        exec_append (show Exec m ([.run l.body] ++ [.run l.step, .again l]) τ es .done τ' from h)
      exact ⟨es1, es2, τ₁, rfl, h1, hadvance.1 h2⟩
    · rintro ⟨es1, es2, τ₁, rfl, h1, h2⟩
      exact h1.append (hadvance.2 h2)
  · simp only [hlt, if_false, if_true]
    constructor
    · intro h
      cases h
      exact ⟨rfl, rfl⟩
    · rintro ⟨rfl, rfl⟩
      exact .nil _

theorem advanced (hb : c.Bounded m b W) (htemp : ¬ W c.temp) (h : AgreeOff W τ τ₁) :
    let τ2 := Function.update τ₁ c.temp (τ₁ c.temp + b.step τ₁)
    AgreeOff (fun x => x = c.temp ∨ W x) τ τ2 ∧ τ2 c.temp = τ c.temp + b.step τ ∧
      b.upper τ2 = b.upper τ ∧ b.step τ2 = b.step τ := by
  intro τ2
  have h1 : AgreeOff (fun x => x = c.temp ∨ W x) τ τ₁ := h.weaken fun _ => .inr
  have h2 : AgreeOff (fun x => x = c.temp ∨ W x) τ τ2 := fun x hx => by
    rw [← h1 x hx]
    exact Function.update_of_ne (fun heq => hx (.inl heq)) ..
  refine ⟨h2, ?_, (hb.stable h2).2.1, (hb.stable h2).2.2⟩
  simp [τ2, h c.temp htemp, (hb.stable h1).2.2]

theorem count_records (hc : c.In first m.store) (hleaf : m.leaf.index < first) (hl : c.Drives l)
    (hb : c.Bounded m b W) (htemp : ¬ W c.temp) (hbody : Performs m seen [.run l.body] W E) (n : Nat) :
    ∀ τ, (b.upper τ - τ c.temp).toNat ≤ n → (∃ es τ', Exec m [.again l] τ es .done τ') ∧
      ∀ es τ', Exec m [.again l] τ es .done τ' → AgreeOff (fun x => x = c.temp ∨ W x) τ τ' ∧
        es.map seen = (Position.range (τ c.temp) (b.upper τ) (b.step τ)).flatMap fun i =>
          E (Function.update τ c.temp i) := by
  -- The distance to the end falls with each iteration.
  induction n using Nat.strong_induction_on with
  | _ n ih =>
    intro τ hn
    by_cases hlt : τ c.temp < b.upper τ
    · have hpos := hb.step_pos τ
      constructor
      · obtain ⟨es1, τ₁, h1⟩ := hbody.ends τ
        obtain ⟨-, hcount, hupper, -⟩ := advanced hb htemp (hbody.keeps h1)
        obtain ⟨⟨es2, τ2, h2⟩, -⟩ := ih (n - 1) (by omega) (Function.update τ₁ c.temp (τ₁ c.temp + b.step τ₁))
          (by rw [hcount, hupper]; omega)
        refine ⟨es1 ++ es2, τ2, (exec_count hc hleaf hl hb).2 ?_⟩
        rw [if_pos hlt]
        exact ⟨es1, es2, τ₁, rfl, h1, h2⟩
      · intro es τ' h
        rw [exec_count hc hleaf hl hb, if_pos hlt] at h
        obtain ⟨es1, es2, τ₁, rfl, h1, h2⟩ := h
        obtain ⟨hoff, hcount, hupper, hstep⟩ := advanced hb htemp (hbody.keeps h1)
        obtain ⟨hoff', hrec⟩ := (ih (n - 1) (by omega) (Function.update τ₁ c.temp (τ₁ c.temp + b.step τ₁))
          (by rw [hcount, hupper]; omega)).2 _ _ h2
        refine ⟨hoff.trans hoff', ?_⟩
        rw [List.map_append, hbody.records h1, hrec, hcount, hupper, hstep, range_of_lt hpos hlt,
          List.flatMap_cons, Function.update_eq_self]
        congr 1
        refine List.flatMap_congr fun i _ => hbody.stable fun x hx => ?_
        by_cases hxt : x = c.temp
        · simp [hxt]
        · simp [hxt, hbody.keeps h1 x hx]
    · refine ⟨⟨[], τ, (exec_count hc hleaf hl hb).2 (by simp [hlt])⟩, fun es τ' h => ?_⟩
      obtain ⟨rfl, rfl⟩ := by simpa [hlt] using (exec_count hc hleaf hl hb).1 h
      refine ⟨.refl, ?_⟩
      rw [range_of_le (hb.step_pos _) (by omega)]
      rfl

theorem Performs.counted (hc : c.In first m.store) (hleaf : m.leaf.index < first)
    (hf : m.store.form? c.loop = some (.loop l)) (hl : c.Drives l) (hb : c.Bounded m b W)
    (htemp : ¬ W c.temp) (hbody : Performs m seen [.run l.body] W E) :
    Performs m seen [.run (.node c.loop)] (fun x => x = c.temp ∨ W x) fun τ =>
      (Position.range (b.lower τ) (b.upper τ) (b.step τ)).flatMap fun i =>
        E (Function.update τ c.temp i) := by
  obtain ⟨d, hd⟩ := hc.start_form
  have hne : c.loop ≠ m.leaf ∧ c.start ≠ m.leaf :=
    ⟨fun h => by have := hc.new; rw [h] at this; omega, fun h => by have := hc.new; rw [h] at this; omega⟩
  have hstart : ∀ {τ es τ'}, Exec m [.run (.node c.loop)] τ es .done τ' ↔
      Exec m [.again l] (Function.update τ c.temp (b.lower τ)) es .done τ' := by
    intro τ es τ'
    rw [exec_steps hne.1 hf rfl, hl.1]
    exact exec_assigns hne.2 hd rfl (hb.lower τ)
  have hoff : ∀ τ, AgreeOff (fun x => x = c.temp ∨ W x) τ (Function.update τ c.temp (b.lower τ)) :=
    fun τ x hx => Function.update_of_ne (fun h => hx (.inl h)) ..
  have hcount := fun τ => count_records hc hleaf hl hb htemp hbody _
    (Function.update τ c.temp (b.lower τ)) (Nat.le_refl _)
  constructor
  · intro τ
    obtain ⟨⟨es, τ', h⟩, -⟩ := hcount τ
    exact ⟨es, τ', hstart.2 h⟩
  · intro τ es τ' h
    rw [((hcount τ).2 es τ' (hstart.1 h)).2, (hb.stable (hoff τ)).2.1, (hb.stable (hoff τ)).2.2]
    simp
  · intro τ es τ' h
    exact (hoff τ).trans ((hcount τ).2 es τ' (hstart.1 h)).1
  · intro τ τ' h
    obtain ⟨hlo, hup, hst⟩ := hb.stable h
    rw [hlo, hup, hst]
    refine List.flatMap_congr fun i _ => hbody.stable fun x hx => ?_
    by_cases hxt : x = c.temp
    · simp [hxt]
    · simp [hxt, h x (not_or.2 ⟨hxt, hx⟩)]

end ArrayKernel.Running
