import ArrayKernel.CType.Slicing
import ArrayKernel.Proofs.Arithmetic

/-!
# Array types from slices

A specification has one slice for each dimension, and a step of one marks the contiguous dimension. The reader
remembers the position of the last step, and takes a remembered position of zero for none: so steps are accepted
in the first and in the last dimension, each of them or both.
-/

namespace ArrayKernel

theorem Datum.truthy_of_same_one {d : Datum} (h : (d == .int 1) = true) : d.truthy = true := by
  have hvalue := exactValue?_of_same h
  cases d with
  | bool b => cases b <;> simp [exactValue?, truthy] at hvalue ⊢
  | int n =>
    obtain rfl : n = 1 := by simpa [exactValue?] using hvalue
    rfl
  | float x =>
    unfold truthy
    rw [bne_iff_ne]
    intro hzero
    have hzero := Decimal.exactValue?_of_compare hzero
    simp [exactValue?, hzero] at hvalue
  | _ => simp [exactValue?] at hvalue

namespace CType

/-! ## One slice -/

/-- A slice without bounds, and with a step of one if it has any. -/
structure Slice.Plain (s : Slice) : Prop where
  start : s.start.truthy = false
  stop : s.stop.truthy = false
  step : (s.step == .null) = true ∨ (s.step == .int 1) = true

theorem Slice.plain_iff (s : Slice) : s.Plain ↔
    (s.start.truthy || s.stop.truthy || !(s.step == .null || s.step == .int 1)) = false := by
  simp only [Bool.or_eq_false_iff, Bool.not_eq_false', Bool.or_eq_true]
  constructor
  · intro h
    exact ⟨⟨h.start, h.stop⟩, h.step⟩
  · rintro ⟨⟨hstart, hstop⟩, hstep⟩
    exact ⟨hstart, hstop, hstep⟩

instance (s : Slice) : Decidable s.Plain := decidable_of_iff _ s.plain_iff.symm

theorem Slice.verify_eq (s : Slice) :
    s.verify = if s.Plain then .ok () else .error (.specification .boundsGiven) := by
  unfold verify
  by_cases hs : s.Plain
  · rw [if_pos hs, s.plain_iff.1 hs]
    rfl
  · rw [if_neg hs, if_pos (Bool.eq_true_of_not_eq_false (mt s.plain_iff.2 hs))]

theorem Slice.Plain.hasStep_eq {s : Slice} (h : s.Plain) : s.hasStep = (s.step == .int 1) := by
  unfold hasStep
  rcases h.step with hnull | hone
  · obtain hstep : s.step = .null := by
      generalize s.step = d at hnull
      cases d with
      | null => rfl
      | _ => cases hnull
    rw [hstep]
    rfl
  · rw [hone, Datum.truthy_of_same_one hone]

/-! ## Reading from a position on -/

variable {t r : CType} {slices rest : List Slice} {s : Slice} {count i j : Nat} {marked : Option Nat}
variable {cause : SpecificationFault}

def stepAt (slices : List Slice) (j : Nat) : Bool := slices[j]?.any (·.hasStep)

@[simp] theorem stepAt_nil : stepAt [] j = false := rfl

@[simp] theorem stepAt_cons_zero : stepAt (s :: rest) 0 = s.hasStep := rfl

@[simp] theorem stepAt_cons_succ : stepAt (s :: rest) (j + 1) = stepAt rest j := rfl

/-- The slices from position `i` on are plain, and of all positions only the first and the last have a step. -/
structure Admissible (i : Nat) (slices : List Slice) : Prop where
  plain : ∀ s ∈ slices, s.Plain
  ends : ∀ j, stepAt slices j = true → i + j = 0 ∨ j + 1 = slices.length

inductive Breaks (i : Nat) (slices : List Slice) : SpecificationFault → Prop where
  | bounds {s : Slice} (hs : s ∈ slices) (h : ¬ s.Plain) : Breaks i slices .boundsGiven
  | step {j : Nat} (hj : stepAt slices j = true) (first : i + j ≠ 0) (last : j + 1 ≠ slices.length) :
    Breaks i slices .misplacedStep

theorem Breaks.not_admissible (h : Breaks i slices cause) : ¬ Admissible i slices := by
  intro hadm
  cases h with
  | bounds hs h => exact h (hadm.plain _ hs)
  | step hj first last => exact (hadm.ends _ hj).elim first last

theorem admissible_cons : Admissible i (s :: rest) ↔
    s.Plain ∧ (s.hasStep = true → i = 0 ∨ rest = []) ∧ Admissible (i + 1) rest := by
  constructor
  · intro h
    refine ⟨h.plain s (by simp), fun hs => ?_, fun u hu => h.plain u (by simp [hu]), fun j hj => ?_⟩
    · simpa using h.ends 0 hs
    · have := h.ends (j + 1) hj
      simp at this
      omega
  · rintro ⟨hs, hstep, h⟩
    refine ⟨by simpa using ⟨hs, h.plain⟩, fun j hj => ?_⟩
    cases j with
    | zero => simpa using hstep hj
    | succ j =>
      have := h.ends j hj
      simp
      omega

theorem Breaks.cons (h : Breaks (i + 1) rest cause) : Breaks i (s :: rest) cause := by
  cases h with
  | bounds hs h => exact .bounds (by simp [hs]) h
  | @step j hj first last => exact .step (j := j + 1) hj (by omega) (by simpa using last)

def remembered (count i : Nat) (marked : Option Nat) (slices : List Slice) : Option Nat :=
  if stepAt slices (slices.length - 1) then some (count - 1)
  else if i = 0 ∧ stepAt slices 0 = true then some 0 else marked

/-- The reader has two outcomes, and both say all about the slices. -/
def Outcome (count i : Nat) (marked : Option Nat) (slices : List Slice) : Except Fault (Option Nat) → Prop
  | .ok m => Admissible i slices ∧ m = remembered count i marked slices
  | .error e => ∃ cause, e = .specification cause ∧ Breaks i slices cause

theorem markedDimension_cons (hm : ∀ k, marked = some k → k = 0) : markedDimension count marked i (s :: rest) =
      if s.Plain then
        if s.hasStep = true ∧ i ≠ 0 ∧ i + 1 ≠ count then .error (.specification .misplacedStep)
        else markedDimension count (if s.hasStep then some i else marked) (i + 1) rest
      else .error (.specification .boundsGiven) := by
  have hstart : marked = none ∨ marked = some 0 := by
    cases marked with
    | none => exact .inl rfl
    | some k => exact .inr (by rw [hm k rfl])
  rcases hstart with rfl | rfl
  all_goals
    rw [markedDimension, s.verify_eq]
    by_cases hs : s.Plain
    · simp only [if_pos hs, hs.hasStep_eq]
      by_cases hstep : (s.step == .int 1) = true ∧ i ≠ 0 ∧ i + 1 ≠ count
      · rw [if_pos hstep]
        exact if_pos (by simpa using hstep)
      · rw [if_neg hstep]
        exact if_neg (by simpa using hstep)
    · rw [if_neg hs, if_neg hs]
      rfl

theorem remembered_cons (hlen : i + (rest.length + 1) = count) (hstep : s.hasStep = true → i = 0 ∨ rest = []) :
    remembered count (i + 1) (if s.hasStep then some i else marked) rest = remembered count i marked (s :: rest) := by
  cases rest with
  | nil =>
    obtain rfl : i + 1 = count := by simpa using hlen
    cases hs : s.hasStep <;> simp [remembered, hs]
  | cons u rest =>
    cases hs : s.hasStep with
    | false => simp [remembered, hs]
    | true =>
      obtain rfl : i = 0 := by simpa using hstep hs
      simp [remembered, hs]

theorem markedDimension_outcome (hlen : i + slices.length = count)
    (hm : slices ≠ [] → ∀ k, marked = some k → k = 0) :
    Outcome count i marked slices (markedDimension count marked i slices) := by
  -- A step is remembered only from the first position or from the last, so the reader never refuses a second one.
  induction slices generalizing i marked with
  | nil => exact ⟨⟨by simp, by simp⟩, by simp [remembered]⟩
  | cons s rest ih =>
    rw [markedDimension_cons (hm (by simp))]
    simp only [List.length_cons] at hlen
    by_cases hs : s.Plain
    · rw [if_pos hs]
      by_cases hstep : s.hasStep = true ∧ i ≠ 0 ∧ i + 1 ≠ count
      · rw [if_pos hstep]
        refine ⟨_, rfl, .step (j := 0) hstep.1 (by simpa using hstep.2.1) ?_⟩
        simp only [List.length_cons]
        omega
      · rw [if_neg hstep]
        have hends : s.hasStep = true → i = 0 ∨ rest = [] := by
          intro h
          rw [← List.length_eq_zero_iff]
          by_contra hmid
          exact hstep ⟨h, by omega, by omega⟩
        have hfirst : rest ≠ [] → ∀ k, (if s.hasStep then some i else marked) = some k → k = 0 := by
          intro hne k hk
          cases h : s.hasStep with
          | false => exact hm (by simp) k (by simpa [h] using hk)
          | true =>
            obtain rfl : i = k := by simpa [h] using hk
            exact (hends h).resolve_right hne
        have hrest := ih (i := i + 1) (by omega) hfirst
        revert hrest
        cases markedDimension count (if s.hasStep then some i else marked) (i + 1) rest with
        | error e =>
          rintro ⟨cause, rfl, hcause⟩
          exact ⟨cause, rfl, hcause.cons⟩
        | ok m =>
          rintro ⟨hadm, rfl⟩
          exact ⟨admissible_cons.2 ⟨hs, hends, hadm⟩, remembered_cons hlen hends⟩
    · rw [if_neg hs]
      exact ⟨_, rfl, .bounds (by simp) hs⟩

/-! ## Whole specifications -/

theorem specified_eq (hpresent : t.isAbsent = false) (helement : t.isArray = false) :
    t.specified slices = (markedDimension slices.length none 0 slices).map fun m =>
      arrayOf t slices.length (m.map (· + 1) == some slices.length) (m == some 0) := by
  cases t with
  | absent => cases hpresent
  | array => cases helement
  | _ =>
    unfold specified
    dsimp only
    cases markedDimension slices.length none 0 slices <;> rfl

/-- A specification of two or more dimensions is accepted exactly if no slice has a bound, no step is other than one,
and only the first and the last slice have a step; what is refused breaks the rule that the refusal names. The array
has as many dimensions as there are slices. It is contiguous by rows if the last slice has a step, and by columns if the
first has one and the last has none. -/
theorem specification_accepted_iff (hpresent : t.isAbsent = false) (helement : t.isArray = false)
    (hcount : 2 ≤ slices.length) :
    ((∃ r, t.specified slices = .ok r) ↔ Admissible 0 slices) ∧
    (∀ e, t.specified slices = .error e → ∃ cause, e = .specification cause ∧ Breaks 0 slices cause) ∧
    ∀ r, t.specified slices = .ok r → r.dtype? = some t ∧ r.ndim? = some slices.length ∧
      (r.isCContig = true ↔ stepAt slices (slices.length - 1) = true) ∧
      (r.isFContig = true ↔ stepAt slices 0 = true ∧ stepAt slices (slices.length - 1) = false) := by
  have houtcome : Outcome slices.length 0 none slices (markedDimension slices.length none 0 slices) :=
    markedDimension_outcome (Nat.zero_add _) (by simp)
  rw [specified_eq hpresent helement]
  revert houtcome
  cases markedDimension slices.length none 0 slices with
  | error e =>
    rintro ⟨cause, rfl, hcause⟩
    refine ⟨⟨nofun, fun h => absurd h hcause.not_admissible⟩, fun e he => ?_, nofun⟩
    obtain rfl : _ = e := Except.error.inj he
    exact ⟨cause, rfl, hcause⟩
  | ok m =>
    rintro ⟨hadm, rfl⟩
    refine ⟨⟨fun _ => hadm, fun _ => ⟨_, rfl⟩⟩, nofun, fun r hr => ?_⟩
    obtain rfl : _ = r := Except.ok.inj hr
    refine ⟨rfl, rfl, ?_, ?_⟩
    all_goals
      simp only [arrayOf, isCContig, isFContig, remembered]
      cases stepAt slices (slices.length - 1) <;> cases stepAt slices 0 <;> simp <;> omega

def marking : Slice := { step := .int 1 }

/-- Three dimensions with a step in the first one are stored by columns. -/
theorem first_of_three_marked :
    Admissible 0 [marking, {}, {}] ∧ ∃ r, float64.specified [marking, {}, {}] = .ok r ∧
      r.ndim? = some 3 ∧ r.isFContig = true ∧ r.isCContig = false := by
  have htwo : 2 ≤ [marking, {}, {}].length := by decide
  obtain ⟨haccepted, -, hflags⟩ := specification_accepted_iff (t := float64) rfl rfl htwo
  have hadm : Admissible 0 [marking, {}, {}] := by
    refine ⟨by decide, fun j hj => ?_⟩
    match j, hj with
    | 0, _ => exact .inl rfl
    | 1, hj | 2, hj | j + 3, hj => cases hj
  obtain ⟨r, hr⟩ := haccepted.2 hadm
  obtain ⟨-, hndim, hrows, hcolumns⟩ := hflags r hr
  exact ⟨hadm, r, hr, hndim, hcolumns.2 ⟨rfl, rfl⟩, Bool.eq_false_iff.2 (mt hrows.1 nofun)⟩

/-- A step in the first and one in the last dimension are accepted together, and the first is forgotten. -/
theorem both_ends_marked :
    float64.specified [marking, marking] = .ok (arrayOf float64 2 true false) ∧
      stepAt [marking, marking] 0 = true ∧ stepAt [marking, marking] 1 = true :=
  ⟨rfl, rfl, rfl⟩

end CType

end ArrayKernel
