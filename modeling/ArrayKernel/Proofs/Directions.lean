import ArrayKernel.Proofs.Placement
import Mathlib.Algebra.Order.Ring.Abs
import Mathlib.Algebra.Order.Ring.Int
import Mathlib.Tactic.Ring

/-!
# Directions and common elements

Two views that step through a base alike are compared dimension by dimension: they are independent if in one dimension
the distance of their first elements is not a multiple of the step, or is not below the extent. The extent counts
indices, and the distance counts elements of the base. So the test is right about independence for all offsets just
where the two agree: for steps of one element, or a single index.
-/

namespace ArrayKernel.Strided

variable {oa ob s n : Int} {offsetsA offsetsB steps shape i j : List Int}

/-! ## What the test finds -/

theorem direction?_eq (hs : s ≠ 0) : direction? oa ob s s n =
      .ok (if s ∣ ob - oa ∧ |ob - oa| < n then some (.ofDistance (ob - oa)) else none) := by
  simp only [Int.dvd_iff_fmod_eq_zero, Int.abs_eq_natAbs, direction?, if_true, floorMod, if_neg hs]
  show (if _ then _ else _) = _
  split <;> rfl

def Near : List Int → List Int → List Int → List Int → Prop
  | oa :: offsetsA, ob :: offsetsB, s :: steps, n :: shape =>
    (s ∣ ob - oa ∧ |ob - oa| < n) ∧ Near offsetsA offsetsB steps shape
  | _, _, _, _ => True

/-- The test ends on steps that are not zero, and finds independence where distances are not near. -/
theorem directions?_near (hsteps : ∀ s ∈ steps, s ≠ 0) :
    ∃ r, directions? offsetsA offsetsB steps steps shape = .ok r ∧
      (r = none ↔ ¬ Near offsetsA offsetsB steps shape) := by
  fun_induction Near offsetsA offsetsB steps shape with
  | case1 oa offsetsA ob offsetsB s steps n shape ih =>
    obtain ⟨hs, hsteps⟩ := List.forall_mem_cons.1 hsteps
    obtain ⟨r, hr, hnone⟩ := ih hsteps
    simp only [directions?, direction?_eq hs, hr]
    by_cases hhead : s ∣ ob - oa ∧ |ob - oa| < n
    · refine ⟨r.map (.ofDistance (ob - oa) :: ·), by rw [if_pos hhead]; rfl, ?_⟩
      rw [Option.map_eq_none_iff, hnone]
      simp [hhead]
    · exact ⟨none, by rw [if_neg hhead]; rfl, by simp [hhead]⟩
  | case2 offsetsA offsetsB steps shape h =>
    refine ⟨some [], ?_, by simp⟩
    rw [directions?]
    · rfl
    · rintro oa osA ob osB s ssA _ ssB n shape rfl rfl rfl - rfl
      exact h _ _ _ _ _ _ _ _ rfl rfl rfl rfl

theorem directions?_eq_none (hsteps : ∀ s ∈ steps, s ≠ 0) :
    directions? offsetsA offsetsB steps steps shape = .ok none ↔ ¬ Near offsetsA offsetsB steps shape := by
  obtain ⟨r, hr, hnone⟩ := directions?_near hsteps
  rw [hr, Except.ok.injEq, hnone]

/-! ## Common elements -/

/-- In each dimension the views step by one element, or have a single index. -/
def Counted (steps shape : List Int) : Prop := List.Forall₂ (fun s n => |s| = 1 ∨ n = 1) steps shape

theorem near_of_common (h : Counted steps shape) (hi : Below i shape) (hj : Below j shape)
    (hA : offsetsA.length = shape.length) (hB : offsetsB.length = shape.length)
    (heq : placed offsetsA steps i = placed offsetsB steps j) : Near offsetsA offsetsB steps shape := by
  induction h generalizing offsetsA offsetsB i j with
  | nil => simp [Near]
  | @cons s n steps shape hhead _ ih =>
    obtain ⟨i, is, rfl, hi, his⟩ := hi.exists_cons
    obtain ⟨j, js, rfl, hj, hjs⟩ := hj.exists_cons
    obtain ⟨oa, offsetsA, rfl⟩ := List.exists_cons_of_length_eq_add_one hA
    obtain ⟨ob, offsetsB, rfl⟩ := List.exists_cons_of_length_eq_add_one hB
    obtain ⟨hhere, hrest⟩ := List.cons.inj heq
    have hdistance : ob - oa = (i - j) * s := by linarith
    refine ⟨⟨⟨i - j, by rw [hdistance, mul_comm]⟩, ?_⟩, ih his hjs (by simpa using hA) (by simpa using hB) hrest⟩
    -- The distance is the difference of the indices if the step is one, and zero if there is one index.
    rw [hdistance, abs_mul]
    rcases hhead with hs | rfl
    · rw [hs, mul_one, abs_lt]
      omega
    · have hij : i - j = 0 := by omega
      simp [hij]

def lastIndex (shape : List Int) : List Int := shape.map (· - 1)

def firstIndex (shape : List Int) : List Int := shape.map fun _ => 0

theorem below_lastIndex (hpos : ∀ n ∈ shape, 0 < n) : Below (lastIndex shape) shape := by
  refine List.forall₂_map_left_iff.2 (List.forall₂_same.2 fun n hn => ?_)
  have := hpos n hn
  omega

theorem below_firstIndex (hpos : ∀ n ∈ shape, 0 < n) : Below (firstIndex shape) shape :=
  List.forall₂_map_left_iff.2 (List.forall₂_same.2 fun n hn => ⟨le_rfl, hpos n hn⟩)

/-- The offsets at which the second view starts if its first element is the last one of the first view. -/
def endOffsets (steps shape : List Int) : List Int := List.zipWith (fun s n => (n - 1) * s) steps shape

theorem placed_lastIndex (hlen : steps.length = shape.length) :
    placed (firstIndex shape) steps (lastIndex shape) = placed (endOffsets steps shape) steps (firstIndex shape) := by
  induction shape generalizing steps with
  | nil =>
    obtain rfl := List.eq_nil_of_length_eq_zero hlen
    rfl
  | cons n shape ih =>
    obtain ⟨s, steps, rfl⟩ := List.exists_cons_of_length_eq_add_one hlen
    refine List.cons_eq_cons.2 ⟨?_, ih (by simpa using hlen)⟩
    ring

theorem counted_of_near (hlen : steps.length = shape.length) (hsteps : ∀ s ∈ steps, s ≠ 0) (hpos : ∀ n ∈ shape, 0 < n)
    (h : Near (firstIndex shape) (endOffsets steps shape) steps shape) : Counted steps shape := by
  induction shape generalizing steps with
  | nil =>
    obtain rfl := List.eq_nil_of_length_eq_zero hlen
    exact .nil
  | cons n shape ih =>
    obtain ⟨s, steps, rfl⟩ := List.exists_cons_of_length_eq_add_one hlen
    obtain ⟨hs, hsteps⟩ := List.forall_mem_cons.1 hsteps
    obtain ⟨hn, hpos⟩ := List.forall_mem_cons.1 hpos
    obtain ⟨⟨-, hlt⟩, hrest⟩ := h
    refine .cons ?_ (ih (by simpa using hlen) hsteps hpos hrest)
    have hone : 1 ≤ |s| := Int.one_le_abs hs
    rw [sub_zero, abs_mul, abs_of_nonneg (by omega)] at hlt
    by_contra hnot
    have htwo : (n - 1) * 2 ≤ (n - 1) * |s| := mul_le_mul_of_nonneg_left (by omega) (by omega)
    omega

/-- The test is right about independence for all offsets if and only if there are no elements at all or in each
dimension the views step by one element or have a single index. -/
theorem independence_right_iff {a : View} (hlen : steps.length = a.shape.length) (hsteps : ∀ s ∈ steps, s ≠ 0) :
    (∀ offsetsA offsetsB, offsetsA.length = a.shape.length → offsetsB.length = a.shape.length →
      directionsOf a ⟨offsetsA, steps, offsetsB, steps⟩ = .ok none →
      ¬ ∃ i j, a.Inside i ∧ a.Inside j ∧ placed offsetsA steps i = placed offsetsB steps j) ↔
    (∃ n ∈ a.shape, n ≤ 0) ∨ Counted steps a.shape := by
  constructor
  · intro hright
    by_cases hempty : ∃ n ∈ a.shape, n ≤ 0
    · exact .inl hempty
    have hpos : ∀ n ∈ a.shape, 0 < n := fun n hn => not_le.1 fun hle => hempty ⟨n, hn, hle⟩
    right
    by_contra hcounted
    -- The second view starts at the last element of the first one.
    refine hright (firstIndex a.shape) (endOffsets steps a.shape) (by simp [firstIndex]) (by simp [endOffsets, hlen])
      ((directions?_eq_none hsteps).2 fun hnear => hcounted (counted_of_near hlen hsteps hpos hnear)) ?_
    exact ⟨lastIndex a.shape, firstIndex a.shape, below_lastIndex hpos, below_firstIndex hpos, placed_lastIndex hlen⟩
  · rintro (⟨n, hn, hle⟩ | hcounted) offsetsA offsetsB hA hB hnone ⟨i, j, hi, hj, heq⟩
    · exact absurd (hi.pos n hn) (not_lt.2 hle)
    · exact (directions?_eq_none hsteps).1 hnone (near_of_common hcounted hi hj hA hB heq)

def threeByOne : View := ⟨0, [3, 1], [8, 64]⟩

theorem threeByOne_right : directionsOf threeByOne ⟨[5, 0], [-1, 4], [9, 0], [-1, 4]⟩ = .ok none ∧
    ¬ ∃ i j, threeByOne.Inside i ∧ threeByOne.Inside j ∧ placed [5, 0] [-1, 4] i = placed [9, 0] [-1, 4] j := by
  have hnone : directionsOf threeByOne ⟨[5, 0], [-1, 4], [9, 0], [-1, 4]⟩ = .ok none := rfl
  have hcounted : Counted [-1, 4] threeByOne.shape := .cons (.inl (by decide)) (.cons (.inr rfl) .nil)
  have hright := (independence_right_iff (by rfl) (by decide)).2 (.inr hcounted)
  exact ⟨hnone, hright [5, 0] [9, 0] rfl rfl hnone⟩

def everyOtherTwo : View := ⟨0, [2], [16]⟩

/-- The second of the two elements is the first of a view that starts there, and they are said to be independent. -/
theorem everyOtherTwo_wrong : directionsOf everyOtherTwo ⟨[0], [2], [2], [2]⟩ = .ok none ∧
    everyOtherTwo.Inside [1] ∧ everyOtherTwo.Inside [0] ∧ placed [0] [2] [1] = placed [2] [2] [0] :=
  ⟨rfl, by decide, by decide, rfl⟩

end ArrayKernel.Strided
