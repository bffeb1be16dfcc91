import ArrayKernel.Proofs.Elements
import Mathlib.Tactic.Linarith

/-!
# Views that overlap

The bounds of a view are the addresses of its first and of its last element in memory. Two views are said to overlap if
their bounds meet in more than an end point, so that an element they share goes unnoticed where one view ends and the
other one starts.
-/

namespace ArrayKernel.Strided

namespace View

variable {v a b : View} {strides shape : List Int} {i s n x : Int}

/-! ## Bounds -/

def lowest (s n : Int) : Int := if 0 < s then 0 else n - 1

def highest (s n : Int) : Int := if 0 < s then n - 1 else 0

theorem widen_cons (hn : 0 < n) (start stop : Int) : widen start stop (s :: strides) (n :: shape) =
      widen (start + lowest s n * s) (stop + highest s n * s) strides shape := by
  rw [widen, if_neg hn.ne', lowest, highest]
  split <;> simp [mul_comm]

theorem between_ends (hi : 0 ≤ i ∧ i < n) : lowest s n * s ≤ i * s ∧ i * s ≤ highest s n * s := by
  unfold lowest highest
  split <;> constructor <;> nlinarith

theorem widen_eq (hrank : shape.length = strides.length) (hpos : ∀ n ∈ shape, 0 < n) (start stop : Int) :
    ∃ first last, Below first shape ∧ Below last shape ∧
      widen start stop strides shape = .ok (start + displacement first strides, stop + displacement last strides) ∧
      ∀ index, Below index shape → displacement first strides ≤ displacement index strides ∧
        displacement index strides ≤ displacement last strides := by
  induction strides generalizing shape start stop with
  | nil =>
    obtain rfl := List.eq_nil_of_length_eq_zero hrank
    exact ⟨[], [], .nil, .nil, by simp [widen], by simp⟩
  | cons s strides ih =>
    obtain ⟨n, shape, rfl⟩ := List.exists_cons_of_length_eq_add_one hrank
    obtain ⟨hn, hpos⟩ := List.forall_mem_cons.1 hpos
    obtain ⟨first, last, hfirst, hlast, heq, hbetween⟩ :=
      ih (by simpa using hrank) hpos (start + lowest s n * s) (stop + highest s n * s)
    refine ⟨lowest s n :: first, highest s n :: last, ?_, ?_, ?_, fun index hindex => ?_⟩
    · exact Below.cons_iff.2 ⟨by unfold lowest; split <;> omega, hfirst⟩
    · exact Below.cons_iff.2 ⟨by unfold highest; split <;> omega, hlast⟩
    · rw [widen_cons hn, heq, displacement_cons, displacement_cons, add_assoc, add_assoc]
    · obtain ⟨i, rest, rfl, hi, hrest⟩ := hindex.exists_cons
      obtain ⟨hlow, hhigh⟩ := between_ends hi
      exact ⟨add_le_add hlow (hbetween rest hrest).1, add_le_add hhigh (hbetween rest hrest).2⟩

theorem bounds_eq (hv : v.Ranked) (hpos : ∀ n ∈ v.shape, 0 < n) :
    ∃ start stop, v.bounds = .ok (start, stop) ∧ IsLeast v.addresses start ∧ IsGreatest v.addresses stop := by
  obtain ⟨first, last, hfirst, hlast, heq, hbetween⟩ := widen_eq hv hpos v.data v.data
  refine ⟨v.address first, v.address last, heq, ⟨⟨first, hfirst, rfl⟩, ?_⟩, ⟨⟨last, hlast, rfl⟩, ?_⟩⟩
  · rintro x ⟨index, hindex, rfl⟩
    exact Int.add_le_add_left (hbetween index hindex).1 _
  · rintro x ⟨index, hindex, rfl⟩
    exact Int.add_le_add_left (hbetween index hindex).2 _

/-- The bounds of a view with elements are the addresses of two of them, and every other one lies between. -/
theorem bounds_are_extremal_addresses (hv : v.Ranked) (hpos : ∀ n ∈ v.shape, 1 ≤ n) :
    ∃ first last, v.Inside first ∧ v.Inside last ∧ v.bounds = .ok (v.address first, v.address last) ∧
      ∀ index, v.Inside index → v.address first ≤ v.address index ∧ v.address index ≤ v.address last := by
  obtain ⟨_, _, hbounds, ⟨⟨first, hfirst, rfl⟩, hleast⟩, ⟨⟨last, hlast, rfl⟩, hgreatest⟩⟩ := bounds_eq hv hpos
  refine ⟨first, last, hfirst, hlast, hbounds, fun index hindex => ?_⟩
  have hmem : v.address index ∈ v.addresses := ⟨index, hindex, rfl⟩
  exact ⟨hleast hmem, hgreatest hmem⟩

def mixedStrides : View := ⟨4096, [2, 3, 3, 1], [48, -16, 0, -8]⟩

theorem mixedStrides_extremal :
    mixedStrides.bounds = .ok (4064, 4144) ∧
      ∀ index, mixedStrides.Inside index → 4064 ≤ mixedStrides.address index ∧ mixedStrides.address index ≤ 4144 := by
  obtain ⟨first, last, -, -, hbounds, hbetween⟩ :=
    bounds_are_extremal_addresses (v := mixedStrides) rfl (by decide)
  have heq : mixedStrides.bounds = .ok (4064, 4144) := rfl
  obtain ⟨hfirst, hlast⟩ : mixedStrides.address first = 4064 ∧ mixedStrides.address last = 4144 := by
    simpa [eq_comm] using hbounds.symm.trans heq
  exact ⟨heq, hfirst ▸ hlast ▸ hbetween⟩

/-! ## Shared elements -/

/-- The first view starts where the second one ends, or it ends where the second one starts and has other elements. -/
def TouchAt (a b : View) (x : Int) : Prop :=
  IsLeast a.addresses x ∧ IsGreatest b.addresses x ∨
    IsGreatest a.addresses x ∧ IsLeast b.addresses x ∧ ¬ IsLeast a.addresses x

/-- Two views that share an element are found to overlap unless they touch there. -/
theorem overlap_of_shared (ha : a.Ranked) (hb : b.Ranked) (hxa : x ∈ a.addresses) (hxb : x ∈ b.addresses) :
    ∃ r, overlap a b = .ok r ∧ (r = true ↔ ¬ TouchAt a b x) := by
  obtain ⟨_, hina, -⟩ := id hxa
  obtain ⟨_, hinb, -⟩ := id hxb
  obtain ⟨start, stop, hbounds, hstart, hstop⟩ := bounds_eq ha hina.pos
  obtain ⟨start', stop', hbounds', hstart', hstop'⟩ := bounds_eq hb hinb.pos
  have hleast : ∀ {w : View} {y : Int}, IsLeast w.addresses y → (IsLeast w.addresses x ↔ x = y) :=
    fun hy => ⟨fun hx => hx.unique hy, fun heq => heq ▸ hy⟩
  have hgreatest : ∀ {w : View} {y : Int}, IsGreatest w.addresses y → (IsGreatest w.addresses x ↔ x = y) :=
    fun hy => ⟨fun hx => hx.unique hy, fun heq => heq ▸ hy⟩
  refine ⟨if start < start' then decide (start' < stop) else decide (start < stop'), ?_, ?_⟩
  · simp [overlap, hbounds, hbounds', bind, Except.bind, pure, Except.pure]
  -- The shared address is between the bounds of both views, and what is left compares five numbers.
  have hlow := hstart.2 hxa
  have hhigh := hstop.2 hxa
  have hlow' := hstart'.2 hxb
  have hhigh' := hstop'.2 hxb
  rw [TouchAt, hleast hstart, hleast hstart', hgreatest hstop, hgreatest hstop']
  split <;> simp only [decide_eq_true_eq] <;> omega

def rows : View := ⟨4096, [2, 3], [24, 8]⟩

def everyOther : View := ⟨4136, [3], [-16]⟩

theorem rows_overlap_everyOther : overlap rows everyOther = .ok true := by
  have hx : 4120 ∈ rows.addresses := ⟨[1, 0], by decide, rfl⟩
  obtain ⟨r, hr, hiff⟩ := overlap_of_shared (a := rows) (b := everyOther) rfl rfl hx ⟨[1], by decide, rfl⟩
  have hfirst : ¬ IsLeast rows.addresses 4120 := fun h => absurd (h.2 ⟨[0, 0], by decide, rfl⟩) (by decide)
  have hlast : ¬ IsGreatest rows.addresses 4120 := fun h => absurd (h.2 ⟨[1, 2], by decide, rfl⟩) (by decide)
  rw [hr, hiff.2 fun h => h.elim (fun h => hfirst h.1) (fun h => hlast h.1)]

def firstTwo : View := ⟨0, [2], [8]⟩

def lastTwo : View := ⟨8, [2], [8]⟩

/-- A view that starts at the last element of another one is not found to overlap it. -/
theorem firstTwo_misses_lastTwo :
    8 ∈ firstTwo.addresses ∧ 8 ∈ lastTwo.addresses ∧ overlap firstTwo lastTwo = .ok false :=
  ⟨⟨[1], by decide, rfl⟩, ⟨[0], by decide, rfl⟩, rfl⟩

end View

end ArrayKernel.Strided
