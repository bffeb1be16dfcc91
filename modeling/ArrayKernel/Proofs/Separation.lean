import ArrayKernel.Proofs.Elements
import Mathlib.Algebra.Order.Ring.Abs
import Mathlib.Algebra.Order.Ring.Int
import Mathlib.Data.List.Chain
import Mathlib.Tactic.Linarith
import Mathlib.Tactic.Ring

/-!
# Views without repeated addresses

A view is checked dimension by dimension, smaller strides first: each stride has to step over what the
dimension before it spans from its first to its last element. That is one element short of keeping addresses
apart.
-/

namespace ArrayKernel.Strided

variable {v : View} {dims : List Nat}

/-! ## What the check finds -/

theorem requireSeparate_eq_ok (hv : v.Ranked) (hdims : ∀ d ∈ dims, d < v.ndim) :
    requireSeparate v dims = .ok () ↔
      dims.IsChain fun d d' => |v.strideAt d * (v.extentAt d - 1)| ≤ |v.strideAt d'| := by
  induction dims with
  | nil => simp [requireSeparate]
  | cons d dims ih =>
    obtain ⟨hd, hrest⟩ := List.forall_mem_cons.1 hdims
    cases dims with
    | nil => simp [requireSeparate]
    | cons d' dims =>
      have hd' : d' < v.ndim := hrest d' List.mem_cons_self
      rw [List.isChain_cons_cons, ← ih hrest, Int.abs_eq_natAbs, Int.abs_eq_natAbs, Int.ofNat_le]
      have hshape : d < v.shape.length := hv ▸ hd
      simp only [requireSeparate, View.stride_eq_ok, View.extent_eq_ok, bind_eq_ok, hd, hd', hshape, true_and,
        exists_eq_left', require_eq_ok, decide_eq_true_eq, exists_and_left, exists_const]

theorem requireIndependent_eq_ok (hv : v.Ranked) : requireIndependent v = .ok () ↔
      v.order.IsChain fun d d' => |v.strideAt d * (v.extentAt d - 1)| ≤ |v.strideAt d'| :=
  requireSeparate_eq_ok hv fun _ => View.lt_of_mem_order

/-! ## Sums over dimensions -/

theorem eq_zero_of_add_mul_eq_zero {c k s : Int} (hc : |c| < |s| ∨ c = 0) (h : c + k * s = 0) : c = 0 ∧ k * s = 0 := by
  have hzero : c = 0 := by
    rcases hc with hc | hc
    · have hdvd : |s| ∣ c := by
        rw [abs_dvd]
        exact ⟨-k, by linarith⟩
      exact Int.eq_zero_of_abs_lt_dvd hdvd hc
    · exact hc
  exact ⟨hzero, by linarith⟩

theorem abs_add_mul_lt {c k s n s' : Int} (hc : |c| < |s| ∨ c = 0) (hk : |k| < n) (hs : |s * n| ≤ |s'|) :
    |c + k * s| < |s'| ∨ c + k * s = 0 := by
  by_cases hzero : s = 0
  · subst hzero
    right
    rcases hc with hc | rfl
    · exact absurd hc (by simp)
    · simp
  · left
    have hpos : 0 < |s| := abs_pos.2 hzero
    have hc : |c| < |s| := by
      rcases hc with hc | rfl
      · exact hc
      · simpa using hpos
    have hn : 0 < n := lt_of_le_of_lt (abs_nonneg k) hk
    calc |c + k * s| ≤ |c| + |k * s| := abs_add_le _ _
      _ = |c| + |k| * |s| := by rw [abs_mul]
      _ < |s| + (n - 1) * |s| := by nlinarith
      _ = |s * n| := by rw [abs_mul, abs_of_pos hn]; ring
      _ ≤ |s'| := hs

/-- If each stride steps over all elements of the dimension before it, a sum of less than an extent of each stride is
zero only if all its parts are. -/
theorem terms_eq_zero {s n k : Nat → Int} {c : Int} (hchain : dims.IsChain fun d d' => |s d * n d| ≤ |s d'|)
    (hk : ∀ d ∈ dims, |k d| < n d) (hc : ∀ d ∈ dims.head?, |c| < |s d| ∨ c = 0)
    (hsum : c + (dims.map fun d => k d * s d).sum = 0) : c = 0 ∧ ∀ d ∈ dims, k d * s d = 0 := by
  -- The sum over the dimensions already seen is carried along, and stays below the stride of the next one.
  induction dims generalizing c with
  | nil => simpa using hsum
  | cons d dims ih =>
    rw [List.map_cons, List.sum_cons, ← add_assoc] at hsum
    obtain ⟨hkd, hk⟩ := List.forall_mem_cons.1 hk
    obtain ⟨hahead, hchain⟩ := List.isChain_cons.1 hchain
    have hc := hc d rfl
    have hnext : ∀ d' ∈ dims.head?, |c + k d * s d| < |s d'| ∨ c + k d * s d = 0 := by
      intro d' hd'
      exact abs_add_mul_lt hc hkd (hahead d' hd')
    obtain ⟨hcarry, hrest⟩ := ih hchain hk hnext hsum
    obtain ⟨hzero, hterm⟩ := eq_zero_of_add_mul_eq_zero hc hcarry
    exact ⟨hzero, List.forall_mem_cons.2 ⟨hterm, hrest⟩⟩

/-! ## Distinct addresses -/

def View.grown (v : View) : View := { v with shape := v.shape.map (· + 1) }

theorem View.Ranked.grown (hv : v.Ranked) : v.grown.Ranked := (List.length_map _).trans hv

theorem View.extentAt_grown (hv : v.Ranked) {d : Nat} (hd : d < v.ndim) : v.grown.extentAt d = v.extentAt d + 1 := by
  have hd : d < v.shape.length := hv ▸ hd
  simp [View.extentAt, View.grown, hd]

theorem requireIndependent_grown (hv : v.Ranked) : requireIndependent v.grown = .ok () ↔
      v.order.IsChain fun d d' => |v.strideAt d * v.extentAt d| ≤ |v.strideAt d'| := by
  rw [requireIndependent_eq_ok hv.grown]
  refine List.IsChain.iff_of_mem_imp fun d d' hd _ => ?_
  rw [View.extentAt_grown hv (View.lt_of_mem_order hd), add_sub_cancel_right]
  rfl

theorem mul_stride_eq_zero (hv : v.Ranked) (h : requireIndependent v.grown = .ok ()) {i j : List Int} (hi : v.Inside i)
    (hj : v.Inside j) (heq : v.address i = v.address j) {d : Nat} (hd : d < v.ndim) :
    (i.getD d 0 - j.getD d 0) * v.strideAt d = 0 := by
  have hsame : (v.order.map fun d => i.getD d 0 * v.strideAt d).sum =
      (v.order.map fun d => j.getD d 0 * v.strideAt d).sum := by
    have hsame : displacement i v.strides = displacement j v.strides := add_left_cancel heq
    rwa [displacement_eq_sum v.order_perm, displacement_eq_sum v.order_perm] at hsame
  have hsplit : (v.order.map fun d => i.getD d 0 * v.strideAt d).sum =
      (v.order.map fun d => j.getD d 0 * v.strideAt d).sum +
        (v.order.map fun d => (i.getD d 0 - j.getD d 0) * v.strideAt d).sum := by
    rw [← List.sum_map_add]
    congr 2
    ext d
    ring
  -- Indices below an extent differ by less than the extent.
  have hbound : ∀ d ∈ v.order, |i.getD d 0 - j.getD d 0| < v.extentAt d := by
    intro d hd
    have hi := hi.index_lt hv (View.lt_of_mem_order hd)
    have hj := hj.index_lt hv (View.lt_of_mem_order hd)
    rw [abs_lt]
    omega
  have hzero := terms_eq_zero ((requireIndependent_grown hv).1 h) hbound (fun _ _ => .inr rfl) (by omega)
  exact hzero.2 d (v.order_perm.mem_iff.2 (List.mem_range.2 hd))

/-- If the check passes with one more element in each dimension, it passes for the view itself, and no two elements
of the view have the same address, unless a stride is zero where there are several elements. -/
theorem separate_addresses_distinct (hv : v.Ranked) (hpos : ∀ n ∈ v.shape, 1 ≤ n)
    (hmoves : ∀ d < v.ndim, v.strideAt d = 0 → v.extentAt d = 1) (h : requireIndependent v.grown = .ok ()) :
    requireIndependent v = .ok () ∧ ∀ i j, v.Inside i → v.Inside j → v.address i = v.address j → i = j := by
  constructor
  · rw [requireIndependent_eq_ok hv]
    refine ((requireIndependent_grown hv).1 h).imp_of_mem_imp fun d d' hd _ hle => le_trans ?_ hle
    have hn : 1 ≤ v.extentAt d := hpos _ (View.extentAt_mem hv (View.lt_of_mem_order hd))
    rw [abs_mul, abs_mul, abs_of_nonneg (by omega : 0 ≤ v.extentAt d - 1), abs_of_nonneg (by omega : 0 ≤ v.extentAt d)]
    exact mul_le_mul_of_nonneg_left (by omega) (abs_nonneg _)
  · intro i j hi hj heq
    refine hi.ext hv hj fun d hd => ?_
    rcases mul_eq_zero.1 (mul_stride_eq_zero hv h hi hj heq hd) with hsub | hzero
    · omega
    · have hone := hmoves d hd hzero
      have hi := hi.index_lt hv hd
      have hj := hj.index_lt hv hd
      omega

/-- Two rows of three, the second one before the first, with a dimension of one element between. -/
def fallingRows : View := ⟨4096, [2, 1, 3], [-48, 0, 16]⟩

theorem fallingRows_distinct : requireIndependent fallingRows = .ok () ∧
    ∀ i j, fallingRows.Inside i → fallingRows.Inside j → fallingRows.address i = fallingRows.address j → i = j :=
  separate_addresses_distinct rfl (by decide) (by decide) (by cbv)

/-- Two rows of two, with the second row at the second element of the first. -/
def overlaidRows : View := ⟨0, [2, 2], [8, 8]⟩

/-- The check as it is lets a view through that has two elements at one address. -/
theorem overlaidRows_repeat : requireIndependent overlaidRows = .ok () ∧
    ¬ ∀ i j, overlaidRows.Inside i → overlaidRows.Inside j → overlaidRows.address i = overlaidRows.address j → i = j :=
  ⟨by cbv, fun h => absurd (h [0, 1] [1, 0] (by decide) (by decide) rfl) (by decide)⟩

end ArrayKernel.Strided
