import ArrayKernel.Proofs.Elements
import Mathlib.Algebra.BigOperators.Intervals
import Mathlib.Algebra.Order.BigOperators.Group.Finset
import Mathlib.Algebra.Order.BigOperators.GroupWithZero.List
import Mathlib.Tactic.Linarith
import Mathlib.Tactic.Ring

/-!
# Offsets in a packed base

The elements of a packed base follow one another by rows, so that each stride is all that the later dimensions
hold. The offsets of a view are found from its address, the largest stride first, as digits are.
-/

namespace ArrayKernel.Strided

namespace View

variable {v : View} {index : List Int} {d e : Nat} {size : Int}

/-! ## The order of dimensions -/

theorem order_pairwise (v : View) : v.order.Pairwise fun d e => (v.strideAt d).natAbs < (v.strideAt e).natAbs ∨
      ((v.strideAt d).natAbs = (v.strideAt e).natAbs ∧ d ≤ e) := by
  have hstride : ∀ {x le}, x ∈ (v.strides.zipIdx.map fun p => (p.1.natAbs, p.2)).mergeSort le →
      (v.strideAt x.2).natAbs = x.1 := by
    intro x le hx
    obtain ⟨⟨s, i⟩, hi, rfl⟩ := List.mem_map.1 ((List.mergeSort_perm _ _).mem_iff.1 hx)
    simp [strideAt, List.mk_mem_zipIdx_iff_getElem?.1 hi]
  refine List.pairwise_map.2 ((List.pairwise_mergeSort ?_ ?_ _).imp_of_mem fun {x y} hx hy hxy => ?_)
  · intro x y z
    simp only [decide_eq_true_eq]
    omega
  · intro x y
    simp only [Bool.or_eq_true, decide_eq_true_eq]
    omega
  · rw [hstride hx, hstride hy]
    simpa using hxy

/-! ## Packed views -/

/-- The elements of a view follow one another by rows: each stride is the size of what the later dimensions hold. -/
structure Packed (v : View) (size : Int) : Prop where
  ranked : v.Ranked
  size_pos : 0 < size
  extents : ∀ n ∈ v.shape, 1 ≤ n
  strides : ∀ d < v.ndim, v.strideAt d = size * (v.shape.drop (d + 1)).prod

namespace Packed

section

variable (h : v.Packed size)

include h

theorem one_le_extentAt (hd : d < v.ndim) : 1 ≤ v.extentAt d :=
  h.extents _ (extentAt_mem h.ranked hd)

theorem strideAt_pos (hd : d < v.ndim) : 0 < v.strideAt d := by
  rw [h.strides d hd]
  exact mul_pos h.size_pos (List.prod_pos fun n hn => h.extents n (List.mem_of_mem_drop hn))

theorem strideAt_succ (hd : d + 1 < v.ndim) : v.strideAt d = v.extentAt (d + 1) * v.strideAt (d + 1) := by
  have hlt : d + 1 < v.shape.length := h.ranked ▸ hd
  have hextent : v.extentAt (d + 1) = v.shape[d + 1] := by simp [extentAt, hlt]
  rw [h.strides d (by omega), h.strides (d + 1) hd, List.drop_eq_getElem_cons hlt, List.prod_cons, hextent]
  ring

theorem strideAt_succ_le (hd : d + 1 < v.ndim) : v.strideAt (d + 1) ≤ v.strideAt d := by
  have hpos := h.strideAt_pos hd
  have hone := h.one_le_extentAt hd
  rw [h.strideAt_succ hd]
  nlinarith

theorem strideAt_anti (hde : d ≤ e) (he : e < v.ndim) : v.strideAt e ≤ v.strideAt d := by
  induction e, hde using Nat.le_induction with
  | base => exact le_rfl
  | succ e _ ih => exact (h.strideAt_succ_le he).trans (ih (by omega))

theorem lt_of_strideAt_lt (hd : d < v.ndim) (hlt : v.strideAt e < v.strideAt d) : d < e := by
  by_contra hle
  exact absurd (h.strideAt_anti (not_lt.1 hle) hd) (not_le.2 hlt)

theorem extentAt_of_strideAt_eq (hde : d < e) (he : e < v.ndim)
    (heq : v.strideAt d = v.strideAt e) : v.extentAt e = 1 := by
  obtain ⟨k, rfl⟩ : ∃ k, e = k + 1 := ⟨e - 1, by omega⟩
  have hpos := h.strideAt_pos he
  have hprev : v.strideAt k ≤ v.strideAt d := h.strideAt_anti (by omega) (by omega)
  have hone := h.one_le_extentAt he
  have hstride := h.strideAt_succ he
  nlinarith

theorem later_lt_strideAt (hindex : v.Inside index) (hd : d < v.ndim) :
    ∑ e ∈ Finset.Ico (d + 1) v.ndim, index.getD e 0 * v.strideAt e < v.strideAt d := by
  obtain ⟨k, hk⟩ : ∃ k, v.ndim = d + 1 + k := ⟨v.ndim - (d + 1), by omega⟩
  -- From the last dimension down: an index with what follows it stays below its extent.
  induction k generalizing d with
  | zero => simpa [hk] using h.strideAt_pos hd
  | succ k ih =>
    have hsucc : d + 1 < v.ndim := by omega
    have hrest := ih hsucc (by omega)
    have hlt := (hindex.index_lt h.ranked hsucc).2
    have hpos := h.strideAt_pos hsucc
    rw [Finset.sum_eq_sum_Ico_succ_bot hsucc, h.strideAt_succ hsucc]
    nlinarith

end

end Packed

end View

/-! ## Splitting a distance -/

open View

variable {base a : View} {index found : List Int} {dims : List Nat} {d e : Nat} {size distance : Int}

def Hidden (base : View) (index : List Int) (d : Nat) : Prop :=
  d + 1 < base.ndim ∧ base.extentAt (d + 1) = 1 ∧ index.getD d 0 ≠ 0

instance (base : View) (index : List Int) (d : Nat) : Decidable (Hidden base index d) :=
  inferInstanceAs (Decidable (_ ∧ _))

def span (base : View) (index : List Int) (dims : List Nat) : Int :=
  (dims.map fun d => index.getD d 0 * base.strideAt d).sum

def Falling (base : View) (dims : List Nat) : Prop :=
  dims.Pairwise fun d e => base.strideAt e < base.strideAt d ∨ (base.strideAt e = base.strideAt d ∧ e < d)

theorem Falling.nodup (h : Falling base dims) : dims.Nodup :=
  h.imp fun {d e} hde heq => by subst heq; omega

theorem splitDistance_cons (h : base.Packed size) (hd : d < base.ndim) (found : List Int) (distance : Int) :
    splitDistance base distance found (d :: dims) =
      if 0 ≤ distance.fdiv (base.strideAt d) ∧ distance.fdiv (base.strideAt d) < base.extentAt d then
        splitDistance base (distance.fmod (base.strideAt d)) (found.set d (distance.fdiv (base.strideAt d))) dims
      else .error (.violated (some (pairText (distance.fdiv (base.strideAt d)) (base.extentAt d)))) := by
  have hstride : base.stride d = .ok (base.strideAt d) := stride_eq_ok.2 ⟨hd, rfl⟩
  have hextent : base.extent d = .ok (base.extentAt d) := extent_eq_ok.2 ⟨h.ranked ▸ hd, rfl⟩
  have hne : base.strideAt d ≠ 0 := (h.strideAt_pos hd).ne'
  rw [splitDistance, hstride, hextent]
  by_cases hin : 0 ≤ distance.fdiv (base.strideAt d) ∧ distance.fdiv (base.strideAt d) < base.extentAt d <;>
    simp [bind, Except.bind, floorDiv, floorMod, hne, require, hin]

theorem fdiv_fmod_of_lt {q r s : Int} (hr : 0 ≤ r) (hrs : r < s) : (q * s + r).fdiv s = q ∧ (q * s + r).fmod s = r := by
  have hs : 0 ≤ s := hr.trans hrs.le
  rw [Int.fdiv_eq_ediv_of_nonneg _ hs, Int.fmod_eq_emod_of_nonneg _ hs]
  exact ⟨by rw [add_comm, Int.add_mul_ediv_right _ _ (by omega), Int.ediv_eq_zero_of_lt hr hrs, zero_add],
    by rw [add_comm, Int.add_mul_emod_self_right, Int.emod_eq_of_lt hr hrs]⟩

theorem span_lt_strideAt (h : base.Packed size) (hindex : base.Inside index) (hd : d < base.ndim) (hnodup : dims.Nodup)
    (hlater : ∀ e ∈ dims, d < e ∧ e < base.ndim) :
    0 ≤ span base index dims ∧ span base index dims < base.strideAt d := by
  have hnonneg : ∀ e < base.ndim, 0 ≤ index.getD e 0 * base.strideAt e := fun e he =>
    mul_nonneg (hindex.index_lt h.ranked he).1 (h.strideAt_pos he).le
  have hsub : dims.toFinset ⊆ Finset.Ico (d + 1) base.ndim := fun e he =>
    Finset.mem_Ico.2 (hlater e (List.mem_toFinset.1 he))
  rw [span, ← List.sum_toFinset _ hnodup]
  refine ⟨Finset.sum_nonneg fun e he => hnonneg e (hlater e (List.mem_toFinset.1 he)).2, ?_⟩
  refine (Finset.sum_le_sum_of_subset_of_nonneg hsub fun e he _ => ?_).trans_lt (h.later_lt_strideAt hindex hd)
  exact hnonneg e (Finset.mem_Ico.1 he).2

def taken (base : View) (index : List Int) (dims : List Nat) (d : Nat) : Int :=
  ((dims.filter fun e => base.strideAt e = base.strideAt d).map fun e => index.getD e 0).sum

theorem span_eq_taken_add (dims : List Nat) (d : Nat) :
    span base index dims = taken base index dims d * base.strideAt d +
      span base index (dims.filter fun e => base.strideAt e ≠ base.strideAt d) := by
  induction dims with
  | nil => simp [span, taken]
  | cons e dims ih =>
    unfold span taken at ih ⊢
    by_cases he : base.strideAt e = base.strideAt d
    · simpa [he, add_mul, add_assoc] using ih
    · simpa [he, add_left_comm] using ih

theorem taken_eq_zero (h : ∀ e ∈ dims, base.strideAt e = base.strideAt d → index.getD e 0 = 0) :
    taken base index dims d = 0 := by
  refine List.sum_eq_zero fun x hx => ?_
  obtain ⟨e, he, rfl⟩ := List.mem_map.1 hx
  obtain ⟨he, hstride⟩ := List.mem_filter.1 he
  exact h e he (by simpa using hstride)

theorem taken_eq_of_only {x : Nat} (hnodup : dims.Nodup) (hx : x ∈ dims) (hstride : base.strideAt x = base.strideAt d)
    (h : ∀ e ∈ dims, base.strideAt e = base.strideAt d → e ≠ x → index.getD e 0 = 0) :
    taken base index dims d = index.getD x 0 := by
  rw [taken, ← List.sum_toFinset _ (hnodup.filter _)]
  refine Finset.sum_eq_single_of_mem x (by simp [hx, hstride]) fun e he hne => ?_
  obtain ⟨he, heq⟩ := List.mem_filter.1 (List.mem_toFinset.1 he)
  exact h e he (by simpa using heq) hne

theorem splitDistance_span (h : base.Packed size) (hindex : base.Inside index) (hfall : Falling base (d :: dims))
    (hdims : ∀ e ∈ d :: dims, e < base.ndim) :
    splitDistance base (span base index (d :: dims)) found (d :: dims) =
      if 0 ≤ index.getD d 0 + taken base index dims d ∧ index.getD d 0 + taken base index dims d < base.extentAt d then
        splitDistance base (span base index (dims.filter fun e => base.strideAt e ≠ base.strideAt d))
          (found.set d (index.getD d 0 + taken base index dims d)) dims
      else .error (.violated (some (pairText (index.getD d 0 + taken base index dims d) (base.extentAt d)))) := by
  obtain ⟨hd, hdims⟩ := List.forall_mem_cons.1 hdims
  obtain ⟨hhead, hfall⟩ := List.pairwise_cons.1 hfall
  have hlater : ∀ e ∈ dims.filter fun e => base.strideAt e ≠ base.strideAt d, d < e ∧ e < base.ndim := by
    intro e he
    obtain ⟨he, hne⟩ := List.mem_filter.1 he
    have hlt : base.strideAt e < base.strideAt d := (hhead e he).resolve_right fun heq => by simp [heq.1] at hne
    exact ⟨h.lt_of_strideAt_lt hd hlt, hdims e he⟩
  obtain ⟨hnonneg, hlt⟩ := span_lt_strideAt h hindex hd (Falling.nodup hfall |>.filter _) hlater
  have hspan : span base index (d :: dims) = (index.getD d 0 + taken base index dims d) * base.strideAt d +
      span base index (dims.filter fun e => base.strideAt e ≠ base.strideAt d) := by
    rw [add_mul, add_assoc, ← span_eq_taken_add dims d]
    rfl
  obtain ⟨hdiv, hmod⟩ := fdiv_fmod_of_lt hnonneg hlt
  rw [splitDistance_cons h hd, hspan, hdiv, hmod]

theorem splitDistance_of_untaken (h : base.Packed size) (hindex : base.Inside index)
    (hfall : Falling base (d :: dims)) (hdims : ∀ e ∈ d :: dims, e < base.ndim)
    (hzero : ∀ e ∈ dims, base.strideAt e = base.strideAt d → index.getD e 0 = 0) :
    splitDistance base (span base index (d :: dims)) found (d :: dims) =
      splitDistance base (span base index dims) (found.set d (index.getD d 0)) dims := by
  have hrest : span base index dims = span base index (dims.filter fun e => base.strideAt e ≠ base.strideAt d) := by
    rw [span_eq_taken_add dims d, taken_eq_zero hzero, zero_mul, zero_add]
  rw [splitDistance_span h hindex hfall hdims, taken_eq_zero hzero, add_zero, hrest]
  exact if_pos (hindex.index_lt h.ranked (hdims d (by simp)))

theorem hidden_of_strideAt_eq (h : base.Packed size) (hde : d < e) (he : e < base.ndim)
    (heq : base.strideAt d = base.strideAt e) (hne : index.getD d 0 ≠ 0) : Hidden base index d := by
  refine ⟨by omega, ?_, hne⟩
  have hnext : base.strideAt d = base.strideAt (d + 1) :=
    le_antisymm (heq ▸ h.strideAt_anti (by omega) he) (h.strideAt_succ_le (by omega))
  exact h.extentAt_of_strideAt_eq (Nat.lt_succ_self d) (by omega) hnext

theorem Falling.lt_of_strideAt_eq (hfall : Falling base (d :: dims)) (he : e ∈ dims)
    (heq : base.strideAt e = base.strideAt d) : e < d := by
  rcases (List.pairwise_cons.1 hfall).1 e he with hlt | ⟨-, hlt⟩
  · exact absurd heq hlt.ne
  · exact hlt

theorem splitDistance_of_seen (h : base.Packed size) (hindex : base.Inside index) (hfall : Falling base dims)
    (hdims : ∀ e ∈ dims, e < base.ndim) (hseen : ∀ d, ¬ Hidden base index d) (hlength : found.length = base.ndim)
    (hfound : ∀ e < base.ndim, e ∉ dims → found.getD e 0 = index.getD e 0) :
    splitDistance base (span base index dims) found dims = .ok index := by
  induction dims generalizing found with
  | nil =>
    have heq : found = index := List.ext_getElem (hlength.trans (hindex.length_eq_ndim h.ranked).symm) fun e he he' => by
      simpa [he, he'] using hfound e (hlength ▸ he) (by simp)
    simp [splitDistance, span, require, bind, Except.bind, pure, Except.pure, heq]
  | cons d dims ih =>
    obtain ⟨hd, hrest⟩ := List.forall_mem_cons.1 hdims
    rw [splitDistance_of_untaken h hindex hfall hdims fun e he heq => ?_]
    · refine ih (List.pairwise_cons.1 hfall).2 hrest (by simpa using hlength) fun e he hmem => ?_
      rcases eq_or_ne e d with rfl | hne
      · simp [hlength, he]
      · have hkept : (found.set d (index.getD d 0)).getD e 0 = found.getD e 0 := by
          simp [List.getElem?_set_ne hne.symm]
        rw [hkept, hfound e he (by simp [hne, hmem])]
    · by_contra hne
      exact hseen e (hidden_of_strideAt_eq h (hfall.lt_of_strideAt_eq he heq) hd heq hne)

theorem splitDistance_of_hidden (h : base.Packed size) (hindex : base.Inside index) (hfall : Falling base dims)
    (hdims : ∀ e ∈ dims, e < base.ndim) (hhidden : Hidden base index d) (hfirst : ∀ e < d, ¬ Hidden base index e)
    (hmem : d ∈ dims) (hmem' : d + 1 ∈ dims) :
    splitDistance base (span base index dims) found dims =
      .error (.violated (some (pairText (index.getD d 0) 1))) := by
  obtain ⟨hnext, hone, hne⟩ := hhidden
  have hsame : base.strideAt d = base.strideAt (d + 1) := by rw [h.strideAt_succ hnext, hone, one_mul]
  induction dims generalizing found with
  | nil => cases hmem
  | cons x dims ih =>
    obtain ⟨hx, hrest⟩ := List.forall_mem_cons.1 hdims
    obtain ⟨hhead, hfall'⟩ := List.pairwise_cons.1 hfall
    by_cases hstride : base.strideAt d = base.strideAt x
    · have hd : d ∈ dims := by
        rcases List.mem_cons.1 hmem with rfl | hd
        · rcases List.mem_cons.1 hmem' with heq | hd'
          · omega
          · have hlt := hfall.lt_of_strideAt_eq hd' hsame.symm
            omega
        · exact hd
      have hdx := hfall.lt_of_strideAt_eq hd hstride
      have hextent := h.extentAt_of_strideAt_eq hdx hx hstride
      have hzero : index.getD x 0 = 0 := by
        have hlt := hindex.index_lt h.ranked hx
        omega
      have htaken : taken base index dims x = index.getD d 0 := by
        refine taken_eq_of_only (Falling.nodup hfall') hd hstride fun e he heq hed => ?_
        rcases lt_or_gt_of_ne hed with hlt | hgt
        · by_contra hne
          exact hfirst e hlt (hidden_of_strideAt_eq h hlt (by omega) (heq.trans hstride.symm) hne)
        · have hone := h.extentAt_of_strideAt_eq hgt (hrest e he) (hstride.trans heq.symm)
          have hlt := hindex.index_lt h.ranked (hrest e he)
          omega
      rw [splitDistance_span h hindex hfall hdims, htaken, hzero, zero_add, hextent, if_neg (by omega)]
    · have hd : d ∈ dims := (List.mem_cons.1 hmem).resolve_left fun heq => hstride (heq ▸ rfl)
      have hd' : d + 1 ∈ dims := (List.mem_cons.1 hmem').resolve_left fun heq => hstride (heq ▸ hsame)
      have hlt : base.strideAt d < base.strideAt x := (hhead d hd).resolve_right fun heq => hstride heq.1
      have hxd := h.lt_of_strideAt_lt hx hlt
      rw [splitDistance_of_untaken h hindex hfall hdims fun e he heq => ?_]
      · exact ih hfall' hrest hd hd'
      · by_contra hne
        have hex := hfall.lt_of_strideAt_eq he heq
        exact hfirst e (by omega) (hidden_of_strideAt_eq h hex hx heq hne)

/-! ## Offsets -/

theorem falling_order (h : base.Packed size) : Falling base base.order.reverse := by
  have hnodup : base.order.Nodup := base.order_perm.nodup_iff.2 List.nodup_range
  refine List.pairwise_reverse.2 ((base.order_pairwise.and hnodup).imp_of_mem fun {e d} he hd hed => ?_)
  have hpos := h.strideAt_pos (lt_of_mem_order hd)
  obtain ⟨hle, hne⟩ := hed
  omega

theorem offsets_eq_split (h : base.Packed size) (hrank : 1 ≤ base.ndim) (ha : a.data = base.address index) :
    offsets base a =
      splitDistance base (span base index base.order.reverse) (List.replicate base.ndim 0) base.order.reverse := by
  have hfirst : base.stride 0 = .ok (base.strideAt 0) := stride_eq_ok.2 ⟨hrank, rfl⟩
  have horder : base.baseOrder = .ok base.order := by
    simp [baseOrder, hfirst, bind, Except.bind, pure, Except.pure, (h.strideAt_pos hrank).le]
  have hspan : a.data - base.data = span base index base.order.reverse := by
    rw [ha, address, add_sub_cancel_left, displacement_eq_sum ((List.reverse_perm _).trans base.order_perm)]
    rfl
  simp only [offsets, horder, bind, Except.bind, hspan]

/-- The offsets of a view of a packed base are the indices of its first element exactly if no index other than zero stands
before a dimension of one element; the first one that does is refused. -/
theorem offsets_of_packed_base (h : base.Packed size) (hrank : 1 ≤ base.ndim) (hindex : base.Inside index)
    (ha : a.data = base.address index) :
    (offsets base a = .ok index ↔ ∀ d, ¬ Hidden base index d) ∧
      ∀ d, Hidden base index d → (∀ e < d, ¬ Hidden base index e) →
        offsets base a = .error (.violated (some (pairText (index.getD d 0) 1))) := by
  have hmem : ∀ d, d ∈ base.order.reverse ↔ d < base.ndim := fun d =>
    ((List.reverse_perm _).trans base.order_perm).mem_iff.trans List.mem_range
  have hfails : ∀ d, Hidden base index d → (∀ e < d, ¬ Hidden base index e) →
      offsets base a = .error (.violated (some (pairText (index.getD d 0) 1))) := fun d hd hfirst => by
    rw [offsets_eq_split h hrank ha]
    have hnext : d + 1 < base.ndim := hd.1
    exact splitDistance_of_hidden h hindex (falling_order h) (fun e he => (hmem e).1 he) hd hfirst
      ((hmem d).2 (by omega)) ((hmem (d + 1)).2 hnext)
  refine ⟨⟨fun hok d hd => ?_, fun hseen => ?_⟩, hfails⟩
  · have herror := hfails (Nat.find ⟨d, hd⟩) (Nat.find_spec ⟨d, hd⟩) fun e he => Nat.find_min ⟨d, hd⟩ he
    cases herror.symm.trans hok
  · rw [offsets_eq_split h hrank ha]
    exact splitDistance_of_seen h hindex (falling_order h) (fun e he => (hmem e).1 he) hseen (by simp)
      fun e he hnot => absurd ((hmem e).2 he) hnot

def stackedColumns : View := ⟨4096, [2, 3, 1, 1], [24, 8, 8, 8]⟩

theorem stackedColumns_packed : stackedColumns.Packed 8 := ⟨rfl, by decide, by decide, by decide⟩

theorem stackedColumns_offsets :
    offsets stackedColumns ⟨4120, [1, 1, 1, 1], [24, 8, 8, 8]⟩ = .ok [1, 0, 0, 0] ∧
      offsets stackedColumns ⟨4136, [1, 1, 1, 1], [24, 8, 8, 8]⟩ = .error (.violated (some "(2, 1)")) := by
  have hseen : ∀ d, ¬ Hidden stackedColumns [1, 0, 0, 0] d
    | 0 | 1 | 2 => by decide
    | d + 3 => fun h => by
      have hlt : d + 3 + 1 < 4 := h.1
      omega
  have hin : stackedColumns.Inside [1, 2, 0, 0] := by decide
  exact ⟨(offsets_of_packed_base stackedColumns_packed (by decide) (by decide) rfl).1.2 hseen,
    (offsets_of_packed_base stackedColumns_packed (by decide) hin rfl).2 1 (by decide) (by decide)⟩

/-- The second element of a column is in the base and its offset is not found. -/
theorem column_offset_refused :
    View.Packed ⟨0, [2, 1], [8, 8]⟩ 8 ∧ View.Inside ⟨0, [2, 1], [8, 8]⟩ [1, 0] ∧
      View.address ⟨0, [2, 1], [8, 8]⟩ [1, 0] = 8 ∧
      offsets ⟨0, [2, 1], [8, 8]⟩ ⟨8, [1, 1], [8, 8]⟩ = .error (.violated (some "(1, 1)")) :=
  ⟨⟨rfl, by decide, by decide, by decide⟩, by decide, rfl, by cbv⟩

end ArrayKernel.Strided
