import ArrayKernel.CType.Slicing
import ArrayKernel.Proofs.Elements
import Mathlib.Data.List.Sort

/-!
# Dimensions selected from an array type

A slice of an array type selects dimensions that follow one another. Marks of contiguity are kept by comparing
the bounds as they are written, and what is kept holds for every view that the type describes.
-/

namespace ArrayKernel

/-! ## Contiguous views -/

namespace Strided.View

variable {v : View} {size : Int} {exempt : Set Int} {lo count : Nat}

/-- Each stride is the size of what the later dimensions hold. Where the extent of a dimension is exempt its stride does
not matter; some ask this of all dimensions, others exempt those of one element. -/
def RowMajor (v : View) (size : Int) (exempt : Set Int) : Prop :=
  ∀ d < v.ndim, v.extentAt d ∈ exempt ∨ v.strideAt d = size * (v.shape.drop (d + 1)).prod

def ColumnMajor (v : View) (size : Int) (exempt : Set Int) : Prop :=
  ∀ d < v.ndim, v.extentAt d ∈ exempt ∨ v.strideAt d = size * (v.shape.take d).prod

def restrict (v : View) (dims : List Nat) : View where
  data := v.data
  shape := dims.map v.extentAt
  strides := dims.map v.strideAt

theorem getD_range' (xs : List Int) (lo count : Nat) (h : lo + count ≤ xs.length) :
    (List.range' lo count).map (xs.getD · 0) = (xs.drop lo).take count := by
  apply List.ext_getElem
  · simp
    omega
  · intro k hk _
    simp only [List.length_map, List.length_range'] at hk
    have hlt : lo + k < xs.length := by omega
    simp [hlt]

theorem restrict_range' (hv : v.Ranked) (h : lo + count ≤ v.ndim) :
    v.restrict (List.range' lo count) = ⟨v.data, (v.shape.drop lo).take count, (v.strides.drop lo).take count⟩ := by
  have hshape : lo + count ≤ v.shape.length := by rw [hv]; exact h
  rw [← getD_range' v.shape lo count hshape, ← getD_range' v.strides lo count h]
  rfl

theorem RowMajor.suffix (hv : v.Ranked) (hlo : lo + count = v.ndim) (h : v.RowMajor size exempt) :
    (v.restrict (List.range' lo count)).RowMajor size exempt := by
  have hshape : v.shape.length = v.strides.length := hv
  have hdim : v.ndim = v.strides.length := rfl
  rw [restrict_range' hv (by omega), List.take_of_length_le (by simp; omega), List.take_of_length_le (by simp; omega)]
  intro d hd
  simp only [ndim, List.length_drop] at hd
  simpa [extentAt, strideAt, Nat.add_assoc] using h (lo + d) (by omega)

theorem ColumnMajor.initial (hv : v.Ranked) (hcount : count ≤ v.ndim) (h : v.ColumnMajor size exempt) :
    (v.restrict (List.range' 0 count)).ColumnMajor size exempt := by
  rw [restrict_range' hv (by omega), List.drop_zero, List.drop_zero]
  intro d hd
  simp only [ndim, List.length_take] at hd
  have hlt : d < count := by omega
  simpa [extentAt, strideAt, List.getElem?_take, hlt, List.take_take, Nat.min_eq_left hlt.le] using
    h d (by omega)

end Strided.View

namespace CType

open Strided

variable {d : CType} {n : Nat} {c f i : Bool} {bs : Option (List Bool)} {start stop : Int}

/-! ## Which dimensions a slice selects -/

def fromEnd (n : Nat) (bound : Int) : Int := if bound < 0 then bound + n else bound

def selected (n : Nat) (start stop : Int) : List Nat :=
  (List.range n).filter fun k => fromEnd n start ≤ k ∧ k < fromEnd n stop

theorem selected_eq_range' (n : Nat) (start stop : Int) :
    selected n start stop = List.range' (clampBound n start) (clampBound n stop - clampBound n start) := by
  unfold selected
  apply List.Perm.eq_of_pairwise' (r := (· < ·))
  · exact List.pairwise_lt_range.filter _
  · exact List.pairwise_lt_range' ..
  · rw [List.perm_ext_iff_of_nodup (List.nodup_range.filter _) List.nodup_range']
    intro k
    simp only [List.mem_filter, List.mem_range, List.mem_range'_1, decide_eq_true_eq]
    unfold fromEnd clampBound
    split <;> split <;> omega

theorem length_selected (n : Nat) (start stop : Int) :
    (selected n start stop).length = clampBound n stop - clampBound n start := by
  rw [selected_eq_range', List.length_range']

theorem clampBound_le (n : Nat) (bound : Int) : clampBound n bound ≤ n := by
  unfold clampBound
  split <;> omega

theorem selectDimensions_eq (h : selected n start stop ≠ []) : selectDimensions d n c f start stop =
    arrayOf d (selected n start stop).length (c && stop == n) (f && start == 0) := by
  have hcount : clampBound n stop - clampBound n start ≠ 0 := by
    rw [← length_selected]
    simpa using h
  unfold selectDimensions
  rw [length_selected, if_neg (by simpa using hcount)]
  rfl

theorem selectDimensions_of_nil (h : selected n start stop = []) : selectDimensions d n c f start stop = d := by
  have hcount : clampBound n stop - clampBound n start = 0 := by
    rw [← length_selected, h]
    rfl
  unfold selectDimensions
  rw [if_pos (by simpa using hcount)]

/-! ## Slices -/

def bound : Option Int → Datum
  | none => .null
  | some k => .int k

def between (start stop : Option Int) : Slice := { start := bound start, stop := bound stop }

theorem sliced_between {start stop : Option Int} (h : start.isSome ∨ stop.isSome) :
    (CType.array d n c f i bs).sliced (between start stop) =
      .ok (selectDimensions d n c f (start.getD 0) (stop.getD n)) := by
  cases start <;> cases stop <;> simp at h <;> rfl

theorem selected_from (n a : Nat) (h : a < n) : (selected n a n).length = n - a := by
  rw [length_selected]
  unfold clampBound
  rw [if_neg (by omega), if_neg (by omega)]
  omega

theorem sliced_from (a : Nat) (h : a < n) : (CType.array d n c f i bs).sliced (between (some a) none) =
    .ok (arrayOf d (n - a) c (f && a == 0)) := by
  have hcount := selected_from n a h
  have hsome : selected n a n ≠ [] := by
    intro hnil
    rw [hnil] at hcount
    simp at hcount
    omega
  rw [sliced_between (.inl rfl)]
  simp only [Option.getD_some, Option.getD_none]
  have hzero : ((a : Int) == 0) = (a == 0) := by
    simp
  rw [selectDimensions_eq hsome, hcount, beq_self_eq_true, Bool.and_true, hzero]

/-! ## Main statement -/

theorem arrayOf_keeps_contiguity {v : View} {size : Int} {exempt : Set Int} (hv : v.Ranked) (hndim : v.ndim = n)
    (hrows : c = true → v.RowMajor size exempt) (hcolumns : f = true → v.ColumnMajor size exempt) :
    ((c && stop == n) = true → (v.restrict (selected n start stop)).RowMajor size exempt) ∧
    ((f && start == 0) = true → (v.restrict (selected n start stop)).ColumnMajor size exempt) := by
  have hstart := clampBound_le n start
  have hstop := clampBound_le n stop
  rw [selected_eq_range']
  constructor
  · intro h
    simp only [Bool.and_eq_true, beq_iff_eq] at h
    have hlast : clampBound n stop = n := by
      unfold clampBound
      rw [h.2, if_neg (by omega)]
      simp
    exact (hrows h.1).suffix hv (by omega)
  · intro h
    simp only [Bool.and_eq_true, beq_iff_eq] at h
    have hfirst : clampBound n start = 0 := by
      unfold clampBound
      rw [h.2, if_neg (by omega)]
      simp
    rw [hfirst]
    exact (hcolumns h.1).initial hv (by omega)

/-- A slice of an array type with at least one bound gives the element type if it selects no dimension. Otherwise it
gives an array type of the selected dimensions, and of every view that is contiguous as the type says these dimensions are
contiguous as the new type says. Slicing from one dimension on and then from another is slicing from their sum on. -/
theorem slicing_keeps_contiguity {start stop : Option Int} (h : start.isSome ∨ stop.isSome) :
    (∃ r, (CType.array d n c f i bs).sliced (between start stop) = .ok r ∧
      (selected n (start.getD 0) (stop.getD n) = [] → r = d) ∧
      (selected n (start.getD 0) (stop.getD n) ≠ [] → r.isArray = true ∧ r.dtype? = some d ∧
        r.ndim? = some (selected n (start.getD 0) (stop.getD n)).length ∧
        ∀ (v : View) (size : Int) (exempt : Set Int), v.Ranked → v.ndim = n →
          (c = true → v.RowMajor size exempt) → (f = true → v.ColumnMajor size exempt) →
          (r.isCContig = true → (v.restrict (selected n (start.getD 0) (stop.getD n))).RowMajor size exempt) ∧
          (r.isFContig = true → (v.restrict (selected n (start.getD 0) (stop.getD n))).ColumnMajor size exempt))) ∧
    ∀ a b : Nat, a + b < n → ∃ u, (CType.array d n c f i bs).sliced (between (some (a + b : Nat)) none) = .ok u ∧
      ((CType.array d n c f i bs).sliced (between (some a) none) >>= (·.sliced (between (some b) none))) = .ok u := by
  refine ⟨⟨_, sliced_between h, selectDimensions_of_nil, fun hsome => ?_⟩, fun a b hab => ?_⟩
  · rw [selectDimensions_eq hsome]
    exact ⟨rfl, rfl, rfl, fun v size exempt hv hndim hrows hcolumns =>
      arrayOf_keeps_contiguity hv hndim hrows hcolumns⟩
  · refine ⟨_, sliced_from (a + b) hab, ?_⟩
    have hrest : (arrayOf d (n - a) c (f && a == 0)).sliced (between (some b) none) =
        .ok (arrayOf d (n - a - b) c (f && a == 0 && b == 0)) := sliced_from b (by omega)
    rw [sliced_from a (by omega), show n - (a + b) = n - a - b by omega,
      show (f && a + b == 0) = (f && a == 0 && b == 0) by cases a <;> cases b <;> simp]
    exact hrest

def cube : View := ⟨0, [2, 3, 4], [96, 32, 8]⟩

theorem cube_rowMajor : cube.RowMajor 8 ∅ := by
  intro k hk
  right
  match k, hk with
  | 0, _ | 1, _ | 2, _ => rfl

/-- The last two dimensions, counted from the end, stay contiguous by rows. -/
theorem rows_of_cube_contiguous :
    cube.RowMajor 8 ∅ ∧ ∃ r, (arrayOf float64 3 true false).sliced (between (some (-2)) none) = .ok r ∧
      r.ndim? = some 2 ∧ r.isCContig = true ∧ (cube.restrict [1, 2]).RowMajor 8 ∅ ∧
      ∃ u, (arrayOf float64 3 true false).sliced (between (some 2) none) = .ok u ∧
        ((arrayOf float64 3 true false).sliced (between (some 1) none) >>= (·.sliced (between (some 1) none))) = .ok u := by
  have hbound : (some (-2 : Int)).isSome ∨ (none : Option Int).isSome := .inl rfl
  obtain ⟨⟨r, hr, -, hsome⟩, hsum⟩ := @slicing_keeps_contiguity float64 3 true false true none _ _ hbound
  obtain ⟨-, -, hndim, hkept⟩ := hsome (by decide)
  have hc : r.isCContig = true := by
    cases hr
    rfl
  exact ⟨cube_rowMajor, r, hr, hndim, hc, (hkept cube 8 ∅ rfl rfl (fun _ => cube_rowMajor) nofun).1 hc, hsum 1 1 (by decide)⟩

/-- An array of arrays, of which no dimension is selected, gives an array type: that of its elements. -/
theorem no_dimension_of_blocks :
    (arrayOf (arrayOf float64 2 false false) 1 false false).sliced (between (some 1) none) =
      .ok (arrayOf float64 2 false false) ∧
    selected 1 1 1 = [] ∧ (arrayOf float64 2 false false).isArray = true ∧
    (arrayOf float64 2 false false).ndim? = some 2 :=
  ⟨rfl, by decide, rfl, rfl⟩

end CType

end ArrayKernel
