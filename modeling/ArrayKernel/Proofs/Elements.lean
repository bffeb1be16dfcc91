import ArrayKernel.Strided.Dependence
import Mathlib.Algebra.BigOperators.Group.List.Basic
import Mathlib.Algebra.Ring.Int.Defs
import Mathlib.Data.List.Forall2
import Mathlib.Data.List.Permutation
import Mathlib.Order.Bounds.Defs

/-! # Elements of a view -/

namespace ArrayKernel.Strided

/-! ## Checks that went on -/

section Checks

variable {α β : Type} {a b r : Int}

theorem bind_eq_ok {x : Except Fault α} {f : α → Except Fault β} {y : β} :
    (x >>= f) = .ok y ↔ ∃ z, x = .ok z ∧ f z = .ok y := by
  cases x <;> simp [bind, Except.bind]

theorem pure_eq_ok {x y : α} : (pure x : Except Fault α) = .ok y ↔ x = y := by
  simp [pure, Except.pure]

theorem require_eq_ok {c : Bool} {said : String} {u : Unit} : require c said = .ok u ↔ c = true := by
  cases c <;> simp [require]

theorem floorDiv_eq_ok : floorDiv a b = .ok r ↔ b ≠ 0 ∧ a.fdiv b = r := by
  unfold floorDiv
  split <;> simp_all

theorem floorMod_eq_ok : floorMod a b = .ok r ↔ b ≠ 0 ∧ a.fmod b = r := by
  unfold floorMod
  split <;> simp_all

theorem mapM_eq_ok {f : α → Except Fault β} {xs : List α} {ys : List β} (h : xs.mapM f = .ok ys) :
    List.Forall₂ (fun x y => f x = .ok y) xs ys := by
  induction xs generalizing ys with
  | nil =>
    obtain rfl := pure_eq_ok.1 h
    exact .nil
  | cons x xs ih =>
    simp only [List.mapM_cons, bind_eq_ok, pure_eq_ok] at h
    obtain ⟨y, hy, ys, hys, rfl⟩ := h
    exact .cons hy (ih hys)

end Checks

/-! ## Dimensions -/

namespace View

def Ranked (v : View) : Prop := v.shape.length = v.strides.length

/-- The stride of a dimension, and zero where there is none; so with extents. -/
def strideAt (v : View) (d : Nat) : Int := v.strides.getD d 0

def extentAt (v : View) (d : Nat) : Int := v.shape.getD d 0

variable {v : View} {d : Nat}

theorem stride_eq_ok {s : Int} : v.stride d = .ok s ↔ d < v.ndim ∧ v.strideAt d = s := by
  unfold stride strideAt ndim
  by_cases hd : d < v.strides.length <;> simp [hd]

theorem extent_eq_ok {n : Int} : v.extent d = .ok n ↔ d < v.shape.length ∧ v.extentAt d = n := by
  unfold extent extentAt
  by_cases hd : d < v.shape.length <;> simp [hd]

theorem extentAt_mem (hv : v.Ranked) (hd : d < v.ndim) : v.extentAt d ∈ v.shape := by
  have hd : d < v.shape.length := hv ▸ hd
  simp [extentAt, hd]

theorem order_perm (v : View) : v.order.Perm (List.range v.ndim) := by
  have hperm := (List.mergeSort_perm (v.strides.zipIdx.map fun p => (p.1.natAbs, p.2)) fun x y =>
    decide (x.1 < y.1 ∨ (x.1 = y.1 ∧ x.2 ≤ y.2))).map (·.2)
  rw [List.map_map] at hperm
  have hdims : v.strides.zipIdx.map ((·.2) ∘ fun p => (p.1.natAbs, p.2)) = List.range v.ndim := by
    rw [List.range_eq_range', ndim, ← List.zipIdx_map_snd]
    rfl
  exact hdims ▸ hperm

theorem lt_of_mem_order (h : d ∈ v.order) : d < v.ndim := List.mem_range.1 (v.order_perm.mem_iff.1 h)

end View

/-! ## Displacements -/

def displacement (index strides : List Int) : Int := (List.zipWith (· * ·) index strides).sum

@[simp]
theorem displacement_nil_left (strides : List Int) : displacement [] strides = 0 := rfl

@[simp]
theorem displacement_nil_right (index : List Int) : displacement index [] = 0 := by simp [displacement]

@[simp]
theorem displacement_cons (i s : Int) (index strides : List Int) :
    displacement (i :: index) (s :: strides) = i * s + displacement index strides := rfl

theorem displacement_eq_sum {index strides : List Int} {dims : List Nat} (h : dims.Perm (List.range strides.length)) :
    displacement index strides = (dims.map fun d => index.getD d 0 * strides.getD d 0).sum := by
  rw [(h.map _).sum_eq]
  clear h
  induction strides generalizing index with
  | nil => simp
  | cons s strides ih =>
    cases index with
    | nil => simp
    | cons i index => simp [List.range_succ_eq_map, Function.comp_def, ih]

def Below (index shape : List Int) : Prop := List.Forall₂ (fun i n => 0 ≤ i ∧ i < n) index shape

instance (index shape : List Int) : Decidable (Below index shape) :=
  inferInstanceAs (Decidable (List.Forall₂ _ index shape))

namespace Below

variable {i n : Int} {index shape : List Int}

@[simp]
theorem cons_iff : Below (i :: index) (n :: shape) ↔ (0 ≤ i ∧ i < n) ∧ Below index shape := List.forall₂_cons

theorem length_eq (h : Below index shape) : index.length = shape.length := List.Forall₂.length_eq h

theorem exists_cons (h : Below index (n :: shape)) :
    ∃ i rest, index = i :: rest ∧ (0 ≤ i ∧ i < n) ∧ Below rest shape := by
  obtain ⟨i, rest, hi, hrest, rfl⟩ := List.forall₂_cons_right_iff.1 h
  exact ⟨i, rest, rfl, hi, hrest⟩

theorem pos (h : Below index shape) : ∀ n ∈ shape, 0 < n := by
  induction shape generalizing index with
  | nil => simp
  | cons n shape ih =>
    obtain ⟨i, rest, -, hi, hrest⟩ := h.exists_cons
    exact List.forall_mem_cons.2 ⟨by omega, ih hrest⟩

end Below

namespace View

variable {v : View} {index index' : List Int} {d : Nat}

def Inside (v : View) (index : List Int) : Prop := Below index v.shape

instance (v : View) (index : List Int) : Decidable (v.Inside index) := inferInstanceAs (Decidable (Below _ _))

def address (v : View) (index : List Int) : Int := v.data + displacement index v.strides

theorem inside_iff (hv : v.Ranked) :
    v.Inside index ↔ index.length = v.ndim ∧ ∀ d < v.ndim, 0 ≤ index.getD d 0 ∧ index.getD d 0 < v.extentAt d := by
  have hshape : v.ndim = v.shape.length := hv.symm
  rw [Inside, Below, List.forall₂_iff_get, hshape]
  refine and_congr_right fun hlen => ⟨fun h d hd => ?_, fun h d hd hd' => ?_⟩
  · have hindex : d < index.length := hlen ▸ hd
    simpa [extentAt, hd, hindex] using h d hindex hd
  · simpa [extentAt, hd, hd'] using h d hd'

theorem Inside.length_eq_ndim (h : v.Inside index) (hv : v.Ranked) : index.length = v.ndim := h.length_eq.trans hv

theorem Inside.index_lt (h : v.Inside index) (hv : v.Ranked) (hd : d < v.ndim) :
    0 ≤ index.getD d 0 ∧ index.getD d 0 < v.extentAt d :=
  ((inside_iff hv).1 h).2 d hd

theorem Inside.ext (hi : v.Inside index) (hv : v.Ranked) (hj : v.Inside index')
    (h : ∀ d < v.ndim, index.getD d 0 = index'.getD d 0) : index = index' := by
  refine List.ext_getElem (hi.length_eq.trans hj.length_eq.symm) fun d hd hd' => ?_
  simpa [hd, hd'] using h d (hi.length_eq_ndim hv ▸ hd)

def addresses (v : View) : Set Int := {x | ∃ index, v.Inside index ∧ v.address index = x}

end View

end ArrayKernel.Strided
