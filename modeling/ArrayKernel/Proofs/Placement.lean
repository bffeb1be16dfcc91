import ArrayKernel.Proofs.Elements
import Mathlib.Tactic.Linarith

/-!
# Views placed in a base

Two views of one base are placed in it by the indices of their first elements and by the number of elements of
the base that each of their indices steps over.
-/

namespace ArrayKernel.Strided

variable {base a b v : View} {offsets steps index : List Int} {dims : List Nat} {d : Nat}

/-! ## What the checks find -/

theorem requireStrides_spec {negative : Bool} (h : requireStrides base a b negative dims = .ok ()) :
    ∀ d ∈ dims, base.strideAt d ∣ a.strideAt d ∧ base.strideAt d ∣ b.strideAt d := by
  induction dims with
  | nil => simp
  | cons d dims ih =>
    simp only [requireStrides, bind_eq_ok, View.stride_eq_ok, require_eq_ok, floorMod_eq_ok, beq_iff_eq] at h
    obtain ⟨_, ⟨-, rfl⟩, -, -, -, -, _, ⟨-, rfl⟩, _, ⟨-, rfl⟩, -, ha, _, ⟨-, rfl⟩, _, ⟨-, rfl⟩, -, hb, h⟩ := h
    exact List.forall_mem_cons.2 ⟨⟨Int.dvd_of_fmod_eq_zero ha, Int.dvd_of_fmod_eq_zero hb⟩, ih h⟩

theorem requireBase_spec (h : requireBase base a b = .ok ()) :
    base.ndim = a.ndim ∧ ∀ d < base.ndim, base.strideAt d ∣ a.strideAt d ∧ base.strideAt d ∣ b.strideAt d := by
  simp only [requireBase, bind_eq_ok, require_eq_ok, beq_iff_eq] at h
  obtain ⟨_, hrank, _, -, _, -, first, -, hstrides⟩ := h
  exact ⟨hrank, fun d hd => requireStrides_spec hstrides d (List.mem_range.2 hd)⟩

theorem requireInside_spec {k : Nat} (h : requireInside base v k offsets steps = .ok ()) (hd : d < offsets.length)
    (hd' : d < steps.length) :
    0 ≤ offsets.getD d 0 + (v.extentAt (k + d) - 1) * steps.getD d 0 ∧
      offsets.getD d 0 + (v.extentAt (k + d) - 1) * steps.getD d 0 < base.extentAt (k + d) := by
  induction offsets generalizing k steps d with
  | nil => cases hd
  | cons offset offsets ih =>
    cases steps with
    | nil => cases hd'
    | cons step steps =>
      simp only [requireInside, bind_eq_ok, View.extent_eq_ok, require_eq_ok, decide_eq_true_eq] at h
      obtain ⟨_, ⟨-, rfl⟩, -, hlow, _, ⟨-, rfl⟩, -, hhigh, h⟩ := h
      cases d with
      | zero => exact ⟨hlow, hhigh⟩
      | succ d =>
        rw [show k + (d + 1) = k + 1 + d by omega]
        exact ih h (by simpa using hd) (by simpa using hd')

structure Split (base : View) (dims : List Nat) (distance : Int) (found result : List Int) : Prop where
  length_eq : result.length = found.length
  kept : ∀ d, d ∉ dims → result.getD d 0 = found.getD d 0
  inside : ∀ d ∈ dims, 0 ≤ result.getD d 0 ∧ result.getD d 0 < base.extentAt d
  sum_eq : (dims.map fun d => result.getD d 0 * base.strideAt d).sum = distance

theorem splitDistance_spec {distance : Int} {found result : List Int}
    (h : splitDistance base distance found dims = .ok result) (hnodup : dims.Nodup)
    (hdims : ∀ d ∈ dims, d < found.length) : Split base dims distance found result := by
  -- The rest of the distance is split by the dimensions that follow, none of which is the present one.
  induction dims generalizing distance found with
  | nil =>
    simp only [splitDistance, bind_eq_ok, require_eq_ok, beq_iff_eq, pure_eq_ok] at h
    obtain ⟨-, rfl, rfl⟩ := h
    exact ⟨rfl, fun _ _ => rfl, by simp, rfl⟩
  | cons d dims ih =>
    obtain ⟨hd, hnodup⟩ := List.nodup_cons.1 hnodup
    obtain ⟨hlt, hdims⟩ := List.forall_mem_cons.1 hdims
    simp only [splitDistance, bind_eq_ok, View.stride_eq_ok, View.extent_eq_ok, floorDiv_eq_ok, floorMod_eq_ok,
      require_eq_ok, decide_eq_true_eq] at h
    obtain ⟨_, ⟨-, rfl⟩, _, ⟨-, rfl⟩, _, ⟨-, rfl⟩, -, hinside, _, ⟨-, rfl⟩, h⟩ := h
    have hrest := ih h hnodup (by simpa using hdims)
    have hhere : result.getD d 0 = distance.fdiv (base.strideAt d) := by
      rw [hrest.kept d hd]
      simp [hlt]
    refine ⟨by simpa using hrest.length_eq, fun e he => ?_, ?_, ?_⟩
    · rw [List.mem_cons, not_or] at he
      rw [hrest.kept e he.2, List.getD_eq_getElem?_getD, List.getElem?_set_ne (Ne.symm he.1)]
      rfl
    · rw [List.forall_mem_cons, hhere]
      exact ⟨hinside, hrest.inside⟩
    · rw [List.map_cons, List.sum_cons, hrest.sum_eq, hhere, mul_comm]
      exact Int.mul_fdiv_add_fmod _ _

theorem baseOrder_perm (h : base.baseOrder = .ok dims) : dims.Perm (List.range base.ndim) := by
  simp only [View.baseOrder, bind_eq_ok, pure_eq_ok] at h
  obtain ⟨first, -, rfl⟩ := h
  split
  · exact (List.reverse_perm _).trans base.order_perm
  · exact base.order_perm

theorem offsets_spec (hbase : base.Ranked) (h : Strided.offsets base v = .ok offsets) :
    base.Inside offsets ∧ base.data + displacement offsets base.strides = v.data := by
  simp only [Strided.offsets, bind_eq_ok] at h
  obtain ⟨dims, hdims, h⟩ := h
  have hperm := (List.reverse_perm dims).trans (baseOrder_perm hdims)
  have hmem : ∀ d, d ∈ dims.reverse ↔ d < base.ndim := fun d => hperm.mem_iff.trans List.mem_range
  have hsplit := splitDistance_spec h (hperm.nodup_iff.2 List.nodup_range) fun d hd => by simpa using (hmem d).1 hd
  refine ⟨(View.inside_iff hbase).2 ⟨by simpa using hsplit.length_eq, fun d hd => ?_⟩, ?_⟩
  · exact hsplit.inside d ((hmem d).2 hd)
  · have hsum : displacement offsets base.strides = v.data - base.data :=
      (displacement_eq_sum hperm).trans hsplit.sum_eq
    omega

theorem steps_spec (h : Strided.steps base v = .ok steps) :
    steps.length = base.ndim ∧ ∀ d < base.ndim, steps.getD d 0 = (v.strideAt d).fdiv (base.strideAt d) := by
  have hall := mapM_eq_ok h
  have hlen : steps.length = base.ndim := by simpa using hall.length_eq.symm
  refine ⟨hlen, fun d hd => ?_⟩
  have hget := hall.get (by simpa using hd) (hlen ▸ hd)
  simp only [List.get_eq_getElem, List.getElem_range, bind_eq_ok, View.stride_eq_ok, floorDiv_eq_ok] at hget
  obtain ⟨_, ⟨-, rfl⟩, _, ⟨-, rfl⟩, -, hdiv⟩ := hget
  simp [hlen ▸ hd, hdiv]

/-! ## Elements in the base -/

/-- The indices in a base of the element that a view has at some indices. -/
def placed (offsets steps index : List Int) : List Int :=
  List.zipWith (· + ·) offsets (List.zipWith (· * ·) index steps)

/-- A view starts inside a base, steps through it by whole elements and ends inside it. -/
structure Placed (base v : View) (offsets steps : List Int) : Prop where
  rank : v.ndim = base.ndim
  steps_length : steps.length = base.ndim
  first : base.Inside offsets
  start : base.data + displacement offsets base.strides = v.data
  stride : ∀ d < base.ndim, steps.getD d 0 * base.strideAt d = v.strideAt d
  last : ∀ d < base.ndim, 0 ≤ offsets.getD d 0 + (v.extentAt d - 1) * steps.getD d 0 ∧
    offsets.getD d 0 + (v.extentAt d - 1) * steps.getD d 0 < base.extentAt d

theorem placed_of_checks (hbase : base.Ranked) (hrank : v.ndim = base.ndim)
    (hstride : ∀ d < base.ndim, base.strideAt d ∣ v.strideAt d) (hoffsets : Strided.offsets base v = .ok offsets)
    (hsteps : Strided.steps base v = .ok steps) (hinside : requireInside base v 0 offsets steps = .ok ()) :
    Placed base v offsets steps := by
  obtain ⟨hfirst, hstart⟩ := offsets_spec hbase hoffsets
  obtain ⟨hlen, hdiv⟩ := steps_spec hsteps
  refine ⟨hrank, hlen, hfirst, hstart, fun d hd => ?_, fun d hd => ?_⟩
  · rw [hdiv d hd, Int.fdiv_mul_cancel (hstride d hd)]
  · have hlast := requireInside_spec hinside (hfirst.length_eq_ndim hbase ▸ hd) (hlen ▸ hd)
    simpa using hlast

theorem place_spec {p : Placement} (hbase : base.Ranked) (ha : a.Ranked) (hb : b.Ranked)
    (h : place base a b = .ok p) : Placed base a p.offsetsA p.stepsA ∧ Placed base b p.offsetsB p.stepsB := by
  simp only [place, bind_eq_ok, require_eq_ok, beq_iff_eq, pure_eq_ok] at h
  obtain ⟨_, hshape, _, hviews, _, -, _, -, _, -, offsetsA, hoffsetsA, stepsA, hstepsA, _, hinsideA, offsetsB, hoffsetsB,
    stepsB, hstepsB, _, hinsideB, rfl⟩ := h
  obtain ⟨hrank, hdvd⟩ := requireBase_spec hviews
  have hrankB : b.ndim = base.ndim := by
    rw [hrank, View.ndim, View.ndim, ← ha, ← hb, hshape]
  exact ⟨placed_of_checks hbase hrank.symm (fun d hd => (hdvd d hd).1) hoffsetsA hstepsA hinsideA,
    placed_of_checks hbase hrankB (fun d hd => (hdvd d hd).2) hoffsetsB hstepsB hinsideB⟩

theorem between_first_last {offset step i n extent : Int} (hfirst : 0 ≤ offset ∧ offset < extent)
    (hlast : 0 ≤ offset + (n - 1) * step ∧ offset + (n - 1) * step < extent) (hi : 0 ≤ i ∧ i < n) :
    0 ≤ offset + i * step ∧ offset + i * step < extent := by
  rcases le_total 0 step with hstep | hstep
  · constructor <;> nlinarith
  · constructor <;> nlinarith

namespace Placed

theorem getD_placed (h : Placed base v offsets steps) (hbase : base.Ranked) (hv : v.Ranked) (hindex : v.Inside index)
    (hd : d < base.ndim) :
    (placed offsets steps index).getD d 0 = offsets.getD d 0 + index.getD d 0 * steps.getD d 0 := by
  have hoffsets : d < offsets.length := h.first.length_eq_ndim hbase ▸ hd
  have hsteps : d < steps.length := h.steps_length ▸ hd
  have hindex : d < index.length := hindex.length_eq_ndim hv ▸ h.rank ▸ hd
  simp [placed, hoffsets, hsteps, hindex]

theorem inside (h : Placed base v offsets steps) (hbase : base.Ranked) (hv : v.Ranked) (hindex : v.Inside index) :
    base.Inside (placed offsets steps index) := by
  refine (View.inside_iff hbase).2 ⟨?_, fun d hd => ?_⟩
  · simp [placed, h.first.length_eq_ndim hbase, hindex.length_eq_ndim hv, h.steps_length, h.rank]
  · rw [h.getD_placed hbase hv hindex hd]
    exact between_first_last (h.first.index_lt hbase hd) (h.last d hd) (hindex.index_lt hv (h.rank ▸ hd))

theorem address_eq (h : Placed base v offsets steps) (hbase : base.Ranked) (hv : v.Ranked) (hindex : v.Inside index) :
    base.address (placed offsets steps index) = v.address index := by
  have hdims : (List.range base.strides.length).Perm (List.range v.strides.length) :=
    .of_eq (congrArg List.range h.rank.symm)
  have hsum : displacement (placed offsets steps index) base.strides =
      displacement offsets base.strides + displacement index v.strides := by
    rw [displacement_eq_sum (.refl _), displacement_eq_sum (.refl _), displacement_eq_sum hdims, ← List.sum_map_add]
    refine congrArg List.sum (List.map_congr_left fun d hd => ?_)
    have hd : d < base.ndim := List.mem_range.1 hd
    have hstride := h.stride d hd
    unfold View.strideAt at hstride
    rw [h.getD_placed hbase hv hindex hd, add_mul, mul_assoc, hstride]
  rw [View.address, View.address, hsum, ← h.start, add_assoc]

end Placed

/-- Wherever two views are placed in a base, each of their elements is the element of the base at the offset plus index
times step, and lies inside the base. -/
theorem placement_locates_elements {p : Placement} (hbase : base.Ranked) (ha : a.Ranked) (hb : b.Ranked)
    (h : place base a b = .ok p) :
    (∀ index, a.Inside index → base.Inside (placed p.offsetsA p.stepsA index) ∧
      a.address index = base.address (placed p.offsetsA p.stepsA index)) ∧
    (∀ index, b.Inside index → base.Inside (placed p.offsetsB p.stepsB index) ∧
      b.address index = base.address (placed p.offsetsB p.stepsB index)) := by
  obtain ⟨hpa, hpb⟩ := place_spec hbase ha hb h
  exact ⟨fun index hindex => ⟨hpa.inside hbase ha hindex, (hpa.address_eq hbase ha hindex).symm⟩,
    fun index hindex => ⟨hpb.inside hbase hb hindex, (hpb.address_eq hbase hb hindex).symm⟩⟩

def fallingBase : View := ⟨4888, [10, 10], [-80, -8]⟩

/-- Every other row of the base, its odd columns forwards. -/
def oddForwards : View := ⟨4880, [5, 5], [-160, -16]⟩

/-- Every other row of the base, its odd columns backwards. -/
def oddBackwards : View := ⟨4816, [5, 5], [-160, 16]⟩

theorem odd_columns_located :
    place fallingBase oddForwards oddBackwards = .ok ⟨[0, 1], [2, 2], [0, 9], [2, -2]⟩ ∧
      (∀ index, oddForwards.Inside index → fallingBase.Inside (placed [0, 1] [2, 2] index) ∧
        oddForwards.address index = fallingBase.address (placed [0, 1] [2, 2] index)) ∧
      (∀ index, oddBackwards.Inside index → fallingBase.Inside (placed [0, 9] [2, -2] index) ∧
        oddBackwards.address index = fallingBase.address (placed [0, 9] [2, -2] index)) := by
  have h : place fallingBase oddForwards oddBackwards = .ok ⟨[0, 1], [2, 2], [0, 9], [2, -2]⟩ := by cbv
  exact ⟨h, placement_locates_elements (by rfl) (by rfl) (by rfl) h⟩

end ArrayKernel.Strided
