import ArrayKernel.Proofs.Shape
import Mathlib.Data.List.Sort

/-! # Nests by dimension -/

namespace ArrayKernel.Ast

open Running

variable {s t : Session} {o body : Operand} {fid shape : NodeId} {g : Region}
variable {first : Nat} {x : Name} {d : Int}
variable {n : Nat} {α : Type} {cs : List Counter}

/-! ## Dimensions -/

def ascending (a : Int) (n : Nat) : List Int := (List.range n).map fun (k : Nat) => a + k

theorem ascending_nodup (a : Int) (n : Nat) : (ascending a n).Nodup :=
  List.Nodup.map (fun i j h => by omega) List.nodup_range

theorem mem_ascending {a i : Int} : i ∈ ascending a n ↔ a ≤ i ∧ i < a + n := by
  simp only [ascending, List.mem_map, List.mem_range]
  constructor
  · rintro ⟨k, hk, rfl⟩
    omega
  · intro h
    exact ⟨(i - a).toNat, by omega, by omega⟩

theorem ascending_append (a : Int) (n m : Nat) :
    ascending a n ++ ascending (a + n) m = ascending a (n + m) := by
  simp only [ascending, List.range_add, List.map_append, List.map_map, List.append_cancel_left_eq]
  refine List.map_congr_left fun k _ => ?_
  simp only [Function.comp, Int.natCast_add]
  omega

theorem range_up (a : Int) (n : Nat) : Position.range a (a + n) 1 = ascending a n := by
  simp [Position.range, ascending]

theorem range_down (a : Int) (n : Nat) : (Position.range (a + n - 1) (a - 1) (-1)).reverse = ascending a n := by
  have hn : (a + n - 1 - (a - 1) - -1 - 1) / - -1 = n := by
    simp
  simp only [Position.range, hn]
  refine List.ext_getElem (by simp [ascending]) fun i h1 h2 => ?_
  simp [ascending] at h1 h2 ⊢
  omega

variable {order : Layout.Order} {ds : List Int} {β : Type}

theorem arrange_map (f : α → β) (l : List α) : order.arrange (l.map f) = (order.arrange l).map f := by
  cases order <;> simp [Layout.Order.arrange]

theorem arrange_perm (order : Layout.Order) (l : List α) : (order.arrange l).Perm l := by
  cases order
  · exact List.reverse_perm l
  · exact .refl l

theorem arrange_dims (order : Layout.Order) (n : Nat) : order.arrange (order.dims n).dims = ascending 0 n := by
  cases order
  · simpa [Layout.Order.arrange, Layout.Order.dims, Layout.DimRange.dims] using range_down 0 n
  · simpa [Layout.Order.arrange, Layout.Order.dims, Layout.DimRange.dims] using range_up 0 n

def tiledFrom (order : Layout.Order) (n : Nat) : Int × Int :=
  match order with
  | .rowMajor => (n - 2, 0)
  | .columnMajor => (0, 2)

theorem arrange_tiledDims (order : Layout.Order) (n : Nat) :
    order.arrange (order.tiledDims n).dims = ascending (tiledFrom order n).1 2 := by
  cases order
  · have h := range_down (n - 2) 2
    rw [show (n : Int) - 2 + (2 : Nat) - 1 = n - 1 by omega, show (n : Int) - 2 - 1 = n - 3 by omega] at h
    simpa [Layout.Order.arrange, Layout.Order.tiledDims, Layout.DimRange.dims, tiledFrom] using h
  · simpa [Layout.Order.arrange, Layout.Order.tiledDims, Layout.DimRange.dims, tiledFrom] using range_up 0 2

theorem arrange_untiledDims (order : Layout.Order) (hn : 2 ≤ n) :
    order.arrange (order.untiledDims n).dims = ascending (tiledFrom order n).2 (n - 2) := by
  cases order
  · have h := range_down 0 (n - 2)
    rw [show (0 : Int) + (n - 2 : Nat) - 1 = n - 3 by omega] at h
    simpa [Layout.Order.arrange, Layout.Order.untiledDims, Layout.DimRange.dims, tiledFrom] using h
  · have h := range_up 2 (n - 2)
    rw [show (2 : Int) + (n - 2 : Nat) = n by omega] at h
    simpa [Layout.Order.arrange, Layout.Order.untiledDims, Layout.DimRange.dims, tiledFrom] using h

theorem tiledIndices_eq (order : Layout.Order) (hn : 2 ≤ n) (f h : Int → NodeId) : (match order with
      | .rowMajor => order.arrange ((order.untiledDims n).dims.map fun d => Operand.node (f d)) ++
          order.arrange ((order.tiledDims n).dims.map fun d => Operand.node (h d))
      | .columnMajor => order.arrange ((order.tiledDims n).dims.map fun d => Operand.node (h d)) ++
          order.arrange ((order.untiledDims n).dims.map fun d => Operand.node (f d))) =
      (ascending 0 n).map fun d => Operand.node (if d ∈ (order.tiledDims n).dims then h d else f d) := by
  have hmem : ∀ d, d ∈ (order.tiledDims n).dims ↔ d ∈ ascending (tiledFrom order n).1 2 := fun d => by
    rw [← arrange_tiledDims]
    exact (arrange_perm order _).mem_iff.symm
  have hin : order.arrange ((order.tiledDims n).dims.map fun d => Operand.node (h d)) =
      (ascending (tiledFrom order n).1 2).map
        fun d => Operand.node (if d ∈ (order.tiledDims n).dims then h d else f d) := by
    rw [arrange_map, arrange_tiledDims]
    refine List.map_congr_left fun d hd => ?_
    rw [if_pos ((hmem d).2 hd)]
  have hout : order.arrange ((order.untiledDims n).dims.map fun d => Operand.node (f d)) =
      (ascending (tiledFrom order n).2 (n - 2)).map
        fun d => Operand.node (if d ∈ (order.tiledDims n).dims then h d else f d) := by
    rw [arrange_map, arrange_untiledDims order hn]
    refine List.map_congr_left fun d hd => ?_
    rw [if_neg fun hd' => ?_]
    rw [hmem, mem_ascending] at hd'
    rw [mem_ascending] at hd
    cases order <;> simp only [tiledFrom] at hd hd' <;> omega
  rw [hin, hout]
  cases order with
  | rowMajor =>
    have := ascending_append 0 (n - 2) 2
    rw [show (0 : Int) + (n - 2 : Nat) = n - 2 by omega, show n - 2 + 2 = n by omega] at this
    simp only [tiledFrom, ← this, List.map_append]
  | columnMajor =>
    have := ascending_append 0 2 (n - 2)
    rw [show 2 + (n - 2) = n by omega] at this
    simp only [tiledFrom, ← this, List.map_append]
    rfl

theorem sorted_tiledDims (order : Layout.Order) (n : Int) :
    (order.tiledDims n).sorted = order.arrange (order.tiledDims n).dims := by
  cases order <;> rfl

/-! ## Tables by dimension -/

theorem lookup_pairs (f : Int → α) (hd : d ∈ ds) : (ds.map fun d => (d, f d)).lookup d = some (f d) := by
  induction ds with
  | nil => cases hd
  | cons e ds ih =>
    simp only [List.map_cons, List.lookup_cons]
    by_cases he : d = e
    · simp [he]
    · rw [show (d == e) = false by simpa using he]
      exact ih ((List.mem_cons.1 hd).resolve_left he)

theorem getElem?_ascending (f : Int → α) (hd : d ∈ ascending 0 n) :
    ((ascending 0 n).map f)[d.toNat]? = some (f d) := by
  obtain ⟨h0, hlt⟩ := mem_ascending.1 hd
  have hi : d.toNat < n := by omega
  simp [ascending, hi, Int.toNat_of_nonneg h0]

theorem zipIdx_ascending (n : Nat) (f : Int → α) :
    ((ascending 0 n).map f).zipIdx = (ascending 0 n).map fun d => (f d, d.toNat) := by
  refine List.ext_getElem (by simp) fun i h1 h2 => ?_
  simp [ascending]

/-! ## Nests by dimension -/

theorem exists_map_eq [Inhabited β] {bs : List β} (hd : ds.Nodup)
    (hlen : ds.length = bs.length) : ∃ k : Int → β, bs = ds.map k := by
  induction ds generalizing bs with
  | nil => exact ⟨fun _ => default, by simpa using hlen.symm⟩
  | cons d ds ih =>
    cases bs with
    | nil => simp at hlen
    | cons b bs =>
      obtain ⟨hnew, hd⟩ := List.nodup_cons.1 hd
      obtain ⟨k, rfl⟩ := ih hd (by simpa using hlen)
      refine ⟨Function.update k d b, ?_⟩
      rw [List.map_cons, Function.update_self]
      congr 1
      refine List.map_congr_left fun i hi => (Function.update_of_ne ?_ ..).symm
      rintro rfl
      exact hnew hi

variable {D : List Int} {b : Layout.Bounds} {L U : Int → Session → Operand → Prop} {r : Layout.Nest}
variable {k : Int → Counter}

theorem NestOf.count (h : NestOf s first order D body b L U r (D.map k)) (hd : d ∈ D) :
    CountsDim s first b.step (L d) (U d) d (k d) :=
  List.forall₂_same.1 (List.forall₂_map_right_iff.1 h.counts) d hd

theorem NestOf.temps_nodup (h : NestOf s first order D body b L U r cs) : (cs.map (·.temp)).Nodup :=
  List.Pairwise.map _ (fun c c' hlt heq => by rw [heq] at hlt; omega) h.temps

theorem nest_by_dim {dims : Layout.DimRange} {I : Session → Prop}
    (h : Runs (Layout.nest order body dims b) s r t) (hI : I s)
    (hmono : ∀ {s t}, Grows g s t → I s → I t) (hb : ∀ d ∈ dims.dims, BoundsOk g I b d (L d) (U d))
    (hs : Site g fid shape x s) (hbody : g.HasAll s body) (hstep : g.HasAll s b.step)
    (hd : dims.dims.Nodup) :
    Grows g s t ∧ ∃ k : Int → Counter,
      NestOf t s.nodes.size order dims.dims body b L U r (dims.dims.map k) := by
  obtain ⟨hgr, cs, hn⟩ := nest_spec hmono hI ⟨hs.start_le, hs.assigns⟩ hbody hstep h hb
  obtain ⟨k, rfl⟩ := exists_map_eq hd hn.counts.length_eq
  exact ⟨hgr, k, hn⟩

theorem CountsDim.imp {step : Operand} {c : Counter} {L U L' U' : Session → Operand → Prop} {first' : Nat}
    (h : CountsDim s first step L U d c) (hle : first' ≤ first) (hL : ∀ {o}, L s o → L' s o)
    (hU : ∀ {o}, U s o → U' s o) : CountsDim s first' step L' U' d c where
  stored := h.stored.earlier hle
  upper := hU h.upper
  lower := by
    obtain ⟨lo, hlo, hor⟩ := h.lower
    exact ⟨lo, hL hlo, hor⟩
  step := h.step

theorem given_ok {lo up : Int → NodeId} (hd : d ∈ D) (hlo : b.lower d = pure (.node (lo d)))
    (hup : b.upper d = pure (.node (up d))) :
    BoundsOk g (fun s => ∀ d ∈ D, g.Has s (lo d) ∧ g.Has s (up d) ∧
        ∃ ty, s.type? (up d) = some ty ∧ ty.isPointer = false) b d
      (fun _ o => o = .node (lo d))
      (fun s o => o = .node (up d) ∧ ∃ ty, s.type? (up d) = some ty ∧ ty.isPointer = false) where
  lower := by
    intro s o t hI _ h
    rw [hlo] at h
    obtain ⟨rfl, rfl⟩ := runs_pure.1 h
    exact ⟨.refl, Region.hasAll_node.2 (hI d hd).1, rfl⟩
  upper := by
    intro s o t hI _ h
    rw [hup] at h
    obtain ⟨rfl, rfl⟩ := runs_pure.1 h
    exact ⟨.refl, Region.hasAll_node.2 (hI d hd).2.1, rfl, (hI d hd).2.2⟩
  lower_node h := .inr ⟨_, h⟩
  upper_type := by
    rintro s j ty ⟨hj, ty', hty', hp⟩ hty
    cases hj
    rw [hty] at hty'
    cases hty'
    exact hp
  lower_steady _ h := h
  upper_steady := by
    rintro s t o hst ⟨rfl, ty, hty, hp⟩
    exact ⟨rfl, ty, hst.type? hty, hp⟩

theorem chain_last (h : Chain first s body cs o) (hne : cs ≠ []) :
    ∃ c ∈ cs, o = .node c.loop ∧ ∃ inner, Stands first c s inner := by
  induction cs generalizing body with
  | nil => exact absurd rfl hne
  | cons c cs ih =>
    obtain ⟨hst, hrest⟩ := h
    cases cs with
    | nil => exact ⟨c, by simp, hrest, body, hst⟩
    | cons c' cs =>
      obtain ⟨c'', hc, ho, hs⟩ := ih hrest (by simp)
      exact ⟨c'', by simp [hc], ho, hs⟩

theorem NestOf.grows (h : NestOf s first order D body b L U r cs) (hgr : Grows g s t)
    (hL : ∀ {d o}, L d s o → L d t o) (hU : ∀ {d o}, U d s o → U d t o) :
    NestOf t first order D body b L U r cs where
  loops := h.loops
  indices := h.indices
  chain first := hgr.keeps.chain (h.chain first)
  counts := h.counts.imp fun _ _ hc => hgr.steady.countsDim hL hU hc
  temps := h.temps

end ArrayKernel.Ast
