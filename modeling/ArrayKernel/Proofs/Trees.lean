import ArrayKernel.Proofs.Building
import Mathlib.Data.List.Nodup
import Mathlib.Logic.Relation

/-!
# Trees in the store

Operands name nodes, so what stands below a node is a tree only if no node is a child twice. The nodes below two
children of a tree are then apart, and a change below one of them leaves the other alone.
-/

namespace ArrayKernel.Ast

variable {s t : Session} {i j c c' root : NodeId} {ids : List NodeId} {f : Form}

def IsChild (s : Session) (i j : NodeId) : Prop := ∃ f, s.form? i = some f ∧ j ∈ f.ids

abbrev Below (s : Session) : NodeId → NodeId → Prop := Relation.ReflTransGen (IsChild s)

/-- The nodes below some nodes. -/
def Under (s : Session) (ids : List NodeId) (j : NodeId) : Prop := ∃ c ∈ ids, Below s c j

/-- What stands below the root is a tree: every node is there, each but the root stands in one position of one
node, and the root stands in none. -/
structure IsTree (s : Session) (root : NodeId) : Prop where
  stored : ∀ j, Below s root j → ∃ f, s.form? j = some f ∧ f.ids.Nodup ∧ root ∉ f.ids
  parent : ∀ i j c, Below s root i → Below s root j → IsChild s i c → IsChild s j c → i = j

/-! ## Parts of a tree -/

namespace IsTree

variable (h : IsTree s root)

include h

theorem not_isChild (hj : Below s root j) : ¬ IsChild s j root := by
  rintro ⟨f, hf, hmem⟩
  obtain ⟨f', hf', -, hroot⟩ := h.stored j hj
  cases hf.symm.trans hf'
  exact hroot hmem

theorem not_below (hc : IsChild s root c) : ¬ Below s c root := by
  intro hb
  rcases hb.cases_tail with rfl | ⟨p, hp, hlast⟩
  · exact h.not_isChild .refl hc
  · exact h.not_isChild (hp.head hc) hlast

theorem child (hc : IsChild s root c) : IsTree s c where
  stored j hj := by
    obtain ⟨f, hf, hnodup, -⟩ := h.stored j (hj.head hc)
    refine ⟨f, hf, hnodup, fun hmem => ?_⟩
    have hsame := h.parent root j c .refl (hj.head hc) hc ⟨f, hf, hmem⟩
    subst hsame
    exact h.not_below hc hj
  parent i j x hi hj := h.parent i j x (hi.head hc) (hj.head hc)

/-- No node is below two children. -/
theorem apart (hc : IsChild s root c) (hc' : IsChild s root c') (hne : c ≠ c') (hj : Below s c j) :
    ¬ Below s c' j := by
  induction hj with
  | refl =>
    intro hb
    rcases hb.cases_tail with rfl | ⟨p, hp, hlast⟩
    · exact hne rfl
    · have hsame := h.parent root p c .refl (hp.head hc') hc hlast
      subst hsame
      exact h.not_below hc' hp
  | @tail p j hp hlast ih =>
    intro hb
    rcases hb.cases_tail with rfl | ⟨q, hq, hlast'⟩
    · have hsame := h.parent root p j .refl (hp.head hc) hc' hlast
      subst hsame
      exact h.not_below hc hp
    · have hsame := h.parent p q j (hp.head hc) (hq.head hc') hlast hlast'
      subst hsame
      exact ih hq

theorem children_apart (hf : s.form? root = some f) :
    f.ids.Pairwise fun c c' => ∀ j, Below s c j → ¬ Below s c' j := by
  obtain ⟨f', hf', hnodup, -⟩ := h.stored root .refl
  cases hf.symm.trans hf'
  refine hnodup.pairwise_of_forall_ne fun c hc c' hc' hne j hj => ?_
  exact h.apart ⟨f, hf, hc⟩ ⟨f, hf, hc'⟩ hne hj

end IsTree

/-! ## Sessions that agree below a node -/

theorem below_congr (h : ∀ j, Below s i j → t.form? j = s.form? j) : Below t i j ↔ Below s i j := by
  constructor
  · intro hj
    induction hj with
    | refl => exact .refl
    | tail _ hlast ih =>
      obtain ⟨f, hf, hmem⟩ := hlast
      rw [h _ ih] at hf
      exact ih.tail ⟨f, hf, hmem⟩
  · intro hj
    induction hj with
    | refl => exact .refl
    | tail hp hlast ih =>
      obtain ⟨f, hf, hmem⟩ := hlast
      rw [← h _ hp] at hf
      exact ih.tail ⟨f, hf, hmem⟩

theorem under_congr (h : ∀ j, Under s ids j → t.form? j = s.form? j) : Under t ids j ↔ Under s ids j := by
  constructor
  · rintro ⟨c, hc, hj⟩
    exact ⟨c, hc, (below_congr fun j hj => h j ⟨c, hc, hj⟩).1 hj⟩
  · rintro ⟨c, hc, hj⟩
    exact ⟨c, hc, (below_congr fun j hj => h j ⟨c, hc, hj⟩).2 hj⟩

theorem IsTree.congr (hs : IsTree s root) (h : ∀ j, Below s root j → t.form? j = s.form? j) : IsTree t root where
  stored j hj := by
    have hj' := (below_congr h).1 hj
    rw [h j hj']
    exact hs.stored j hj'
  parent i j c hi hj hic hjc := by
    have hi' := (below_congr h).1 hi
    have hj' := (below_congr h).1 hj
    unfold IsChild at hic hjc
    rw [h i hi'] at hic
    rw [h j hj'] at hjc
    exact hs.parent i j c hi' hj' hic hjc

/-- Where no node of the store is a child twice, what stands below a node that is no child is a tree. -/
theorem isTree_of_nodup (hstored : ∀ c ∈ s.nodes.toList.flatMap (·.form.ids), c.index < s.nodes.size)
    (hnodup : (s.nodes.toList.flatMap (·.form.ids)).Nodup) (hroot : root ∉ s.nodes.toList.flatMap (·.form.ids))
    (hlt : root.index < s.nodes.size) : IsTree s root := by
  have hmem : ∀ {i : NodeId} {f : Form}, s.form? i = some f → ∃ n ∈ s.nodes.toList, n.form = f := by
    intro i f hf
    obtain ⟨n, hn, rfl⟩ := node?_of_form? hf
    exact ⟨n, Array.mem_toList_iff.2 (Array.mem_of_getElem? hn), rfl⟩
  rw [List.nodup_flatMap] at hnodup
  refine ⟨fun j hj => ?_, fun i j c _ _ hi hj => ?_⟩
  · have hj : j.index < s.nodes.size := by
      rcases hj.cases_tail with rfl | ⟨p, -, f, hf, hc⟩
      · exact hlt
      · obtain ⟨n, hn, rfl⟩ := hmem hf
        exact hstored j (List.mem_flatMap.2 ⟨n, hn, hc⟩)
    obtain ⟨n, hn⟩ := node?_of_lt hj
    have hf := form?_of_node? hn
    obtain ⟨m, hm, hform⟩ := hmem hf
    refine ⟨n.form, hf, hform ▸ hnodup.1 m hm, fun hin => ?_⟩
    exact hroot (List.mem_flatMap.2 ⟨m, hm, hform ▸ hin⟩)
  · obtain ⟨f, hf, hc⟩ := hi
    obtain ⟨g, hg, hc'⟩ := hj
    obtain ⟨n, hn, rfl⟩ := node?_of_form? hf
    obtain ⟨m, hm, rfl⟩ := node?_of_form? hg
    by_contra hne
    have hpair := List.pairwise_iff_getElem.1 hnodup.2
    obtain ⟨hi, hn⟩ := Array.getElem?_eq_some_iff.1 hn
    obtain ⟨hj, hm⟩ := Array.getElem?_eq_some_iff.1 hm
    rcases Nat.lt_trichotomy i.index j.index with hlt | heq | hlt
    · have hdisjoint := hpair i.index j.index (by simpa using hi) (by simpa using hj) hlt
      simp only [Array.getElem_toList, hn, hm, Function.onFun] at hdisjoint
      exact hdisjoint hc hc'
    · obtain ⟨i⟩ := i
      obtain ⟨j⟩ := j
      exact hne (congrArg NodeId.mk heq)
    · have hdisjoint := hpair j.index i.index (by simpa using hj) (by simpa using hi) hlt
      simp only [Array.getElem_toList, hn, hm, Function.onFun] at hdisjoint
      exact hdisjoint hc' hc

end ArrayKernel.Ast
