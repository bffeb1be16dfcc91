import ArrayKernel.Emit.Writer

/-!
# Sections

A section in reading order is a list of items and of places of other sections. Writing adds an item at its end,
opening a section adds its place, and putting the output away changes nothing.
-/

namespace ArrayKernel.Emit

variable {α : Type}

inductive Piece (α : Type) where
  | item (a : α)
  | place (sectionId : Nat)

def Child.pieces : Child α → List (Piece α)
  | .output items => items.toList.map .item
  | .place t => [.place t]

namespace Section

def pieces (s : Section α) : List (Piece α) := s.children.toList.flatMap Child.pieces ++ s.output.toList.map .item

theorem pieces_write (s : Section α) (a : α) : (s.write a).pieces = s.pieces ++ [.item a] := by
  simp [pieces, write]

@[simp] theorem pieces_commit (s : Section α) : s.commit.pieces = s.pieces := by
  unfold commit
  split
  · rfl
  · simp [pieces, Child.pieces]

theorem output_commit (s : Section α) : s.commit.output = #[] := by
  unfold commit
  split
  · exact Array.isEmpty_iff.1 ‹_›
  · rfl

theorem pieces_insert (s : Section α) (t : Nat) : (s.insert t).pieces = s.pieces ++ [.place t] := by
  rw [← s.pieces_commit]
  simp [pieces, insert, Child.pieces, output_commit]

end Section

namespace Document

variable {d e : Document α} {s : Nat} {p : Piece α}

def pieces (d : Document α) (s : Nat) : List (Piece α) := ((d.sections[s]?).getD {}).pieces

theorem itemsWithin_succ (d : Document α) (depth s : Nat) : d.itemsWithin (depth + 1) s =
    (d.pieces s).flatMap fun
      | .item a => [a]
      | .place t => d.itemsWithin depth t := by
  rw [itemsWithin, pieces, Section.pieces, List.flatMap_append, List.flatMap_assoc, List.flatMap_map]
  congr 1
  · congr 1
    funext c
    cases c with
    | output items => simp [Child.pieces, List.flatMap_map]
    | place t => simp [Child.pieces]
  · simp

/-- One document is another one with a piece more at the end of a section. -/
structure Adds (d e : Document α) (s : Nat) (p : Piece α) : Prop where
  size : e.sections.size = d.sections.size
  pieces_eq : ∀ t, e.pieces t = d.pieces t ++ (if t = s then [p] else [])

theorem adds_update {f : Section α → Section α} (hs : s < d.sections.size) (hf : ∀ x, (f x).pieces = x.pieces ++ [p]) :
    Adds d (d.update s f) s p := by
  refine ⟨Array.size_modify, fun t => ?_⟩
  unfold pieces update
  rw [Array.getElem?_modify]
  by_cases ht : t = s
  · subst ht
    simp [hs, hf]
  · rw [if_neg (Ne.symm ht), if_neg ht, List.append_nil]

end Document

end ArrayKernel.Emit
