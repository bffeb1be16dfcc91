/-!
# Documents with insertion points

Each section of a document has an output, which holds what was written last. What stands before the output are the
section's children: earlier output that was put away, and the sections that were opened in between.
-/

namespace ArrayKernel.Emit

inductive Child (α : Type) where
  | output (items : Array α)
  | place (sectionId : Nat)

structure Section (α : Type) where
  children : Array (Child α) := #[]
  output : Array α := #[]

namespace Section

def write (s : Section α) (a : α) : Section α := { s with output := s.output.push a }

/-- Puts the output away, so that a child can be put after it. -/
def commit (s : Section α) : Section α :=
  if s.output.isEmpty then s else { children := s.children.push (.output s.output) }

def insert (s : Section α) (child : Nat) : Section α :=
  { s.commit with children := s.commit.children.push (.place child) }

end Section

structure Document (α : Type) where
  sections : Array (Section α) := #[]

namespace Document

def addSection (d : Document α) : Document α × Nat :=
  ({ sections := d.sections.push {} }, d.sections.size)

def update (d : Document α) (s : Nat) (f : Section α → Section α) : Document α :=
  { sections := d.sections.modify s f }

def write (d : Document α) (s : Nat) (a : α) : Document α := d.update s (·.write a)

def insertionPoint (d : Document α) (s : Nat) : Document α × Nat :=
  let (d, new) := d.addSection
  (d.update s (·.insert new), new)

def itemsWithin (d : Document α) : Nat → Nat → List α
  | 0, _ => []
  | depth + 1, s =>
    let s := (d.sections[s]?).getD {}
    (s.children.toList.flatMap fun
      | .output items => items.toList
      | .place t => itemsWithin d depth t) ++ s.output.toList

def items (d : Document α) (s : Nat) : List α := d.itemsWithin d.sections.size s

end Document

end ArrayKernel.Emit
