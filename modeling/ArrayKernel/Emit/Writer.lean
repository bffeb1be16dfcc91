import ArrayKernel.Emit.Document

/-!
# Writers

A writer writes to one section of a document. A writer of C code indents its lines by the braces written so
far and has a second writer for prototypes.
-/

namespace ArrayKernel.Emit

structure Writer where
  sectionId : Nat
  indent : Int := 0
  proto : Option Nat := none
  loopLevels : List Nat := []
  tiledLoopLevels : List Nat := []
  declarationLevels : List Nat := []

structure Desk (α : Type) where
  document : Document α := {}
  writers : Array Writer := #[]

namespace Desk

def addWriter (d : Desk α) (w : Writer) : Desk α × Nat :=
  ({ d with writers := d.writers.push w }, d.writers.size)

def openPlain (d : Desk α) : Desk α × Nat :=
  let (document, s) := d.document.addSection
  addWriter { d with document } { sectionId := s }

def openCode (d : Desk α) : Desk α × Nat :=
  let (d, proto) := d.openPlain
  let (document, s) := d.document.addSection
  addWriter { d with document } { sectionId := s, proto := some proto }

def writer (d : Desk α) (w : Nat) : Writer := (d.writers[w]?).getD { sectionId := 0 }

def update (d : Desk α) (w : Nat) (f : Writer → Writer) : Desk α :=
  { d with writers := d.writers.modify w f }

def write (d : Desk α) (w : Nat) (a : α) : Desk α :=
  { d with document := d.document.write (d.writer w).sectionId a }

def commit (d : Desk α) (w : Nat) : Desk α :=
  { d with document := d.document.update (d.writer w).sectionId (·.commit) }

def insertionPoint (d : Desk α) (w : Nat) : Desk α × Nat :=
  let parent := d.writer w
  let (document, s) := d.document.insertionPoint parent.sectionId
  let d := { d with document }
  match parent.proto with
  | none => d.addWriter { parent with sectionId := s }
  | some _ =>
    let (d, proto) := d.openPlain
    d.addWriter { parent with sectionId := s, proto := some proto }

def contents (d : Desk α) (w : Nat) : List α := d.document.items (d.writer w).sectionId

end Desk

def countChar (c : Char) (s : String) : Nat := s.toList.count c

def indentation (n : Int) : String := "".pushn ' ' (4 * n.toNat)

/-- A line of code as it is written at a depth of indentation, and the depth after it. Closing braces
count before the line, opening ones after it. -/
def indented (indent : Int) (line : String) : String × Int :=
  let before := indent - countChar '}' line
  (indentation before ++ line ++ "\n", before + countChar '{' line)

def Desk.putLine (d : Desk α) (pack : String → α) (w : Nat) (line : String) : Desk α :=
  let (text, indent) := indented (d.writer w).indent line
  (d.write w (pack text)).update w fun w => { w with indent }

def mangle (name : String) : String := "__mini_mangle_" ++ name

end ArrayKernel.Emit
