import ArrayKernel.Ast.Equality
import ArrayKernel.Builder.Function
import ArrayKernel.Builder.Statement
import ArrayKernel.CType.Slicing
import ArrayKernel.Diagnostic

/-! # A survey of nodes -/

namespace ArrayKernel.Survey

open ArrayKernel.Ast

/-- What the survey reads. A hash is noted without its value, which differs between runs. -/
inductive Reading where
  | node (kind : String)
  | text (s : String)
  | holds (b : Bool)
  | hash
  | compared (children : List Operand) (type : Option CType)
  | children (os : List Operand)

def roundNodes (a b : Operand) (i : Nat) : Action (List Operand) := do
  let array ← Build.variableOf (CType.arrayOf CType.float32 1 true false) (.text "a")
  let pointer ← Build.variableOf (.pointer CType.float32 []) (.text "p")
  let register ← Build.vectorVariable array 4
  let label ← Build.label (.text "label")
  return [a, b, ← Build.add a b, ← Build.sub a b, ← Build.conditional a a b, ← Build.min a b,
    ← Build.sizeof CType.float64, ← Build.unop CType.int "-" a, ← Build.vectorBinop "+" register register,
    ← Build.vectorStore pointer register, ← Build.vectorConstant CType.float32 (.int i),
    ← Build.statement a, ← Build.assign pointer pointer, ← Build.jump label, ← Build.jumpTarget label,
    ← Build.index pointer a, ← Build.dereference pointer]

def readKind (o : Operand) : Action Reading := return .node (← nodeOf o).form.kindName

def readHash (o : Operand) : Action Reading := do
  checkKey o
  return .hash

def readCompared (o : Operand) : Action Reading := do
  let n ← nodeOf o
  return .compared n.presentChildren n.comparedType

def readProperties (a b : Operand) (i : Nat) : Action (List Reading) := do
  let place : Place := { file := .text "file", line := .int i, column := .int 0 }
  return [.text (← Action.ofExcept place.text), .holds (← same a b), ← readHash a, ← readCompared a,
    ← readCompared b, .holds (← same a a), ← readHash b, .children (← nodeOf a).presentChildren]

def round (i : Nat) : Action (List Reading) := do
  let a ← Build.constant (.int i)
  let b ← Build.constant (.int (i + 1))
  return (← (← roundNodes a b i).mapM readKind) ++ (← readProperties a b i)

def nodes (n : Nat) : Action (List Reading) := return (← (List.range n).mapM round).flatten

end ArrayKernel.Survey
