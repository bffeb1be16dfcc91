import ArrayKernel.Builder.Function
import ArrayKernel.CType.Slicing

/-! # Kernels to survey -/

namespace ArrayKernel.Survey

open ArrayKernel.Ast

/-- Multiplies the first operand by the second, adds the third, multiplies by the fourth, and so on. -/
def chain (first : Operand) : List Operand → Action Operand
  | [] => return first
  | [a] => Build.mul first a
  | a :: b :: rest => do chain (← Build.add (← Build.mul first a) b) rest

def chainKernel (inputs ndim : Nat) (isContiguous : Bool) : Action Operand := do
  let array := CType.arrayOf CType.float64 ndim isContiguous false
  let out ← Build.variableOf array (.text "out")
  let operands ← (List.range inputs).mapM fun i => Build.variableOf array (.text ("op" ++ toString i))
  match operands ++ operands with
  | [] => throw .outOfRange
  | first :: rest =>
    let value ← Build.unop array "-" (← chain first rest)
    Build.functionOver (out :: operands) (← Build.assign out value) (.text "kernel")

def broadcastArray (broadcasting : Option (List Bool)) : CType :=
  .array CType.float64 3 false false false broadcasting

/-- A kernel over a whole array, one that is repeated along two dimensions and one that is repeated along one.
The product of the last two comes first, and `steps` more operands follow, in turn. -/
def broadcastKernel (steps : Nat) : Action Operand := do
  let out ← Build.variableOf (broadcastArray none) (.text "out")
  let whole ← Build.variableOf (broadcastArray none) (.text "op0")
  let row ← Build.variableOf (broadcastArray (some [false, true, true])) (.text "op1")
  let plane ← Build.variableOf (broadcastArray (some [false, false, true])) (.text "op2")
  let turn := [whole, row, plane]
  let rest := (List.range steps).map fun i => turn.getD (i % turn.length) whole
  Build.functionOver (out :: turn) (← Build.assign out (← chain row (plane :: rest)))

end ArrayKernel.Survey
