import ArrayKernel.Builder.Expression
import ArrayKernel.Ast.Traversal

/-!
# Operands of one type

The operands of an operation are brought to its type, those of a comparison to their common type, and an
assigned value to the type of its target. Pointers are left alone.
-/

namespace ArrayKernel.Layout

open Ast

def isComparison (operator : String) : Bool :=
  ["<", ">", "==", "!=", ">=", "<="].contains operator

def resolveType (id : NodeId) : Action CType := do
  let type ← knownType (.node id)
  if type.isArray then updateNode id fun n => { n with type := some type.resolved }
  return type.resolved

def promoteOperands (target : CType) (id : NodeId) : Action Unit := do
  let o := Operand.node id
  let lhs ← Build.promote target (← leftOf o)
  updateForm id (·.setChild "lhs" lhs)
  let rhs ← Build.promote target (← rightOf o)
  updateForm id (·.setChild "rhs" rhs)

def promoteNode (visit : Operand → Action Operand) (id : NodeId) : Action Operand := do
  let o := Operand.node id
  match (← node id).form with
  | .unop _ operand =>
    let type ← resolveType id
    let operand ← Build.promote type (← visit operand)
    updateForm id (·.setChild "operand" operand)
    return o
  | .binop operator _ _ | .vectorBinop operator _ _ =>
    transformChildren visit id
    let type ← resolveType id
    let target ←
      if isComparison operator then Build.joinTypes (← leftOf o) (← rightOf o) else pure type
    if !(← known target).isPointer then promoteOperands target id
    return o
  | .assign .. =>
    transformChildren visit id
    let _ ← resolveType id
    promoteOperands (← typeOf (← leftOf o)) id
    return o
  | .var { role := .element e, .. } => visit e
  | _ =>
    transformChildren visit id
    return o

def promoteWithin : Nat → Operand → Action Operand
  | 0, _ => throw .tooDeep
  | depth + 1, o => do
    let .node id := o | throw .noRule
    promoteNode (promoteWithin depth) id

def promoteTypes (o : Operand) : Action Operand := promoteWithin depthLimit o

end ArrayKernel.Layout
