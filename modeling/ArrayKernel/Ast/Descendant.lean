import ArrayKernel.Ast.Traversal

/-! # Descendants -/

namespace ArrayKernel.Ast

def kindOf (o : Operand) : Action String :=
  match o with
  | .node id => return (← node id).form.kindName
  | .group _ => return "list"
  | .datum d => return d.kindWord

def childrenOf (o : Operand) : Action (List Operand) := do
  let children := (← nodeOf o).form.children.map (·.2)
  return children.flatMap fun
    | .datum .null => []
    | .group items => items
    | c => [c]

def descendantsOfKind (kind : String) : Nat → Operand → Action (List Operand)
  | 0, _ => throw .tooDeep
  | depth + 1, o => do
    let parts ← (← childrenOf o).mapM fun child => do
      let own := if (← kindOf child) == kind then [child] else []
      return own ++ (← descendantsOfKind kind depth child)
    return parts.flatten

def firstOfKind (kind : String) : Nat → Operand → Action (Option Operand)
  | 0, _ => throw .tooDeep
  | depth + 1, o => do firstAmong (firstOfKind kind depth) (← childrenOf o)
where
  firstAmong (below : Operand → Action (Option Operand)) : List Operand → Action (Option Operand)
    | [] => return none
    | c :: cs => do
      if (← kindOf c) == kind then return some c
      match ← below c with
      | some found => return some found
      | none => firstAmong below cs

end ArrayKernel.Ast
