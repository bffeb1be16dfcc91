import ArrayKernel.Ast.Lineage
import ArrayKernel.Ast.Traversal

/-! # Replacing nodes by kind -/

namespace ArrayKernel.Ast

inductive Replacement where
  | drop
  | double
  | keep
  | nest
  | unwrap
  deriving Repr, DecidableEq

namespace Replacement

def ofName? : String → Option Replacement
  | "drop" => some .drop
  | "dup" => some .double
  | "keep" => some .keep
  | "nest" => some .nest
  | "unwrap" => some .unwrap
  | _ => none

def apply (r : Replacement) (o : Operand) : Action Operand :=
  match r with
  | .drop => return .absent
  | .double => return .group [o, o]
  | .keep => return o
  | .nest => return .group [.group [o], o]
  | .unwrap => do
    match (← nodeOf o).presentChildren with
    | first :: _ => return first
    | [] => throw .outOfRange

end Replacement

def replaceWithin (rules : List (String × Replacement)) : Nat → Operand → Action Operand
  | 0, _ => throw .tooDeep
  | depth + 1, o => do
    match (← kindsOf o).findSome? (rules.lookup ·), o with
    | some r, _ => r.apply o
    | none, .node id =>
      transformChildren (replaceWithin rules depth) id
      return o
    | none, _ => throw .noRule

def replaceByKind (rules : List (String × Replacement)) (o : Operand) : Action Operand :=
  replaceWithin rules depthLimit o

def walkWithin : Nat → Operand → Action Unit
  | 0, _ => throw .tooDeep
  | depth + 1, o => do
    let .node id := o | throw .noRule
    let _ ← visitChildren (fun _ _ child => walkWithin depth child) id

end ArrayKernel.Ast
