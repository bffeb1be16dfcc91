import ArrayKernel.Builder.Function
import ArrayKernel.CType.Foreign

/-! # Expressions of a client -/

namespace ArrayKernel

open Ast

inductive ForeignExpr where
  | named (position name : Datum) (type : ForeignType)
  | binary (position : Datum) (operator : String) (lhs rhs : ForeignExpr)
  | assign (position : Datum) (lhs rhs : ForeignExpr)
  deriving Inhabited

namespace ForeignExpr

def position : ForeignExpr → Datum
  | named p _ _ | binary p _ _ _ | assign p _ _ => p

abbrev Mapping := StateT (List (Datum × Operand)) Action

/-- Runs an action with a position for the nodes it makes, which stays if the action fails. -/
def atPlace (place : Datum) (a : Mapping Operand) : Mapping Operand := do
  let previous ← Ast.position
  setPosition (.raw place)
  let r ← a
  setPosition previous
  return r

def mapVariable (ndim : Nat) (name : Datum) (type : ForeignType) : Mapping Operand := do
  match (← get).find? fun (n, _) => n == name with
  | some (_, o) => return o
  | none =>
    let dtype ← Action.ofExcept (CType.ofForeign type)
    let o ← Build.variableOf (.array dtype ndim false false false none) name
    modify (· ++ [(name, o)])
    return o

def toNode (ndim : Nat) : ForeignExpr → Mapping Operand
  | named p name type => atPlace p (mapVariable ndim name type)
  | binary p operator lhs rhs => atPlace p do
    let l ← toNode ndim lhs
    let r ← toNode ndim rhs
    let a ← typeOf l
    let b ← typeOf r
    Build.binop (← Action.ofExcept (a.join b)) operator l r
  | assign p lhs rhs => atPlace p do
    let l ← toNode ndim lhs
    let r ← toNode ndim rhs
    let body ← Build.assign l r
    Build.functionOver ((← get).map (·.2)) body

def toKernel (ndim : Nat) (e : ForeignExpr) : Action Operand := do
  let (o, _) ← (e.toNode ndim).run []
  return o

end ForeignExpr

end ArrayKernel
