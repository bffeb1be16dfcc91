import ArrayKernel.Ast.Session
import ArrayKernel.Attribute.Value
import ArrayKernel.Datum.Field

/-! # Reading descriptions -/

namespace ArrayKernel.Script

open ArrayKernel.Ast

abbrev Names := List (String × Value)

structure Reader where
  type : Datum → Action CType
  node : Datum → Action Value

namespace Reader

def operand (r : Reader) (d : Datum) : Action Operand := do
  match ← r.node d with
  | .operand o => return o
  | _ => return .datum (.text "")

def operands (r : Reader) (d : Datum) : Action (List Operand) := d.itemList.mapM r.operand

def pairedTypes (r : Reader) (d : Datum) : Action (List (String × CType)) :=
  d.itemList.mapM fun pair =>
    match pair.itemList with
    | [n, t] => return (n.textOrEmpty, ← r.type t)
    | _ => throw .unbound

def namedTypes (r : Reader) (d : Datum) : Action (List (String × CType)) :=
  d.fieldList.mapM fun (n, t) => return (n, ← r.type t)

end Reader

end ArrayKernel.Script
