import ArrayKernel.Attribute.OfNode
import ArrayKernel.Path.Parse

/-! # Selecting nodes by paths -/

namespace ArrayKernel.Path

open Ast

structure Found where
  values : List Value := []
  fault : Option Fault := none

namespace Found

def one (v : Value) : Found := { values := [v] }

def failed (e : Fault) : Found := { fault := some e }

def append (a b : Found) : Found :=
  match a.fault with
  | some _ => a
  | none => { values := a.values ++ b.values, fault := b.fault }

def extend (f : Value → Found) : List Value → Option Fault → Found
  | [], fault => { fault }
  | v :: vs, fault => (f v).append (extend f vs fault)

def bind (a : Found) (f : Value → Found) : Found := extend f a.values a.fault

def ofExcept : Except Fault (List Value) → Found
  | .ok vs => { values := vs }
  | .error e => failed e

def first (a : Found) : Except Fault (Option Value) :=
  match a.values, a.fault with
  | v :: _, _ => .ok (if v.isNull then none else some v)
  | [], some e => .error e
  | [], none => .ok none

def all (a : Found) : Except Fault (List Value) :=
  match a.fault with
  | some e => .error e
  | none => .ok a.values

end Found

section Selecting

variable (nodes : Array Node)

def childValues (v : Value) : Except Fault (List Value) :=
  match v with
  | .operand (.node id) =>
    match nodes[id.index]? with
    | some n => .ok ((n.form.children.flatMap fun (_, o) =>
        match o with
        | .datum .null => []
        | .group items => items
        | o => [o]).map .operand)
    | none => .error .noSuchField
  | _ => .error .noSuchField

def hasKind (kind : String) (v : Value) : Bool :=
  match v with
  | .operand (.node id) =>
    match nodes[id.index]? with
    | some n => n.form.kindName == kind
    | none => false
  | .operand (.datum d) => d.kindWord == kind
  | .operand (.group _) => kind == "list"
  | _ => false

def descendants (test : Value → Bool) : Nat → Value → Found
  | 0, _ => .failed .tooDeep
  | depth + 1, v =>
    (Found.ofExcept (childValues nodes v)).bind fun child =>
      (if test child then Found.one child else {}).append (descendants test depth child)

def attributeChain (v : Value) (names : List String) : Except Fault Value :=
  names.foldlM (attributeIn nodes) v

mutual

def select (v : Value) : Selector → Found
  | .children kind => Found.ofExcept do return (← childValues nodes v).filter (hasKind nodes kind)
  | .anyChild => Found.ofExcept (childValues nodes v)
  | .this => .one v
  | .descendants none => descendants nodes (fun _ => true) nodes.size v
  | .descendants (some kind) => descendants nodes (hasKind nodes kind) nodes.size v
  | .attribute names value =>
    match attributeChain nodes v names, value with
    | .error _, _ => {}
    | .ok a, none => if a.isNull then {} else .one a
    | .ok a, some d => if a.isDatum d then .one a else {}
  | .holds chain =>
    match (selectChain v chain).first with
    | .error e => .failed e
    | .ok none => {}
    | .ok (some _) => .one v
  | .both chain test =>
    match (selectChain v chain).first with
    | .error e => .failed e
    | .ok none => {}
    | .ok (some _) => (select v test).bind fun _ => .one v
  | .negation test =>
    match (select v test).first with
    | .error e => .failed e
    | .ok none => .one v
    | .ok (some _) => {}

def selectChain (v : Value) : List Selector → Found
  | [] => .one v
  | s :: rest => (select v s).bind fun w => selectChain w rest

end

end Selecting

def findAll (o : Operand) (path : String) : Action (List Value) := do
  let selectors ← Action.ofExcept (parse path)
  Action.ofExcept (selectChain (← get).nodes (.operand o) selectors).all

def findFirst (o : Operand) (path : String) : Action Value := do
  let selectors ← Action.ofExcept (parse path)
  return (← Action.ofExcept (selectChain (← get).nodes (.operand o) selectors).first).getD .null

end ArrayKernel.Path
