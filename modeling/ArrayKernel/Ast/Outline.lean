import ArrayKernel.Ast.Traversal

/-! # Outlines -/

namespace ArrayKernel.Ast

def heldValue (n : Node) : Action (Option Name) :=
  match n.form with
  | .var { role := .temporary shown, .. } => return some (.ofString shown)
  | .var v => return some v.name
  | .functionName name _ => return some (.datum name)
  | .binop p _ _ | .vectorStore p _ _ | .vectorBinop p _ _ | .unop p _ => return some (.ofString p)
  | .constant v => return some (.datum v)
  | .sizeof _ => do
    match n.type with
    | some t => return some (.ofString (← typeText t))
    | none => throw .noSuchField
  | _ => return none

def heldText (n : Node) : Action (Option Name) := do
  match ← heldValue n with
  | some (.datum .null) => return none
  | other => return other

def summary (o : Operand) (withType : Bool := true) : Action String := do
  let n ← nodeOf o
  let kind := n.form.kindName
  let held ← heldText n
  if n.form.isExpression && withType then
    let type ← typeText (← typeOf o)
    match held with
    | some name => return kind ++ "(" ++ (← shownName name) ++ ", type=" ++ type ++ ")"
    | none => return kind ++ "(type=" ++ type ++ ")"
  match held with
  | none => return kind
  | some (.type t) => return kind ++ "(" ++ (← typeText t) ++ ")"
  | some (.datum d) => return if d.truthy then kind ++ "(" ++ d.display ++ ")" else kind

def outlineWithin : Nat → Nat → String → Operand → Action (List String)
  | 0, _, _, _ => throw .tooDeep
  | depth + 1, indent, place, o => do
    let .node id := o | throw .noRule
    let line := "".pushn ' ' (2 * indent) ++ place ++ ": " ++ (← summary o)
    let children ← visitChildren (fun name i child =>
      outlineWithin depth (indent + 1) (match i with
        | some i => name ++ "[" ++ toString i ++ "]"
        | none => name) child) id
    let below := children.flatMap fun (_, v) =>
      match v with
      | .one lines => lines
      | .many parts => parts.flatten
    return line :: below

def outline (o : Operand) : Action (List String) := do
  let _ ← identity o
  outlineWithin depthLimit 0 "(root)" o

end ArrayKernel.Ast
