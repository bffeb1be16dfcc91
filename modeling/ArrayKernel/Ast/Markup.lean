import ArrayKernel.Ast.Lineage
import ArrayKernel.Ast.Outline

/-! # Functions as markup -/

namespace ArrayKernel.Ast

inductive Markup where
  | element (tag : String) (attributes : List (String × String)) (children : List Markup)
  deriving Inhabited

def heldAttributes (o : Operand) : Action (List (String × String)) := do
  match ← heldValue (← nodeOf o) with
  | none => return []
  | some name =>
    let isEmpty := match name with
      | .datum d => !d.truthy
      | .type _ => false
    if isEmpty then return []
    let type ← typeOf o
    return [("value", ← shownName name), ("type", ← typeText type)]

def truthWord (b : Bool) : String := (Datum.bool b).display

def loopAttributes (level : Nat) (l : Loop) : List (String × String) :=
  [("loop_level", toString level), ("is_fixup", truthWord l.isFixup),
   ("is_controlling_loop", truthWord l.isControlling), ("is_tiling_loop", truthWord l.isTiling)]

/-- The element for a node inside `level` loops. Outside a function there is no tree to put it in, and a
function inside another one ends the tree too early. -/
def markupWithin : Nat → Bool → Nat → Operand → Action Markup
  | 0, _, _, _ => throw .tooDeep
  | depth + 1, inFunction, level, o => do
    let .node id := o | throw .noRule
    let form := (← node id).form
    let isFunction := match form with
      | .function _ => true
      | _ => false
    let (own, inner) := match form with
      | .loop l => (loopAttributes level l, level + 1)
      | _ => ([], level)
    let held ← heldAttributes o
    if !inFunction && !isFunction then throw .noSuchField
    let below := markupWithin depth true inner
    let children ← if form.isBinaryOperation then do
        let l ← below (← leftOf o)
        let r ← below (← rightOf o)
        pure [Markup.element "lhs" [] [l], .element "rhs" [] [r]]
      else do
        let parts ← visitChildren (fun _ _ child => below child) id
        pure (parts.flatMap fun (_, v) =>
          match v with
          | .one m => [m]
          | .many ms => ms)
    if inFunction && isFunction then throw .outOfRange
    return .element form.kindName (own ++ held) children

def markup (o : Operand) : Action Markup := markupWithin depthLimit false 0 o

end ArrayKernel.Ast
