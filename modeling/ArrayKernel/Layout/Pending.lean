import ArrayKernel.Layout.Specialize

/-! # Statements around a body -/

namespace ArrayKernel.Layout

open Ast

def joined (a b : Operand) : Action Operand := do
  if a.truthy || b.truthy then Build.sequence [a, b] else return .absent

/-- Joins neighbouring parallel choices; `last` is the statement before the ones that follow. -/
def fuseFrom (last : Operand) : List Operand → Action (List Operand)
  | [] => return [last]
  | next :: rest => do
    match ← formOf? last, ← formOf? next with
    | some (.parallelChoice a b), some (.parallelChoice a' b') =>
      let whenParallel ← joined a a'
      let otherwise ← joined b b'
      fuseFrom (← Build.parallelChoice whenParallel otherwise) rest
    | _, _ => return last :: (← fuseFrom next rest)

def fuseChoices (sequence : Operand) : Action Operand := do
  let id ← identity sequence
  match (← node id).form with
  | .sequence (.group []) => return sequence
  | .sequence (.group (first :: rest)) =>
    let statements ← fuseFrom first rest
    updateForm id fun _ => .sequence (.group statements)
    return sequence
  | _ => throw .noSuchField

def startPending (id : NodeId) (isFunction : Bool) : Action Unit := do
  if !isFunction then
    let prepending ← Build.sequence []
    updateMarks id fun k => { k with prepending := some prepending }
  let appending ← Build.sequence []
  updateMarks id fun k => { k with appending := some appending }

def placePending (id : NodeId) (isFunction : Bool) : Action Unit := do
  let o := Operand.node id
  let marks := (← node id).marks
  let before ← if isFunction then pure [] else pure [← required marks.prepending]
  let body ← bodyOf o
  let after ← required marks.appending
  let placed ← Build.sequence (before ++ [body, after])
  setBody o placed
  if !(← settings).plainBackend then
    let fused ← fuseChoices placed
    setBody o fused

def prepend (o statement : Operand) : Action Unit := do
  appendTo (← required (← nodeOf o).marks.prepending) statement

def append (o statement : Operand) : Action Unit := do
  appendTo (← required (← nodeOf o).marks.appending) statement

end ArrayKernel.Layout
