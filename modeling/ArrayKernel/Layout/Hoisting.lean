import ArrayKernel.Layout.Pending

/-!
# Hoisting of broadcast operands

An operand that is broadcast in its innermost dimensions has one value for all of their indices. Such a
subexpression is computed into a temporary before the first loop that does not change it.
-/

namespace ArrayKernel.Layout

open Ast

/-! ## Broadcast dimensions -/

/-- The dimensions from the first one that is broadcast, or the last dimension if none is. -/
def fromFirstBroadcast : List Bool → List Bool
  | [] => []
  | [b] => [b]
  | true :: rest => true :: rest
  | false :: rest => fromFirstBroadcast rest

/-- Whether an operand is broadcast in exactly its last dimensions, at least one, and has a dimension for
each of the loops. There is no answer for an operand without dimensions under no loops. -/
def admissible? (dims : List Bool) (loops : Int) : Option Bool :=
  if (dims.length : Int) < loops then some false
  else match fromFirstBroadcast dims with
    | [] => none
    | tail => some (tail.all id)

def lastDimension? (dims : List α) : Except Fault α :=
  match dims.getLast? with
  | some b => .ok b
  | none => .error .outOfRange

def trailing (dims : List Bool) : Nat :=
  if dims.all id then dims.length - 1 else (dims.reverse.takeWhile id).length

/-! ## Marks -/

def setHoistable (id : NodeId) (d : Datum) : Action Unit :=
  updateMarks id fun k => { k with isHoistable := some d }

def setBroadcasting (id : NodeId) (dims : Option (List Bool)) : Action Unit :=
  updateMarks id fun k => { k with broadcasting := some dims }

def expressionMark (mark : Marks → Option Datum) (o : Operand) : Action Datum := do
  let n ← nodeOf o
  match mark n.marks with
  | some d => return d
  | none => if n.form.isExpression then return .bool false else throw .noSuchField

def hoistable (o : Operand) : Action Datum := expressionMark (·.isHoistable) o

def needsTemp (o : Operand) : Action Datum := expressionMark (·.needsTemp) o

def broadcastingOf (o : Operand) : Action (Option (List Bool)) := do
  required (← nodeOf o).marks.broadcasting

def markVariable (function : Option NodeId) (id : NodeId) : Action Unit := do
  let type ← knownType (.node id)
  match type.broadcasting? with
  | some (some dims) =>
    let f ← functionOf (.node (← required function))
    let loops := (← required f.loops).length
    if (admissible? dims loops).getD false then setHoistable id (.bool true)
    else if ← Action.ofExcept (lastDimension? dims) then setHoistable id (.bool true)
    setBroadcasting id (some dims)
  | _ => return

/-! ## Hoisting -/

def hoistingLevel (function : Option NodeId) (o : Operand) : Action Int := do
  match ← broadcastingOf o with
  | none => throw .wrongKind
  | some dims =>
    let f ← functionOf (.node (← required function))
    return (f.ndim : Int) - 1 - trailing dims

/-- Computes an operand into a temporary before the loops that do not change it, and gives the
temporary. -/
def hoist (function : Option NodeId) (visit : Operand → Action Operand) (o : Operand) :
    Action Operand := do
  if !(← hoistable o).truthy then return o
  let level ← hoistingLevel function o
  let f := Operand.node (← required function)
  let place ←
    if level < 0 then pure f
    else match (← required (← functionOf f).loops)[level.toNat]? with
      | some loop => pure loop
      | none => throw .outOfRange
  let temp ← Build.temporary (← dtypeOf (← typeOf o)) "hoisted_temp"
  setBroadcasting (← identity temp) none
  for v in ← descendantsOfKind "Variable" depthLimit o do
    updateMarks (← identity v) fun k => { k with isHoisted := true }
  let statement ← Build.assign temp o
  setBody place (← Build.sequence [statement, ← bodyOf place])
  visit temp

def hoistIfPossible (function : Option NodeId) (visit : Operand → Action Operand) (o : Operand) :
    Action Operand := do
  if (← hoistable o).truthy then hoist function visit o
  else
    let _ ← needsTemp o
    return o

/-- Hoists what can be hoisted of a binary operation: one operand, or the whole operation if both operands
change in the same loop, or first the operand that changes less often and then the operation. -/
def hoistOperands (function : Option NodeId) (visit : Operand → Action Operand) (id : NodeId) :
    Action Operand := do
  let o := Operand.node id
  let lhs ← leftOf o
  let rhs ← rightOf o
  let left := (← hoistable lhs).truthy
  let both ← if left then pure (← hoistable rhs).truthy else pure false
  if !both then
    if left then
      let lhs ← hoist function visit lhs
      updateForm id (·.setChild "lhs" lhs)
    else
      let rhs ← hoist function visit rhs
      updateForm id (·.setChild "rhs" rhs)
    return o
  let a ← hoistingLevel function lhs
  let b ← hoistingLevel function rhs
  if a == b then
    setHoistable id (.bool true)
    setBroadcasting id (← broadcastingOf lhs)
    return o
  let (dims, name, operand) ←
    if a < b then pure (← broadcastingOf rhs, "lhs", lhs) else pure (← broadcastingOf lhs, "rhs", rhs)
  let operand ← hoist function visit operand
  updateForm id (·.setChild name operand)
  let type ← typeOf o
  let operator ← required (← node id).form.operator?
  let whole ← Build.binop type operator (← leftOf o) (← rightOf o)
  setBroadcasting (← identity whole) dims
  setHoistable (← identity whole) (.bool true)
  hoist function visit whole

def markTemp (id : NodeId) : Action Unit := do
  let a ← broadcastingOf (← leftOf (.node id))
  let b ← broadcastingOf (← rightOf (.node id))
  if a != b then updateMarks id fun k => { k with needsTemp := some (.bool true) }
  else
    let _ ← needsTemp (← leftOf (.node id))
    let _ ← needsTemp (← rightOf (.node id))

def hoistBinary (function : Option NodeId) (visit : Operand → Action Operand) (id : NodeId) :
    Action Operand := do
  let o := Operand.node id
  transformChildren visit id
  setBroadcasting id none
  let lhs ← leftOf o
  let rhs ← rightOf o
  let needs ← if (← needsTemp lhs).truthy then pure true else pure (← needsTemp rhs).truthy
  if needs then
    markTemp id
    return .absent
  let either ← if (← hoistable lhs).truthy then pure true else pure (← hoistable rhs).truthy
  if either then hoistOperands function visit id else return o

def hoistUnary (visit : Operand → Action Operand) (id : NodeId) (operand : Operand) : Action Unit := do
  let operand ← visit operand
  updateForm id (·.setChild "operand" operand)
  setHoistable id (← hoistable operand)
  let needs ← needsTemp operand
  updateMarks id fun k => { k with needsTemp := some needs }
  setBroadcasting id (← broadcastingOf operand)

def hoistNode (function : Option NodeId) (visit : Operand → Action Operand) (id : NodeId) :
    Action Operand := do
  let o := Operand.node id
  match (← node id).form with
  | .var _ =>
    markVariable function id
    return o
  | .assign _ rhs _ =>
    let rhs ← hoistIfPossible function visit (← visit rhs)
    updateForm id (·.setChild "rhs" rhs)
    return o
  | .binop .. | .index .. | .vectorStore .. | .vectorBinop .. => hoistBinary function visit id
  | .unop _ operand =>
    hoistUnary visit id operand
    return o
  | .loop _ =>
    transformChildren visit id
    placePending id false
    return o
  | .iterate _ => return o
  | .function f =>
    match (← required f.loops).getLast? with
    | none => throw .outOfRange
    | some inner =>
      transformChildren visit (← identity inner)
      return o
  | _ =>
    transformChildren visit id
    return o

def hoistWithin (function : Option NodeId) : Nat → Operand → Action Operand
  | 0, _ => throw .tooDeep
  | depth + 1, o => atPosition (hoistNode function (hoistWithin function depth)) o

def hoistBroadcasting (function : Operand) : Action Operand := do
  hoistWithin function.id? depthLimit function

end ArrayKernel.Layout
