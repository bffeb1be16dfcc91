import ArrayKernel.Builder.Statement
import ArrayKernel.Layout.Pointers

/-!
# Addressing of array elements

Each array operand of a specialized kernel is replaced by the element at the current indices: a moving pointer
is followed, or indexed in a contiguous innermost dimension.
-/

namespace ArrayKernel.Layout

open Ast

namespace Addressed

/-! ## Elements -/

def announceElement (visit : Operand → Addressed Operand) (array item : Operand) : Addressed Unit := do
  let name ← shownName (← nameOf array)
  let line ← visit (← announce ("Referenced element from " ++ name ++ ":") [item])
  prepend (← currentLoop) line
  if !(← scheme).isContiguous then
    let strides ← match ← lookup (← get).strides array with
      | some strides => pure strides
      | none => throw .noSuchKey
    let lines ← strides.zipIdx.filterMapM fun (stride, i) => do
      match stride with
      | none => return none
      | some s => return some (← announce (name ++ " step[" ++ toString i ++ "]:") [s])
    let steps ← visit (← Build.sequence lines)
    prepend (← function) steps

def elementAt (visit : Operand → Addressed Operand) (array pointer loop : Operand) (isIndexed : Bool) :
    Addressed Operand := do
  let item ←
    if isIndexed then Build.index pointer (← loopOf loop).index
    else Build.dereference pointer
  if (← settings).debugElements then announceElement visit array item
  return item

/-- The register of an array at the current indices; an array that is assigned to stays in memory. Each
register is loaded once. -/
def registerAt (visit : Operand → Addressed Operand) (array pointer loop : Operand)
    (isIndexed : Bool) : Addressed Operand := do
  let pointer ← if isIndexed then Build.add pointer (← loopOf loop).index else pure pointer
  if (← get).inTarget then return pointer
  let size : Int := (((← scheme).vectorSize).getD 0 : Nat)
  let register ← Build.vectorVariable array size
  if let some temp := ← lookup (← get).registers register then return temp
  let load ← Build.vectorLoad pointer size
  let temp ← Build.temporary (← typeOf register) "xmm"
  let table ← insert (← get).registers register temp
  modify fun a => { a with registers := table }
  prepend loop (← Build.assign temp load)
  visit temp

def isHoisted (o : Operand) : Action Bool := do
  let n ← nodeOf o
  match n.form with
  | .var _ => return n.marks.isHoisted
  | _ => throw .noSuchField

def isInner (o : Operand) (type : CType) : Addressed Bool := do
  let s ← scheme
  let a ← get
  let isInnermost := a.loopLevel == (← functionData).ndim || (s.isVectorizing && !a.vectorizing)
  let isInner ←
    if !s.indexesInner then pure false
    else if isInnermost then pure true
    else isHoisted o
  return isInner && (!s.isStrided || s.order.matches type)

def pointerTo (o : Operand) (isInner : Bool) : Addressed Operand := do
  let data ← passedData (← nameOf o)
  if (← scheme).isContiguous then return data
  storeStrides o isInner
  pointerAt o data isInner

def addressVariable (visit : Operand → Addressed Operand) (o : Operand) : Addressed Operand := do
  let type ← knownType o
  if !type.isArray then return o
  let isInner ← isInner o type
  let pointer ← pointerTo o isInner
  let loop ← currentLoop
  let isIndexed := isInner || (← scheme).isContiguous
  if (← get).vectorizing then registerAt visit o pointer loop isIndexed
  else
    let item ← elementAt visit o pointer loop isIndexed
    Build.element (.type type) item

/-! ## Other nodes -/

def deeper (isLoop : Bool) (act : Addressed α) : Addressed α := do
  let level := if isLoop then 1 else 0
  modify fun a => { a with loopLevel := a.loopLevel + level }
  let r ← act
  modify fun a => { a with loopLevel := a.loopLevel - level }
  return r

def visitFlagged (visit : Operand → Addressed Operand) (id : NodeId) (isVector : Bool) :
    Addressed Unit := do
  let before := (← get).vectorizing
  modify fun a => { a with vectorizing := isVector }
  transformChildren visit id
  modify fun a => { a with vectorizing := before }

def addressFunction (visit : Operand → Addressed Operand) (id : NodeId) : Addressed Unit := do
  modify fun a => { a with function := some id }
  let sp ← specializer (← get).specializer
  let _ ← (required sp.indices : Action _)
  let runs := ((← settings).hoistBroadcasting && !sp.scheme.isContiguous) || sp.scheme.isVectorizing
  if runs then
    let _ ← (hoistBroadcasting (.node id) : Action Operand)
  startPending id true
  transformChildren visit id
  placePending id true

def addressLoop (visit : Operand → Addressed Operand) (id : NodeId) (l : Loop) : Addressed Unit := do
  let isLoop ← if ← isAmong (.node id) (← loops) then pure true else pure l.isFixup
  deeper isLoop do
    startPending id false
    visitFlagged visit id l.isVector
    placePending id false

def addressAssignment (visit : Operand → Addressed Operand) (id : NodeId) (lhs : Operand) :
    Addressed Operand := do
  let o := Operand.node id
  modify fun a => { a with inTarget := true }
  let lhs ← visit lhs
  (updateForm id (·.setChild "lhs" lhs) : Action Unit)
  modify fun a => { a with inTarget := false }
  let rhs ← visit (← rightOf o)
  (updateForm id (·.setChild "rhs" rhs) : Action Unit)
  if (← knownType lhs).isPointer then
    if (← knownType rhs).isVector then return ← Build.vectorStore lhs rhs
  return o

def addressBinop (visit : Operand → Addressed Operand) (id : NodeId) (operator : String) :
    Addressed Operand := do
  let o := Operand.node id
  let type := (← knownType o).resolved
  let type ← known type
  if operator == "%" && type.isFloat && !(← settings).plainBackend then
    let suffix := match ← (required type.itemsize? : Action _) with
      | some 4 => "f"
      | some 8 => ""
      | _ => "l"
    let callee ← Build.variableOf (CType.functionOf type [type, type]) (.text ("fmod" ++ suffix))
    return ← visit (← Build.call callee [← leftOf o, ← rightOf o])
  transformChildren visit id
  return o

def addressUnop (visit : Operand → Addressed Operand) (id : NodeId) (operator : String)
    (operand : Operand) : Addressed Operand := do
  let o := Operand.node id
  if (← knownType o).isVector && operator == "-" then
    let type ← knownType operand
    let zero ← Build.vectorConstant type (if type.isFloat then .float 0.0 else .int 0)
    return ← visit (← Build.binop type "-" zero operand)
  transformChildren visit id
  return o

def addressConditional (visit : Operand → Addressed Operand) (id : NodeId) : Addressed Operand := do
  let o := Operand.node id
  transformChildren visit id
  if !(← settings).plainBackend then return o
  match (← node id).form with
  | .conditional condition lhs rhs =>
    let temp ← Build.temporary (← typeOf lhs) "if_temp"
    let whenTrue ← Build.assign temp lhs
    let whenFalse ← Build.assign temp rhs
    let choice ← Build.branch condition whenTrue whenFalse
    let place ← if (← get).loopLevel != 0 then currentLoop else function
    prepend place choice
    return temp
  | _ => return o

def addressRaise (exception message args : Operand) : Addressed Operand := do
  let .group items := args | throw .wrongKind
  let type := CType.functionOf CType.objectType (List.replicate (2 + items.length) CType.objectType)
  let callee ← Build.functionName type (.text "PyErr_Format")
  Build.statement (← Build.call callee ([exception, message] ++ items))

/-- Makes the jumps of a handler: past the error branch after success, and on to the handler around it, or
out of the function, after an error. -/
def addressHandler (visit : Operand → Addressed Operand) (id : NodeId) (h : Handler) :
    Addressed Unit := do
  let failed ← Build.temporary CType.bool
  let errorStart ← Build.assign failed (.datum (.int 0))
  let cleanupJump ← Build.jump h.cleanupLabel
  let errorTarget ← Build.jumpTarget h.errorLabel
  let cleanupTarget ← Build.jumpTarget h.cleanupLabel
  let errorSet ← Build.assign failed (.datum (.int 1))
  let onwards ← match (← get).errorLabels with
    | outer :: _ => Build.jump outer
    | [] => do Build.yield (← functionData).errorValue
  let cascade ← Build.branch failed onwards
  (updateForm id fun _ => .handler { h with
    errorVariable := some failed
    errorStart, cleanupJump, errorTarget, errorSet, cleanupTarget, cascade } : Action Unit)
  modify fun a => { a with errorLabels := h.errorLabel :: a.errorLabels }
  transformChildren visit id
  modify fun a => { a with errorLabels := a.errorLabels.drop 1 }

/-! ## The pass -/

def addressForm (visit : Operand → Addressed Operand) (id : NodeId) : Form → Addressed Operand
  | .var { role := .register owner, .. } => addressVariable visit owner
  | .var { role := .temporary _, .. } => return .node id
  | .var _ => addressVariable visit (.node id)
  | .function _ => do
    addressFunction visit id
    return .node id
  | .loop l => do
    addressLoop visit id l
    return .node id
  | .branch b => do
    deeper b.isFixup (visitFlagged visit id b.isVector)
    return .node id
  | .assign lhs _ _ => addressAssignment visit id lhs
  | .binop p _ _ | .vectorStore p _ _ | .vectorBinop p _ _ => addressBinop visit id p
  | .unop p operand => addressUnop visit id p operand
  | .dereference operand => do
    let operand ← visit operand
    (updateForm id (·.setChild "operand" operand) : Action Unit)
    throw .noSuchField
  | .conditional .. => addressConditional visit id
  | .print args => do
    let .group items := args | throw .wrongKind
    Build.printCall items
  | .positionInfo _ => throw .noSuchField
  | .raise _ exception message args => addressRaise exception message args
  | .handler h => do
    addressHandler visit id h
    return .node id
  | .pragmaLoop loop => do
    if (← scheme).isVectorizing then visit loop
    else
      transformChildren visit id
      return .node id
  | .sequence _ => do
    transformChildren visit id
    fuseChoices (.node id)
  | .iterate _ => return .node id
  | .foreign text owned => do
    if (← settings).resolvesForeign then
      (updateForm id fun _ => .foreign ("resolved_" ++ text) owned : Action Unit)
    return .node id
  | _ => do
    transformChildren visit id
    return .node id

def addressNode (visit : Operand → Addressed Operand) (id : NodeId) : Addressed Operand := do
  addressForm visit id (← node id).form

def addressWithin : Nat → Operand → Addressed Operand
  | 0, _ => throw .tooDeep
  | depth + 1, o => atPosition (addressNode (addressWithin depth)) o

end Addressed

def address (sp : Nat) (o : Operand) : Action Operand :=
  (Addressed.addressWithin depthLimit o).run' { specializer := sp }

end ArrayKernel.Layout
