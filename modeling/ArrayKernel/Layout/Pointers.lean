import ArrayKernel.Layout.Hoisting

/-!
# Moving pointers

Instead of multiplying indices with strides, a pointer to each array moves by one stride in every iteration of
a loop.
-/

namespace ArrayKernel.Layout

open Ast

structure Addressing where
  specializer : Nat
  function : Option NodeId := none
  loopLevel : Int := 0
  strides : List (Operand × List (Option Operand)) := []
  pointers : List (Operand × List Operand) := []
  registers : List (Operand × Operand) := []
  inTarget : Bool := false
  vectorizing : Bool := false
  errorLabels : List Operand := []

abbrev Addressed := StateT Addressing Action

namespace Addressed

def scheme : Addressed Scheme := return (← specializer (← get).specializer).scheme

def function : Addressed Operand := return .node (← (required (← get).function : Action NodeId))

def functionData : Addressed Function := do functionOf (← function)

def loops : Addressed (List Operand) := do (required (← functionData).loops : Action _)

def loopAt (i : Int) : Addressed Operand := do
  match ArrayKernel.Position.get? (← loops) i with
  | some l => return l
  | none => throw .outOfRange

def currentLoop : Addressed Operand := do loopAt ((← get).loopLevel - 1)

def lookup (table : List (Operand × α)) (key : Operand) : Action (Option α) := do
  checkKey key
  match ← table.findM? fun (k, _) => same k key with
  | some (_, a) => return some a
  | none => return none

def insert (table : List (Operand × α)) (key : Operand) (a : α) : Action (List (Operand × α)) := do
  match ← lookup table key with
  | none => return table ++ [(key, a)]
  | some _ => table.mapM fun (k, b) => do
      if ← same k key then return (k, a) else return (k, b)

def passedData (variableName : Name) : Addressed Operand := do
  if !variableName.hashable then throw .wrongKind
  match (← functionData).byName.reverse.find? fun (n, _) => n.same variableName with
  | some (_, arg) => Build.argumentData arg
  | none => throw .noSuchKey

/-! ## Strides and pointers -/

def storeStride (array : Operand) (dim : Nat) : Addressed Unit := do
  let s ← Build.stride array (.int dim)
  let type ← Action.ofExcept ((← typeOf s).unqualify ["const"])
  let name := (← shownName (← nameOf array)) ++ "_stride" ++ toString dim
  let temp ← Build.temporary type name
  let size ← Build.sizeof (← dtypeOf (← typeOf array))
  let statement ← Build.assign temp (← Build.div s size)
  prepend (← function) statement
  match ← lookup (← get).strides array with
  | none => throw .noSuchKey
  | some strides =>
    if dim < strides.length then
      let table ← insert (← get).strides array (strides.set dim (some temp))
      modify fun a => { a with strides := table }
    else throw .outOfRange

/-- Stores the strides of an array before the loops, once for each array. A contiguous innermost
dimension needs none. -/
def storeStrides (array : Operand) (skipsInner : Bool) : Addressed Unit := do
  if (← lookup (← get).strides array).isSome then return
  let ndim ← ndimOf (← typeOf array)
  let s ← scheme
  let dims :=
    if !skipsInner then List.range ndim
    else match s.order with
      | .columnMajor => (List.range ndim).drop 1
      | .rowMajor => List.range (ndim - 1)
  let table ← insert (← get).strides array (List.replicate (← loops).length none)
  modify fun a => { a with strides := table }
  for dim in dims do storeStride array dim

def strideOf (array : Operand) (dim : Nat) : Addressed Operand := do
  let strides ← lookup (← get).strides array
  match (strides.getD [])[dim]? with
  | none => throw .outOfRange
  | some none => throw (.violated none)
  | some (some s) => return s

def outerOf (array : Operand) (moving : List Operand) (i : Int) : Addressed (Operand × Operand) := do
  match moving.getLast? with
  | none => return (← function, ← passedData (← nameOf array))
  | some p => return (← loopAt (i - 1), p)

def paceOf (l : Loop) (stride : Operand) : Action Operand := do
  if l.isControlling then Build.mul stride (← required l.blocksize) else return stride

def privatize (temp : Operand) : Addressed Unit := do
  match ← (firstOfKind "OpenMPLoopNode" depthLimit (← function) : Action _) with
  | none => pure ()
  | some parallel =>
    (updateForm (← identity parallel) fun
      | .parallelLoop f c ls ps => .parallelLoop f c ls (.group (ps.items ++ [temp]))
      | other => other : Action Unit)

/-- A parallel build cannot rely on the iteration before, so there the outermost pointer of an array is
computed from the index. -/
def moveFirst (loop : Operand) (l : Loop) (temp data stride move : Operand) : Addressed Unit := do
  let start ← Build.assign temp (← Build.add data (← Build.mul stride l.index))
  prepend loop (← Build.parallelChoice start)
  append loop (← Build.parallelChoice .absent move)
  privatize temp

/-- The moving pointer of an array for one loop: it starts where the pointer of the loop around it stands
and moves in every iteration. -/
def movePointer (array : Operand) (type : CType) (offset : Int) (i : Int) (loop : Operand) :
    Addressed (Option Operand) := do
  let l ← loopOf loop
  let loopDim : Int := (← (required l.dim : Action Nat))
  if loopDim < offset then return none
  let moving := (← lookup (← get).pointers array).getD []
  let temp ← Build.temporary type
  let (outerNode, outerPointer) ← outerOf array moving i
  prepend outerNode (← Build.assign temp outerPointer)
  let stride ← strideOf array (loopDim - offset).toNat
  let step ← paceOf l stride
  let move ← Build.assign temp (← Build.add temp step)
  if moving.isEmpty then moveFirst loop l temp outerPointer stride move
  else append loop move
  let table ← insert (← get).pointers array (moving ++ [temp])
  modify fun a => { a with pointers := table }
  return some temp

def pointerAt (array data : Operand) (skipsInner : Bool) : Addressed Operand := do
  let type ← Action.ofExcept ((← typeOf data).unqualify ["const"])
  let ndim : Int := (← ndimOf (← typeOf array) : Nat)
  let offset : Int := (← functionData).ndim - ndim
  let stop := (← get).loopLevel - (if skipsInner then 1 else 0)
  let moving := (← lookup (← get).pointers array).getD []
  let start ←
    if moving.isEmpty then
      let table ← insert (← get).pointers array []
      modify fun a => { a with pointers := table }
      pure offset
    else
      let start : Int := moving.length
      if stop ≤ start then
        match ArrayKernel.Position.get? moving (stop - 1) with
        | some p => return p
        | none => throw .outOfRange
      pure start
  let around := ArrayKernel.Position.between (← loops) start stop
  let numbered := (ArrayKernel.Position.range start stop 1).zip around
  numbered.foldlM (fun p (i, loop) => return (← movePointer array type offset i loop).getD p) data

end Addressed

end ArrayKernel.Layout
