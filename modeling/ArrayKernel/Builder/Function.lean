import ArrayKernel.Builder.Statement

/-! # Building functions -/

namespace ArrayKernel.Build

open Ast

/-! ## Pointers of arrays -/

def extendName (name : Name) (word : String) : Action String := return (← nameText name) ++ word

def attachedData (o : Operand) : Action (Option Operand) := do
  match (← nodeOf o).form with
  | .var v => return v.dataPointer
  | .arrayArgument _ _ d _ _ _ => return some d
  | _ => return none

def attachedStrides (o : Operand) : Action (Option Operand) := do
  match (← nodeOf o).form with
  | .var v => return v.stridesPointer
  | .arrayArgument _ _ _ s _ _ => return some s
  | _ => return none

def updateVariable (id : NodeId) (f : Variable → Variable) : Action Unit :=
  updateForm id fun
    | .var v => .var (f v)
    | other => other

def dataPointer (array : Operand) : Action Operand := do
  if (← settings).dynamicArguments then
    if let some p := ← attachedData array then return p
    let type ← Action.ofExcept (← dtypeOf (← typeOf array)).pointerTo
    let name ← extendName (← nameOf array) "_data_temp"
    let temp ← temporary type name
    updateVariable (← identity array) fun v => { v with dataPointer := some temp }
    return temp
  let type ← knownType array
  if !type.isArray then throw (.violated (some ""))
  let type ← Action.ofExcept (← dtypeOf type).pointerTo
  let name ← extendName (← nameOf array) "_data"
  create (.var { role := .dataPointer array, name := .ofString name }) (some type)

def stridesPointer (array : Operand) : Action Operand := do
  let type := (← settings).stridesType
  if (← settings).dynamicArguments then
    if let some p := ← attachedStrides array then return p
    let name ← extendName (← nameOf array) "_stride_temp"
    let temp ← temporary type name
    updateVariable (← identity array) fun v => { v with stridesPointer := some temp }
    return temp
  let name ← extendName (← nameOf array) "_strides"
  create (.var { role := .stridePointer array, name := .ofString name }) (some type)

def stride (array : Operand) (dim : Datum) : Action Operand := do
  let strides ← stridesPointer array
  index strides (← constant dim)

def shapeIndex (dim : Datum) (function : Operand) : Action Operand := do
  let shape := (← functionOf function).shape
  index shape (← constant dim)

def shifted (d : Datum) (offset : Int) : Action Datum :=
  match d with
  | .int n => return .int (n + offset)
  | .bool b => return .int ((if b then 1 else 0) + offset)
  | .float x => return .float (x + Float.ofInt offset)
  | _ => throw .wrongKind

def extent (array : Operand) (dim : Datum) (function : Operand) : Action Operand := do
  let type ← knownType array
  if !type.isArray then throw (.violated (some ""))
  let f ← functionOf function
  let offset : Int := (f.ndim : Int) - (← ndimOf type : Nat)
  index f.shape (← constant (← shifted dim offset))

/-! ## Arguments -/

def arrayArgument (array : Operand) : Action Operand := do
  let type ← typeOf array
  let name ← nameOf array
  let data ← dataPointer array
  let strides ← stridesPointer array
  create (.arrayArgument array name data strides [data, strides] true) (some type)

def argument (owner : Operand) (vars : List Operand := []) : Action Operand := do
  let type ← typeOf owner
  if type.isArray then
    if !vars.isEmpty then throw (.violated (some ""))
    return ← arrayArgument owner
  let vars := if vars.isEmpty then [owner] else vars
  let name ← nameOf owner
  for v in vars do
    if !(← nameOf v).hashable then throw .wrongKind
  create (.argument owner (.group vars) name true) (some type)

def isUsed (o : Operand) : Action Bool := do
  match (← nodeOf o).form with
  | .argument _ _ _ used => return used
  | .arrayArgument _ _ _ _ _ used => return used
  | _ => throw .noSuchField

def argumentVariables (o : Operand) : Action (List Operand) := do
  match (← nodeOf o).form with
  | .argument _ vs _ _ => return vs.items
  | .arrayArgument _ _ _ _ vs _ => return vs
  | _ => throw .noSuchField

def dropStrides (o : Operand) : Action Unit := do
  updateForm (← identity o) fun
    | .arrayArgument a n d s _ u => .arrayArgument a n d s [d] u
    | other => other

def argumentData (o : Operand) : Action Operand := do
  match (← nodeOf o).form with
  | .arrayArgument _ _ d _ _ _ => return d
  | _ => throw .noSuchField

def parameterTypes (withStrides : Bool) (argument : Operand) : Action (List CType) := do
  if !(← isUsed argument) then return []
  let type ← typeOf argument
  if type.isArray && !withStrides then
    let data ← argumentData argument
    let t ← typeOf data
    dropStrides argument
    return [t]
  (← argumentVariables argument).mapM typeOf

def updateSignature (function : Operand) (withStrides : Bool := true) : Action Unit := do
  let f ← functionOf function
  let params ← (f.arguments.items ++ f.scalarArguments.items).flatMapM (parameterTypes withStrides)
  let result ← typeOf f.successValue
  updateNode (← identity function) fun n => { n with type := some (CType.functionOf result params) }

/-! ## Functions -/

def isArrayArgument (o : Operand) : Action Bool := return (← typeOf o).isArray

def maxNdim : List Nat → Action Nat
  | [] => throw (.badValue none)
  | n :: ns => return ns.foldl max n

def standardFunction (name : Datum) (body : Operand) (args : List Operand)
    (shape posinfo ompSize : Operand := .absent) : Action Operand := do
  let shape ←
    if shape.isAbsent then variableOf (← settings).shapeType (.text "shape") else pure shape
  let arrays ← args.filterM fun a => return (← knownType a).isArray
  let scalars ← args.filterM fun a => return !(← knownType a).isArray
  let first ← argument shape
  let arguments := first :: (if posinfo.truthy then [posinfo] else []) ++ arrays
  let body ← sequence [← iterate body]
  let errorValue ← constant (.int (-1))
  let successValue ← constant (.int 0)
  let ompSize ← if ompSize.truthy then pure ompSize else constant (.int 1024)
  let arrayArguments ← arguments.filterM isArrayArgument
  let byName ← arguments.mapM fun a => return ((← nameOf a), a)
  if byName.any fun (n, _) => !n.hashable then throw .wrongKind
  let ndim ← maxNdim (← arrayArguments.mapM fun a => do ndimOf (← typeOf a))
  let function ← create (.function
    { name, body, arguments := .group arguments, scalarArguments := .group scalars,
      arrays := arrayArguments, byName, shape, posinfo, errorValue, successValue, ompSize, ndim })
    (some .absent)
  let prepending ← sequence []
  let id ← identity function
  updateMarks id fun m => { m with prepending := some prepending }
  let body ← sequence [prepending, body]
  updateFunction id fun f => { f with body }
  updateSignature function
  return function

def insertFirst (function statement : Operand) : Action Unit := do
  let body := (← functionOf function).body
  let id ← identity body
  match (← node id).form with
  | .sequence (.group items) => updateForm id fun _ => .sequence (.group (statement :: items))
  | _ => throw .noSuchField

def ownerOf (o : Operand) : Action Operand := do
  match (← nodeOf o).form with
  | .argument v _ _ _ => return v
  | .arrayArgument v _ _ _ _ _ => return v
  | _ => throw .noSuchField

def loadPointers (function dataTable stridesTable argument : Operand) (i : Nat) : Action Unit := do
  let owner ← ownerOf argument
  let data ← dataPointer owner
  let p ← index dataTable (← constant (.int i))
  let p ← cast p (← Action.ofExcept (← dtypeOf (← typeOf owner)).pointerTo)
  insertFirst function (← assign data p)
  let owner ← ownerOf argument
  let strides ← stridesPointer owner
  let p ← index stridesTable (← constant (.int i))
  insertFirst function (← assign strides p)
  updateForm (← identity argument) fun
    | .arrayArgument a n _ _ vs _ => .arrayArgument a n data strides vs false
    | other => other

def dynamicFunction (name : Datum) (body : Operand) (args : List Operand)
    (shape posinfo ompSize : Operand := .absent) : Action Operand := do
  let function ← standardFunction name body args shape posinfo ompSize
  let id ← identity function
  let f ← functionOf function
  let dataTable ← variableOf (.pointer (.pointer CType.void []) []) (.text "data_pointers")
  updateFunction id fun f => { f with dataPointers := some dataTable }
  let tableType ← Action.ofExcept (← typeOf f.shape).pointerTo
  let stridesTable ← variableOf tableType (.text "strides_pointer")
  updateFunction id fun f => { f with stridesPointers := some stridesTable }
  for (argument, i) in f.arrays.zipIdx.reverse do
    loadPointers function dataTable stridesTable argument i
  let position := if posinfo.truthy then 4 else 1
  let stridesArgument ← argument stridesTable
  let dataArgument ← argument dataTable
  let arguments := f.arguments.items.take position ++ [dataArgument, stridesArgument] ++
    f.arguments.items.drop position
  updateFunction id fun f => { f with arguments := .group arguments }
  updateSignature function
  return function

def function (name : Datum) (body : Operand) (args : List Operand)
    (shape posinfo ompSize : Operand := .absent) : Action Operand := do
  if (← settings).dynamicArguments then dynamicFunction name body args shape posinfo ompSize
  else standardFunction name body args shape posinfo ompSize

def functionOver (vars : List Operand) (body : Operand) (name : Datum := .null)
    (shape : Operand := .absent) : Action Operand := do
  let args ← vars.mapM fun v => do
    if (← knownType v).isArray then arrayArgument v else argument v
  let name := if name.truthy then name else .text "function"
  function name body args shape

end ArrayKernel.Build
