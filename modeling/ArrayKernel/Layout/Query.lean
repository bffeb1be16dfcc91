import ArrayKernel.Attribute.OfNode
import ArrayKernel.Datum.Field
import ArrayKernel.Layout.Pointers
import ArrayKernel.Layout.Specialize

/-! # Questions to a specializer -/

namespace ArrayKernel.Layout

open Ast

/-! ## Indices -/

def loopIndices (sp : Nat) : Action (List Operand) := do required (← specializer sp).indices

def pick (xs : List α) (i : Int) : Action α :=
  match ArrayKernel.Position.get? xs i with
  | some x => return x
  | none => throw .outOfRange

def indexAt (sp : Nat) (level : Int) : Action Operand := do
  let s ← specializer sp
  match s.scheme.pattern, s.scheme.order with
  | .contiguous, _ => required s.target
  | _, .rowMajor => pick (← loopIndices sp) level
  | _, .columnMajor => pick (← loopIndices sp) (-level)

def contiguousIndex (sp : Nat) : Action Operand := do
  let s ← specializer sp
  match s.scheme.pattern, s.scheme.order with
  | .contiguous, _ => required s.target
  | _, .rowMajor => pick (← loopIndices sp) (-1)
  | _, .columnMajor => pick (← loopIndices sp) 0

def stridedIndices (sp : Nat) : Action (List Operand) := do
  let s ← specializer sp
  match s.scheme.pattern, s.scheme.order with
  | .contiguous, _ => throw .noSuchField
  | .tiled, .rowMajor =>
    let outer := (← loopIndices sp).dropLast
    return outer ++ [← pick (← required s.tiledIndices) 1]
  | .tiled, .columnMajor =>
    let tile ← pick (← required s.tiledIndices) 0
    return tile :: (← loopIndices sp).drop 1
  | _, .rowMajor => return (← loopIndices sp).dropLast
  | _, .columnMajor => return (← loopIndices sp).drop 1

/-! ## Elements -/

def elementOf (pointer : Operand) (indices strides : List Operand) : Action Operand := do
  let bytes ← Build.cast pointer (.pointer CType.charType [])
  let offsets ← (indices.zip strides).mapM fun (i, s) => Build.mul i s
  Build.indexMultiple bytes offsets (← typeOf pointer)

structure Place where
  indices : List Operand := []
  offset : Datum := .int 0
  ndim : Option Int := none
  pointer : Option Operand := none

def stridedElement (sp : Nat) (array : Operand) (place : Place) : Action Operand := do
  let indices ← if place.indices.isEmpty then loopIndices sp else pure place.indices
  let ndim : Int ← match place.ndim with
    | some n => pure n
    | none => do pure (← ndimOf (← knownType array) : Nat)
  let pointer ← match place.pointer with
    | some p => pure p
    | none => Build.dataPointer array
  let inner := ArrayKernel.Position.between indices (indices.length - ndim) indices.length
  let strides ← inner.zipIdx.mapM fun (_, i) => do Build.stride array (← Build.shifted place.offset i)
  let element ← elementOf pointer inner strides
  transformChildren (specialize sp) (← identity element)
  return element

def elementLocation (sp : Nat) (array : Operand) : Action Operand := do
  let s ← specializer sp
  match s.scheme.pattern with
  | .contiguous =>
    let data ← Build.dataPointer array
    Build.index data (← required s.target)
  | .tiled =>
    if (← settings).strengthReduction then throw .noSuchField
    stridedElement sp array {}
  | _ => throw .noSuchField

def passedPointer (sp : Nat) (array : Operand) : Action Value := do
  if !(← specializer sp).scheme.isContiguous then throw .noSuchField
  let f ← functionOf (← currentFunction sp)
  let name ← nameOf array
  if !name.hashable then throw .wrongKind
  match f.byName.reverse.find? fun (n, _) => n.same name with
  | some (_, argument) => attributeOf (.operand argument) "data_pointer"
  | none => throw .noSuchKey

/-! ## Strength reduction -/

def ownerOf (argument : Operand) : Action Operand := do
  match ← attributeOf (.operand argument) "variable" with
  | .operand o => return o
  | _ => throw .noSuchField

/-- For an array with a moving pointer that is not contiguous: the statement that stores its innermost
stride, and the one that moves the pointer by it. -/
def strideStep (sp : Nat) (argument : Operand) : Action (Option (Operand × Operand)) := do
  let owner ← ownerOf argument
  let type ← typeOf owner
  if type.isAbsent then return none
  let s ← specializer sp
  match ← Addressed.lookup (← required s.pointers) owner with
  | none => return none
  | some pointer =>
    if s.scheme.order.matches type then return none
    let innermost : Int ← match s.scheme.order with
      | .rowMajor => do pure ((← ndimOf type : Nat) - 1)
      | .columnMajor => pure 0
    let stride ← Build.stride owner (.int innermost)
    let stored ← Build.temporary (← Action.ofExcept ((← typeOf stride).qualify ["const"])) "temp_stride"
    let units ← Build.div stride (← Build.sizeof (← dtypeOf type))
    let store ← Build.assign stored units
    let move ← Build.assign pointer (← Build.add pointer stored)
    return some (store, move)

def reduceStrength (sp : Nat) (outer inner : Operand) : Action Operand := do
  if !(← specializer sp).scheme.isStrided then throw .noSuchField
  let f ← functionOf (← currentFunction sp)
  let arguments := match f.arguments with
    | .group items => items
    | _ => []
  let steps ← arguments.filterMapM (strideStep sp)
  match ← attributeOf (.operand inner) "body" with
  | .operand body =>
    setAttribute inner "body" (← Build.sequence (body :: steps.map (·.2)))
    Build.sequence (steps.map (·.1) ++ [outer])
  | _ => throw .noSuchField

/-! ## Questions by name -/

def rangeValue (r : DimRange) : Value :=
  .items [.ofDatum (.int r.start), .ofDatum (.int r.stop), .ofDatum (.int r.step)]

def operandList (os : List Operand) : Value := .items (os.map .operand)

def wholeNumber : Value → Action Int
  | .operand (.datum (.int n)) => return n
  | .operand (.datum (.bool b)) => return if b then 1 else 0
  | _ => throw .wrongKind

def operandOr : Value → Action Operand
  | .operand o => return o
  | _ => throw .noSuchField

def rangeFor (order : Order) (ndim : Value) : Action Value := do
  match order, ndim with
  | .columnMajor, n => return .items [.ofDatum (.int 0), n, .ofDatum (.int 1)]
  | .rowMajor, .operand (.datum n) =>
    return .items [.ofDatum (← Build.shifted n (-1)), .ofDatum (.int (-1)), .ofDatum (.int (-1))]
  | .rowMajor, _ => throw .wrongKind

def placeFrom (args : List Value) : Action Place := do
  let given (i : Nat) : Option Value := (args[i]?).bind fun v => if v.isNull then none else some v
  let indices ← match given 0 with
    | none => pure []
    | some (.operand (.group os)) => pure os
    | some (.operand (.datum d)) => if d.truthy then pure (d.itemList.map .datum) else pure []
    | some _ => throw .wrongKind
  let second : Option Value := args[1]?
  let offset : Datum := match second with
    | some (.operand (.datum d)) => d
    | _ => .int 0
  let ndim ← (given 2).mapM wholeNumber
  let pointer ← (given 3).mapM operandOr
  return { indices, offset, ndim, pointer }

def ask (sp : Nat) (question : String) (args : List Value) : Action Value := do
  let s ← specializer sp
  let order := s.scheme.order
  let ndim : Action Int := do return ((← functionOf (← currentFunction sp)).ndim : Nat)
  let strided (a : Action Value) : Action Value := if s.scheme.isStrided then a else throw .noSuchField
  let tiled (a : Action Value) : Action Value := if s.scheme.isTiled then a else throw .noSuchField
  withBuilder s.builder do
    match question, args with
    | "index", [level] =>
      if s.scheme.isContiguous then return .operand (← indexAt sp 0)
      return .operand (← indexAt sp (← wholeNumber level))
    | "contig_index", [] => return .operand (← contiguousIndex sp)
    | "strided_indices", [] => return operandList (← stridedIndices sp)
    | "loop_order", first :: rest =>
      let order := if first.isDatum (.text "C") then Order.rowMajor else .columnMajor
      match rest with
      | [] => return rangeValue (order.dims (← ndim))
      | [n] => if n.isNull then return rangeValue (order.dims (← ndim)) else rangeFor order n
      | _ => throw .wrongKind
    | "c_loop_order", [n] => rangeFor .rowMajor n
    | "f_loop_order", [n] => rangeFor .columnMajor n
    | "matching_contiguity", [t] => strided do
      match t with
      | .type t => return .ofBool (order.matches t)
      | _ => throw .noSuchField
    | "get_type", [t] =>
      match t with
      | .type t => return .ofType t.resolved
      | _ => throw .noSuchField
    | "tiled_order", [] => tiled do return rangeValue (order.tiledDims (← ndim))
    | "untiled_order", [] => tiled do return rangeValue (order.untiledDims (← ndim))
    | "get_blocksize", [] => return .operand (← blocksize sp)
    | "_index_list", [pointer, n] =>
      let pointer ← operandOr pointer
      return operandList (← indexList pointer (← wholeNumber n).toNat)
    | "_strided_element_location", array :: rest =>
      if rest.length > 4 then throw .wrongKind
      return .operand (← stridedElement sp (← operandOr array) (← placeFrom rest))
    | "_element_location", [array, _] => return .operand (← elementLocation sp (← operandOr array))
    | "get_data_pointer", [array, _] => passedPointer sp (← operandOr array)
    | "strength_reduce_inner_dimension", [outer, inner] =>
      return .operand (← reduceStrength sp (← operandOr outer) (← operandOr inner))
    | question, _ =>
      let isKnown := ["index", "contig_index", "loop_order", "c_loop_order", "f_loop_order", "get_type",
        "_index_list", "_strided_element_location", "get_data_pointer"].contains question ||
        (s.scheme.isTiled && ["tiled_order", "untiled_order", "get_blocksize"].contains question) ||
        (s.scheme.isStrided && ["matching_contiguity", "strength_reduce_inner_dimension"].contains question) ||
        (s.scheme.indexesInner && question == "strided_indices") ||
        ((s.scheme.isTiled || s.scheme.isContiguous) && question == "_element_location")
      throw (if isKnown then .wrongKind else .noSuchField)

/-- Sets the moving pointers of variables; of several for one variable the last counts. Gives how many there
are. -/
def setPointers (sp : Nat) (table : List (Operand × Operand)) : Action Nat := do
  let table ← table.foldlM (fun done (v, p) => Addressed.insert done v p) []
  updateSpecializer sp fun s => { s with pointers := some table }
  return table.length

end ArrayKernel.Layout
