import ArrayKernel.Ast.Clone
import ArrayKernel.Layout.Tiles
import ArrayKernel.Layout.Vector

/-!
# Specializing a kernel

A specializer replaces the iteration over the shape by the loops of its scheme, wraps statements that may fail
in handlers, and makes the function return.
-/

namespace ArrayKernel.Layout

open Ast

/-! ## Calls are announced -/

def indexList (pointer : Operand) (n : Nat) : Action (List Operand) :=
  (List.range n).mapM fun (i : Nat) => do Build.index pointer (← Build.constant (.int i))

def announce (said : String) (args : List Operand := []) : Action Operand := do
  let text ← Build.constant (.text said)
  Build.print (text :: args)

def announceArray (arg : Operand) (i : Nat) : Action (List Operand) := do
  match (← nodeOf arg).form with
  | .arrayArgument _ _ data strides _ _ =>
    let text ← Build.constant (.text ("strides operand" ++ toString i ++ ":"))
    let items ← indexList strides (← ndimOf (← typeOf arg))
    let stridesLine ← Build.print (text :: items)
    let dataLine ← announce ("data pointer " ++ toString i ++ ":") [data]
    return [stridesLine, dataLine]
  | _ => return []

def announceCall (sp : Nat) (function : Operand) : Action Unit := do
  let f ← functionOf function
  let s ← specializer sp
  let first ← announce
    ("Calling function " ++ f.emitted.getD "None" ++ " (" ++ s.name ++ " specializer)")
  let size ← match s.scheme.vectorSize with
    | some n => pure [← announce ("Vectorized version size=" ++ toString n)]
    | none => pure []
  let text ← Build.constant (.text "shape:")
  let shape ← Build.print (text :: (← indexList f.shape f.ndim))
  let edge ←
    if s.scheme.isTiled then
      let text ← Build.constant (.text "blocksize:")
      pure [← Build.print [text, ← blocksize sp]]
    else pure []
  let operands ←
    if s.scheme.isContiguous then pure []
    else f.arguments.items.zipIdx.flatMapM fun (arg, i) => announceArray arg i
  let lines ← Build.sequence ([first] ++ size ++ [shape] ++ edge ++ operands)
  let prepending ← required (← nodeOf function).marks.prepending
  appendTo prepending lines

/-! ## Functions -/

def freshFunctionName (name : Datum) : Action String := do
  let s ← get
  set { s with functions := s.functions + 1 }
  return name.display ++ "_" ++ toString s.functions

def elementType (args : List Operand) : Action CType := do
  match ← args.findM? fun a => return (← typeOf a).isArray with
  | some a => dtypeOf (← typeOf a)
  | none => throw .noSuchField

def specializeFunction (sp : Nat) (visit : Operand → Action Operand) (id : NodeId) :
    Action Operand := do
  let function := Operand.node id
  let s ← specializer sp
  if s.scheme.isVectorizing && s.vectorizing then
    let element ← elementType (← functionOf function).arguments.items
    updateSpecializer sp fun s => { s with element := some element }
  computeTotalShape function
  let emitted ← freshFunctionName (← functionOf function).name
  updateFunction id fun f => { f with
    emitted := some emitted, specializer := some sp, specialization := some s.name }
  updateSpecializer sp fun s => { s with function := some id }
  if (← settings).debug then announceCall sp function
  let body := (← functionOf function).body
  if ← mayFail body then
    let body ← Build.handler body
    updateFunction id fun f => { f with body }
  let f ← functionOf function
  let result ← Build.yield f.successValue
  let body ← Build.sequence [f.body, result]
  updateFunction id fun f => { f with body }
  transformChildren visit id
  if s.scheme.isContiguous then Build.updateSignature function false
  return function

/-! ## The iteration over the shape -/

def bodyOf (o : Operand) : Action Operand := do
  match (← nodeOf o).form with
  | .function f => return f.body
  | .iterate b => return b
  | .loop l => return l.body
  | .branch b => return b.body
  | .handler h => return h.body
  | _ => throw .noSuchField

def setBody (o : Operand) (body : Operand) : Action Unit := do
  updateForm (← identity o) (·.setChild "body" body)

def expandFlat (sp : Nat) (visit : Operand → Action Operand) (body : Operand) : Action Operand := do
  let kept ← clone body
  let function ← currentFunction sp
  let total ← required (← functionOf function).totalShape
  let loop ← Build.countUpwards body total
  updateFunction (← identity function) fun f => { f with loops := some [loop] }
  let l ← loopOf loop
  updateSpecializer sp fun s => { s with indices := some [l.index] }
  let statement ← parallelAboveThreshold sp (← Build.pragma loop)
  updateSpecializer sp fun s => { s with target := l.target }
  let statement ← visit statement
  if (← specializer sp).scheme.isVectorizing then
    let rest ← vectorizeLoop sp visit loop kept
    return ← Build.sequence [statement, rest]
  return statement

/-- Marks the loop inside the second one for the compiler and makes the nest parallel. Gives the loop
around the marked one, if there are several, and the parallel statement. -/
def markInnerLoop (sp : Nat) (outermost : Operand) : Action (Operand × Operand) := do
  let count := ((← specializer sp).indices.getD []).length
  if count > 1 then
    let loop ← if count > 2 then bodyOf outermost else pure outermost
    let inner ← bodyOf loop
    updateSpecializer sp fun s => { s with innerLoop := some inner }
    setBody loop (← Build.pragma inner)
    return (loop, ← parallelAboveThreshold sp outermost)
  updateSpecializer sp fun s => { s with innerLoop := some outermost }
  return (outermost, ← parallelAboveThreshold sp (← Build.pragma outermost))

def expandNested (sp : Nat) (visit : Operand → Action Operand) (id : NodeId) (body : Operand) :
    Action Operand := do
  if !(← descendantsOfKind "NDIterate" depthLimit (.node id)).isEmpty then throw (.violated (some ""))
  let kept ← clone body
  let function ← currentFunction sp
  let order := (← specializer sp).scheme.order
  let dims := order.dims (← functionOf function).ndim
  let loops ← nest order body dims (wholeShape function)
  updateSpecializer sp fun s => { s with indices := some (s.indices.getD [] ++ loops.indices) }
  updateFunction (← identity function) fun f => { f with loops := some loops.loops }
  let (loop, statement) ← markInnerLoop sp loops.statement
  let result ← visit statement
  let s ← specializer sp
  if s.scheme.isVectorizing then
    let rest ← vectorizeLoop sp visit (← required s.innerLoop) kept
    if (s.indices.getD []).length > 1 then
      setBody loop (← Build.sequence [← bodyOf loop, rest])
    else
      let _ ← Build.sequence [statement, rest]
  return result

def expand (sp : Nat) (visit : Operand → Action Operand) (id : NodeId) (body : Operand) :
    Action Operand := do
  if (← settings).tileAllDimensions then return ← tileAll sp visit body
  match (← specializer sp).scheme.pattern with
  | .contiguous => expandFlat sp visit body
  | .innerContiguous | .strided => expandNested sp visit id body
  | .tiled =>
    if (← functionOf (← currentFunction sp)).ndim < 2 then throw (.violated (some ""))
    tileTwo sp visit body

/-! ## Nodes in a vectorized loop -/

def vectorizeVariable (size : Nat) (o : Operand) : Action Operand := do
  if (← knownType o).isArray then Build.vectorVariable o size else return o

def vectorizeBinop (operator : String) (o : Operand) : Action Operand := do
  let lhs ← leftOf o
  if (← knownType lhs).isVector then Build.vectorBinop operator lhs (← rightOf o) else return o

def vectorizeUnop (operator : String) (o operand : Operand) : Action Operand := do
  if (← knownType operand).isVector then
    if operator == "+" then return operand
    if operator == "~" then throw (.notSupported "")
    throw (.violated (some ""))
  return o

/-! ## The pass -/

def specializeNode (sp : Nat) (visit : Operand → Action Operand) (id : NodeId) : Action Operand := do
  let s ← specializer sp
  let o := Operand.node id
  let n ← node id
  let vectorSize := if s.vectorizing then s.scheme.vectorSize else none
  match n.form, vectorSize with
  | .function _, _ => specializeFunction sp visit id
  | .iterate body, _ => expand sp visit id body
  | .loop l, none =>
    if ← mayFail l.body then
      let body ← Build.handler l.body
      updateLoop id fun l => { l with body }
    transformChildren visit id
    return o
  | .loop _, some _ =>
    updateLoop id fun l => { l with isVector := true }
    transformChildren visit id
    return o
  | .branch b, some _ =>
    updateForm id fun _ => .branch { b with isVector := true }
    transformChildren visit id
    return o
  | .var v, vectorSize =>
    if s.scheme.isContiguous then
      if v.role matches .stridePointer _ then return .absent
    match vectorSize with
    | some size => vectorizeVariable size o
    | none =>
      if !v.name.hashable then throw .wrongKind
      transformChildren visit id
      return o
  | .binop p _ _, some _ | .vectorStore p _ _, some _ | .vectorBinop p _ _, some _ =>
    transformChildren visit id
    vectorizeBinop p o
  | .unop p _, some _ =>
    transformChildren visit id
    match (← node id).form with
    | .unop _ operand => vectorizeUnop p o operand
    | _ => return o
  | _, _ =>
    transformChildren visit id
    return o

def specializeWithin (sp : Nat) : Nat → Operand → Action Operand
  | 0, _ => throw .tooDeep
  | depth + 1, o => atPosition (specializeNode sp (specializeWithin sp depth)) o

def specialize (sp : Nat) (o : Operand) : Action Operand := specializeWithin sp depthLimit o

end ArrayKernel.Layout
