import ArrayKernel.Layout.Loops

/-!
# Tiled loops

Tiling cuts the innermost dimensions into tiles: controlling loops step from tile to tile, and tiling
loops run inside a tile, up to its end or the end of the shape.
-/

namespace ArrayKernel.Layout

open Ast

def blocksize (sp : Nat) : Action Operand := do
  match (← settings).blocksize with
  | some (.text name) => Build.variableOf CType.signedSize (.text name)
  | some n => Build.constant n
  | none =>
    if (← specializer sp).scheme.isTiled then Build.constant (.int 64) else throw .noSuchField

def tileLimit (function body edge : Operand) (dim : Int) (index : Operand) : Action Operand := do
  let limit ← Build.temporary (← typeOf index)
  let stop ← Build.add index edge
  let smaller ← Build.min stop (← Build.shapeIndex (.int dim) function)
  appendTo body (← Build.assign limit smaller)
  return limit

def emptyTile : Action Operand := do
  let tile ← Build.sequence [← Build.constant (.int 0)]
  return tile

def clear (sequence : Operand) : Action Unit := do
  updateForm (← identity sequence) fun _ => .sequence (.group [])

def setDims (dims : DimRange) (loops : List Operand) : Action Unit :=
  (dims.dims.reverse.zip loops).forM fun (dim, loop) => do
    updateLoop (← identity loop) fun l => { l with dim := some dim.toNat }

def tileTwo (sp : Nat) (visit : Operand → Action Operand) (body : Operand) : Action Operand := do
  let function ← currentFunction sp
  let fid ← identity function
  let order := (← specializer sp).scheme.order
  let ndim : Int := (← functionOf function).ndim
  updateSpecializer sp fun s => { s with tiledIndices := some [], indices := some [] }
  let edge ← blocksize sp
  let tile ← emptyTile
  let dims := order.tiledDims ndim
  let controlling ← nest order tile dims { wholeShape function with step := edge }
  updateSpecializer sp fun s => { s with tiledIndices := some controlling.indices }
  clear tile
  let starts := dims.sorted.zip controlling.indices
  let limits ← starts.mapM fun (dim, index) => return (dim, ← tileLimit function tile edge dim index)
  let inner ← nest order body dims
    { lower := fun i => return (starts.lookup i).getD .absent
      upper := fun i => match limits.lookup i with
        | some limit => return limit
        | none => Build.shapeIndex (.int i) function }
  updateSpecializer sp fun s => { s with indices := some inner.indices }
  appendTo tile inner.statement
  let outer ← nest order controlling.statement (order.untiledDims ndim) (wholeShape function)
  let statement ← parallelAboveThreshold sp outer.statement
  let indices := match order with
    | .rowMajor => outer.indices ++ inner.indices
    | .columnMajor => inner.indices ++ outer.indices
  updateSpecializer sp fun s => { s with indices := some indices }
  for loop in controlling.loops do
    updateLoop (← identity loop) fun l => { l with isControlling := true, blocksize := some edge }
  for loop in inner.loops do
    updateLoop (← identity loop) fun l => { l with isTiling := true }
  setDims dims controlling.loops
  setDims dims inner.loops
  updateFunction fid fun f => { f with
    controllingLoops := some controlling.loops
    tilingLoops := some inner.loops
    outerLoops := some outer.loops
    loops := some (outer.loops ++ controlling.loops ++ inner.loops)
    lowerLimits := some (starts.map fun (d, o) => (d.toNat, o))
    upperLimits := some (limits.map fun (d, o) => (d.toNat, o)) }
  visit statement

def tileAll (sp : Nat) (visit : Operand → Action Operand) (body : Operand) : Action Operand := do
  if !(← specializer sp).scheme.isTiled then throw .noSuchField
  let function ← currentFunction sp
  let fid ← identity function
  let order := (← specializer sp).scheme.order
  let dims := order.dims (← functionOf function).ndim
  updateSpecializer sp fun s => { s with tiledIndices := some [], indices := some [] }
  let edge ← blocksize sp
  let tile ← emptyTile
  let controlling ← nest order tile dims { wholeShape function with step := edge }
  updateSpecializer sp fun s => { s with tiledIndices := some controlling.indices }
  let statement ← parallelAboveThreshold sp controlling.statement
  clear tile
  let limits ← controlling.indices.zipIdx.mapM fun (index, i) =>
    tileLimit function tile edge i index
  let inner ← nest order body dims
    { lower := fun i => return (controlling.indices[i.toNat]?).getD .absent
      upper := fun i => return (limits[i.toNat]?).getD .absent }
  updateSpecializer sp fun s => { s with indices := some inner.indices }
  appendTo tile inner.statement
  updateFunction fid fun f => { f with
    controllingLoops := some controlling.loops
    tilingLoops := some inner.loops
    outerLoops := some []
    loops := some inner.loops }
  visit statement

end ArrayKernel.Layout
