import ArrayKernel.Ast.Descendant
import ArrayKernel.Builder.Function

/-!
# Loop nests

The loops over a shape are made from the innermost one outwards: the last dimension is innermost in row-major
order, the first in column-major order.
-/

namespace ArrayKernel.Layout

open Ast

/-! ## Orders of dimensions -/

structure DimRange where
  start : Int
  stop : Int
  step : Int
  deriving Repr, DecidableEq

def DimRange.dims (r : DimRange) : List Int := ArrayKernel.Position.range r.start r.stop r.step

/-- The dimensions from the smallest to the largest. -/
def DimRange.sorted (r : DimRange) : List Int := if r.step < 0 then r.dims.reverse else r.dims

def Order.dims (order : Order) (ndim : Int) : DimRange :=
  match order with
  | .rowMajor => ⟨ndim - 1, -1, -1⟩
  | .columnMajor => ⟨0, ndim, 1⟩

def Order.tiledDims (order : Order) (ndim : Int) : DimRange :=
  match order with
  | .rowMajor => ⟨ndim - 1, ndim - 3, -1⟩
  | .columnMajor => ⟨0, 2, 1⟩

def Order.untiledDims (order : Order) (ndim : Int) : DimRange :=
  match order with
  | .rowMajor => ⟨ndim - 3, -1, -1⟩
  | .columnMajor => ⟨2, ndim, 1⟩

def Order.arrange (order : Order) (indices : List α) : List α :=
  match order with
  | .rowMajor => indices.reverse
  | .columnMajor => indices

def Order.matches (order : Order) (t : CType) : Bool :=
  match order with
  | .rowMajor => t.isCContig
  | .columnMajor => t.isFContig

/-! ## Nests -/

def currentFunction (sp : Nat) : Action Operand := do
  return .node (← required (← specializer sp).function)

/-- A nest of loops: the loops from the outermost inwards, their indices by dimension, and the statement
that runs them. -/
structure Nest where
  loops : List Operand
  indices : List Operand
  statement : Operand

structure Bounds where
  lower : Int → Action Operand := fun _ => return .absent
  upper : Int → Action Operand
  step : Operand := .absent

def wholeShape (function : Operand) : Bounds :=
  { upper := fun i => Build.shapeIndex (.int i) function }

def wrapInLoop (bounds : Bounds) (body : Operand) (dim : Int) : Action Operand := do
  let lower ← bounds.lower dim
  let upper ← bounds.upper dim
  let loop ← Build.countUpwards body upper lower bounds.step
  updateLoop (← identity loop) fun l => { l with dim := some dim.toNat }
  return loop

/-- Wraps a statement in loops, the first dimension innermost. Gives the loops innermost first, and the
outermost statement. -/
def wrapInLoops (bounds : Bounds) : List Int → Operand → Action (List Operand × Operand)
  | [], body => return ([], body)
  | dim :: dims, body => do
    let loop ← wrapInLoop bounds body dim
    let (loops, outermost) ← wrapInLoops bounds dims loop
    return (loop :: loops, outermost)

def targetOf (loop : Operand) : Action Operand := do required (← loopOf loop).target

def nest (order : Order) (body : Operand) (dims : DimRange) (bounds : Bounds) : Action Nest := do
  let (loops, statement) ← wrapInLoops bounds dims.dims body
  let indices ← loops.mapM targetOf
  return { loops := loops.reverse, indices := order.arrange indices, statement }

/-! ## Parallel loops -/

/-- Runs a loop in parallel if the shape holds more elements than the function's threshold. -/
def parallelAboveThreshold (sp : Nat) (loop : Operand) : Action Operand := do
  let f ← functionOf (← currentFunction sp)
  let total ← required f.totalShape
  let condition ← Build.binop CType.bool ">" total f.ompSize
  Build.parallel loop condition

def product : List Operand → Action Operand
  | [] => throw .wrongKind
  | x :: xs => xs.foldlM (fun a b => Build.mul a b) x

def computeTotalShape (function : Operand) : Action Unit := do
  let id ← identity function
  let f ← functionOf function
  let extents ← (List.range f.ndim).mapM fun (i : Nat) => do
    Build.index f.shape (← Build.constant (.int i))
  let total ← Build.temporary (← baseOf (← typeOf f.shape))
  updateFunction id fun f => { f with totalShape := some total }
  let start ← Build.assign total (← product extents) (.bool true)
  let body ← Build.sequence [start, (← functionOf function).body]
  updateFunction id fun f => { f with body }

end ArrayKernel.Layout
