import ArrayKernel.Layout.Loops

/-! # Vectorized loops -/

namespace ArrayKernel.Layout

open Ast

/-! ## Which kernels can be vectorized -/

def fitsRegister (t : CType) : Action Bool := do
  let t ← known (← known t).resolved
  if !t.isFloat then return false
  let size ← required t.itemsize?
  return size == some 4 || size == some 8

def vectorizableWithin : Nat → Bool → Operand → Action Bool
  | 0, _, _ => throw .tooDeep
  | depth + 1, ok, o => do
    let .node id := o | throw .noRule
    let n ← node id
    let children := do (← childrenOf o).foldlM (vectorizableWithin depth) ok
    match n.form with
    | .function f =>
      let types ← (f.arguments.items.drop 1).mapM typeOf
      let dtypes := types.filterMap (·.dtype?)
      match dtypes with
      | [] => throw .outOfRange
      | first :: _ =>
        let ok ← if dtypes.all (· == first) then fitsRegister first else pure false
        if ok then (← childrenOf o).foldlM (vectorizableWithin depth) true else return false
    | .binop _ l r | .vectorStore _ l r | .vectorBinop _ l r =>
      let a ← typeOf l
      let b ← typeOf r
      if a == b then
        if ← fitsRegister a then children else return false
      else return false
    | .unop .. => if ← fitsRegister (← typeOf o) then children else return false
    | .call .. | .foreign .. => return false
    | _ => children

def isVectorizable (o : Operand) : Action Bool := vectorizableWithin depthLimit true o

/-! ## The inner loop -/

def elementsPerVector (vectorSize : Nat) (element : CType) : Action Float := do
  match ← required element.itemsize? with
  | none => throw .wrongKind
  | some 0 => throw .divisionByZero
  | some n => return Float.ofNat (vectorSize * 4) / Float.ofInt n

/-- Makes a loop step by whole registers and stop before a register would reach beyond the end. Gives the
former upper limit and the counter. -/
def stepByVectors (loop : Operand) (elements : Float) (step : Operand) :
    Action (Operand × Operand) := do
  let l ← loopOf loop
  let i ← leftOf l.step
  let limit ← rightOf l.condition
  let step ← Build.mul step (← Build.constant (.float elements))
  let next ← Build.assignment i (← Build.add i step)
  updateLoop (← identity loop) fun l => { l with step := next }
  let tail ← Build.constant (.float (elements - 1))
  let bound ← Build.sub limit tail
  updateForm (← identity (← loopOf loop).condition) (·.setChild "rhs" bound)
  return (limit, i)

/-- What handles the elements that did not fill a register: a single test if there is at most one. -/
def fixup (i limit body : Operand) (elements : Float) : Action Operand := do
  let condition ← Build.binop CType.bool "<" i limit
  if elements - 1 == 1 then
    let branch ← Build.branch condition body
    updateForm (← identity branch) fun
      | .branch b => .branch { b with isFixup := true }
      | other => other
    return branch
  let start ← Build.noop
  let step ← Build.assignment i (← Build.add i (← Build.constant (.int 1)))
  let loop ← Build.loop body start condition step i
  updateLoop (← identity loop) fun l => { l with isFixup := true }
  return loop

def vectorizeLoop (sp : Nat) (visit : Operand → Action Operand) (loop body : Operand) :
    Action Operand := do
  let step ← Build.constant (.int 1)
  let s ← specializer sp
  let elements ← elementsPerVector (s.scheme.vectorSize.getD 0) (← required s.element)
  let (limit, i) ← stepByVectors loop elements step
  let rest ← fixup i limit body elements
  updateSpecializer sp fun s => { s with vectorizing := false }
  let rest ← visit rest
  updateSpecializer sp fun s => { s with vectorizing := true }
  return rest

end ArrayKernel.Layout
