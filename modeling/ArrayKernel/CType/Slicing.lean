import ArrayKernel.CType.Construct

/-! # Array types by slicing -/

namespace ArrayKernel.CType

structure Slice where
  start : Datum := .null
  stop : Datum := .null
  step : Datum := .null

def Slice.hasStep (s : Slice) : Bool := s.step.truthy

def Slice.verify (s : Slice) : Except Fault Unit :=
  if s.start.truthy || s.stop.truthy || !(s.step == .null || s.step == .int 1) then
    .error (.specification .boundsGiven)
  else .ok ()

/-- The array of the given type with these marks; either mark makes the inner dimension contiguous. -/
def arrayOf (dtype : CType) (ndim : Nat) (isCContig isFContig : Bool) : CType :=
  .array dtype ndim isCContig isFContig (isCContig || isFContig) none

/-- Reads the slices of a specification from position `i` on; `marked` is the position of the step
found so far. -/
def markedDimension (count : Nat) (marked : Option Nat) (i : Nat) :
    List Slice → Except Fault (Option Nat)
  | [] => .ok marked
  | s :: rest => do
    s.verify
    let earlier := match marked with
      | some k => k != 0
      | none => false
    if s.hasStep && (earlier || !(i == 0 || i + 1 == count)) then
      throw (.specification .misplacedStep)
    markedDimension count (if s.step == .int 1 then some i else marked) (i + 1) rest

def specified (t : CType) (slices : List Slice) : Except Fault CType :=
  match t with
  | .absent => .error .wrongKind
  | .array .. => .error (.violated (some ""))
  | _ => do
    let n := slices.length
    let marked ← markedDimension n none 0 slices
    return arrayOf t n (marked.map (· + 1) == some n) (marked == some 0)

/-! ## Selecting dimensions -/

def strided : CType → Except Fault CType
  | .array d n _ _ _ _ => .ok (.array d n false false false none)
  | _ => .error .noSuchField

def clampBound (n : Nat) (bound : Int) : Nat :=
  if bound < 0 then (bound + n).toNat else min bound.toNat n

def boundValue : Datum → Except Fault Int
  | .int n => .ok n
  | .bool b => .ok (if b then 1 else 0)
  | _ => .error .wrongKind

/-- The dimensions from `start` to `stop`. No dimension at all leaves the element type; C contiguity
survives if the last dimension is kept by an exact bound, Fortran contiguity if the first is. -/
def selectDimensions (d : CType) (n : Nat) (c f : Bool) (start stop : Int) : CType :=
  let count := clampBound n stop - clampBound n start
  if count == 0 then d
  else
    let c' := c && stop == n
    let f' := f && start == 0
    .array d count c' f' (c' || f') none

def sliced (t : CType) (s : Slice) : Except Fault CType :=
  match t with
  | .absent => .error .wrongKind
  | .array d n c f _ _ =>
    match s.step, s.start, s.stop with
    | .null, .null, .null => .error (.violated (some ""))
    | .null, start, stop => do
      let lo ← if start matches .null then pure 0 else boundValue start
      let hi ← if stop matches .null then pure (n : Int) else boundValue stop
      return selectDimensions d n c f lo hi
    | _, _, _ => .error (.violated (some ""))
  | _ => do
    s.verify
    return arrayOf t 1 s.hasStep false

def indexed : CType → Except Fault CType
  | .absent => .error .wrongKind
  | _ => .error (.violated (some ""))

end ArrayKernel.CType
