import ArrayKernel.CType.Construct

/-!
# Promotion of types

The type of an arithmetic expression is found from the types of its operands: a pointer keeps its type
when an integer is added, an object absorbs all, the number of higher rank wins, and arrays are promoted
by their elements.
-/

namespace ArrayKernel.CType

def promoteNumeric (a b : CType) : Except Fault CType := do
  if a.isAbsent || b.isAbsent then throw .noSuchField
  let ra ← a.rank
  let rb ← b.rank
  if ra.same rb then
    if a == b then return a else throw .wrongKind
  return if ra.below rb then b else a

def isText (t : CType) : Bool := t == cStringType || t == .pointer charType []

/-- The array of a promoted element type: as many dimensions as the larger operand has, contiguous only
if both operands are and have the same number of dimensions. -/
def joinArrays (dtype : CType) (n m : Nat) (c c' f f' : Bool) : CType :=
  let isC := n == m && c && c'
  let isF := n == m && f && f'
  .array dtype (max n m) isC isF (isC || isF) none

def promote : CType → CType → Except Fault CType
  | .absent, _ => .error .noSuchField
  | .array d n c f _ _, .array d' n' c' f' _ _ => do
    return joinArrays (← promote d d') n n' c c' f f'
  | a, b =>
    if b.isAbsent then .error .noSuchField
    else if a.isPointer && b.isInt then .ok a
    else if a.isObject || b.isObject then .ok objectType
    else if a.isNumeric && b.isNumeric then promoteNumeric a b
    else if a.isText && b.isText then .ok cStringType
    else .error (.unpromotable a b)

def promoteArrays (a b : CType) : Except Fault CType :=
  match a, b with
  | .array .., .array .. => promote a b
  | _, _ => .error .noSuchField

def join (a b : CType) : Except Fault CType :=
  if a == b then .ok a else promote a b

end ArrayKernel.CType
