import ArrayKernel.Buffer.Element

/-! # Contiguous buffers -/

namespace ArrayKernel

structure Buffer where
  element : Element
  shape : List Nat
  byColumns : Bool := false

namespace Buffer

def rowStrides (itemsize : Nat) : List Nat → List Nat
  | [] => []
  | _ :: rest => itemsize * rest.foldl (· * ·) 1 :: rowStrides itemsize rest

def strides (b : Buffer) : List Nat :=
  if b.shape.contains 0 then b.shape.map fun _ => 0
  else if b.byColumns then (rowStrides b.element.itemsize b.shape.reverse).reverse
  else rowStrides b.element.itemsize b.shape

def isFlat (b : Buffer) : Bool :=
  b.shape.contains 0 || (b.shape.filter (1 < ·)).length ≤ 1

def isCContig (b : Buffer) : Bool := !b.byColumns || b.isFlat

def isFContig (b : Buffer) : Bool := b.byColumns || b.isFlat

def ctype (b : Buffer) : Except Fault CType := do
  let dtype ← CType.ofElement b.element
  return .array dtype b.shape.length b.isCContig b.isFContig (b.isCContig || b.isFContig) none

end Buffer

inductive Sample where
  | datum (d : Datum)
  | complex
  | buffer (b : Buffer)

/-- The type of a value: truth values are integers, and what has no type of its own is an object. -/
def Sample.ctype : Sample → Except Fault CType
  | .datum (.float _) => .ok CType.float64
  | .datum (.int _) | .datum (.bool _) => .ok CType.int
  | .datum (.text _) => .ok CType.cStringType
  | .datum _ => .ok CType.objectType
  | .complex => .ok CType.complex128
  | .buffer b => b.ctype

end ArrayKernel
