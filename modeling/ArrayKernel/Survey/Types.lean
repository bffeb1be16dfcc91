import ArrayKernel.CType.Foreign
import ArrayKernel.CType.Promotion
import ArrayKernel.CType.Slicing

/-! # A survey of types -/

namespace ArrayKernel.Survey

/-- What a survey notes. Hashes and addresses are noted without their values, which differ between runs. -/
inductive Note where
  | text (s : String)
  | holds (b : Bool)
  | type (t : CType)
  | hash
  | address

def sizedIntegers : List CType :=
  [CType.int8, CType.int16, CType.int32, CType.int64, CType.uint8, CType.uint16, CType.uint32, CType.uint64]

def whole : CType.Slice := {}

def adjacent : CType.Slice := { step := .int 1 }

def noteText (t : CType) : Except Fault Note := return .text (← t.text none)

def noteSlices (t : CType) (slices : List CType.Slice) : Except Fault Note := do
  noteText (← t.specified slices)

def typeNotes (t : CType) : Except Fault (List Note) := do
  let arrays ← [[whole, whole, adjacent], [whole, adjacent], [whole, whole], [whole, whole, whole]].mapM
    (noteSlices t)
  let pointer ← t.pointerTo
  let function := CType.function t [t, pointer] false (some "fn") true false []
  return arrays ++ [← noteText pointer, .text (← t.declared), .holds (t == t), .hash, .holds (t != t),
    ← noteText function, .address, .type (← CType.ofForeign (.mk ["is_int"] none)),
    .type (← t.promote CType.float64), ← noteText (.block t (.int 4) [])]

def refusal : Note :=
  match CType.float64.specified [whole, adjacent, whole] with
  | .ok t => .type t
  | .error _ => .text "invalid"

def closingNotes : Except Fault (List Note) := do
  let mixed ← CType.structFrom []
    [("a", CType.int32), ("b", CType.float64), ("c", CType.complex128)] { name := some "Foo" }
  let single ← CType.structOf [("x", CType.int8)] {}
  let registers ← [CType.float32, CType.float64, CType.int32].mapM fun t => CType.vectorOf none t 4
  let matrices ← (← CType.float32.specified [whole, whole]).promote (← CType.float64.specified [whole, whole])
  let strings ← CType.cStringType.promote CType.cStringType
  return (← (mixed :: single :: registers).mapM noteText) ++
    [.type matrices, .type strings, .type CType.float64, .type CType.complex128, .type CType.cStringType,
     .type CType.objectType, refusal]

def types (n : Nat) : Except Fault (List Note) := do
  let each ← (List.range n).mapM fun i => typeNotes (sizedIntegers.getD (i % sizedIntegers.length) CType.int8)
  return each.flatten ++ (← closingNotes)

end ArrayKernel.Survey
