import ArrayKernel.CType.Construct
import ArrayKernel.Datum.Basic

/-! # Elements of buffers -/

namespace ArrayKernel

structure ElementInfo where
  kind : String
  itemsize : Datum
  byteOrder : String := "="
  alignment : Datum := .int 1
  isAligned : Option Bool := none
  deriving Inhabited

inductive Element where
  | mk (info : ElementInfo) (fields : List (String × Element))
  deriving Inhabited

def exponentOf : Datum → Except Fault Int
  | .int n => if 0 < n then .ok n.toNat.log2 else .error (.badValue none)
  | .bool b => if b then .ok 0 else .error (.badValue none)
  | .float x =>
    if x.isNaN then .error (.badValue none)
    else if x.isInf && 0 < x then .error .overflow
    else if 0 < x then .ok ((Decimal.truncate? (x.log / Float.log 2)).getD 0)
    else .error (.badValue none)
  | _ => .error .wrongKind

def signedBySize : List CType := [CType.int8, CType.int16, CType.int32, CType.int64]

def unsignedBySize : List CType := [CType.uint8, CType.uint16, CType.uint32, CType.uint64]

def occursIn (part whole : String) : Bool := whole.contains part

def acceptedOrders : List String := ["=", ">", "|"]

def floatBySize (itemsize : Datum) : CType :=
  if itemsize == .int 4 then CType.float32
  else if itemsize == .int 8 then CType.float64
  else if itemsize == .int 16 then CType.float128
  else .absent

def complexBySize (itemsize : Datum) : CType :=
  if itemsize == .int 8 then CType.complex64
  else if itemsize == .int 16 then CType.complex128
  else if itemsize == .int 32 then CType.complex256
  else .absent

def plainElement (kind : String) (itemsize : Datum) (exponent : Int) : Except Fault CType :=
  let bySize (types : List CType) : Except Fault CType :=
    match Position.get? types exponent with
    | some t => .ok t
    | none => .error .outOfRange
  match kind with
  | "i" => bySize signedBySize
  | "u" => bySize unsignedBySize
  | "f" => .ok (floatBySize itemsize)
  | "b" => .ok CType.int8
  | "c" => .ok (complexBySize itemsize)
  | "O" => .ok CType.objectType
  | _ => .ok .absent

mutual

def CType.ofElement : Element → Except Fault CType
  | .mk e fs => do
    if !acceptedOrders.contains e.byteOrder && occursIn e.kind "iufbc" then throw .unmappable
    let exponent ← exponentOf e.itemsize
    if e.kind == "V" then
      let fields ← CType.ofElements fs
      let packed := !e.isAligned.getD !(e.alignment == .int 1)
      CType.structOf fields { packed }
    else plainElement e.kind e.itemsize exponent

def CType.ofElements : List (String × Element) → Except Fault (List (String × CType))
  | [] => .ok []
  | (n, e) :: rest => do
    let t ← CType.ofElement e
    return (n, t) :: (← CType.ofElements rest)

end

/-- Elements by a code of one letter and a size, such as `f8`. A lone letter stands for an object or for a
native number. -/
def Element.ofCode (code : String) : Element :=
  let letter := String.ofList (code.toList.take 1)
  let digits := code.toList.drop 1
  let size : Nat := digits.foldl (fun n c => n * 10 + (c.toNat - '0'.toNat)) 0
  let plain (kind : String) (size : Nat) : Element :=
    .mk { kind, itemsize := .int size, byteOrder := if size ≤ 1 then "|" else "=" } []
  if digits.isEmpty then
    match letter with
    | "?" => plain "b" 1
    | "b" => plain "i" 1
    | "B" => plain "u" 1
    | "h" => plain "i" 2
    | "H" => plain "u" 2
    | "i" => plain "i" 4
    | "I" => plain "u" 4
    | "l" | "q" => plain "i" 8
    | "L" | "Q" => plain "u" 8
    | "e" => plain "f" 2
    | "f" => plain "f" 4
    | "d" => plain "f" 8
    | "g" => plain "f" 16
    | "F" => plain "c" 8
    | "D" => plain "c" 16
    | "G" => plain "c" 32
    | _ => plain letter 8
  else if letter == "U" then plain letter (4 * size)
  else plain letter size

def Element.itemsize : Element → Nat
  | .mk e _ =>
    match e.itemsize with
    | .int n => n.toNat
    | _ => 0

end ArrayKernel
