import ArrayKernel.CType.Predefined
import ArrayKernel.Fault
import ArrayKernel.Native.Basic

/-! # Native types of C types -/

namespace ArrayKernel

def sizeExponent : Option Int → Except Fault Nat
  | none => .error .wrongKind
  | some n => if 0 < n then .ok n.toNat.log2 else .error (.badValue none)

/-- The integer of one, two, four or eight bytes; a size in between counts as the next smaller one. -/
def integerOfSize (isSigned : Bool) (size : Option Int) : Except Fault Primitive := do
  match ← sizeExponent size, isSigned with
  | 0, true => return .byte
  | 1, true => return .short
  | 2, true => return .int
  | 3, true => return .long
  | 0, false => return .ubyte
  | 1, false => return .ushort
  | 2, false => return .uint
  | 3, false => return .ulong
  | _, _ => throw .outOfRange

def floatOfSize : Option Int → Primitive
  | some 4 => .float
  | some 8 => .double
  | _ => .longDouble

def integerOfName? : Option String → Option Primitive
  | some "int" => some .int
  | some "unsigned int" => some .uint
  | some "long" => some .long
  | some "unsigned long" => some .ulong
  | _ => none

def Scalar.native (s : Scalar) : Except Fault NativeType :=
  match s.family with
  | .float =>
    match s.itemsize with
    | none => .error .noSuchField
    | some size => .ok (.primitive (floatOfSize size))
  | .signedSize | .arrayIndex => .ok (.primitive .long)
  | family =>
    match integerOfName? s.name, family with
    | some p, _ => .ok (.primitive p)
    | none, .void => .ok .nothing
    | none, .int | none, .char => do
      return .primitive (← integerOfSize (s.signed.getD true) s.itemsize.join)
    | none, _ => .error (.noNative (.scalar s []))

def largestSize : Int := Nat.pow 2 63 - 1

def NativeType.repeated (element : NativeType) (length : Datum) : Except Fault NativeType :=
  if element.isNothing then .error .wrongKind
  else
    let count : Option Int := match length with
      | .int n => some n
      | .bool b => some (if b then 1 else 0)
      | _ => none
    match count with
    | none => .error .wrongKind
    | some n =>
      if n < - largestSize - 1 || largestSize < n then .error .overflow
      else if n < 0 then .error (.badValue none)
      else if largestSize < n * element.size then .error .overflow
      else .ok (.block element n.toNat)

namespace CType

mutual

def toNative : CType → Except Fault NativeType
  | .absent => .error .noSuchField
  | .pointer b _ => return (← toNative b).addressOf
  | .object _ => .ok (.primitive .object)
  | .array .. => .ok (.primitive .object)
  | .scalar s q =>
    match s.native with
    | .error (.noNative _) => .error (.noNative (.scalar s q))
    | r => r
  | .complex s _ _ =>
    match s.itemsize.join with
    | some 8 => .ok (.complexOf "Complex64" .float)
    | some 16 => .ok (.complexOf "Complex128" .double)
    | _ => .ok (.complexOf "Complex256" .longDouble)
  | .cString _ => .ok (.primitive .text)
  | .function r ps _ _ _ _ _ => do
    let result ← toNative r
    let params ← toNativeAll ps
    if params.any NativeType.isNothing then throw .wrongKind
    return .function result params
  | .block b n _ => do (← toNative b).repeated n
  | .struct fs _ _ _ => do
    let fields ← toNativeFields fs
    if fields.any fun (_, t) => t.isNothing then throw .wrongKind
    return .struct "Struct" fields
  | .foreign o => .error (.noNative (.foreign o))
  | .vector e n q => .error (.noNative (.vector e n q))

def toNativeAll : List CType → Except Fault (List NativeType)
  | [] => .ok []
  | t :: ts => do
    let first ← toNative t
    return first :: (← toNativeAll ts)

def toNativeFields : List (String × CType) → Except Fault (List (String × NativeType))
  | [] => .ok []
  | (n, t) :: ts => do
    let first ← toNative t
    return (n, first) :: (← toNativeFields ts)

end

/-- The type that a native type of this name stands for. The long integers of eight bytes stand for the
longest ones. -/
def ofNativeName? : String → Option CType
  | "c_char" | "c_byte" | "c_int8" => some charType
  | "c_ubyte" | "c_uint8" => some unsignedChar
  | "c_short" | "c_int16" => some short
  | "c_ushort" | "c_uint16" => some unsignedShort
  | "c_int" | "c_int32" => some int
  | "c_uint" | "c_uint32" => some unsignedInt
  | "c_long" | "c_longlong" | "c_int64" | "c_ssize_t" => some longLong
  | "c_ulong" | "c_ulonglong" | "c_uint64" | "c_size_t" => some unsignedLongLong
  | "c_float" => some float32
  | "c_double" => some float64
  | "c_longdouble" => some float128
  | "c_char_p" => some cStringType
  | "c_void_p" => some (.pointer void [])
  | "py_object" => some objectType
  | _ => none

/-- The type of a native type that is given by name; no name stands for no value. Native types with parts
have no rule. -/
def ofNative : Option String → Except Fault CType
  | none => .ok void
  | some n =>
    match ofNativeName? n with
    | some t => .ok t
    | none => .error .undefinedName

end CType

end ArrayKernel
