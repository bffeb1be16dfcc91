/-! # Native types -/

namespace ArrayKernel

inductive Primitive where
  | byte
  | ubyte
  | short
  | ushort
  | int
  | uint
  | long
  | ulong
  | float
  | double
  | longDouble
  | text
  | object
  | untyped
  deriving Repr, DecidableEq

def Primitive.size : Primitive → Nat
  | .byte | .ubyte => 1
  | .short | .ushort => 2
  | .int | .uint | .float => 4
  | .long | .ulong | .double | .text | .object | .untyped => 8
  | .longDouble => 16

def Primitive.name : Primitive → String
  | .byte => "c_byte"
  | .ubyte => "c_ubyte"
  | .short => "c_short"
  | .ushort => "c_ushort"
  | .int => "c_int"
  | .uint => "c_uint"
  | .long => "c_long"
  | .ulong => "c_ulong"
  | .float => "c_float"
  | .double => "c_double"
  | .longDouble => "c_longdouble"
  | .text => "c_char_p"
  | .object => "py_object"
  | .untyped => "c_void_p"

inductive NativeType where
  | nothing
  | primitive (p : Primitive)
  | address (target : NativeType)
  | block (element : NativeType) (length : Nat)
  | function (result : NativeType) (params : List NativeType)
  | struct (name : String) (fields : List (String × NativeType))
  deriving Inhabited

namespace NativeType

def roundUp (n alignment : Nat) : Nat := (n + alignment - 1) / alignment * alignment

mutual

def align : NativeType → Nat
  | .nothing => 1
  | .primitive p => p.size
  | .address _ => 8
  | .block e _ => align e
  | .function _ _ => 8
  | .struct _ fs => alignFields fs

def alignFields : List (String × NativeType) → Nat
  | [] => 1
  | (_, t) :: rest => max (align t) (alignFields rest)

end

mutual

def size : NativeType → Nat
  | .nothing => 0
  | .primitive p => p.size
  | .address _ => 8
  | .block e n => size e * n
  | .function _ _ => 8
  | .struct _ fs => roundUp (endOf 0 fs) (alignFields fs)

def endOf (offset : Nat) : List (String × NativeType) → Nat
  | [] => offset
  | (_, t) :: rest => endOf (roundUp offset (align t) + size t) rest

end

def offsets (offset : Nat) : List (String × NativeType) → List Nat
  | [] => []
  | (_, t) :: rest =>
    let start := roundUp offset t.align
    start :: offsets (start + t.size) rest

def isNothing : NativeType → Bool
  | .nothing => true
  | _ => false

def name : NativeType → String
  | .nothing => "NoneType"
  | .primitive p => p.name
  | .address t => "LP_" ++ t.name
  | .block e n => e.name ++ "_Array_" ++ toString n
  | .function _ _ => "CFunctionType"
  | .struct n _ => n

def addressOf (t : NativeType) : NativeType :=
  if t.isNothing then .primitive .untyped else .address t

def complexOf (name : String) (part : Primitive) : NativeType :=
  .struct name [("real", .primitive part), ("imag", .primitive part)]

end NativeType

end ArrayKernel
