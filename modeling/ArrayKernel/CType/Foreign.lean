import ArrayKernel.CType.Predefined
import ArrayKernel.Fault

/-! # Flags of types, and types of another system -/

namespace ArrayKernel

namespace CType

def flagTable : List (String × (CType → Bool)) :=
  [("is_array", isArray), ("is_pointer", isPointer), ("is_typewrapper", isForeign), ("is_bool", isBool),
   ("is_numeric", isNumeric), ("is_py_ssize_t", isSignedSize), ("is_char", isChar), ("is_int", isInt),
   ("is_float", isFloat), ("is_c_string", isCString), ("is_object", isObject),
   ("is_function", isFunction), ("is_int_like", isInt), ("is_complex", isComplex), ("is_void", isVoid),
   ("is_carray", isBlock), ("is_vector", isVector), ("is_struct", isStruct), ("is_vararg", isVararg),
   ("is_numpy_intp", isArrayIndex), ("is_double", fun _ => false), ("is_c_contig", isCContig),
   ("is_f_contig", isFContig)]

def flags (t : CType) : List String := (flagTable.filter fun (_, f) => f t).map (·.1)

def flag (t : CType) (name : String) : Bool :=
  match flagTable.lookup name with
  | some f => f t
  | none => false

end CType

inductive ForeignType where
  | mk (flags : List String) (base : Option ForeignType)
  deriving Inhabited

def CType.ofForeign : ForeignType → Except Fault CType
  | .mk flags base =>
    if flags.contains "is_int" then .ok CType.int
    else if flags.contains "is_float" then .ok CType.float32
    else if flags.contains "is_double" then .ok CType.float64
    else if flags.contains "is_pointer" then
      match base with
      | some b => do return .pointer (← CType.ofForeign b) []
      | none => .error .noSuchField
    else if flags.contains "is_py_ssize_t" then .ok CType.signedSize
    else if flags.contains "is_char" then .ok CType.charType
    else .error .unmappable

end ArrayKernel
