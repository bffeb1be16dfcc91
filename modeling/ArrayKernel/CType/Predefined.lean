import ArrayKernel.CType.Basic

/-! # Predefined types -/

namespace ArrayKernel.CType

def native (family : Family) (name : String) (rank : Rank) (size : Int) (signed : Bool)
    (code : String) : Scalar :=
  { family, name := some name, rank := some rank, itemsize := some (some size), signed := some signed,
    typecode := some code }

def sized (name : String) (rank : Rank) (size : Int) (signed : Bool) : Scalar :=
  { family := .int, name := some name, rank := some rank, itemsize := some (some size),
    signed := some signed }

def floating (name : String) (rank : Int) (size : Int) : Scalar :=
  { family := .float, name := some name, rank := some (.ofInt rank), itemsize := some (some size) }

def complexScalar (name : String) (rank : Int) (size : Int) : Scalar :=
  { family := .complex, name := some name, rank := some (.ofInt rank), itemsize := some (some size) }

def signedSize : CType :=
  .scalar { family := .signedSize, name := some "Py_ssize_t", rank := some (.ofInt 9),
            itemsize := some none, signed := some true } []

def arrayIndex : CType :=
  .scalar { family := .arrayIndex, name := some "npy_intp", rank := some (.ofInt 10),
            itemsize := some (some 8), signed := some true } []

def unsignedSize : CType :=
  .scalar { family := .int, name := some "size_t", rank := some (.half 8), itemsize := some none,
            signed := some false } []

def void : CType := .scalar { family := .void, name := some "void" } []

def bool : CType := .scalar { family := .bool, name := some "bool" } []

def charType : CType := .scalar (native .char "char" (.ofInt 1) 1 true "b") []

def unsignedChar : CType := .scalar (native .char "unsigned char" (.ofInt 1) 1 false "B") []

def short : CType := .scalar (native .int "short" (.ofInt 2) 2 true "h") []

def unsignedShort : CType := .scalar (native .int "unsigned short" (.half 2) 2 false "H") []

def int : CType := .scalar (native .int "int" (.ofInt 4) 4 true "i") []

def unsignedInt : CType := .scalar (native .int "unsigned int" (.half 4) 4 false "I") []

def long : CType := .scalar (native .int "long" (.ofInt 5) 8 true "l") []

def unsignedLong : CType := .scalar (native .int "unsigned long" (.half 5) 8 false "L") []

def longLong : CType := .scalar (native .int "PY_LONG_LONG" (.ofInt 8) 8 true "q") []

def unsignedLongLong : CType :=
  .scalar (native .int "unsigned PY_LONG_LONG" (.half 8) 8 false "Q") []

def int8 : CType := .scalar (sized "int8" (.ofInt 1) 1 true) []

def int16 : CType := .scalar (sized "int16" (.ofInt 2) 2 true) []

def int32 : CType := .scalar (sized "int32" (.ofInt 4) 4 true) []

def int64 : CType := .scalar (sized "int64" (.ofInt 8) 8 true) []

def uint8 : CType := .scalar (sized "uint8" (.half 1) 1 false) []

def uint16 : CType := .scalar (sized "uint16" (.half 2) 2 false) []

def uint32 : CType := .scalar (sized "uint32" (.half 4) 4 false) []

def uint64 : CType := .scalar (sized "uint64" (.half 8) 8 false) []

def float32 : CType := .scalar (floating "float" 10 4) []

def float64 : CType := .scalar (floating "double" 12 8) []

def float128 : CType := .scalar (floating "long double" 14 16) []

def complex64 : CType := .complex (complexScalar "complex64" 16 8) (floating "float" 10 4) []

def complex128 : CType := .complex (complexScalar "complex128" 18 16) (floating "double" 12 8) []

def complex256 : CType := .complex (complexScalar "complex256" 20 32) (floating "long double" 14 16) []

def cStringType : CType := .cString []

def objectType : CType := .object []

def predefined : List (String × CType) :=
  [("Py_ssize_t", signedSize), ("void", void), ("char", charType), ("uchar", unsignedChar),
   ("short", short), ("ushort", unsignedShort), ("int_", int), ("uint", unsignedInt), ("long_", long),
   ("ulong", unsignedLong), ("longlong", longLong), ("ulonglong", unsignedLongLong),
   ("size_t", unsignedSize), ("npy_intp", arrayIndex), ("c_string_type", cStringType),
   ("bool_", bool), ("object_", objectType), ("float_", float32), ("double", float64),
   ("longdouble", float128), ("float32", float32), ("float64", float64), ("float128", float128),
   ("int8", int8), ("int16", int16), ("int32", int32), ("int64", int64), ("uint8", uint8),
   ("uint16", uint16), ("uint32", uint32), ("uint64", uint64), ("complex64", complex64),
   ("complex128", complex128), ("complex256", complex256)]

def ofName? (name : String) : Option CType := predefined.lookup name

end ArrayKernel.CType
