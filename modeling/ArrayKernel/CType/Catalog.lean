import ArrayKernel.CType.Construct

/-! # Lists of the predefined types -/

namespace ArrayKernel.CType

def listKey (t : CType) : Rank := t.sortKey.toOption.getD .zero

def sorted (ts : List CType) : List CType := ts.mergeSort fun a b => !b.listKey.below a.listKey

def predefinedWhere (p : CType → Bool) : List CType := (predefined.map (·.2)).filter p

def integral : List CType := sorted (predefinedWhere isInt)

def nativeIntegral : List CType :=
  integral.filter fun t => (t.named?.bind (·.typecode)).isSome

def floatingTypes : List CType := sorted (predefinedWhere isFloat)

def complexTypes : List CType := sorted (predefinedWhere isComplex)

def numericTypes : List CType := predefinedWhere isInt ++ predefinedWhere isFloat ++ predefinedWhere isComplex

def listOfName? : String → Option (List CType)
  | "integral" => some integral
  | "native_integral" => some nativeIntegral
  | "floating" => some floatingTypes
  | "complextypes" => some complexTypes
  | "numeric" => some numericTypes
  | _ => none

def pairDeclaration (part name : String) : List String :=
  ["typedef struct \x7b", "    " ++ part ++ " real;", "    " ++ part ++ " imag;", "\x7d " ++ name ++ ";"]

def declarations : String :=
  let lines := ["#include <stdint.h>", "", "#ifndef HAVE_LONGDOUBLE", "    #define HAVE_LONGDOUBLE 1", "#endif", ""]
    ++ pairDeclaration "float" "complex64" ++ [""]
    ++ pairDeclaration "double" "complex128" ++ ["", "#if HAVE_LONGDOUBLE"]
    ++ pairDeclaration "long double" "complex256"
    ++ ["#endif", "", "typedef float float32;", "typedef double float64;", "#if HAVE_LONGDOUBLE",
        "typedef long double float128;", "#endif"]
  String.join (lines.map (· ++ "\n"))

end ArrayKernel.CType
