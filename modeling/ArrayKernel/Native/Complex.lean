import ArrayKernel.Decimal.Binary
import ArrayKernel.Fault

/-! # Complex numbers in native structs -/

namespace ArrayKernel

inductive Precision where
  | single
  | double
  | extended
  deriving Repr, DecidableEq

namespace Precision

def ofName? : String → Option Precision
  | "Complex64" => some .single
  | "Complex128" => some .double
  | "Complex256" => some .extended
  | _ => none

def resultName : Precision → String
  | .single => "complex64"
  | .double => "complex128"
  | .extended => "clongdouble"

def rounded (p : Precision) (x : Float) : Float :=
  match p with
  | .single => x.toFloat32.toFloat
  | .double | .extended => x

end Precision

structure ComplexValue where
  re : Float
  im : Float

namespace ComplexValue

def stored (p : Precision) (z : ComplexValue) : ComplexValue := ⟨p.rounded z.re, p.rounded z.im⟩

def read (p : Precision) (z : ComplexValue) : ComplexValue :=
  let re := z.im * 0.0 - 0.0 * 1.0
  let im := z.im * 1.0 + 0.0 * 0.0
  ⟨p.rounded (z.re + re), p.rounded (0.0 + im)⟩

end ComplexValue

end ArrayKernel
