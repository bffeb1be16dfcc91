import ArrayKernel.CType.Basic
import ArrayKernel.Datum.Text

/-! # Causes of failure -/

namespace ArrayKernel

inductive SpecificationFault where
  | boundsGiven
  | misplacedStep
  | orderedAndUnordered
  deriving Repr, DecidableEq

inductive Fault where
  | noSuchField
  | noSuchKey
  | outOfRange
  | wrongKind
  | wrongElement (said : Option String)
  | badValue (said : Option String)
  | violated (said : Option String)
  | notSupported (said : String)
  | undefinedName
  | unassigned
  | noRule
  | refused (said : String)
  | noSuchEncoding
  | exhausted
  | unpromotable (a b : CType)
  | unmappable
  | unprintable (t : CType)
  | noNative (t : CType)
  | specification (cause : SpecificationFault)
  | divisionByZero
  | overflow
  | tooDeep
  | noSuchModule
  | badTypecode
  | pointerToArray
  | frozen
  | graphKind (said : Option String)
  | notInvocable (said : String)
  | unbound

end ArrayKernel
