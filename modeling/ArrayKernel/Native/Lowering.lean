import ArrayKernel.CType.Construct

/-! # Lowering to machine types -/

namespace ArrayKernel.CType

def scalarLowering (s : Scalar) (q : List String) : Fault :=
  let size := s.itemsize.join
  match s.family with
  | .bool | .char | .void => .noSuchModule
  | .int | .signedSize | .arrayIndex =>
    if [some 1, some 2, some 4, some 8].contains size then .noSuchModule
    else .violated (text none (.scalar s q)).toOption
  | .float =>
    match s.itemsize with
    | none => .noSuchField
    | some n => if [some 4, some 8, some 16].contains n then .noSuchModule else .violated (some "")
  | .complex => .notSupported ""

def lowering : CType → Fault
  | .absent => .noSuchField
  | .scalar s q => scalarLowering s q
  | .pointer .absent _ => .noSuchField
  | .pointer b _ => if b.isVoid then .noSuchModule else lowering b
  | .block .. | .cString _ | .vector .. | .struct .. => .noSuchModule
  | .function .absent _ _ _ _ _ _ => .violated (some "")
  | .function r ps k n v b q =>
    match actualSignature (.function r ps k n v b q) with
    | .ok _ => .noSuchModule
    | .error e => e
  | .complex .. | .array .. | .object _ | .foreign _ => .notSupported ""

end ArrayKernel.CType
