import ArrayKernel.Fault

/-! # Text of C types -/

namespace ArrayKernel.CType

def words (ws : List String) : String := " ".intercalate ws

/-- The axes of an array: the last is marked if rows are contiguous, else the first if columns are. -/
def axes (ndim : Nat) (isCContig isFContig : Bool) : Except Fault (List String) :=
  match ndim, isCContig, isFContig with
  | 0, true, _ => .error .outOfRange
  | 0, false, true => .error .outOfRange
  | 0, false, false => .ok []
  | n + 1, true, _ => .ok (List.replicate n ":" ++ ["::1"])
  | n + 1, false, true => .ok ("::1" :: List.replicate n ":")
  | n + 1, false, false => .ok (List.replicate (n + 1) ":")

def wholeText : Datum → Except Fault String
  | .int n => .ok (toString n)
  | .bool b => .ok (if b then "1" else "0")
  | .float x =>
    match Decimal.Binary.ofFloat x with
    | .notANumber => .error (.badValue none)
    | .infinite _ => .error .overflow
    | .finite .. => .ok (toString ((Decimal.truncate? x).getD 0))
  | _ => .error .wrongKind

def scalarName (s : Scalar) : String := s.name.getD "None"

def scalarText (s : Scalar) (qualifiers : List String) : String :=
  if s.family == .bool then "int " ++ words qualifiers
  else if qualifiers.isEmpty then scalarName s
  else scalarName s ++ " " ++ words qualifiers

def vectorText (element : CType) : Except Fault String :=
  let size := element.itemsize?.join
  if element.isFloat then .ok (if size == some 4 then "__m128" else "__m128d")
  else if size == some 4 then .ok "__m128i"
  else .error (.notSupported "")

abbrev Declare := Option (String → String)

mutual

def text (declare : Declare) : CType → Except Fault String
  | .absent => .ok "None"
  | .scalar s q => .ok (scalarText s q)
  | .complex s _ q => .ok (scalarText s q)
  | .array d n c f _ _ => do
    let marks ← axes n c f
    return (← text declare d) ++ "[" ++ ", ".intercalate marks ++ "]"
  | .pointer b q => return (← text declare b) ++ " *" ++ words q
  | .block b size _ => do
    let base ← text declare b
    return base ++ "[" ++ (← wholeText size) ++ "]"
  | .foreign o =>
    match declare with
    | none => .error (.notSupported "")
    | some f => return f (← text declare o)
  | .cString _ => .ok "const char *"
  | .object _ => .ok "PyObject *"
  | .function r ps _ name v _ _ => do
    let params ← textAll declare ps
    let result ← text declare r
    let params := if v then params ++ ["..."] else params
    let label := match name with
      | some n => if n.isEmpty then "" else n ++ " "
      | none => ""
    return label ++ result ++ " (*)(" ++ ", ".intercalate params ++ ")"
  | .vector e _ _ => vectorText e
  | .struct fs name _ _ => do
    let label := match name with
      | some n => if n.isEmpty then "" else n ++ " "
      | none => ""
    let fields ← textFields declare fs
    return "struct " ++ label ++ "\x7b " ++ ", ".intercalate fields ++ " \x7d"

def textAll (declare : Declare) : List CType → Except Fault (List String)
  | [] => .ok []
  | t :: ts => return (← text declare t) :: (← textAll declare ts)

def textFields (declare : Declare) : List (String × CType) → Except Fault (List String)
  | [] => .ok []
  | (n, t) :: ts => return ((← text declare t) ++ " " ++ n) :: (← textFields declare ts)

end

def quoted? (declare : Declare) : CType → Option String
  | .function .. | .vector .. => none
  | t => (text declare t).toOption

/-- A type as it is declared: sized integers by their standard names, floats by their size. -/
def declared (t : CType) : Except Fault String :=
  match t with
  | .scalar s _ =>
    if t.isInt then
      match s.name with
      | none => .error .noSuchField
      | some n =>
        if n.endsWith "16" || n.endsWith "32" || n.endsWith "64" then .ok (n ++ "_t")
        else text none t
    else if t.isFloat then
      match s.itemsize with
      | none => .error .noSuchField
      | some (some 4) => .ok "float"
      | some (some 8) => .ok "double"
      | some _ => text none t
    else text none t
  | _ => text none t

end ArrayKernel.CType

namespace ArrayKernel

def SpecificationFault.message : SpecificationFault → String
  | .boundsGiven => "Only a step of 1 may be provided to indicate C or Fortran contiguity"
  | .misplacedStep => "Step may only be provided once, and only in the first or last dimension."
  | .orderedAndUnordered => "The struct must be either ordered or unordered"

def pairText (declare : CType.Declare) (a b : CType) : Option String := do
  let x ← a.quoted? declare
  let y ← b.quoted? declare
  return "(" ++ x ++ ", " ++ y ++ ")"

/-- What is said about a cause; causes found by the language of values rather than by a rule of this
library say nothing. -/
def Fault.message (declare : CType.Declare) : Fault → Option String
  | .wrongElement said | .badValue said | .violated said | .graphKind said => said
  | .notSupported said | .refused said | .notInvocable said => some said
  | .unpromotable a b => pairText declare a b
  | .unprintable t | .noNative t => (t.text declare).toOption
  | .specification cause => some cause.message
  | .pointerToArray => some "You probably want a pointer type to the dtype"
  | .frozen => some "A frozendict cannot be modified."
  | _ => none

end ArrayKernel
