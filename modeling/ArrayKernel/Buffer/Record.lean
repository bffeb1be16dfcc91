import ArrayKernel.CType.Text

/-! # Record layouts of buffers -/

namespace ArrayKernel

/-- The layout of a record: its named parts, and whether they are aligned. -/
inductive RecordLayout where
  | mk (fields : List (String × RecordLayout)) (aligned : Bool)

namespace RecordLayout

def placedName (name : String) (i : Nat) : String := if name.isEmpty then "f" ++ toString i else name

def requireDistinct : List String → Except Fault Unit
  | [] => .ok ()
  | n :: rest => if rest.contains n then .error (.badValue none) else requireDistinct rest

mutual

def ofType : CType → Except Fault RecordLayout
  | .struct fields _ packed _ => do
    let parts ← ofFields 0 fields
    requireDistinct (parts.map (·.1))
    return .mk parts !packed
  | _ => .error .noSuchField

def ofFields (i : Nat) : List (String × CType) → Except Fault (List (String × RecordLayout))
  | [] => .ok []
  | (n, t) :: rest => do
    let part ← ofType t
    return (placedName n i, part) :: (← ofFields (i + 1) rest)

end

mutual

def listText : RecordLayout → String
  | .mk fields _ => "[" ++ ", ".intercalate (fieldTexts fields) ++ "]"

def fieldTexts : List (String × RecordLayout) → List String
  | [] => []
  | (n, part) :: rest => ("(" ++ Text.quoted n ++ ", " ++ listText part ++ ")") :: fieldTexts rest

end

def text : RecordLayout → String
  | .mk fields false => listText (.mk fields false)
  | .mk fields true =>
    let all (f : String × RecordLayout → String) : String := ", ".intercalate (fields.map f)
    Datum.braced ("'names': [" ++ all (fun (n, _) => Text.quoted n) ++
      "], 'formats': [" ++ all (fun (_, part) => listText part) ++
      "], 'offsets': [" ++ all (fun _ => "0") ++ "], 'itemsize': 0, 'aligned': True")

end RecordLayout

def CType.recordText (t : CType) : Except Fault String := return (← RecordLayout.ofType t).text

end ArrayKernel
