import ArrayKernel.Datum.Arithmetic

/-! # Questions about all items of a value -/

namespace ArrayKernel.Datum

/-- The items of a value that can be gone through: the characters of a text, the keys of a record. -/
def items : Datum → Except Fault (List Datum)
  | .list xs | .tuple xs => .ok xs
  | .text s => .ok (s.toList.map fun c => .text (String.singleton c))
  | .record fields => .ok (fields.map fun (k, _) => .text k)
  | _ => .error .wrongKind

inductive SortKey where
  | negated
  | length
  | magnitude
  | remainder
  deriving Repr, DecidableEq

def SortKey.ofName? : String → Option SortKey
  | "neg" => some .negated
  | "len" => some .length
  | "abs" => some .magnitude
  | "mod3" => some .remainder
  | _ => none

def numericOr (d : Datum) : Except Fault Numeric :=
  match d.numeric? with
  | some n => .ok n
  | none => .error .wrongKind

def SortKey.apply (key : SortKey) (d : Datum) : Except Fault Datum :=
  match key with
  | .negated => return (← d.numericOr).neg.toDatum
  | .magnitude => return (← d.numericOr).abs.toDatum
  | .remainder => return (← (← d.numericOr).mod (.whole 3)).toDatum
  | .length =>
    match d with
    | .list xs | .tuple xs => .ok (.int xs.length)
    | .text s => .ok (.int s.length)
    | .record fields => .ok (.int fields.length)
    | _ => .error .wrongKind

def belowOr (a b : Datum) : Except Fault Bool :=
  match a.below? b with
  | some r => .ok r
  | none => .error .wrongKind

def extremum (beats : Datum → Datum → Except Fault Bool) : List Datum → Except Fault Datum
  | [] => .error (.badValue none)
  | x :: xs => xs.foldlM (fun best y => return if ← beats y best then y else best) x

def extremumBy (beats : Datum → Datum → Except Fault Bool) (key : Option SortKey) (d : Datum) :
    Except Fault Datum := do
  let xs ← d.items
  match key with
  | none => extremum beats xs
  | some k =>
    let keyed ← xs.mapM fun x => return .tuple [← k.apply x, x]
    match ← extremum beats keyed with
    | .tuple [_, x] => return x
    | other => return other

def largest (key : Option SortKey) (d : Datum) : Except Fault Datum :=
  extremumBy (fun y best => belowOr best y) key d

def smallest (key : Option SortKey) (d : Datum) : Except Fault Datum := extremumBy belowOr key d

def someTrue (d : Datum) : Except Fault Bool := return (← d.items).any truthy

def allTrue (d : Datum) : Except Fault Bool := return (← d.items).all truthy

end ArrayKernel.Datum
