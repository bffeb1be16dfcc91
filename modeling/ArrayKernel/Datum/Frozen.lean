import ArrayKernel.Fault

/-! # Frozen records -/

namespace ArrayKernel

inductive Frozen where
  | plain (d : Datum)
  | sequence (items : List Frozen)
  | table (fields : List (String × Frozen))
  deriving Inhabited

namespace Frozen

mutual

def freezeFields : List (String × Datum) → List (String × Frozen)
  | [] => []
  | (k, v) :: rest => (k, freezeValue v) :: freezeFields rest

def freezeValue : Datum → Frozen
  | .record fields => .table (freezeFields fields)
  | .list items => .sequence (freezeItems items)
  | d => .plain d

def freezeItems : List Datum → List Frozen
  | [] => []
  | .record fields :: rest => .table (freezeFields fields) :: freezeItems rest
  | d :: rest => .plain d :: freezeItems rest

end

def ofFields (fields : List (String × Datum)) : Frozen := .table (freezeFields fields)

def ofPairs (fields : List (String × Datum)) : Frozen := .table (fields.map fun (k, v) => (k, .plain v))

def refreeze : Frozen → Except Fault Frozen
  | .table [] => .ok (.table [])
  | .table _ => .error .frozen
  | f => .ok f

mutual

def thaw : Frozen → Datum
  | .plain d => d
  | .sequence items => .tuple (thawItems items)
  | .table fields => .record (thawFields fields)

def thawItems : List Frozen → List Datum
  | [] => []
  | f :: rest => thaw f :: thawItems rest

def thawFields : List (String × Frozen) → List (String × Datum)
  | [] => []
  | (k, f) :: rest => (k, thaw f) :: thawFields rest

end

def same (a b : Frozen) : Bool := a.thaw == b.thaw

mutual

def hashable : Frozen → Bool
  | .plain d => d.hashable
  | .sequence items => hashableItems items
  | .table fields => hashableFields fields

def hashableItems : List Frozen → Bool
  | [] => true
  | f :: rest => hashable f && hashableItems rest

def hashableFields : List (String × Frozen) → Bool
  | [] => true
  | (_, f) :: rest => hashable f && hashableFields rest

end

mutual

def quoted : Frozen → String
  | .plain d => d.quoted
  | .sequence items =>
    match quotedItems items with
    | [one] => "(" ++ one ++ ",)"
    | all => "(" ++ ", ".intercalate all ++ ")"
  | .table fields => "frozendict(\x7b" ++ ", ".intercalate (quotedFields fields) ++ "\x7d)"

def quotedItems : List Frozen → List String
  | [] => []
  | f :: rest => quoted f :: quotedItems rest

def quotedFields : List (String × Frozen) → List String
  | [] => []
  | (k, f) :: rest => (Datum.quoted (.text k) ++ ": " ++ quoted f) :: quotedFields rest

end

def changes : List String := ["__delitem__", "__setitem__", "clear", "pop", "popitem", "setdefault", "update"]

end Frozen

end ArrayKernel
