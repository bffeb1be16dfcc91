import ArrayKernel.Decimal.Shortest

/-!
# Plain values

A `Datum` is a value with no identity: the constants of a kernel, the attribute values of a graph, the
contents of a data format.
-/

namespace ArrayKernel

inductive Datum where
  | null
  | bool (b : Bool)
  | int (n : Int)
  | float (x : Float)
  | text (s : String)
  | list (items : List Datum)
  | tuple (items : List Datum)
  | record (fields : List (String × Datum))
  deriving Inhabited

namespace Datum

/-- The numeric reading of a value: truth values are zero and one. -/
inductive Numeric where
  | whole (n : Int)
  | real (x : Float)

def numeric? : Datum → Option Numeric
  | .bool b => some (.whole (if b then 1 else 0))
  | .int n => some (.whole n)
  | .float x => some (.real x)
  | _ => none

def Numeric.same : Numeric → Numeric → Bool
  | .whole a, .whole b => a == b
  | .real x, .real y => x == y
  | .whole a, .real y => Decimal.compareIntFloat a y == some .eq
  | .real x, .whole b => Decimal.compareIntFloat b x == some .eq

def Numeric.below : Numeric → Numeric → Bool
  | .whole a, .whole b => a < b
  | .real x, .real y => x < y
  | .whole a, .real y => Decimal.compareIntFloat a y == some .lt
  | .real x, .whole b => Decimal.compareIntFloat b x == some .gt

def kindWord : Datum → String
  | .null => "NoneType"
  | .bool _ => "bool"
  | .int _ => "int"
  | .float _ => "float"
  | .text _ => "str"
  | .list _ => "list"
  | .tuple _ => "tuple"
  | .record _ => "dict"

def truthy : Datum → Bool
  | .null => false
  | .bool b => b
  | .int n => n != 0
  | .float x => Decimal.compareIntFloat 0 x != some .eq
  | .text s => !s.isEmpty
  | .list items => !items.isEmpty
  | .tuple items => !items.isEmpty
  | .record fields => !fields.isEmpty

/-! ## Equality -/

def lookup (key : String) : List (String × Datum) → Option Datum
  | [] => none
  | (k, v) :: rest => if k == key then some v else lookup key rest

mutual

/-- Equality of values: numbers by value whatever their kind, records whatever their order. -/
def same : Datum → Datum → Bool
  | .null, .null => true
  | .text s, .text t => s == t
  | .list xs, .list ys => sameItems xs ys
  | .tuple xs, .tuple ys => sameItems xs ys
  | .record fs, .record gs => fs.length == gs.length && sameFields fs gs
  | .bool a, other => sameNumber (.whole (if a then 1 else 0)) other
  | .int a, other => sameNumber (.whole a) other
  | .float a, other => sameNumber (.real a) other
  | _, _ => false

def sameNumber (a : Numeric) (other : Datum) : Bool :=
  match numeric? other with
  | some b => a.same b
  | none => false

def sameItems : List Datum → List Datum → Bool
  | [], [] => true
  | x :: xs, y :: ys => same x y && sameItems xs ys
  | _, _ => false

def sameFields : List (String × Datum) → List (String × Datum) → Bool
  | [], _ => true
  | (k, v) :: rest, gs =>
    (match lookup k gs with
      | some w => same v w
      | none => false) && sameFields rest gs

end

instance : BEq Datum := ⟨same⟩

/-! ## Order -/

mutual

def below? : Datum → Datum → Option Bool
  | .text s, .text t => some (decide (s < t))
  | .list xs, .list ys => belowItems? xs ys
  | .tuple xs, .tuple ys => belowItems? xs ys
  | .bool a, other => belowNumber? (.whole (if a then 1 else 0)) other
  | .int a, other => belowNumber? (.whole a) other
  | .float a, other => belowNumber? (.real a) other
  | _, _ => none

def belowNumber? (a : Numeric) (other : Datum) : Option Bool :=
  (numeric? other).map a.below

def belowItems? : List Datum → List Datum → Option Bool
  | [], ys => some (!ys.isEmpty)
  | _ :: _, [] => some false
  | x :: xs, y :: ys => if same x y then belowItems? xs ys else below? x y

end

def hashable : Datum → Bool
  | .list _ | .record _ => false
  | .tuple items => hashableItems items
  | _ => true
where
  hashableItems : List Datum → Bool
    | [] => true
    | x :: xs => hashable x && hashableItems xs

end Datum

end ArrayKernel

/-! ## Positions from either end -/

namespace ArrayKernel.Position

def index? (n : Nat) (i : Int) : Option Nat :=
  if i < 0 then if -i ≤ n then some (n - (-i).toNat) else none
  else if i.toNat < n then some i.toNat else none

def get? (xs : List α) (i : Int) : Option α := do xs[(← index? xs.length i)]?

def clamp (n : Nat) (i : Int) : Nat :=
  if i < 0 then (i + n).toNat else min i.toNat n

def between (xs : List α) (start stop : Int) : List α :=
  (xs.take (clamp xs.length stop)).drop (clamp xs.length start)

def range (start stop step : Int) : List Int :=
  if step > 0 then
    (List.range ((stop - start + step - 1) / step).toNat).map fun (k : Nat) => start + step * k
  else if step < 0 then
    (List.range ((start - stop - step - 1) / (-step)).toNat).map fun (k : Nat) => start + step * k
  else []

end ArrayKernel.Position
