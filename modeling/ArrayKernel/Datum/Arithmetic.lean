import ArrayKernel.Fault

/-! # Arithmetic on numbers of two kinds -/

namespace ArrayKernel.Decimal

/-- The double nearest to a positive quotient. Two more bits than a double has are kept, the last of which
says whether anything was cut off. -/
def ofQuotient (num den : Nat) : Float :=
  let shift : Int := (num.log2 : Int) - (den.log2 : Int) - 56
  let (n, d) :=
    if 0 ≤ shift then (num, den * Nat.pow 2 shift.toNat) else (num * Nat.pow 2 (-shift).toNat, den)
  let q := n / d
  let kept := if n % d == 0 then q else q ||| 1
  (Float.ofNat kept).scaleB shift

def truncatedMod (x y : Float) : Float :=
  match Binary.ofFloat x, Binary.ofFloat y with
  | .finite negative m e, .finite _ m' e' =>
    let least := min e e'
    let a := m * Nat.pow 2 (e - least).toNat
    let b := m' * Nat.pow 2 (e' - least).toNat
    let r := (Float.ofNat (a % b)).scaleB least
    if negative then -r else r
  | .finite .., .infinite _ => x
  | _, _ => 0.0 / 0.0

end ArrayKernel.Decimal

namespace ArrayKernel.Datum.Numeric

def toDatum : Numeric → Datum
  | .whole n => .int n
  | .real x => .float x

def toReal : Numeric → Except Fault Float
  | .whole n =>
    let x := Float.ofInt n
    if x.isInf then .error .overflow else .ok x
  | .real x => .ok x

def combine (whole : Int → Int → Int) (real : Float → Float → Float) (a b : Numeric) :
    Except Fault Numeric :=
  match a, b with
  | .whole n, .whole m => .ok (.whole (whole n m))
  | a, b => do return .real (real (← a.toReal) (← b.toReal))

def add : Numeric → Numeric → Except Fault Numeric := combine (· + ·) (· + ·)

def sub : Numeric → Numeric → Except Fault Numeric := combine (· - ·) (· - ·)

def mul : Numeric → Numeric → Except Fault Numeric := combine (· * ·) (· * ·)

def isZero : Numeric → Bool
  | .whole n => n == 0
  | .real x => x == 0.0

def div (a b : Numeric) : Except Fault Numeric := do
  if b.isZero then throw .divisionByZero
  match a, b with
  | .whole n, .whole m =>
    let q := Decimal.ofQuotient n.natAbs m.natAbs
    if q.isInf then throw .overflow
    return .real (if (n < 0) != (m < 0) then -q else q)
  | a, b => return .real ((← a.toReal) / (← b.toReal))

/-- The remainder of a division toward minus infinity; a zero takes the sign of the divisor. -/
def realMod (x y : Float) : Float :=
  let r := Decimal.truncatedMod x y
  if r == 0.0 then (if y < 0.0 then -0.0 else 0.0)
  else if (y < 0.0) != (r < 0.0) then r + y
  else r

def mod (a b : Numeric) : Except Fault Numeric := do
  if b.isZero then throw .divisionByZero
  match a, b with
  | .whole n, .whole m => return .whole (n.fmod m)
  | a, b => return .real (realMod (← a.toReal) (← b.toReal))

def wholeOf (part : Float → Option Int) : Numeric → Except Fault Numeric
  | .whole n => .ok (.whole n)
  | .real x =>
    match part x with
    | some n => .ok (.whole n)
    | none => .error (if x.isNaN then .badValue none else .overflow)

def floor : Numeric → Except Fault Numeric := wholeOf Decimal.floor?

def truncate : Numeric → Except Fault Numeric := wholeOf Decimal.truncate?

def neg : Numeric → Numeric
  | .whole n => .whole (-n)
  | .real x => .real (-x)

def abs : Numeric → Numeric
  | .whole n => .whole n.natAbs
  | .real x => .real x.abs

end ArrayKernel.Datum.Numeric
