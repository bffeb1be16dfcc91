import ArrayKernel.Decimal.Binary

/-! # Shortest decimal text of a double -/

namespace ArrayKernel.Decimal

/-- A positive rational as numerator and denominator; not reduced. -/
structure Ratio where
  num : Nat
  den : Nat
  deriving Repr, DecidableEq

structure Rounding where
  low : Ratio
  value : Ratio
  high : Ratio
  closed : Bool
  deriving Repr, DecidableEq

def Ratio.scaled (num : Nat) (e : Int) : Ratio :=
  if 0 ≤ e then ⟨num * Nat.pow 2 e.toNat, 1⟩ else ⟨num, Nat.pow 2 (-e).toNat⟩

/-- The interval around `mantissa * 2 ^ exponent`; just above a power of two the gap below is half as wide. -/
def Rounding.around (mantissa : Nat) (exponent : Int) : Rounding :=
  let below := if mantissa == Nat.pow 2 52 && leastExponent < exponent then 1 else 2
  { low := .scaled (4 * mantissa - below) (exponent - 2)
    value := .scaled (4 * mantissa) (exponent - 2)
    high := .scaled (4 * mantissa + 2) (exponent - 2)
    closed := mantissa % 2 == 0 }

def decimalPoint (n : Nat) (e : Int) : Ratio :=
  if 0 ≤ e then ⟨n * Nat.pow 10 e.toNat, 1⟩ else ⟨n, Nat.pow 10 (-e).toNat⟩

def Ratio.lt (a b : Ratio) : Bool := a.num * b.den < b.num * a.den

def Ratio.le (a b : Ratio) : Bool := a.num * b.den ≤ b.num * a.den

def Rounding.contains (r : Rounding) (p : Ratio) : Bool :=
  if r.closed then r.low.le p && p.le r.high else r.low.lt p && p.lt r.high

/-- Twice the distance test: `some true` if `a` is nearer to `v` than `b`, `none` on a tie; `a ≤ v ≤ b`. -/
def nearer (v a b : Ratio) : Option Bool :=
  -- v - a < b - v, over the common denominator
  let twice := 2 * v.num * a.den * b.den
  let sum := (a.num * b.den + b.num * a.den) * v.den
  if twice < sum then some true else if sum < twice then some false else none

def Ratio.exponent10 (r : Ratio) : Int :=
  if r.den ≤ r.num then ((Nat.toDigits 10 (r.num / r.den)).length : Int) - 1
  else
    -- 1/r rounded down has as many digits as zeros are skipped, one more at an exact power
    let q := r.den / r.num
    let e := (Nat.toDigits 10 q).length
    if r.den = r.num * Nat.pow 10 (e - 1) then 1 - (e : Int) else - (e : Int)

structure Digits where
  digits : Nat
  exponent : Int
  deriving Repr, DecidableEq

def Rounding.candidate (r : Rounding) (e : Int) (n : Nat) : Option Digits :=
  let unit := e - (n : Int) + 1
  let grid := decimalPoint 1 unit
  let d := r.value.num * grid.den / (r.value.den * grid.num)
  let below := decimalPoint d unit
  let above := decimalPoint (d + 1) unit
  match r.contains below, r.contains above with
  | true, true =>
    match nearer r.value below above with
    | some true => some ⟨d, unit⟩
    | some false => some ⟨d + 1, unit⟩
    | none => some ⟨if d % 2 == 0 then d else d + 1, unit⟩
  | true, false => some ⟨d, unit⟩
  | false, true => some ⟨d + 1, unit⟩
  | false, false => none

def Rounding.search (r : Rounding) (e : Int) : Nat → Nat → Digits
  | 0, n => (r.candidate e n).getD ⟨0, 0⟩
  | more + 1, n => (r.candidate e n).getD (r.search e more (n + 1))

def shortest (mantissa : Nat) (exponent : Int) : Digits :=
  let r := Rounding.around mantissa exponent
  r.search r.value.exponent10 16 1

/-! ## Text -/

/-- How a decimal is written: where positional notation ends and how an exponent looks. -/
structure Format where
  leastPositional : Int
  leastScientific : Int
  keepPoint : Bool
  exponentWidth : Nat
  deriving Repr

def Format.standard : Format := ⟨-4, 16, true, 2⟩

def zeros (n : Nat) : String := String.ofList (List.replicate n '0')

def significant (n : Nat) : List Char :=
  ((Nat.toDigits 10 n).reverse.dropWhile (· == '0')).reverse

def exponentText (f : Format) (e : Int) : String :=
  let digits := toString e.natAbs
  (if e < 0 then "e-" else "e+") ++ zeros (f.exponentWidth - digits.length) ++ digits

def Format.write (f : Format) (d : Digits) : String :=
  let all := Nat.toDigits 10 d.digits
  let e : Int := d.exponent + all.length - 1
  let ds := significant d.digits
  if f.leastPositional ≤ e && e < f.leastScientific then
    if e < 0 then "0." ++ zeros (e.natAbs - 1) ++ String.ofList ds
    else
      let whole := e.toNat + 1
      if ds.length ≤ whole then
        String.ofList ds ++ zeros (whole - ds.length) ++ (if f.keepPoint then ".0" else "")
      else String.ofList (ds.take whole) ++ "." ++ String.ofList (ds.drop whole)
  else
    match ds with
    | [] => "0"
    | [c] => String.ofList [c] ++ exponentText f e
    | c :: rest => String.ofList [c] ++ "." ++ String.ofList rest ++ exponentText f e

def floatText (x : Float) : String :=
  match Binary.ofFloat x with
  | .notANumber => "nan"
  | .infinite negative => if negative then "-inf" else "inf"
  | .finite negative mantissa exponent =>
    let sign := if negative then "-" else ""
    if mantissa == 0 then sign ++ "0.0"
    else sign ++ Format.standard.write (shortest mantissa exponent)

end ArrayKernel.Decimal
