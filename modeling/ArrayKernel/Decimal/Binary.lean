/-! # Binary floating-point values as exact integers -/

namespace ArrayKernel.Decimal

/-- A double taken apart: not a number, infinite, or `± mantissa * 2 ^ exponent`. -/
inductive Binary where
  | notANumber
  | infinite (negative : Bool)
  | finite (negative : Bool) (mantissa : Nat) (exponent : Int)
  deriving Repr, DecidableEq

def leastExponent : Int := -1074

def Binary.ofBits (bits : Nat) : Binary :=
  let negative := bits / Nat.pow 2 63 % 2 == 1
  let biased : Nat := bits / Nat.pow 2 52 % Nat.pow 2 11
  let fraction := bits % Nat.pow 2 52
  if biased == 2047 then
    if fraction == 0 then .infinite negative else .notANumber
  else if biased == 0 then .finite negative fraction leastExponent
  else .finite negative (fraction + Nat.pow 2 52) ((biased : Int) - 1075)

def Binary.ofFloat (x : Float) : Binary := .ofBits x.toBits.toNat

def compareWithFinite (n : Int) (negative : Bool) (mantissa : Nat) (exponent : Int) : Ordering :=
  let signed : Int := if negative then - (mantissa : Int) else mantissa
  if 0 ≤ exponent then compare n (signed * Nat.pow 2 exponent.toNat)
  else compare (n * Nat.pow 2 (-exponent).toNat) signed

def compareIntFloat (n : Int) (x : Float) : Option Ordering :=
  match Binary.ofFloat x with
  | .notANumber => none
  | .infinite negative => some (if negative then .gt else .lt)
  | .finite negative mantissa exponent => some (compareWithFinite n negative mantissa exponent)

/-- The integer part of a double, toward zero; `none` for infinities and for not-a-number. -/
def truncate? (x : Float) : Option Int :=
  match Binary.ofFloat x with
  | .notANumber | .infinite _ => none
  | .finite negative mantissa exponent =>
    let size : Nat :=
      if 0 ≤ exponent then mantissa * Nat.pow 2 exponent.toNat else mantissa / Nat.pow 2 (-exponent).toNat
    some (if negative then - (size : Int) else size)

/-- The integer part of a double, toward minus infinity; `none` for infinities and for not-a-number. -/
def floor? (x : Float) : Option Int :=
  match Binary.ofFloat x with
  | .notANumber | .infinite _ => none
  | .finite negative mantissa exponent =>
    let signed : Int := if negative then - (mantissa : Int) else mantissa
    some (if 0 ≤ exponent then signed * Nat.pow 2 exponent.toNat
      else Int.fdiv signed (Nat.pow 2 (-exponent).toNat))

/-! ## Hexadecimal text -/

def hexDigits (width n : Nat) : String :=
  let digits := Nat.toDigits 16 n
  String.ofList (List.replicate (width - digits.length) '0' ++ digits)

def signedText (e : Int) : String :=
  if e < 0 then "-" ++ toString e.natAbs else "+" ++ toString e.natAbs

def hexText (x : Float) : String :=
  match Binary.ofFloat x with
  | .notANumber => "nan"
  | .infinite negative => if negative then "-inf" else "inf"
  | .finite negative mantissa exponent =>
    let sign := if negative then "-" else ""
    if mantissa == 0 then sign ++ "0x0.0p+0"
    else
      sign ++ "0x" ++ toString (mantissa / Nat.pow 2 52) ++ "." ++ hexDigits 13 (mantissa % Nat.pow 2 52)
        ++ "p" ++ signedText (exponent + 52)

end ArrayKernel.Decimal
