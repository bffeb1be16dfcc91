import ArrayKernel.Datum.Basic

/-! # Ranks -/

namespace ArrayKernel

structure Rank where
  value : Rat
  fractional : Bool
  deriving Repr, DecidableEq

namespace Rank

def ofInt (n : Int) : Rank := ⟨n, false⟩

def half (n : Int) : Rank := ⟨n + 1 / 2, true⟩

def zero : Rank := ofInt 0

def add (a b : Rank) : Rank := ⟨a.value + b.value, a.fractional || b.fractional⟩

def double (a : Rank) : Rank := ⟨a.value * 2, a.fractional⟩

def same (a b : Rank) : Bool := a.value == b.value

def below (a b : Rank) : Bool := decide (a.value < b.value)

def ofDatum? : Datum → Option Rank
  | .int n => some (ofInt n)
  | .bool b => some (ofInt (if b then 1 else 0))
  | .float x =>
    match Decimal.Binary.ofFloat x with
    | .finite negative mantissa exponent =>
      let signed : Int := if negative then - (mantissa : Int) else mantissa
      some ⟨if 0 ≤ exponent then ((signed * Nat.pow 2 exponent.toNat : Int) : Rat)
            else (signed : Rat) / ((Nat.pow 2 (-exponent).toNat : Int) : Rat), true⟩
    | _ => none
  | _ => none

def toDatum (a : Rank) : Datum :=
  if a.fractional then .float (Float.ofInt a.value.num / Float.ofNat a.value.den)
  else .int a.value.num

end Rank

end ArrayKernel
