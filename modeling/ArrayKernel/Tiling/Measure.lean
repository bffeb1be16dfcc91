import ArrayKernel.Datum.Arithmetic

/-! # Numbers that tiles are measured in -/

namespace ArrayKernel.Tiling

class Measure (α : Type) where
  ofInt : Int → α
  add : α → α → Except Fault α
  sub : α → α → Except Fault α
  mul : α → α → Except Fault α
  div : α → α → Except Fault α
  mod : α → α → Except Fault α
  floor : α → Except Fault α
  truncate : α → Except Fault α
  below : α → α → Bool
  same : α → α → Bool

instance : Measure Datum.Numeric where
  ofInt n := .whole n
  add := Datum.Numeric.add
  sub := Datum.Numeric.sub
  mul := Datum.Numeric.mul
  div := Datum.Numeric.div
  mod := Datum.Numeric.mod
  floor := Datum.Numeric.floor
  truncate := Datum.Numeric.truncate
  below := Datum.Numeric.below
  same := Datum.Numeric.same

def truncateRat (q : Rat) : Int := if q < 0 then -(-q).floor else q.floor

def nonzero (q : Rat) (r : Rat) : Except Fault Rat := if q = 0 then .error .divisionByZero else .ok r

instance : Measure Rat where
  ofInt n := n
  add p q := .ok (p + q)
  sub p q := .ok (p - q)
  mul p q := .ok (p * q)
  div p q := nonzero q (p / q)
  mod p q := nonzero q (p - q * (p / q).floor)
  floor q := .ok q.floor
  truncate q := .ok (truncateRat q)
  below p q := decide (p < q)
  same p q := p == q

end ArrayKernel.Tiling
