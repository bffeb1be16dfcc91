import ArrayKernel.Fault

/-! # Strided views of memory -/

namespace ArrayKernel.Strided

structure View where
  data : Int
  shape : List Int
  strides : List Int
  deriving Repr, DecidableEq, Inhabited

namespace View

def ndim (v : View) : Nat := v.strides.length

def extent (v : View) (i : Nat) : Except Fault Int :=
  match v.shape[i]? with
  | some n => .ok n
  | none => .error .outOfRange

def stride (v : View) (i : Nat) : Except Fault Int :=
  match v.strides[i]? with
  | some s => .ok s
  | none => .error .outOfRange

/-- Widens an interval of addresses by dimensions: a positive stride moves the end, any other one the
start. A view with an empty dimension has the interval of no addresses, which is `(0, 0)`. -/
def widen (start stop : Int) : List Int → List Int → Except Fault (Int × Int)
  | [], _ => .ok (start, stop)
  | _ :: _, [] => .error .outOfRange
  | s :: strides, n :: shape =>
    if n = 0 then .ok (0, 0)
    else if 0 < s then widen start (stop + s * (n - 1)) strides shape
    else widen (start + s * (n - 1)) stop strides shape

def bounds (v : View) : Except Fault (Int × Int) := widen v.data v.data v.strides v.shape

def overlap (a b : View) : Except Fault Bool := do
  let (start, stop) ← a.bounds
  let (start', stop') ← b.bounds
  return if start < start' then decide (start' < stop) else decide (start < stop')

def order (v : View) : List Nat :=
  ((v.strides.zipIdx.map fun (s, i) => (s.natAbs, i)).mergeSort fun x y =>
    decide (x.1 < y.1 ∨ (x.1 = y.1 ∧ x.2 ≤ y.2))).map (·.2)

def baseOrder (v : View) : Except Fault (List Nat) := do
  let first ← v.stride 0
  return if first < 0 then v.order.reverse else v.order

end View

end ArrayKernel.Strided
