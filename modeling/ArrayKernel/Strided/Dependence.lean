import ArrayKernel.Strided.View

/-!
# Data dependences between views

Two views of one base are compared by where they start in it and by how many elements of it each of their
indices steps over. A test in each dimension then either rules out a common element or says in which
direction the dependence points.
-/

namespace ArrayKernel.Strided

open View

def pairText (a b : Int) : String := "(" ++ toString a ++ ", " ++ toString b ++ ")"

def require (b : Bool) (said : String := "") : Except Fault Unit :=
  if b then .ok () else .error (.violated (some said))

def floorDiv (a b : Int) : Except Fault Int :=
  if b = 0 then .error .divisionByZero else .ok (a.fdiv b)

def floorMod (a b : Int) : Except Fault Int :=
  if b = 0 then .error .divisionByZero else .ok (a.fmod b)

/-! ## Views of a base -/

def requireContained (base a : View) : Except Fault Unit := do
  let (baseStart, baseStop) ← base.bounds
  let (start, stop) ← a.bounds
  require (decide (baseStart ≤ start ∧ stop ≤ baseStop))

/-- Strides of a base are not zero and have one sign, and strides of its views are multiples of them. -/
def requireStrides (base a b : View) (negative : Bool) : List Nat → Except Fault Unit
  | [] => .ok ()
  | i :: rest => do
    let s ← base.stride i
    require (decide (s ≠ 0))
    require (decide (s < 0) == negative)
    let sa ← a.stride i
    require ((← floorMod sa s) == 0) (pairText sa s)
    let sb ← b.stride i
    require ((← floorMod sb s) == 0) (pairText sb s)
    requireStrides base a b negative rest

def requireBase (base a b : View) : Except Fault Unit := do
  require (base.ndim == a.ndim)
  requireContained base a
  requireContained base b
  let first ← base.stride 0
  requireStrides base a b (decide (first < 0)) (List.range base.ndim)

def requireSeparate (v : View) : List Nat → Except Fault Unit
  | i :: j :: rest => do
    let extent := (← v.stride i) * ((← v.extent i) - 1)
    let s ← v.stride j
    require (decide (extent.natAbs ≤ s.natAbs)) (pairText s extent)
    requireSeparate v (j :: rest)
  | _ => .ok ()

def requireIndependent (v : View) : Except Fault Unit := requireSeparate v v.order

def requireInside (base a : View) (i : Nat) : List Int → List Int → Except Fault Unit
  | offset :: offsets, step :: steps => do
    let last := offset + ((← a.extent i) - 1) * step
    require (decide (0 ≤ last))
    require (decide (last < (← base.extent i)))
    requireInside base a (i + 1) offsets steps
  | _, _ => .ok ()

def splitDistance (base : View) (distance : Int) (found : List Int) : List Nat → Except Fault (List Int)
  | [] => do
    require (distance == 0)
    return found
  | i :: rest => do
    let s ← base.stride i
    let index ← floorDiv distance s
    let n ← base.extent i
    require (decide (0 ≤ index ∧ index < n)) (pairText index n)
    splitDistance base (← floorMod distance s) (found.set i index) rest

def offsets (base a : View) : Except Fault (List Int) := do
  splitDistance base (a.data - base.data) (List.replicate base.ndim 0) (← base.baseOrder).reverse

def steps (base a : View) : Except Fault (List Int) :=
  (List.range base.ndim).mapM fun i => do
    let s ← a.stride i
    floorDiv s (← base.stride i)

/-- Where two views start in a base and how they step through it. -/
structure Placement where
  offsetsA : List Int
  stepsA : List Int
  offsetsB : List Int
  stepsB : List Int
  deriving Repr, DecidableEq

def place (base a b : View) : Except Fault Placement := do
  require (a.shape == b.shape)
  requireBase base a b
  requireIndependent base
  requireIndependent a
  requireIndependent b
  let offsetsA ← offsets base a
  let stepsA ← steps base a
  requireInside base a 0 offsetsA stepsA
  let offsetsB ← offsets base b
  let stepsB ← steps base b
  requireInside base b 0 offsetsB stepsB
  return { offsetsA, stepsA, offsetsB, stepsB }

/-! ## Directions -/

inductive Direction where
  | before
  | same
  | after
  deriving Repr, DecidableEq

def Direction.text : Direction → String
  | .before => ">"
  | .same => "="
  | .after => "<"

def Direction.ofDistance (distance : Int) : Direction :=
  if distance < 0 then .before else if distance = 0 then .same else .after

/-- The direction of a dependence in one dimension, or `none` if there is no common element. Only equal
steps can be tested: for different ones the greatest common divisor that the test needs is not there. -/
def direction? (offsetA offsetB stepA stepB extent : Int) : Except Fault (Option Direction) := do
  let distance := offsetB - offsetA
  if stepA = stepB then
    if (← floorMod distance stepA) = 0 ∧ (distance.natAbs : Int) < extent then
      return some (.ofDistance distance)
    else return none
  else throw .noSuchField

/-- The directions of a dependence in all dimensions, or `none` if one of them rules it out. -/
def directions? : List Int → List Int → List Int → List Int → List Int →
    Except Fault (Option (List Direction))
  | oa :: osA, ob :: osB, sa :: ssA, sb :: ssB, n :: shape => do
    match ← direction? oa ob sa sb n with
    | none => return none
    | some d => return (← directions? osA osB ssA ssB shape).map (d :: ·)
  | _, _, _, _, _ => return some []

def directionsOf (a : View) (p : Placement) : Except Fault (Option (List Direction)) :=
  directions? p.offsetsA p.offsetsB p.stepsA p.stepsB a.shape

structure Slice where
  view : View
  root : View

inductive Verdict where
  | independent
  | unknown
  | dependent (directions : List Direction)
  deriving Repr, DecidableEq

def dependence (a b : Slice) : Except Fault Verdict := do
  if !(← overlap a.view b.view) then return .independent
  require (a.view.shape == b.view.shape)
  if a.root != b.root then return .unknown
  match ← directionsOf a.view (← place a.root a.view b.view) with
  | none => return .independent
  | some ds => return .dependent ds

def divisorTest (a b : View) : Except Fault Bool := do
  if ← overlap a b then throw .noSuchField
  return false

end ArrayKernel.Strided
