import ArrayKernel.Pipeline
import ArrayKernel.Survey.Kernels

/-! # A survey of code -/

namespace ArrayKernel.Survey

open ArrayKernel.Ast

def stridedScheme (order : Layout.Order) : Layout.Scheme := ⟨.strided, order, none⟩

def dynamicCode (inputs : Nat) : Action Nat := do
  withSettings { ← settings with dynamicArguments := true } do
    let kernel ← chainKernel inputs 2 false
    return (← inspectKernel kernel (stridedScheme .rowMajor) true).length

def codeLengths (kernel : Operand) (schemes : List Layout.Scheme) : Action (List Nat) :=
  schemes.mapM fun scheme => do return (← runKernel kernel scheme).2.body.length

def hoistedCode (steps runs : Nat) : Action (List (List Nat)) := do
  let kernel ← broadcastKernel steps
  (List.replicate runs kernel).mapM fun k =>
    codeLengths k [stridedScheme .rowMajor, stridedScheme .columnMajor]

def printedSchemes : List Layout.Scheme :=
  [⟨.contiguous, .rowMajor, none⟩, ⟨.strided, .rowMajor, none⟩, ⟨.tiled, .rowMajor, none⟩]

def printedLength (lines : List String) : Nat := lines.foldl (fun n l => n + l.length + 1) 0

def outlineAndCode (kernel : Operand) (scheme : Layout.Scheme) : Action (Nat × Nat) := do
  let (specialized, code) ← runKernel kernel scheme
  return (printedLength (← outline specialized), code.body.length)

/-- Runs that print outlines one after another: each result is the length of all that was printed so far, and
of the code of that run. -/
def printedRuns (kernel : Operand) : Nat → Nat → Action (List Nat)
  | 0, _ => return []
  | runs + 1, before => do
    let parts ← printedSchemes.mapM (outlineAndCode kernel)
    let printed := before + (parts.map (·.1)).sum
    return (printed + (parts.map (·.2)).sum) :: (← printedRuns kernel runs printed)

def printedCode (inputs runs : Nat) : Action (List Nat) := do
  let kernel ← chainKernel inputs 2 true
  let new := { ← settings with debug := true, debugElements := true, stringStyle := .verbatim }
  withSettings new (printedRuns kernel runs 0)

end ArrayKernel.Survey
