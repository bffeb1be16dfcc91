import ArrayKernel.Path.Select
import ArrayKernel.Pipeline
import ArrayKernel.Survey.Kernels

/-! # A survey of paths -/

namespace ArrayKernel.Survey

open ArrayKernel.Ast

def surveyedPaths : List String :=
  ["//ForNode", "//BinopNode", "//*", "//TempNode", "//ForNode/*", "//ForNode//BinopNode",
   "//BinopNode[@operator='+']", "//ForNode[@is_tiling_loop=false]", "//*[@type]", "//*[not(@missing)]",
   "//BinopNode[@operator='+' and @is_binop=true]", "."]

structure Tally where
  count : Nat
  found : Bool

def tally (kernel : Operand) (path : String) : Action Tally := do
  let all ← Path.findAll kernel path
  let first ← Path.findFirst kernel path
  return { count := all.length, found := !first.isNull }

/-- The tallies of the first `n` paths, going round, and the number of loops of the kernel. -/
def paths (n : Nat) : Action (List Tally × Nat) := do
  let specialized ← specializeKernel (← chainKernel 4 3 true) ⟨.innerContiguous, .rowMajor, none⟩
  let tallies ← (List.range n).mapM fun i =>
    tally specialized (surveyedPaths.getD (i % surveyedPaths.length) ".")
  return (tallies, (← Path.findAll specialized "//ForNode").length)

end ArrayKernel.Survey
