import ArrayKernel.Builder.Expression

/-! # Building statements -/

namespace ArrayKernel.Build

open Ast

/-! ## Loops -/

def iterate (body : Operand) : Action Operand := create (.iterate body) none

def loop (body start condition step : Operand) (index : Operand := .absent) : Action Operand := do
  let index ← if index.truthy then pure index else leftOf start
  create (.loop { start, condition, step, body, index }) none

def countUpwards (body upper : Operand) (lower step : Operand := .absent) : Action Operand := do
  let type ← Action.ofExcept ((← typeOf upper).unqualify ["const"])
  let lower ← if lower.isAbsent then constant (.int 0) type else pure lower
  let step ← if step.isAbsent then constant (.int 1) type else pure step
  let temp ← temporary type
  let start ← assignment temp lower
  let condition ← binop CType.bool "<" temp upper
  let step ← assignment temp (← add temp step)
  let result ← loop body start condition step
  updateLoop (← identity result) fun l => { l with target := some temp }
  return result

def parallel (body condition : Operand) : Action Operand := do
  let body := match ← formOf? body with
    | some (.pragmaLoop inner) => inner
    | _ => body
  let start := (← loopOf body).start
  let index ← leftOf start
  create (.parallelLoop body condition (.group [index]) (.group [])) none

def parallelChoice (whenParallel : Operand) (otherwise : Operand := .absent) : Action Operand :=
  create (.parallelChoice whenParallel otherwise) none

def pragma (body : Operand) : Action Operand := create (.pragmaLoop body) none

/-! ## Branches, jumps, errors -/

def branch (condition body : Operand) (otherwise : Operand := .absent) : Action Operand :=
  create (.branch { condition, body, otherwise }) none

def yield (result : Operand) : Action Operand := create (.yield result) none

def label (name : Datum) : Action Operand := create (.label name none) (some .absent)

def jump (target : Operand) : Action Operand := create (.jump target) none

def jumpTarget (target : Operand) : Action Operand := create (.jumpTarget target) none

def raise (posinfo exception message args : Operand) : Action Operand :=
  create (.raise posinfo exception message args) none

def positionInfo (vars : Operand) : Action Operand := create (.positionInfo vars) none

def print (args : List Operand) : Action Operand := create (.print (.group args)) none

def handler (body : Operand) : Action Operand := do
  let errorLabel ← label (.text "error")
  let cleanupLabel ← label (.text "cleanup")
  create (.handler { body, errorLabel, cleanupLabel }) none

/-! ## Printed values -/

def conversion (o : Operand) : Action (String × Operand) := do
  let type ← knownType o
  if type.isPointer then return ("%p", o)
  if type.isInt then return ("%i", ← cast o CType.int)
  if type.isFloat then return ("%f", o)
  if type.isCString then return ("%s", o)
  throw (.unprintable type)

def printCall (args : List Operand) : Action Operand := do
  let type : CType := .function CType.int [CType.cStringType] false none true false []
  let callee ← functionName type (.text "printf")
  let converted ← args.mapM conversion
  let format ← constant (.text (" ".intercalate (converted.map (·.1)) ++ "\n"))
  statement (← call callee (format :: converted.map (·.2)))

end ArrayKernel.Build
