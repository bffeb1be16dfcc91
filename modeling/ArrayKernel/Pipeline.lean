import ArrayKernel.Ast.Diagram
import ArrayKernel.Emit.Code
import ArrayKernel.Foreign.Expression
import ArrayKernel.Layout.Addressing
import ArrayKernel.Layout.Promotion

/-! # From kernels to code -/

namespace ArrayKernel

open Ast

def addSpecializer (scheme : Layout.Scheme) : Action Nat := do
  let s ← get
  let indices := if scheme.isContiguous then none else some []
  let sp : Specializer := { scheme, name := scheme.name, builder := s.builder, indices }
  set { s with specializers := s.specializers.push sp }
  return s.specializers.size

def specializeKernel (kernel : Operand) (scheme : Layout.Scheme) : Action Operand := do
  let _ ← startBuilder
  let sp ← addSpecializer scheme
  let copy ← clone kernel
  let o ← Layout.specialize sp copy
  let o ← if (← settings).addressing then Layout.address sp o else pure o
  Layout.promoteTypes o

structure Code where
  prototypes : String
  body : String

def emitKernel (kernel : Operand) : Action Code := do
  let (_, e) ← (Emit.emit kernel).run Emit.Emitter.start
  return { prototypes := e.prototypes, body := e.code }

/-- Writes the code of any node, with a place for declarations before it. Gives the text of an expression,
and all that was written. -/
def emitAlone (o : Operand) : Action (Option String × String) := do
  let start : Emit.Emitting Emit.Rendered := do
    let w ← Emit.newInsertionPoint
    Emit.updateMain fun m => { m with declarationLevels := m.declarationLevels ++ [w] }
    Emit.emit o
  let (result, e) ← start.run Emit.Emitter.start
  let text := match result with
    | .text s => some s
    | _ => none
  return (text, e.code)

def runKernel (kernel : Operand) (scheme : Layout.Scheme) : Action (Operand × Code) := do
  let specialized ← specializeKernel kernel scheme
  let code ← emitKernel specialized
  return (specialized, code)

/-! ## Looking at kernels -/

/-- Runs an action with other settings and a count of functions of its own, and goes back to the old ones
even if it fails. -/
def withSettings (new : Settings) (a : Action α) : Action α := do
  let before ← get
  let restore : Action Unit := modify fun s =>
    { s with settings := before.settings, builder := before.builder, functions := before.functions }
  modify fun s => { s with settings := new, functions := 0 }
  try
    let r ← a
    restore
    return r
  catch e =>
    restore
    throw e

/-- The settings under which code is only looked at: those that shape the signature, and the defaults. -/
def Settings.forInspection (s : Settings) (dynamicArguments : Bool) : Settings :=
  { debug := s.debug, shapeType := s.shapeType, stridesType := s.stridesType,
    dynamicArguments := s.dynamicArguments || dynamicArguments, declaresForeign := s.declaresForeign,
    strengthReduction := s.strengthReduction, emitsForeign := false }

def inspectKernel (kernel : Operand) (scheme : Layout.Scheme) (dynamicArguments : Bool := false) :
    Action String := do
  let (_, code) ← withSettings ((← settings).forInspection dynamicArguments) (runKernel kernel scheme)
  return code.body

def dumpKernel (kernel : Operand) (schemes : List Layout.Scheme) : Action (List String × String) := do
  let parts ← schemes.mapM fun scheme => do
    let specialized ← specializeKernel kernel scheme
    let lines ← outline specialized
    let drawn ← diagram specialized
    let _ ← emitKernel specialized
    return (lines, drawn)
  return ((parts.map (·.1)).flatten, String.join (parts.map (·.2)))

def qualifyNode (o : Operand) (added : List String) : Action Unit := do
  let type ← Action.ofExcept ((← typeOf o).qualify added)
  updateNode (← identity o) fun n => { n with type := some type }

def restrictPointers (function : Operand) : Action Unit := do
  let added := ["const", "restrict"]
  let f ← functionOf function
  qualifyNode f.shape added
  let arguments := match f.arguments with
    | .group items => items
    | _ => []
  for a in arguments do
    if (← knownType a).isArray then
      match (← nodeOf a).form with
      | .arrayArgument _ _ data strides _ _ =>
        qualifyNode data added
        qualifyNode strides added
      | _ => throw .noSuchField

/-- Runs a kernel of a client under several schemes: the code, and the function it was written for. -/
def runForeign (e : ForeignExpr) (ndim : Nat) (schemes : List Layout.Scheme) :
    Action (List (String × Operand)) := do
  let kernel ← e.toKernel ndim
  schemes.mapM fun scheme => do
    let (specialized, code) ← runKernel kernel scheme
    return (code.body, specialized)

end ArrayKernel
