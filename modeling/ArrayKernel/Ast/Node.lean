import ArrayKernel.CType.Promotion

/-!
# Nodes of a kernel

A kernel is a graph of nodes. Nodes are shared and change in place, so an operand names a node by its
identity; what the identity stands for is kept in a store.
-/

namespace ArrayKernel.Ast

structure NodeId where
  index : Nat
  deriving Repr, DecidableEq, Hashable

/-- What stands in an operand position: a node, a plain value, or a list of operands. -/
inductive Operand where
  | node (id : NodeId)
  | datum (d : Datum)
  | group (items : List Operand)
  deriving Inhabited

namespace Operand

def absent : Operand := .datum .null

def isAbsent : Operand → Bool
  | .datum .null => true
  | _ => false

def id? : Operand → Option NodeId
  | .node id => some id
  | _ => none

def truthy : Operand → Bool
  | .node _ => true
  | .datum d => d.truthy
  | .group items => !items.isEmpty

def items : Operand → List Operand
  | .group xs => xs
  | _ => []

end Operand

/-- The name of a variable: usually text, and an array type for an element found for a variable. -/
inductive Name where
  | datum (d : Datum)
  | type (t : CType)
  deriving Inhabited

namespace Name

def ofString (s : String) : Name := .datum (.text s)

def same : Name → Name → Bool
  | .datum a, .datum b => a == b
  | .type a, .type b => a == b
  | _, _ => false

def hashable : Name → Bool
  | .datum d => d.hashable
  | .type t => t.hashable

end Name

inductive Position where
  | unknown
  | raw (d : Datum)
  | located (file : Datum) (line column : Datum)
  deriving Inhabited

inductive VariableRole where
  | plain
  | element (of : Operand)
  | dataPointer (array : Operand)
  | stridePointer (array : Operand)
  | temporary (shown : String)
  | register (of : Operand)
  deriving Inhabited

structure Variable where
  role : VariableRole
  name : Name
  emitted : Option String := none
  dataPointer : Option Operand := none
  stridesPointer : Option Operand := none
  deriving Inhabited

structure Loop where
  start : Operand
  condition : Operand
  step : Operand
  body : Operand
  index : Operand
  /-- The temporary that counts, if the loop was made by counting upwards. -/
  target : Option Operand := none
  dim : Option Nat := none
  blocksize : Option Operand := none
  isControlling : Bool := false
  isTiling : Bool := false
  isVector : Bool := false
  isFixup : Bool := false
  deriving Inhabited

structure Branch where
  condition : Operand
  body : Operand
  otherwise : Operand
  isVector : Bool := false
  isFixup : Bool := false
  deriving Inhabited

structure Handler where
  body : Operand
  errorLabel : Operand
  cleanupLabel : Operand
  errorVariable : Option Operand := none
  errorStart : Operand := .absent
  cleanupJump : Operand := .absent
  errorTarget : Operand := .absent
  errorSet : Operand := .absent
  cleanupTarget : Operand := .absent
  cascade : Operand := .absent
  deriving Inhabited

structure Function where
  name : Datum
  body : Operand
  /-- The arguments that come first: the shape, the position, the arrays. -/
  arguments : Operand
  scalarArguments : Operand
  arrays : List Operand
  byName : List (Name × Operand)
  shape : Operand
  posinfo : Operand
  errorValue : Operand
  successValue : Operand
  ompSize : Operand
  ndim : Nat
  totalShape : Option Operand := none
  emitted : Option String := none
  specializer : Option Nat := none
  specialization : Option String := none
  loops : Option (List Operand) := none
  outerLoops : Option (List Operand) := none
  controllingLoops : Option (List Operand) := none
  tilingLoops : Option (List Operand) := none
  lowerLimits : Option (List (Nat × Operand)) := none
  upperLimits : Option (List (Nat × Operand)) := none
  dataPointers : Option Operand := none
  stridesPointers : Option Operand := none
  deriving Inhabited

inductive Form where
  | function (f : Function)
  | call (callee args : Operand) (inline : Datum)
  | functionName (name : Datum) (isExternal : Datum)
  | yield (operand : Operand)
  | raise (posinfo exception message args : Operand)
  | positionInfo (vars : Operand)
  | argument (owner vars : Operand) (name : Name) (used : Bool)
  | arrayArgument (owner : Operand) (name : Name) (data strides : Operand)
      (vars : List Operand) (used : Bool)
  | print (args : Operand)
  /-- Runs its body once for each index tuple of the shape; no order is chosen yet. -/
  | iterate (body : Operand)
  | loop (l : Loop)
  | branch (b : Branch)
  | sequence (statements : Operand)
  | statement (expr : Operand)
  | prepared (statement expr : Operand)
  | foreign (text : String) (owned : CType)
  | assign (lhs rhs : Operand) (mayReorder : Datum)
  | binop (operator : String) (lhs rhs : Operand)
  | index (pointer index : Operand)
  | vectorStore (operator : String) (pointer value : Operand)
  | vectorBinop (operator : String) (lhs rhs : Operand)
  | promotion (operand : Operand)
  | unop (operator : String) (operand : Operand)
  | cast (operand : Operand)
  | dereference (operand : Operand)
  | vectorLoad (operand : Operand) (size : Int)
  | conditional (condition lhs rhs : Operand)
  | constant (value : Datum)
  | sizeof (of : CType)
  | var (v : Variable)
  | parallelLoop (loop condition lastprivates privates : Operand)
  | parallelChoice (parallel sequential : Operand)
  | pragmaLoop (loop : Operand)
  | handler (h : Handler)
  | jump (label : Operand)
  | jumpTarget (label : Operand)
  | label (name : Datum) (emitted : Option String)
  | noop
  | vectorConstant (value : Datum)
  deriving Inhabited

structure Marks where
  isSpecialized : Bool := false
  isStatement : Bool := false
  isHoisted : Bool := false
  isHoistable : Option Datum := none
  needsTemp : Option Datum := none
  /-- The dimensions in which the value is broadcast, once a pass has looked. -/
  broadcasting : Option (Option (List Bool)) := none
  prepending : Option Operand := none
  appending : Option Operand := none
  others : List (String × Operand) := []
  deriving Inhabited

structure Node where
  form : Form
  type : Option CType
  position : Position
  marks : Marks := {}
  deriving Inhabited

end ArrayKernel.Ast
