import ArrayKernel.Ast.Session

/-! # Building expressions -/

namespace ArrayKernel.Build

open Ast

def create (form : Form) (type : Option CType) : Action Operand := do
  return .node (← addNode { form, type, position := ← position })

/-! ## Constants, variables, temporaries -/

def inferType : Datum → Action CType
  | .bool _ | .int _ => return CType.long
  | .float _ => return CType.float64
  | .text _ => return CType.cStringType
  | _ => throw .undefinedName

def constant (value : Datum) (type : CType := .absent) : Action Operand := do
  let type ← if type.isAbsent then inferType value else pure type
  create (.constant value) (some type)

def variableOf (type : CType) (name : Datum) : Action Operand :=
  create (.var { role := .plain, name := .datum name }) (some type)

def withoutDigits (s : String) : String :=
  String.ofList (s.toList.reverse.dropWhile Char.isDigit).reverse

def nextTemporary : Action Nat := do
  let s ← get
  let n := (s.builders[s.builder]?.map (·.temporaries)).getD 0
  set { s with builders := s.builders.modify s.builder fun b => { b with temporaries := n + 1 } }
  return n

def shownTemporary (name : String) (n : Nat) : String := withoutDigits name ++ toString n

/-- A new temporary. It is shown under its name with the digits at the end replaced by its number. -/
def temporaryNamed (type : CType) (name : Datum) : Action Operand := do
  let name ← match name with
    | .text s => pure (if s.isEmpty then "temp" else s)
    | other => if other.truthy then throw .noSuchField else pure "temp"
  let n ← nextTemporary
  create (.var { role := .temporary (shownTemporary name n), name := .ofString name }) (some type)

def temporary (type : CType) (name : String := "temp") : Action Operand :=
  temporaryNamed type (.text name)

def element (name : Name) (found : Operand) : Action Operand := do
  let type ← typeOf found
  create (.var { role := .element found, name }) (some type)

def foreign (text : String) (type : CType) (position : Position) : Action Operand := do
  return .node (← addNode { form := .foreign text type, type := some (.foreign type), position })

/-! ## Operators -/

def binop (type : CType) (operator : String) (lhs rhs : Operand) : Action Operand :=
  create (.binop operator lhs rhs) (some type)

def unop (type : CType) (operator : String) (operand : Operand) : Action Operand :=
  create (.unop operator operand) (some type)

def joinTypes (lhs rhs : Operand) : Action CType := do
  let a ← typeOf lhs
  let b ← typeOf rhs
  Action.ofExcept (a.join b)

def isConstant (o : Operand) (n : Int) : Action Bool := do
  match (← nodeOf o).form with
  | .constant v => return v == .int n
  | _ => return false

def resultType (type : CType) (lhs rhs : Operand) : Action CType :=
  if type.isAbsent then joinTypes lhs rhs else return type

def add (lhs rhs : Operand) (type : CType := .absent) (operator : String := "+") :
    Action Operand := do
  if ← isConstant lhs 0 then return rhs
  if ← isConstant rhs 0 then return lhs
  binop (← resultType type lhs rhs) operator lhs rhs

def sub (lhs rhs : Operand) (type : CType := .absent) : Action Operand := add lhs rhs type "-"

def mul (lhs rhs : Operand) (type : CType := .absent) (operator : String := "*") :
    Action Operand := do
  if operator == "*" then
    if ← isConstant lhs 1 then return rhs
  if ← isConstant rhs 1 then return lhs
  binop (← resultType type lhs rhs) operator lhs rhs

def div (lhs rhs : Operand) (type : CType := .absent) : Action Operand := mul lhs rhs type "/"

def conditional (condition lhs rhs : Operand) : Action Operand := do
  let type ← joinTypes lhs rhs
  create (.conditional condition lhs rhs) (some type)

def min (lhs rhs : Operand) : Action Operand := do
  let type ← joinTypes lhs rhs
  let condition ← binop type "<" lhs rhs
  conditional condition lhs rhs

/-- Brings a node to a type: constants of the same number class change theirs, other nodes are wrapped. -/
def promote (target : CType) (o : Operand) : Action Operand := do
  let id ← identity o
  let n ← node id
  let type ← typeOf o
  if type == target then return o
  if n.form.isConstant then
    let type ← known type
    let target ← known target
    if type.kind == target.kind then
      updateNode id fun n => { n with type := some target }
      return o
  create (.promotion o) (some target)

/-! ## Pointers -/

def cast (o : Operand) (type : CType) : Action Operand := create (.cast o) (some type)

def dereference (pointer : Operand) : Action Operand := do
  let base ← baseOf (← typeOf pointer)
  create (.dereference pointer) (some base)

def indexMultiple (pointer : Operand) (indices : List Operand) (target : CType := .absent) :
    Action Operand := do
  let pointer ← indices.foldlM (fun p i => add p i) pointer
  let pointer ← if target.isAbsent then pure pointer else cast pointer target
  dereference pointer

def index (pointer i : Operand) (target : CType := .absent) : Action Operand := do
  if !target.isAbsent then return ← indexMultiple pointer [i] target
  let base ← baseOf (← typeOf pointer)
  create (.index pointer i) (some base)

def sizeof (type : CType) : Action Operand := create (.sizeof type) (some CType.unsignedSize)

/-! ## Assignments, statements -/

def assignment (lhs : Operand) (value : Operand) (mayReorder : Datum := .bool false) :
    Action Operand := do
  if lhs.isAbsent then throw (.violated (some ""))
  let value ← match value with
    | .node id => pure (.node id)
    | .datum d => constant d
    | .group _ => throw .undefinedName
  let type ← typeOf lhs
  create (.assign lhs value mayReorder) (some type)

def statement (expr : Operand) : Action Operand := do
  let n ← nodeOf expr
  let type ← typeOf expr
  return .node (← addNode { form := .statement expr, type := some type, position := n.position })

def assign (lhs value : Operand) (mayReorder : Datum := .bool false) : Action Operand := do
  statement (← assignment lhs value mayReorder)

def sequence (statements : List Operand) : Action Operand :=
  create (.sequence (.group statements)) none

def prepared (statements : List Operand) (expr : Operand) : Action Operand := do
  let type ← typeOf expr
  let statement ← sequence statements
  create (.prepared statement expr) (some type)

def coerceToTemporary (expr : Operand) : Action Operand := do
  let type ← knownType expr
  let temp ← temporary type.resolved
  prepared [← assign temp expr] temp

/-! ## Calls -/

def functionName (type : CType) (name : Datum) (isExternal : Datum := .bool true) :
    Action Operand := do
  let type ← known type
  if !type.isFunction then throw (.violated (some ""))
  create (.functionName name isExternal) (some type)

def resultOf (t : CType) : Action CType := do
  let t ← known t
  let t ← if t.isPointer then baseOf t else pure t
  match t with
  | .function r _ _ _ _ _ _ => return r
  | _ => throw .noSuchField

def call (callee : Operand) (args : List Operand) (inline : Datum := .bool false) :
    Action Operand := do
  let type ← resultOf (← typeOf callee)
  create (.call callee (.group args) inline) (some type)

def countReference (o : Operand) (function : Datum) : Action Operand := do
  let callee ← functionName (CType.functionOf CType.void [CType.objectType]) function
  statement (← call callee [o])

/-! ## Vectors -/

def vectorType (element : CType) (size : Int) : Action CType := do
  Action.ofExcept (CType.vectorOf (← settings).declare element size)

def vectorVariable (o : Operand) (size : Int) : Action Operand := do
  let dtype ← dtypeOf (← typeOf o)
  let type ← vectorType dtype size
  let name ← shownName (← nameOf o)
  let name := (if size == 4 then "xmm_" else "ymm_") ++ name
  create (.var { role := .register o, name := .ofString name }) (some type)

def vectorLoad (pointer : Operand) (size : Int) : Action Operand := do
  let base ← baseOf (← typeOf pointer)
  let type ← vectorType base size
  create (.vectorLoad pointer size) (some type)

def vectorStore (pointer value : Operand) : Action Operand := do
  let base ← baseOf (← typeOf pointer)
  match ← typeOf value with
  | .vector e _ _ =>
    if base == e then create (.vectorStore "=" pointer value) (some .absent)
    else throw (.violated (some ""))
  | _ => throw .noSuchField

def vectorBinop (operator : String) (lhs rhs : Operand) : Action Operand := do
  let a ← typeOf lhs
  let b ← typeOf rhs
  if a == b then create (.vectorBinop operator lhs rhs) (some a)
  else throw (.violated (pairText (← settings).declare a b))

def vectorConstant (type : CType) (value : Datum) : Action Operand :=
  create (.vectorConstant value) (some type)

def noop : Action Operand := create .noop (some .absent)

end ArrayKernel.Build
