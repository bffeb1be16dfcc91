import ArrayKernel.Ast.Traversal
import ArrayKernel.Builder.Expression
import ArrayKernel.Emit.Writer

/-! # C code -/

namespace ArrayKernel.Emit

open Ast

inductive Rendered where
  | nothing
  | text (s : String)
  | itself (kind : String)

namespace Rendered

def shown : Rendered → String
  | .nothing => "None"
  | .text s => s
  | .itself kind => kind

def initializer : Rendered → String
  | .nothing => ""
  | .text s => if s.isEmpty then "" else " = " ++ s
  | .itself kind => " = " ++ kind

def asText : Rendered → Except Fault String
  | .text s => .ok s
  | _ => .error .wrongKind

end Rendered

structure Emitter where
  desk : Desk String := {}
  main : Nat := 0
  declared : List NodeId := []
  names : List String := []
  labels : Nat := 0

abbrev Emitting := StateT Emitter Action

/-! ## Writing -/

def putLineTo (w : Nat) (line : String) : Emitting Unit :=
  modify fun e => { e with desk := e.desk.putLine id w line }

def putLine (line : String) : Emitting Unit := do putLineTo (← get).main line

def newInsertionPoint : Emitting Nat := do
  let e ← get
  let (desk, w) := e.desk.insertionPoint e.main
  set { e with desk }
  return w

def updateMain (f : Writer → Writer) : Emitting Unit :=
  modify fun e => { e with desk := e.desk.update e.main f }

def inBlock (act : Emitting α) : Emitting α := do
  let w ← newInsertionPoint
  updateMain fun m => { m with declarationLevels := m.declarationLevels ++ [w] }
  let r ← act
  updateMain fun m => { m with declarationLevels := m.declarationLevels.dropLast }
  return r

def stripped (s : String) : String :=
  if s.startsWith "(" && s.endsWith ")" then String.ofList (s.toList.drop 1).dropLast else s

def strippedResult : Rendered → Except Fault String
  | .text s => .ok (stripped s)
  | .nothing => .ok "None"
  | .itself _ => .error .wrongKind

/-! ## Results -/

def results (visit : Operand → Emitting Rendered) (o : Operand) : Emitting (List Rendered) :=
  match o with
  | .group items => items.mapM visit
  | _ => return [← visit o]

def single (visit : Operand → Emitting Rendered) (o : Operand) : Emitting String := do
  match ← results visit o with
  | [r] => return r.shown
  | _ => throw .wrongKind

def commaList (visit : Operand → Emitting Rendered) (o : Operand) : Emitting String := do
  let texts ← (← results visit o).mapM fun r => (Action.ofExcept r.asText : Action String)
  return ", ".intercalate texts

/-! ## Temporaries, variables, labels -/

def distinctName (own : String) (names : List String) (count : Nat) : String :=
  if names.contains own then Build.withoutDigits own ++ "_" ++ toString count else own

def nameTemporary (id : NodeId) (shown : String) : Emitting Unit := do
  let e ← get
  let name := distinctName (mangle shown) e.names e.declared.length
  (updateForm id fun
    | .var v => .var { v with name := .ofString name }
    | other => other : Action Unit)
  let declared := if e.declared.contains id then e.declared else e.declared ++ [id]
  set { e with names := name :: e.names, declared }

/-- Writes the declaration of a temporary that has a name, with a first value if one is given. -/
def putDeclaration (id : NodeId) (value : Rendered) : Emitting Unit := do
  let e ← get
  let some w := (e.desk.writer e.main).declarationLevels.getLast? | throw .outOfRange
  let type ← typeOf (.node id)
  let type ← typeText type
  let name ← shownName (← nameOf (.node id))
  putLineTo w (type ++ " " ++ name ++ value.initializer ++ ";")

def declareTemporary (id : NodeId) (shown : String) (value : Rendered := .nothing) : Emitting Unit := do
  if !(← get).declared.contains id then nameTemporary id shown
  putDeclaration id value

def emitTemporary (id : NodeId) (shown : String) : Emitting Rendered := do
  if !(← get).declared.contains id then declareTemporary id shown
  return .text (← shownName (← nameOf (.node id)))

def emitVariable (id : NodeId) (v : Variable) : Emitting Rendered := do
  let name ← shownName v.name
  if (← knownType (.node id)).isFunction then return .text name
  match v.emitted with
  | some s => return .text s
  | none =>
    let emitted := mangle name
    (updateForm id fun _ => .var { v with emitted := some emitted } : Action Unit)
    return .text emitted

def emitLabel (id : NodeId) (name : Datum) : Option String → Emitting Rendered
  | some emitted => return .text emitted
  | none => do
    let e ← get
    let emitted := mangle (name.display ++ toString e.labels)
    set { e with labels := e.labels + 1 }
    (updateForm id fun _ => .label name (some emitted) : Action Unit)
    return .text emitted

/-! ## Constants and vectors -/

def escaped (s : String) : String :=
  String.ofList (s.toList.flatMap fun c => if c == '\n' then ['\\', 'n'] else [c])

def emitConstant (id : NodeId) (value : Datum) : Emitting Rendered := do
  if (← knownType (.node id)).isCString then
    match value with
    | .text s =>
      match (← settings).stringStyle with
      | .refused => throw .noSuchEncoding
      | .escaped => return .text ("\"" ++ escaped s ++ "\"")
      | .verbatim => return .text ("\"" ++ s ++ "\"")
    | _ => throw .noSuchField
  return .text value.display

def vectorFamilies : List (CType × String × String) :=
  [(.vector CType.float32 4 [], "_mm_", "_ps"), (.vector CType.float32 8 [], "_mm256_", "_ps"),
   (.vector CType.float64 4 [], "_mm_", "_pd"), (.vector CType.float64 8 [], "_mm256_", "_pd")]

def instruction (type : CType) (name : String) : Except Fault String :=
  if !type.hashable then .error .wrongKind
  else match vectorFamilies.find? fun (t, _) => t == type && t.sameHash type with
    | some (_, before, after) => .ok (before ++ name ++ after)
    | none => .error .noSuchKey

def vectorOperations : List (String × String) :=
  [("+", "add"), ("*", "mul"), ("-", "sub"), ("/", "div"), ("<", "cmplt"), ("<=", "cmple"),
   ("==", "cmpeq"), ("!=", "cmpne"), (">=", "cmpge"), (">", "cmpgt")]

/-! ## Assignments -/

def isIncrement (form : Form) : Action (Option Operand) := do
  if !form.isBinop || form.operator? != some "+" then return none
  match form with
  | .binop _ l r | .vectorStore _ l r | .vectorBinop _ l r =>
    match (← nodeOf r).form with
    | .constant v => return if v == .int 1 then some l else none
    | _ => return none
  | _ => return none

def emitStore (visit : Operand → Emitting Rendered) (lhs rhs : Operand) : Emitting Rendered := do
  let l ← results visit lhs
  let r ← results visit rhs
  match l ++ r with
  | [a, b] => return .text ("(" ++ a.shown ++ " = " ++ b.shown ++ ")")
  | _ => throw .wrongKind

def emitFirstStore (visit : Operand → Emitting Rendered) (id : NodeId) (lhs rhs : Operand)
    (mayReorder : Datum) : Emitting Rendered := do
  if (← node id).marks.isStatement then
    let target ← nodeOf lhs
    match target.form, lhs with
    | .var { role := .temporary shown, .. }, .node t =>
      if !(← get).declared.contains t && mayReorder.truthy then
        nameTemporary t shown
        let value ← visit rhs
        declareTemporary t shown value
        return .nothing
    | _, _ => pure ()
  emitStore visit lhs rhs

def emitAssignment (visit : Operand → Emitting Rendered) (id : NodeId) (lhs rhs : Operand)
    (mayReorder : Datum) : Emitting Rendered := do
  let form := (← nodeOf rhs).form
  if let some counted := ← isIncrement form then
    return .text ((← visit counted).shown ++ "++")
  if form.isBinop then
    let left ← leftOf rhs
    if ← same lhs left then
      let l ← visit lhs
      let r ← visit (← rightOf rhs)
      return .text ("(" ++ l.shown ++ " " ++ form.operator?.getD "" ++ "= " ++ r.shown ++ ")")
  emitFirstStore visit id lhs rhs mayReorder

/-! ## Disposal -/

/-- Lets the client dispose of the foreign nodes of a body, except inside handlers of their own. -/
def disposeWithin (w : Nat) : Nat → Operand → Emitting Unit
  | 0, _ => throw .tooDeep
  | depth + 1, o => do
    let .node id := o | throw .noRule
    match (← node id).form with
    | .handler _ => return
    | .foreign text _ =>
      if (← settings).disposes then putLineTo w ("dispose(" ++ text ++ ");")
    | _ =>
      let _ ← visitChildren (fun _ _ child => disposeWithin w depth child) id

/-! ## Statements -/

def emitParameters (visit : Operand → Emitting Rendered) (vars : List Operand) :
    Emitting Rendered := do
  let parts ← (vars.filter (!·.isAbsent)).mapM fun v => do
    let type ← typeOf v
    let name ← visit v
    return (← typeText type) ++ " " ++ name.shown
  return .text (", ".intercalate parts)

def emitFunction (visit : Operand → Emitting Rendered) (id : NodeId) (f : Function) :
    Emitting Unit := do
  let _ ← (required f.specializer : Action _)
  let name := mangle (f.emitted.getD "" ++ f.specialization.getD "")
  (updateFunction id fun f => { f with emitted := some name } : Action Unit)
  let args ← (f.arguments.items ++ f.scalarArguments.items).mapM visit
  let texts ← (args.filter fun r => !(r matches .nothing)).mapM fun r =>
    (Action.ofExcept r.asText : Action String)
  let proto := "static int " ++ name ++ "(" ++ ", ".intercalate texts ++ ")"
  let e ← get
  match (e.desk.writer e.main).proto with
  | some w => putLineTo w (proto ++ ";")
  | none => throw .noSuchField
  putLine (proto ++ " \x7b")
  inBlock do
    let _ ← newInsertionPoint
    let _ ← newInsertionPoint
    let _ ← visitChildren (fun _ _ child => visit child) id
  putLine "\x7d"

def emitLoop (visit : Operand → Emitting Rendered) (l : Loop) : Emitting Unit := do
  let start ← results visit l.start
  let condition ← results visit l.condition
  let step ← results visit l.step
  let parts ← (start ++ condition ++ step).mapM fun r => (Action.ofExcept (strippedResult r) : Action _)
  if parts.length != 3 then throw .wrongKind
  putLine ("for (" ++ "; ".intercalate parts ++ ") \x7b")
  inBlock do
    let w ← newInsertionPoint
    updateMain fun m => { m with loopLevels := m.loopLevels ++ [w] }
    let _ ← visit l.start
    let _ ← visit l.body
  updateMain fun m => { m with loopLevels := m.loopLevels.dropLast }
  putLine "\x7d"

def emitBranch (visit : Operand → Emitting Rendered) (b : Branch) : Emitting Unit := do
  putLine ("if (" ++ (← single visit b.condition) ++ ") \x7b")
  let _ ← visit b.body
  if b.otherwise.truthy then
    putLine "\x7d else \x7b"
    let _ ← visit b.otherwise
  putLine "\x7d"

def emitParallelLoop (visit : Operand → Emitting Rendered)
    (loop condition lastprivates privates : Operand) : Emitting Unit := do
  putLine "#ifdef _OPENMP"
  let test ← visit condition
  let last ← commaList visit lastprivates
  let own ←
    if privates.truthy then pure (" private(" ++ (← commaList visit privates) ++ ")") else pure ""
  putLine ("#pragma omp parallel for if(" ++ test.shown ++ ") lastprivate(" ++ last ++ ")" ++ own)
  putLine "#endif"
  let _ ← visit loop

def emitParallelChoice (visit : Operand → Emitting Rendered) (a b : Operand) : Emitting Unit := do
  if a.truthy then
    putLine "#ifdef _OPENMP"
    let _ ← visit a
  if b.truthy then
    putLine (if a.truthy then "#else" else "#ifndef _OPENMP")
    let _ ← visit b
  putLine "#endif"

def emitHandler (visit : Operand → Emitting Rendered) (h : Handler) : Emitting Unit := do
  for o in [h.errorLabel, h.cleanupLabel, h.errorStart, h.body, h.cleanupJump, h.errorTarget,
      h.errorSet, h.cleanupTarget] do
    let _ ← visit o
  let w ← newInsertionPoint
  disposeWithin w depthLimit h.body
  let _ ← visit h.cascade

def emitStatement (visit : Operand → Emitting Rendered) (expr : Operand) : Emitting Unit := do
  (updateMarks (← identity expr) fun k => { k with isStatement := true } : Action Unit)
  match ← visit expr with
  | .nothing => pure ()
  | .text s => if !s.isEmpty then putLine (stripped s ++ ";")
  | .itself _ => throw .wrongKind

/-! ## The code generator -/

def emitNode (visit : Operand → Emitting Rendered) (id : NodeId) : Emitting Rendered := do
  let n ← node id
  match n.form with
  | .function f => emitFunction visit id f; return .nothing
  | .argument _ vars _ used =>
    if used then emitParameters visit vars.items else return .nothing
  | .arrayArgument _ _ data strides _ used =>
    if used then emitParameters visit [data, strides] else return .nothing
  | .sequence _ =>
    let _ ← visitChildren (fun _ _ child => visit child) id
    return .itself n.form.kindName
  | .statement expr => emitStatement visit expr; return .nothing
  | .prepared statement expr =>
    let _ ← visit statement
    visit expr
  | .parallelLoop l c ls ps => emitParallelLoop visit l c ls ps; return .nothing
  | .parallelChoice a b => emitParallelChoice visit a b; return .nothing
  | .pragmaLoop loop =>
    putLine "#ifdef __INTEL_COMPILER"
    putLine "#pragma simd"
    putLine "#endif"
    let _ ← visit loop
    return .nothing
  | .loop l => emitLoop visit l; return .nothing
  | .branch b => emitBranch visit b; return .nothing
  | .promotion o => visit o
  | .call callee args _ =>
    let f ← visit callee
    return .text (f.shown ++ "(" ++ (← commaList visit args) ++ ")")
  | .functionName name _ => return .text name.display
  | .yield o =>
    putLine ("return " ++ (← single visit o) ++ ";")
    return .nothing
  | .binop p l r =>
    let l ← visit l
    let r ← visit r
    return .text ("(" ++ l.shown ++ " " ++ p ++ " " ++ r.shown ++ ")")
  | .unop p o => return .text ("(" ++ p ++ (← visit o).shown ++ ")")
  | .assign l r mayReorder => emitAssignment visit id l r mayReorder
  | .conditional c l r =>
    match (← results visit c) ++ (← results visit l) ++ (← results visit r) with
    | [a, b, d] => return .text ("(" ++ a.shown ++ " ? " ++ b.shown ++ " : " ++ d.shown ++ ")")
    | _ => throw .wrongKind
  | .cast o =>
    let type ← typeOf (.node id)
    let r ← visit o
    return .text ("((" ++ (← typeText type) ++ ") " ++ r.shown ++ ")")
  | .dereference o => return .text ("(*" ++ (← visit o).shown ++ ")")
  | .index p i =>
    match (← results visit p) ++ (← results visit i) with
    | [a, b] => return .text (a.shown ++ "[" ++ b.shown ++ "]")
    | _ => throw .wrongKind
  | .sizeof t => return .text ("sizeof(" ++ (← typeText t) ++ ")")
  | .var v =>
    match v.role with
    | .plain => emitVariable id v
    | .element e => visit e
    | .dataPointer _ | .stridePointer _ => return .text (← shownName v.name)
    | .temporary shown => emitTemporary id shown
    | .register o => visit o
  | .noop => return .text ""
  | .jump l =>
    putLine ("goto " ++ (← single visit l) ++ ";")
    return .nothing
  | .jumpTarget l =>
    putLine ((← single visit l) ++ ":")
    return .nothing
  | .label name emitted => emitLabel id name emitted
  | .constant value => emitConstant id value
  | .handler h => emitHandler visit h; return .itself n.form.kindName
  | .foreign text _ =>
    if (← settings).emitsForeign then return .text text
    throw .noRule
  | .vectorLoad o _ =>
    let load ← Action.ofExcept (instruction (← typeOf (.node id)) "loadu")
    return .text (load ++ "(" ++ (← visit o).shown ++ ")")
  | .vectorStore _ p v =>
    let store ← Action.ofExcept (instruction (← typeOf v) "storeu")
    let p ← visit p
    let v ← visit v
    return .text (store ++ "(" ++ p.shown ++ ", " ++ v.shown ++ ")")
  | .vectorBinop p l r =>
    let some name := vectorOperations.lookup p | throw .noSuchKey
    let operation ← Action.ofExcept (instruction (← typeOf l) name)
    let l ← visit l
    let r ← visit r
    return .text (operation ++ "(" ++ l.shown ++ ", " ++ r.shown ++ ")")
  | .vectorConstant value =>
    let type ← typeOf (.node id)
    if value == .int 0 then return .text (← Action.ofExcept (instruction type "setzero"))
    let load ← Action.ofExcept (instruction type "set")
    let c := value.display
    return .text (load ++ "(" ++ ", ".intercalate [c, c, c, c] ++ ")")
  | .raise .. | .positionInfo _ | .print _ | .iterate _ => throw .noRule

def emitWithin : Nat → Operand → Emitting Rendered
  | 0, _ => throw .tooDeep
  | depth + 1, o => do
    let .node id := o | throw .noRule
    emitNode (emitWithin depth) id

def emit (o : Operand) : Emitting Rendered := emitWithin depthLimit o

/-! ## Whole functions -/

def Emitter.start : Emitter :=
  let (desk, main) := ({} : Desk String).openCode
  { desk, main }

def Emitter.prototypes (e : Emitter) : String :=
  match (e.desk.writer e.main).proto with
  | some w => "".intercalate (e.desk.contents w)
  | none => ""

def Emitter.code (e : Emitter) : String := "".intercalate (e.desk.contents e.main)

end ArrayKernel.Emit
