import ArrayKernel.Ast.Form
import ArrayKernel.Layout.Scheme

/-!
# Sessions

A session holds the nodes of all kernels made in it, the settings of the client, the builders that count
temporaries, and the specializers that have run. An action on a session may fail; what it changed before
it failed stays changed.
-/

namespace ArrayKernel

inductive StringStyle where
  | refused
  | escaped
  | verbatim

structure Settings where
  debug : Bool := false
  debugElements : Bool := false
  plainBackend : Bool := false
  hoistBroadcasting : Bool := true
  shapeType : CType := .pointer CType.signedSize []
  stridesType : CType := .pointer CType.signedSize []
  dynamicArguments : Bool := false
  addressing : Bool := true
  blocksize : Option Datum := none
  tileAllDimensions : Bool := false
  failing : Option (List String) := none
  declaresForeign : Bool := false
  disposes : Bool := false
  resolvesForeign : Bool := false
  strengthReduction : Bool := true
  stringStyle : StringStyle := .refused
  emitsForeign : Bool := true

def Settings.declare (s : Settings) : CType.Declare :=
  if s.declaresForeign then some fun t => "wrapped<" ++ t ++ ">" else none

namespace Ast

structure Builder where
  position : Position := .unknown
  temporaries : Nat := 0
  deriving Inhabited

/-- A specializer at work, or after its work is done. -/
structure Specializer where
  scheme : Layout.Scheme
  name : String
  builder : Nat
  function : Option NodeId := none
  indices : Option (List Operand) := none
  tiledIndices : Option (List Operand) := none
  target : Option Operand := none
  innerLoop : Option Operand := none
  element : Option CType := none
  vectorizing : Bool := true
  pointers : Option (List (Operand × Operand)) := none

structure Session where
  nodes : Array Node := #[]
  settings : Settings := {}
  builders : Array Builder := #[{}]
  builder : Nat := 0
  functions : Nat := 0
  specializers : Array Specializer := #[]

abbrev Action := ExceptT Fault (StateM Session)

namespace Action

def runOn (a : Action α) (s : Session) : Except Fault α × Session := a.run.run s

def ofExcept : Except Fault α → Action α
  | .ok a => pure a
  | .error e => throw e

end Action

def settings : Action Settings := return (← get).settings

/-! ## Nodes -/

def node (id : NodeId) : Action Node := do
  match (← get).nodes[id.index]? with
  | some n => return n
  | none => throw .noSuchField

def updateNode (id : NodeId) (f : Node → Node) : Action Unit :=
  modify fun s => { s with nodes := s.nodes.modify id.index f }

def updateMarks (id : NodeId) (f : Marks → Marks) : Action Unit :=
  updateNode id fun n => { n with marks := f n.marks }

def updateForm (id : NodeId) (f : Form → Form) : Action Unit :=
  updateNode id fun n => { n with form := f n.form }

def addNode (n : Node) : Action NodeId := do
  let s ← get
  let id : NodeId := ⟨s.nodes.size⟩
  set { s with nodes := s.nodes.push n }
  return id

def identity : Operand → Action NodeId
  | .node id => return id
  | _ => throw .noSuchField

def nodeOf (o : Operand) : Action Node := do node (← identity o)

def formOf? (o : Operand) : Action (Option Form) := do
  match o with
  | .node id => return (← get).nodes[id.index]?.map (·.form)
  | _ => return none

/-- The type of the node an operand names; it may be absent, but nodes without a type have none. -/
def typeOf (o : Operand) : Action CType := do
  match (← nodeOf o).type with
  | some t => return t
  | none => throw .noSuchField

def known (t : CType) : Action CType :=
  if t.isAbsent then throw .noSuchField else return t

def knownType (o : Operand) : Action CType := do known (← typeOf o)

def baseOf (t : CType) : Action CType :=
  match t.base? with
  | some b => return b
  | none => throw .noSuchField

def dtypeOf (t : CType) : Action CType :=
  match t.dtype? with
  | some d => return d
  | none => throw .noSuchField

def ndimOf (t : CType) : Action Nat :=
  match t.ndim? with
  | some n => return n
  | none => throw .noSuchField

def nameOf (o : Operand) : Action Name := do
  match (← nodeOf o).form with
  | .var v => return v.name
  | .argument _ _ n _ => return n
  | .arrayArgument _ n _ _ _ _ => return n
  | .functionName n _ => return .datum n
  | .function f => return .datum f.name
  | .label n _ => return .datum n
  | _ => throw .noSuchField

def nameText (n : Name) : Action String :=
  match n with
  | .datum (.text s) => return s
  | _ => throw .wrongKind

def typeText (t : CType) : Action String := do
  Action.ofExcept (t.text (← settings).declare)

def shownName (n : Name) : Action String :=
  match n with
  | .datum d => return d.display
  | .type t => typeText t

/-! ## Builders and specializers -/

def position : Action Position := do
  let s ← get
  return (s.builders[s.builder]?.map (·.position)).getD .unknown

def setPosition (p : Position) : Action Unit :=
  modify fun s => { s with builders := s.builders.modify s.builder fun b => { b with position := p } }

def startBuilder : Action Nat := do
  let s ← get
  set { s with builders := s.builders.push {}, builder := s.builders.size }
  return s.builders.size

def withBuilder (builder : Nat) (a : Action α) : Action α := do
  let previous := (← get).builder
  modify fun s => { s with builder }
  try
    let r ← a
    modify fun s => { s with builder := previous }
    return r
  catch e =>
    modify fun s => { s with builder := previous }
    throw e

def specializer (i : Nat) : Action Specializer := do
  match (← get).specializers[i]? with
  | some sp => return sp
  | none => throw .noSuchField

def updateSpecializer (i : Nat) (f : Specializer → Specializer) : Action Unit :=
  modify fun s => { s with specializers := s.specializers.modify i f }

def required : Option α → Action α
  | some a => return a
  | none => throw .noSuchField

/-! ## Functions and loops -/

def functionOf (o : Operand) : Action Function := do
  match (← nodeOf o).form with
  | .function f => return f
  | _ => throw .noSuchField

def updateFunction (id : NodeId) (g : Function → Function) : Action Unit :=
  updateForm id fun
    | .function f => .function (g f)
    | other => other

def loopOf (o : Operand) : Action Loop := do
  match (← nodeOf o).form with
  | .loop l => return l
  | _ => throw .noSuchField

def updateLoop (id : NodeId) (g : Loop → Loop) : Action Unit :=
  updateForm id fun
    | .loop l => .loop (g l)
    | other => other

def leftOf (o : Operand) : Action Operand := do
  match (← nodeOf o).form with
  | .assign l _ _ | .binop _ l _ | .index l _ | .vectorStore _ l _ | .vectorBinop _ l _
  | .conditional _ l _ => return l
  | _ => throw .noSuchField

def rightOf (o : Operand) : Action Operand := do
  match (← nodeOf o).form with
  | .assign _ r _ | .binop _ _ r | .index _ r | .vectorStore _ _ r | .vectorBinop _ _ r
  | .conditional _ _ r => return r
  | _ => throw .noSuchField

def appendTo (list : Operand) (statement : Operand) : Action Unit := do
  let id ← identity list
  match (← node id).form with
  | .sequence (.group items) => updateForm id fun _ => .sequence (.group (items ++ [statement]))
  | _ => throw .noSuchField

end Ast

end ArrayKernel
