import ArrayKernel.Ast.Session

/-! # Copies of kernels -/

namespace ArrayKernel.Ast

mutual

def Operand.rename (f : NodeId → NodeId) : Operand → Operand
  | .node id => .node (f id)
  | .datum d => .datum d
  | .group items => .group (Operand.renameAll f items)

def Operand.renameAll (f : NodeId → NodeId) : List Operand → List Operand
  | [] => []
  | o :: os => o.rename f :: Operand.renameAll f os

end

mutual

def Operand.ids : Operand → List NodeId
  | .node id => [id]
  | .datum _ => []
  | .group items => Operand.idsAll items

def Operand.idsAll : List Operand → List NodeId
  | [] => []
  | o :: os => o.ids ++ Operand.idsAll os

end

section Traverse

variable {m : Type → Type} [Monad m] (f : Operand → m Operand)

def traverseOption : Option Operand → m (Option Operand)
  | some o => return some (← f o)
  | none => return none

def traverseLists : Option (List Operand) → m (Option (List Operand))
  | some os => return some (← os.mapM f)
  | none => return none

def traversePairs {α : Type} (ps : List (α × Operand)) : m (List (α × Operand)) :=
  ps.mapM fun (a, o) => return (a, ← f o)

def traverseLimits : Option (List (Nat × Operand)) → m (Option (List (Nat × Operand)))
  | some ps => return some (← traversePairs f ps)
  | none => return none

def VariableRole.traverse : VariableRole → m VariableRole
  | .element o => return .element (← f o)
  | .dataPointer o => return .dataPointer (← f o)
  | .stridePointer o => return .stridePointer (← f o)
  | .register o => return .register (← f o)
  | role => return role

def Variable.traverse (v : Variable) : m Variable :=
  return { v with
    role := ← v.role.traverse f
    dataPointer := ← traverseOption f v.dataPointer
    stridesPointer := ← traverseOption f v.stridesPointer }

def Loop.traverse (l : Loop) : m Loop :=
  return { l with
    start := ← f l.start
    condition := ← f l.condition
    step := ← f l.step
    body := ← f l.body
    index := ← f l.index
    target := ← traverseOption f l.target
    blocksize := ← traverseOption f l.blocksize }

def Handler.traverse (h : Handler) : m Handler :=
  return { h with
    body := ← f h.body
    errorLabel := ← f h.errorLabel
    cleanupLabel := ← f h.cleanupLabel
    errorVariable := ← traverseOption f h.errorVariable
    errorStart := ← f h.errorStart
    cleanupJump := ← f h.cleanupJump
    errorTarget := ← f h.errorTarget
    errorSet := ← f h.errorSet
    cleanupTarget := ← f h.cleanupTarget
    cascade := ← f h.cascade }

def Function.traverse (g : Function) : m Function :=
  return { g with
    body := ← f g.body
    arguments := ← f g.arguments
    scalarArguments := ← f g.scalarArguments
    arrays := ← g.arrays.mapM f
    byName := ← traversePairs f g.byName
    shape := ← f g.shape
    posinfo := ← f g.posinfo
    errorValue := ← f g.errorValue
    successValue := ← f g.successValue
    ompSize := ← f g.ompSize
    totalShape := ← traverseOption f g.totalShape
    loops := ← traverseLists f g.loops
    outerLoops := ← traverseLists f g.outerLoops
    controllingLoops := ← traverseLists f g.controllingLoops
    tilingLoops := ← traverseLists f g.tilingLoops
    lowerLimits := ← traverseLimits f g.lowerLimits
    upperLimits := ← traverseLimits f g.upperLimits
    dataPointers := ← traverseOption f g.dataPointers
    stridesPointers := ← traverseOption f g.stridesPointers }

def Form.traverse : Form → m Form
  | .function g => return .function (← g.traverse f)
  | .call c a i => return .call (← f c) (← f a) i
  | .functionName n e => return .functionName n e
  | .yield o => return .yield (← f o)
  | .raise p e s a => return .raise (← f p) (← f e) (← f s) (← f a)
  | .positionInfo vs => return .positionInfo (← f vs)
  | .argument o vs n u => return .argument (← f o) (← f vs) n u
  | .arrayArgument o n d s vs u => return .arrayArgument (← f o) n (← f d) (← f s) (← vs.mapM f) u
  | .print a => return .print (← f a)
  | .iterate b => return .iterate (← f b)
  | .loop l => return .loop (← l.traverse f)
  | .branch b =>
    return .branch { b with
      condition := ← f b.condition
      body := ← f b.body
      otherwise := ← f b.otherwise }
  | .sequence s => return .sequence (← f s)
  | .statement e => return .statement (← f e)
  | .prepared s e => return .prepared (← f s) (← f e)
  | .foreign t o => return .foreign t o
  | .assign l r k => return .assign (← f l) (← f r) k
  | .binop p l r => return .binop p (← f l) (← f r)
  | .index p i => return .index (← f p) (← f i)
  | .vectorStore p l r => return .vectorStore p (← f l) (← f r)
  | .vectorBinop p l r => return .vectorBinop p (← f l) (← f r)
  | .promotion o => return .promotion (← f o)
  | .unop p o => return .unop p (← f o)
  | .cast o => return .cast (← f o)
  | .dereference o => return .dereference (← f o)
  | .vectorLoad o n => return .vectorLoad (← f o) n
  | .conditional c l r => return .conditional (← f c) (← f l) (← f r)
  | .constant v => return .constant v
  | .sizeof t => return .sizeof t
  | .var v => return .var (← v.traverse f)
  | .parallelLoop l c ls ps => return .parallelLoop (← f l) (← f c) (← f ls) (← f ps)
  | .parallelChoice a b => return .parallelChoice (← f a) (← f b)
  | .pragmaLoop l => return .pragmaLoop (← f l)
  | .handler h => return .handler (← h.traverse f)
  | .jump l => return .jump (← f l)
  | .jumpTarget l => return .jumpTarget (← f l)
  | .label n e => return .label n e
  | .noop => return .noop
  | .vectorConstant v => return .vectorConstant v

def Marks.traverse (k : Marks) : m Marks :=
  return { k with
    prepending := ← traverseOption f k.prepending
    appending := ← traverseOption f k.appending
    others := ← traversePairs f k.others }

def Node.traverse (n : Node) : m Node :=
  return { n with form := ← n.form.traverse f, marks := ← n.marks.traverse f }

end Traverse

def Node.references (n : Node) : List NodeId :=
  ((n.traverse fun o => do modify (· ++ o.ids); return o : StateM (List NodeId) Node).run []).2

def Node.rename (f : NodeId → NodeId) (n : Node) : Node :=
  Id.run (n.traverse fun o => return o.rename f)

structure Found where
  ids : Array NodeId
  seen : Array Bool

def Found.add (g : Found) (id : NodeId) : Found :=
  match g.seen[id.index]? with
  | some false => { ids := g.ids.push id, seen := g.seen.set! id.index true }
  | _ => g

/-- Adds, round by round, the nodes referred to by those of the last round. Each round but the last finds
a new node, so there are no more rounds than nodes. -/
def Found.close (nodes : Array Node) : Nat → Nat → Found → Found
  | 0, _, g => g
  | rounds + 1, start, g =>
    let refs := (g.ids.extract start g.ids.size).toList.flatMap fun id =>
      match nodes[id.index]? with
      | some n => n.references
      | none => []
    let next := refs.foldl Found.add g
    if next.ids.size == g.ids.size then g else close nodes rounds g.ids.size next

def reachable (nodes : Array Node) (o : Operand) : Array NodeId :=
  let start : Found := { ids := #[], seen := Array.replicate nodes.size false }
  (Found.close nodes nodes.size 0 (o.ids.foldl Found.add start)).ids

def clone (o : Operand) : Action Operand := do
  let s ← get
  let ids := reachable s.nodes o
  let size := s.nodes.size
  let places := ids.zipIdx.foldl (fun places (id, i) => places.set! id.index (size + i))
    (Array.range size)
  let rename := fun (id : NodeId) => (⟨places.getD id.index id.index⟩ : NodeId)
  let copies := ids.filterMap fun id => (s.nodes[id.index]?).map (·.rename rename)
  set { s with nodes := s.nodes ++ copies }
  return o.rename rename

end ArrayKernel.Ast
