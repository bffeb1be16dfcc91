import ArrayKernel.Ast.Equality

/-! # Traversals -/

namespace ArrayKernel.Ast

/-- What visiting a position gave: one result, or one for each item of a group. -/
inductive Visited (α : Type) where
  | one (a : α)
  | many (as : List α)

section Visits

variable {m : Type → Type} [Monad m] [MonadLiftT Action m] [MonadExceptOf Fault m]

/-- Visits what stands in the named position of a node. The visit is told the position and, in a group,
the place in it. An absent operand is not visited. -/
def visitPosition (visit : String → Option Nat → Operand → m α) (id : NodeId) (name : String) :
    m (Option (String × Visited α)) := do
  match (← node id).form.children.lookup name with
  | none => return none
  | some (.datum .null) => return none
  | some (.group items) =>
    let results ← items.zipIdx.mapM fun (o, i) => visit name (some i) o
    return some (name, .many results)
  | some o => return some (name, .one (← visit name none o))

def visitChildren (visit : String → Option Nat → Operand → m α) (id : NodeId) :
    m (List (String × Visited α)) := do
  let names := (← node id).form.children.map (·.1)
  names.filterMapM (visitPosition visit id)

def flattened (os : List Operand) : List Operand :=
  os.flatMap fun
    | .datum .null => []
    | .group items => items
    | o => [o]

/-- Replaces the children of a node by what visiting them gives. A single child cannot become a group. -/
def transformChildren (visit : Operand → m Operand) (id : NodeId) : m Unit := do
  let visitOne := fun (_ : String) (place : Option Nat) (o : Operand) => do
    let r ← visit o
    match place, r with
    | none, .group _ => throw Fault.undefinedName
    | _, _ => return r
  let results ← visitChildren visitOne id
  results.forM fun (name, result) => do
    let new := match result with
      | .one o => o
      | .many os => .group (flattened os)
    (updateForm id (·.setChild name new) : Action Unit)

/-- Runs a visit with the node's position as the builder's position, and marks what it gives. The
position is set back when the visit has ended well. -/
def atPosition (visit : NodeId → m Operand) (o : Operand) : m Operand := do
  let id ← identity o
  let previous ← position
  setPosition (← node id).position
  let r ← visit id
  setPosition previous
  if let .node r := r then
    (updateMarks r fun k => { k with isSpecialized := true } : Action Unit)
  return r

end Visits

/-! ## Failing -/

/-- Whether the code for an operand may fail. Loops are looked at without their bodies, which have
handlers of their own; once a failing node was found the client is not asked about others. -/
def mayFailWithin : Nat → Bool → Operand → Action Bool
  | 0, _, _ => throw .tooDeep
  | depth + 1, found, o => do
    let .node id := o | throw .noRule
    match (← node id).form with
    | .foreign text _ =>
      if found then return true
      match (← settings).failing with
      | none => throw (.notSupported "")
      | some texts => return texts.contains text
    | .loop l =>
      let found ← mayFailWithin depth found l.start
      let found ← mayFailWithin depth found l.condition
      mayFailWithin depth found l.step
    | form =>
      let operands := form.children.flatMap fun (_, o) =>
        match o with
        | .datum .null => []
        | .group items => items
        | o => [o]
      operands.foldlM (mayFailWithin depth) found

def mayFail (o : Operand) : Action Bool := do
  let _ ← identity o
  mayFailWithin depthLimit false o

end ArrayKernel.Ast
