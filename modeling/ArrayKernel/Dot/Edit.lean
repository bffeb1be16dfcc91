import ArrayKernel.Datum.Basic
import ArrayKernel.Dot.Model

/-! # Making and changing drawings -/

namespace ArrayKernel.Dot

def Item.list? : Item → Option (List Item)
  | .datum (.list xs) | .datum (.tuple xs) => some (xs.map .datum)
  | .items xs => some xs
  | _ => none

abbrev Attributes := List (Datum × Item)

/-! ## New objects -/

def splitName (s : String) : String × Item :=
  let cs := s.toList
  let before := cs.takeWhile (· != ':')
  let after := cs.dropWhile (· != ':')
  if cs.head? != some '"' && !before.isEmpty && 1 < after.length then
    (String.ofList before, .text (String.ofList after))
  else (s, .null)

def nameText : Item → Item
  | .datum (.int n) => .text (toString n)
  | .datum (.bool b) => .text (if b then "True" else "False")
  | i => i

def newVertex (name : Item) (attributes : Attributes) : Edit HandleId := do
  let (name, port) := match name with
    | .datum (.text s) => let (s, port) := splitName s; (Item.text s, port)
    | other => (other, Item.null)
  let t ← addTable attributes
  let e ← addEntry { kind := .text "node", attributes := t, sequence := some .null,
                     shape := .vertex (nameText name).kept port }
  addHandle { role := .vertex, entry := e }

def edgeEnds (source target : Item) : Edit (Item × Item) := do
  match source.list?, target.isText "" with
  | some [a, b], true => return (a, b)
  | some _, true => throw (.badValue none)
  | _, _ => return (source, target)

def newEdge (source target : Item) (attributes : Attributes) : Edit HandleId := do
  let (source, target) ← edgeEnds source target
  let source ← nameOrSelf source
  let target ← nameOrSelf target
  let t ← addTable attributes
  let e ← addEntry { kind := .text "edge", attributes := t, sequence := some .null,
                     shape := .edge source.kept target.kept }
  addHandle { role := .edge, entry := e }

structure GraphOptions where
  kind : Item := .text "digraph"
  strict : Item := .bool false
  suppressDisconnected : Item := .bool false
  simplify : Item := .bool false

def kindMessage (kind : Item) : Option String := do
  return "Invalid type \"" ++ (← kind.display?)
    ++ "\". Accepted graph types are: graph, digraph, subgraph"

/-- A graph is its own parent until it is added to another one. The kind shown for a part of a graph is
always the same, and the name of a cluster starts with a fixed word. -/
def newGraph (role : Role) (name : Item) (o : GraphOptions) (attributes : Attributes) : Edit HandleId := do
  if !(o.kind.isText "graph" || o.kind.isText "digraph") then throw (.graphKind (kindMessage o.kind))
  let t ← addTable attributes
  let nodes ← addRoster []
  let edges ← addRoster []
  let subgraphs ← addRoster []
  let name ← match role, name with
    | .cluster, .datum (.text s) => pure (Item.text ("cluster_" ++ s))
    | .cluster, _ => throw .wrongKind
    | _, name => pure name.kept
  let kind := if role == .subgraph || role == .cluster then Item.text "subgraph" else o.kind
  let part : GraphPart := {
    name, nodes, edges, subgraphs
    strict := o.strict, suppressDisconnected := o.suppressDisconnected, simplify := o.simplify }
  let e ← addEntry { kind, attributes := t, shape := .graph part }
  let h ← addHandle { role, entry := e }
  updateEntry e fun n => { n with parent := .handle h }
  return h

def openAs (role : Role) (e : EntryId) : Edit HandleId := addHandle { role, entry := e }

/-! ## Parents -/

def parentOf (h : HandleId) : Edit Item := return (← entryOf h).parent

def setGraphParent (parent : Item) : Nat → EntryId → Edit Unit
  | 0, _ => throw .tooDeep
  | depth + 1, e => do
    updateEntry e fun n => { n with parent }
    let g ← graphOf e
    for (_, es) in ← roster g.nodes do
      for n in es do updateEntry n fun n => { n with parent }
    for (_, es) in ← roster g.edges do
      for n in es do updateEntry n fun n => { n with parent }
    for (_, es) in ← roster g.subgraphs do
      for s in es do setGraphParent parent depth s

def setParent (h : HandleId) (parent : Item) : Edit Unit := do
  let n ← handle h
  if n.role.isGraph then setGraphParent parent depthLimit n.entry
  else updateEntry n.entry fun n => { n with parent }

def topKindFrom : Nat → HandleId → Edit Item
  | 0, _ => throw .tooDeep
  | steps + 1, h => do
    match ← parentOf h with
    | .handle p => if p == h then return (← entryOf h).kind else topKindFrom steps p
    | _ => throw .noSuchField

def topKind (h : HandleId) : Edit Item := do
  if !(← roleOf h).isGraph then throw .noSuchField
  topKindFrom ((← get).handles.size + 1) h

/-! ## Members -/

def nextSequence (h : HandleId) : Edit Item := do
  let e := (← handle h).entry
  let g ← graphOf e
  match g.nextSequence with
  | .datum (.int n) =>
    updateGraph e fun g => { g with nextSequence := .int (n + 1) }
    return .int n
  | _ => throw .wrongKind

def setSequence (h : HandleId) (i : Item) : Edit Unit := do
  updateEntry (← handle h).entry fun n => { n with sequence := some i }

def enlist (graph : EntryId) (rosterId : Nat) (key : List Item) (e : EntryId) : Edit Unit := do
  let r ← roster rosterId
  let isFrozen := (← entry graph).frozen
  match ← members? r key with
  | some es =>
    if isFrozen then throw .noSuchField
    setRoster rosterId (← withMembers key (es ++ [e]) r)
  | none =>
    if isFrozen then throw .frozen
    setRoster rosterId (← withMembers key [e] r)

def wrongElement (said : String) (i : Item) : Fault := .wrongElement (i.display?.map (said ++ ·))

def addNode (h : HandleId) (i : Item) : Edit Unit := do
  let some n ← ofRole? (· == .vertex) i
    | throw (wrongElement "add_node() received a non node class object: " i)
  let graph := (← handle h).entry
  let g ← graphOf graph
  let e := (← handle n).entry
  let name ← fromExcept (← entry e).name?
  match ← members? (← roster g.nodes) [name] with
  | some (_ :: _) => enlist graph g.nodes [name] e
  | _ =>
    if (← entry graph).frozen then throw .frozen
    setRoster g.nodes (← withMembers [name] [e] (← roster g.nodes))
    setParent n (← parentOf h)
  setSequence n (← nextSequence h)

def addEdge (h : HandleId) (i : Item) : Edit Unit := do
  let some n ← ofRole? (· == .edge) i
    | throw (wrongElement "add_edge() received a non edge class object: " i)
  let graph := (← handle h).entry
  let g ← graphOf graph
  let e := (← handle n).entry
  let (a, b) ← fromExcept (← entry e).points?
  enlist graph g.edges [a, b] e
  setSequence n (← nextSequence h)
  setParent n (← parentOf h)

def addSubgraph (h : HandleId) (i : Item) : Edit Unit := do
  let some n ← ofRole? (fun r => r == .subgraph || r == .cluster) i
    | throw (wrongElement "add_subgraph() received a non subgraph class object:" i)
  let graph := (← handle h).entry
  let g ← graphOf graph
  let e := (← handle n).entry
  let name ← fromExcept (← entry e).name?
  enlist graph g.subgraphs [name] e
  setSequence n (← nextSequence h)
  setParent n (← parentOf h)

/-- The position that an index means in a list of some length, if it lies below that length; an index that
is not a number cannot be compared. -/
def indexBelow? (index : Item) (length : Nat) : Except Fault Bool :=
  match index with
  | .datum d =>
    match d.below? (.int length) with
    | some b => .ok b
    | none => .error .wrongKind
  | _ => .error .wrongKind

def removeAt (es : List EntryId) (index : Item) : Except Fault (List EntryId) :=
  let i : Option Int := match index with
    | .datum (.int n) => some n
    | .datum (.bool b) => some (if b then 1 else 0)
    | _ => none
  match i with
  | none => .error .wrongKind
  | some n =>
    match Position.index? es.length n with
    | some k => .ok (es.eraseIdx k)
    | none => .error .outOfRange

def remove (graph : EntryId) (rosterId : Nat) (key : List Item) (index : Item) : Edit Bool := do
  let r ← roster rosterId
  let isFrozen := (← entry graph).frozen
  match ← members? r key with
  | none => return false
  | some es =>
    let one ← if index.isNull then pure false else fromExcept (indexBelow? index es.length)
    if one then
      if isFrozen then throw .wrongKind
      setRoster rosterId (← withMembers key (← fromExcept (removeAt es index)) r)
    else
      if isFrozen then throw .frozen
      setRoster rosterId (← withoutKey key r)
    return true

def removeNode (h : HandleId) (name index : Item) : Edit Bool := do
  let graph := (← handle h).entry
  let name ← nameOrSelf name
  remove graph (← graphOf graph).nodes [name] index

def isInteger : Item → Bool
  | .datum (.int _) | .datum (.bool _) => true
  | _ => false

/-- Removes edges between two vertices. A pair may be given as one list, with an index after it. -/
def removeEdge (h : HandleId) (source target index : Item) : Edit Bool := do
  let graph := (← handle h).entry
  let (source, target, index) ← match source.list? with
    | some [a, b] => pure (a, b, if isInteger target then target else index)
    | some _ => throw (.badValue none)
    | none => pure (source, target, index)
  let source ← nameOrSelf source
  let target ← nameOrSelf target
  remove graph (← graphOf graph).edges [source, target] index

/-! ## Looking up -/

def openAll (role : Role) (es : List EntryId) : Edit (List Item) :=
  es.mapM fun e => return .handle (← openAs role e)

def nodesNamed (h : HandleId) (name : Item) : Edit (List Item) := do
  let g ← graphOf (← handle h).entry
  openAll .vertex ((← members? (← roster g.nodes) [name]).getD [])

def subgraphsNamed (h : HandleId) (name : Item) : Edit (List Item) := do
  let g ← graphOf (← handle h).entry
  openAll .subgraph ((← members? (← roster g.subgraphs) [name]).getD [])

def listed (r : Roster) : List EntryId := r.flatMap (·.2)

def allNodes (h : HandleId) : Edit (List Item) := do
  openAll .vertex (listed (← roster (← graphOf (← handle h).entry).nodes))

def allEdges (h : HandleId) : Edit (List Item) := do
  openAll .edge (listed (← roster (← graphOf (← handle h).entry).edges))

def allSubgraphs (h : HandleId) : Edit (List Item) := do
  openAll .subgraph (listed (← roster (← graphOf (← handle h).entry).subgraphs))

def endOrders (source target : Item) : Edit (List Item × List Item) := do
  match source.list?, target.isNull with
  | some (a :: b :: rest), true => return (a :: b :: rest, [b, a])
  | some _, true => throw .outOfRange
  | _, _ => return ([source, target], [target, source])

/-- The edges between two vertices; in an undirected graph also those the other way round. -/
def edgesBetween (h : HandleId) (source target : Item) : Edit (List Item) := do
  let (ends, reversed) ← endOrders source target
  let r ← roster (← graphOf (← handle h).entry).edges
  match ← members? r ends with
  | some es =>
    let _ ← members? r reversed
    openAll .edge es
  | none =>
    if (← topKind h).isText "graph" then openAll .edge ((← members? r reversed).getD [])
    else return []

/-! ## Attributes -/

def defaultsName (kind : Item) : Item :=
  if kind.isText "subgraph" || kind.isText "digraph" || kind.isText "cluster" then .text "graph" else kind

def attributeOrDefault (h : HandleId) (key : Datum) : Edit Item := do
  let e := (← handle h).entry
  let own ← attributeAt e key
  if !own.isNull then return own
  let n ← entry e
  match n.parent with
  | .handle p =>
    for d in ← nodesNamed p (defaultsName n.kind) do
      match d with
      | .handle v =>
        let value ← attributeAt (← handle v).entry key
        if value.truthy then return value
      | _ => pure ()
    return .null
  | i => if i.isNull then return .null else throw .noSuchField

def addStyle (h : HandleId) (style : Item) : Edit Unit := do
  let e := (← handle h).entry
  let styles ← attributeAt e (.text "style")
  let joined ←
    if !styles.truthy && style.truthy then
      match style with
      | .datum (.text s) => pure s
      | _ => throw .wrongKind
    else match styles, style with
      | .datum (.text s), .datum (.text t) => pure (s ++ "," ++ t)
      | .datum (.text _), _ => throw .wrongKind
      | _, _ => throw .noSuchField
  setAttribute e (.text "style") (.text joined)

def attributeTable (e : EntryId) : Edit Item := do
  return .table (← attributesOf e) (← entry e).frozen

/-! ## Copies -/

/-- Makes a handle name a copy of the entry of another one. The copy shares tables and members. -/
def copyState (source target : HandleId) : Edit Unit := do
  let n ← entryOf source
  if n.frozen then throw .frozen
  let e ← addEntry n
  updateHandle target fun h => { h with entry := e }

def frozenItem : Item → Item
  | .datum (.list xs) => .datum (.tuple xs)
  | i => i

def freezeWithin : Nat → EntryId → Edit EntryId
  | 0, _ => throw .tooDeep
  | depth + 1, e => do
    let n ← entry e
    if n.frozen then throw .frozen
    let attributes ← addTable ((← tableAt n.attributes).map fun (k, v) => (k, frozenItem v))
    let shape ← match n.shape with
      | .graph g => do
        let nodes ← freezeRoster depth g.nodes
        let edges ← freezeRoster depth g.edges
        let subgraphs ← freezeRoster depth g.subgraphs
        pure (Shape.graph { g with nodes, edges, subgraphs })
      | other => pure other
    addEntry { n with attributes, shape, frozen := true }
where
  freezeRoster (depth : Nat) (r : Nat) : Edit Nat := do
    addRoster (← (← roster r).mapM fun (k, es) => return (k, ← es.mapM (freezeWithin depth)))

def freeze (h : HandleId) : Edit Item := do
  return .snapshot (← freezeWithin depthLimit (← handle h).entry)

end ArrayKernel.Dot
