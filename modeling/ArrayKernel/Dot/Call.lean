import ArrayKernel.Dot.Programs
import ArrayKernel.Dot.Text
import ArrayKernel.Dot.Vocabulary

/-! # Calls by name -/

namespace ArrayKernel.Dot

abbrev Named := List (String × Item)

abbrev Parameter := String × Option Item

def required (name : String) : Parameter := (name, none)

def optional (name : String) (default : Item) : Parameter := (name, some default)

/-- The values of parameters: first arguments by position, then those by name, then defaults. -/
def bindAll : List Parameter → List Item → Named → Except Fault (List Item)
  | [], [], [] => .ok []
  | [], _, _ => .error .wrongKind
  | (name, _) :: rest, a :: args, named =>
    if (named.lookup name).isSome then .error .wrongKind
    else do return a :: (← bindAll rest args named)
  | (name, default) :: rest, [], named =>
    match named.lookup name, default with
    | some a, _ => do return a :: (← bindAll rest [] (named.filter fun (n, _) => n != name))
    | none, some a => do return a :: (← bindAll rest [] named)
    | none, none => .error .wrongKind

def bindSome (parameters : List Parameter) (args : List Item) (named : Named) :
    Except Fault (List Item × Named) := do
  let own := parameters.map (·.1)
  let values ← bindAll parameters args (named.filter fun (n, _) => own.contains n)
  return (values, named.filter fun (n, _) => !own.contains n)

def attributesFrom (named : Named) : Attributes := named.map fun (n, i) => (.text n, i)

/-! ## New objects -/

def openSnapshot (role : Role) : Item → Edit HandleId
  | .snapshot e => openAs role e
  | _ => throw .noSuchKey

def graphParameters : List Parameter :=
  [optional "graph_name" (.text "G"), optional "obj_dict" .null,
   optional "graph_type" (.text "digraph"), optional "strict" (.bool false),
   optional "suppress_disconnected" (.bool false), optional "simplify" (.bool false)]

def partParameters (name : String) : List Parameter :=
  [optional "graph_name" (.text name), optional "obj_dict" .null,
   optional "suppress_disconnected" (.bool false), optional "simplify" (.bool false)]

def roleOfWord? : String → Option Role
  | "Node" => some .vertex
  | "Edge" => some .edge
  | "Graph" => some .graph
  | "Subgraph" => some .subgraph
  | "Cluster" => some .cluster
  | "Dot" => some .sheet
  | _ => none

def makePart (role : Role) (args : List Item) (named : Named) : Edit HandleId := do
  let word := if role == .cluster then "subG" else ""
  let (values, rest) ← fromExcept (bindSome (partParameters word) args named)
  match values with
  | [name, given, suppressDisconnected, simplify] =>
    if !given.isNull then openSnapshot role given
    else
      let options : GraphOptions := {
        kind := (rest.lookup "graph_type").getD (.text "digraph")
        strict := (rest.lookup "strict").getD (.bool false), suppressDisconnected, simplify }
      let attributes := rest.filter fun (n, _) => n != "graph_type" && n != "strict"
      newGraph role name options (attributesFrom attributes)
  | _ => throw .wrongKind

def make (word : String) (args : List Item) (named : Named) : Edit HandleId := do
  match roleOfWord? word with
  | none => throw .noSuchField
  | some .vertex =>
    let parameters := [optional "name" (.text ""), optional "obj_dict" .null]
    match ← fromExcept (bindSome parameters args named) with
    | ([name, given], rest) =>
      if given.isNull then newVertex name (attributesFrom rest) else openSnapshot .vertex given
    | _ => throw .wrongKind
  | some .edge =>
    let parameters := [optional "src" (.text ""), optional "dst" (.text ""), optional "obj_dict" .null]
    match ← fromExcept (bindSome parameters args named) with
    | ([source, target, given], rest) =>
      if given.isNull then newEdge source target (attributesFrom rest)
      else
        let _ ← edgeEnds source target
        openSnapshot .edge given
    | _ => throw .wrongKind
  | some .subgraph => makePart .subgraph args named
  | some .cluster => makePart .cluster args named
  | some role =>
    match ← fromExcept (bindSome graphParameters args named) with
    | ([name, given, kind, strict, suppressDisconnected, simplify], rest) =>
      if given.isNull then
        newGraph role name { kind, strict, suppressDisconnected, simplify } (attributesFrom rest)
      else openSnapshot role given
    | _ => throw .wrongKind

/-! ## Methods -/

def words : Role → List String
  | .vertex => vertexWords
  | .edge => edgeWords
  | .cluster => graphWords ++ clusterWords
  | _ => graphWords

def after? (start s : String) : Option String :=
  if s.startsWith start then some (String.ofList (s.toList.drop start.length)) else none

def attributeWord? (role : Role) (start method : String) : Option String := do
  let word ← after? start method
  if (words role).contains word then some word else none

def formatWord? (start method : String) (more : List String) : Option String := do
  let word ← after? start method
  if (formats ++ more).contains word then some word else none

def keyOr (i : Item) : Edit Datum :=
  match i with
  | .datum d => return d
  | _ => throw .wrongKind

/-- A method of a handle: its parameters, and what it does with their values. -/
structure Method where
  parameters : List Parameter
  run : List Item → Edit Item

def noArguments (run : Edit Item) : Method := { parameters := [], run := fun _ => run }

def oneArgument (name : String) (run : Item → Edit Item) : Method :=
  { parameters := [required name]
    run := fun
      | [a] => run a
      | _ => throw .wrongKind }

def twoArguments (a b : Parameter) (run : Item → Item → Edit Item) : Method :=
  { parameters := [a, b]
    run := fun
      | [x, y] => run x y
      | _ => throw .wrongKind }

def done (act : Edit Unit) : Edit Item := do
  act
  return .null

def listItem (act : Edit (List Item)) : Edit Item := return .items (← act)

def graphField (h : HandleId) (f : GraphPart → Item) : Edit Item := do
  return f (← graphOf (← handle h).entry)

def setGraphField (h : HandleId) (f : GraphPart → GraphPart) : Edit Item := done do
  updateGraph (← handle h).entry f

def setKind (h : HandleId) (kind : Item) : Edit Item := done do
  updateEntry (← handle h).entry fun n => { n with kind }

def setName (h : HandleId) (name : Item) : Edit Item := done do
  let e := (← handle h).entry
  updateEntry e fun n => { n with shape := match n.shape with
    | .vertex _ port => .vertex name port
    | .graph g => .graph { g with name }
    | other => other }

def defaultsOf (h : HandleId) (name : String) : Edit Item := do
  let nodes ← nodesNamed h (.text name)
  listItem (nodes.mapM fun
    | .handle v => do attributeTable (← handle v).entry
    | other => pure other)

def commonMethod? (h : HandleId) : String → Option Method
  | "set_parent_graph" => some (oneArgument "parent_graph" fun p => done (setParent h p))
  | "get_parent_graph" => some (noArguments (parentOf h))
  | "set" => some (twoArguments (required "name") (required "value") fun n v => done do
      setAttribute (← handle h).entry (← keyOr n) v)
  | "get" => some (oneArgument "name" fun n => do attributeAt (← handle h).entry (← keyOr n))
  | "get_attributes" => some (noArguments do attributeTable (← handle h).entry)
  | "set_sequence" => some (oneArgument "seq" fun i => done (setSequence h i))
  | "get_sequence" => some (noArguments do ofOption .noSuchKey (← entryOf h).sequence)
  | "to_string" => some (noArguments do return .text (← text h))
  | _ => none

def vertexMethod? (h : HandleId) : String → Option Method
  | "set_name" => some (oneArgument "node_name" (setName h))
  | "get_name" => some (noArguments do fromExcept (← entryOf h).name?)
  | "get_port" => some (noArguments do
      match (← entryOf h).shape with
      | .vertex _ port => return port
      | _ => throw .noSuchKey)
  | "add_style" => some (oneArgument "style" fun s => done (addStyle h s))
  | _ => none

def edgeMethod? (h : HandleId) : String → Option Method
  | "get_source" => some (noArguments do return (← fromExcept (← entryOf h).points?).1)
  | "get_destination" => some (noArguments do return (← fromExcept (← entryOf h).points?).2)
  | "parse_node_ref" => some (oneArgument "node_str" fun i => return endItem i)
  | _ => none

def graphMethod? (h : HandleId) : String → Option Method
  | "get_graph_type" | "get_type" => some (noArguments do return (← entryOf h).kind)
  | "get_top_graph_type" => some (noArguments (topKind h))
  | "set_simplify" => some (oneArgument "simplify" fun i => setGraphField h fun g => { g with simplify := i })
  | "get_simplify" => some (noArguments (graphField h (·.simplify)))
  | "set_type" => some (oneArgument "graph_type" (setKind h))
  | "set_name" => some (oneArgument "graph_name" (setName h))
  | "get_name" => some (noArguments (graphField h (·.name)))
  | "set_strict" => some (oneArgument "val" fun i => setGraphField h fun g => { g with strict := i })
  | "get_strict" => some (oneArgument "val" fun _ => graphField h (·.strict))
  | "set_suppress_disconnected" =>
    some (oneArgument "val" fun i => setGraphField h fun g => { g with suppressDisconnected := i })
  | "get_suppress_disconnected" => some (oneArgument "val" fun _ => graphField h (·.suppressDisconnected))
  | "get_next_sequence_number" => some (noArguments (nextSequence h))
  | "add_node" => some (oneArgument "graph_node" fun i => done (addNode h i))
  | "del_node" => some (twoArguments (required "name") (optional "index" .null) fun n i => do
      return .bool (← removeNode h n i))
  | "get_node" => some (oneArgument "name" fun n => listItem (nodesNamed h n))
  | "get_nodes" | "get_node_list" => some (noArguments (listItem (allNodes h)))
  | "add_edge" => some (oneArgument "graph_edge" fun i => done (addEdge h i))
  | "del_edge" => some
      { parameters := [required "src_or_list", optional "dst" .null, optional "index" .null]
        run := fun
          | [s, t, i] => do return .bool (← removeEdge h s t i)
          | _ => throw .wrongKind }
  | "get_edge" => some (twoArguments (required "src_or_list") (optional "dst" .null) fun s t =>
      listItem (edgesBetween h s t))
  | "get_edges" | "get_edge_list" => some (noArguments (listItem (allEdges h)))
  | "add_subgraph" => some (oneArgument "sgraph" fun i => done (addSubgraph h i))
  | "get_subgraph" => some (oneArgument "name" fun n => listItem (subgraphsNamed h n))
  | "get_subgraphs" | "get_subgraph_list" => some (noArguments (listItem (allSubgraphs h)))
  | _ => none

def sheetMethod? (h : HandleId) (method : String) : Option Method :=
  match method with
  | "set_shape_files" => some (oneArgument "file_paths" fun i => done do
      let _ ← addShapeFiles h i)
  | "set_prog" => some (oneArgument "prog" fun i => done (updateHandle h fun n => { n with program := i }))
  | "set_graphviz_executables" => some (oneArgument "paths" fun i => done (updateHandle h fun n =>
      { n with programs := match i with
        | .datum .null => none
        | .datum d => some (.paths d)
        | _ => none }))
  | "create" => some (twoArguments (optional "prog" .null) (optional "format" (.text "ps")) fun p _ =>
      create h p)
  | "write" => some
      { parameters := [required "path", optional "prog" .null, optional "format" (.text "raw")]
        run := fun _ => throw .undefinedName }
  | _ =>
    match formatWord? "create_" method [], formatWord? "write_" method ["raw"] with
    | some f, _ => some (twoArguments (optional "f" (.text f)) (optional "prog" (.text "dot")) fun _ p =>
        create h p)
    | none, some f => some
        { parameters := [required "path", optional "f" (.text f), optional "prog" (.text "dot")]
          run := fun _ => throw .undefinedName }
    | none, none => none

def attributeMethod? (h : HandleId) (role : Role) (method : String) : Option Method :=
  match attributeWord? role "set_" method, attributeWord? role "get_" method with
  | some w, _ => some (twoArguments (required "x") (optional "a" (.text w)) fun x a => done do
      setAttribute (← handle h).entry (← keyOr a) x)
  | none, some w => some
      { parameters := [optional "a" (.text w)]
        run := fun
          | [a] => do attributeOrDefault h (← keyOr a)
          | _ => throw .wrongKind }
  | none, none => none

def defaultsMethod? (h : HandleId) (method : String) : Option (Named → Edit Item) :=
  let set (name : String) (named : Named) : Edit Item := done do
    let v ← newVertex (.text name) (attributesFrom named)
    addNode h (.handle v)
  match method with
  | "set_graph_defaults" => some (set "graph")
  | "set_node_defaults" => some (set "node")
  | "set_edge_defaults" => some (set "edge")
  | "get_graph_defaults" => some fun _ => defaultsOf h "graph"
  | "get_node_defaults" => some fun _ => defaultsOf h "node"
  | "get_edge_defaults" => some fun _ => defaultsOf h "edge"
  | _ => none

def roleMethod? (h : HandleId) (role : Role) (method : String) : Option Method :=
  match role with
  | .vertex => vertexMethod? h method
  | .edge => edgeMethod? h method
  | .sheet => (graphMethod? h method).or (sheetMethod? h method)
  | _ => graphMethod? h method

def call (h : HandleId) (method : String) (args : List Item) (named : Named) : Edit Item := do
  let role ← roleOf h
  match attributeMethod? h role method, roleMethod? h role method, commonMethod? h method with
  | some m, _, _ | none, some m, _ | none, none, some m =>
    m.run (← fromExcept (bindAll m.parameters args named))
  | none, none, none =>
    match if role.isGraph then defaultsMethod? h method else none with
    | some run => if args.isEmpty then run named else throw .wrongKind
    | none => throw .noSuchField

/-! ## Other questions -/

def compareItems (a b : Item) : Edit Bool := do
  match ← ofRole? (· == .edge) a, ← ofRole? (· == .edge) b with
  | some x, some y => sameEdge (← handle x).entry (← handle y).entry
  | some _, none | none, some _ => throw (.graphKind (some "Can't compare and edge to a non-edge object."))
  | none, none => same a b

def setField (h : HandleId) (key : String) (value : Item) : Edit Unit := do
  let e := (← handle h).entry
  let inGraph (f : GraphPart → GraphPart) (n : Entry) : Entry := { n with shape := match n.shape with
    | .graph g => .graph (f g)
    | other => other }
  match key with
  | "name" =>
    let _ ← setName h value
  | "type" => updateEntry e fun n => { n with kind := value }
  | "parent_graph" => updateEntry e fun n => { n with parent := value }
  | "sequence" => updateEntry e fun n => { n with sequence := some value }
  | "port" => updateEntry e fun n => { n with shape := match n.shape with
      | .vertex name _ => .vertex name value
      | other => other }
  | "points" => updateEntry e fun n => { n with shape := match n.shape, value.list? with
      | .edge _ _, some [a, b] => .edge a b
      | other, _ => other }
  | "strict" => updateEntry e (inGraph fun g => { g with strict := value })
  | "suppress_disconnected" => updateEntry e (inGraph fun g => { g with suppressDisconnected := value })
  | "simplify" => updateEntry e (inGraph fun g => { g with simplify := value })
  | "current_child_sequence" => updateEntry e (inGraph fun g => { g with nextSequence := value })
  | "show_keyword" => updateEntry e (inGraph fun g => { g with showKeyword := value })
  | _ => updateEntry e id

end ArrayKernel.Dot
