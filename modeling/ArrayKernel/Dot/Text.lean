import ArrayKernel.Dot.Edit

/-! # Text of drawings -/

namespace ArrayKernel.Dot

def valueText (i : Item) : Edit String := do
  match i.kept with
  | .datum d => return d.display
  | _ => throw .wrongKind

def attributeTexts (attributes : Attributes) : Edit (List String) :=
  attributes.mapM fun (k, v) => do
    if v.isNull then return k.display
    return k.display ++ "=" ++ (← valueText v)

def defaultNames : List String := ["graph", "node", "edge"]

def vertexText (name : Item) (attributes : Attributes) : Edit String := do
  let name := name.kept
  let texts ← attributeTexts attributes
  if texts.isEmpty && defaultNames.any name.isText then return ""
  let list := ", ".intercalate texts
  match name with
  | .datum (.text s) => return (if list.isEmpty then s else s ++ " [" ++ list ++ "]") ++ ";"
  | _ => throw .wrongKind

def splitLast? (c : Char) (cs : List Char) : Option (List Char × List Char) :=
  if cs.contains c then
    let after := cs.reverse.takeWhile (· != c)
    some ((cs.reverse.drop (after.length + 1)).reverse, after.reverse)
  else none

def endText (s : String) : String :=
  let cs := s.toList
  if cs.head? == some '"' && cs.getLast? == some '"' then s
  else match splitLast? ':' cs with
    | some (before, after) =>
      if before.isEmpty || (cs.head? == some '"' && before.getLast? == some '"') then s
      else quoteIfNeeded (String.ofList before) ++ ":" ++ quoteIfNeeded (String.ofList after)
    | none => s

def endItem : Item → Item
  | .datum (.text s) => .text (endText s)
  | i => i

def isDirected (parent : Item) : Edit Bool := do
  match parent with
  | .handle p => return (← topKind p).isText "digraph"
  | i => if i.truthy then throw .noSuchField else return false

/-! ## Equality of edges -/

def sameEdge (a b : EntryId) : Edit Bool := do
  let x ← entry a
  let p ← match x.parent with
    | .handle p => pure p
    | _ => throw .noSuchField
  let (s, t) ← fromExcept x.points?
  let (s', t') ← fromExcept (← entry b).points?
  let undirected := (← topKind p).isText "graph"
  let straight ← (do if ← same s s' then same t t' else return false)
  if straight then return true
  if undirected then (do if ← same s' t then same t' s else return false)
  else return false

def sameEnds (a b : EntryId) : Edit Bool := do
  let (s, t) ← fromExcept (← entry a).points?
  let (s', t') ← fromExcept (← entry b).points?
  let straight ← (do if ← same s s' then same t t' else return false)
  if straight then return true
  if ← same s t' then same t s' else return false

def isAmongEdges (e : EntryId) (done : List EntryId) : Edit Bool :=
  done.anyM fun d => do
    if d == e then return true
    if ← sameEnds d e then sameEdge d e else return false

/-! ## Order of members -/

/-- Whether one member goes before another by sequence number. Members with equal numbers must be equal,
for there is no order between entries. -/
def memberBefore (a b : EntryId × Item) : Edit Bool := do
  if ← same a.2 b.2 then
    if ← sameEntry (4 * depthLimit) a.1 b.1 then return false
    throw .wrongKind
  match a.2, b.2 with
  | .datum x, .datum y => ofOption .wrongKind (x.below? y)
  | _, _ => throw .wrongKind

def insertMember (a : EntryId × Item) : List (EntryId × Item) → Edit (List (EntryId × Item))
  | [] => return [a]
  | b :: rest => do
    if ← memberBefore a b then return a :: b :: rest
    return b :: (← insertMember a rest)

def sortMembers (es : List EntryId) : Edit (List EntryId) := do
  let keyed ← es.mapM fun e => do return (e, ← ofOption .noSuchKey (← entry e).sequence)
  let sorted ← keyed.foldlM (fun sorted a => insertMember a sorted) []
  return sorted.map (·.1)

/-! ## Graphs -/

def containsItem (i : Item) (xs : List Item) : Edit Bool := xs.anyM fun x => same x i

def graphHeader (handle : Option HandleId) (e : Entry) (g : GraphPart) : Edit String := do
  let isTop := match handle, e.parent with
    | some h, .handle p => h == p
    | _, _ => false
  let strict := if isTop && g.strict.truthy then "strict " else ""
  if g.name.isText "" then
    return strict ++ (if g.showKeyword.truthy then "subgraph \x7b\n" else "\x7b\n")
  let kind ← ofOption .wrongKind e.kind.display?
  let name ← ofOption .wrongKind g.name.display?
  return strict ++ kind ++ " " ++ name ++ " \x7b\n"

def graphAttributes (attributes : Attributes) : Edit String := do
  let texts ← (attributes.filter fun (_, v) => !v.isNull).mapM fun (k, v) => do
    return k.display ++ "=" ++ (← valueText v) ++ ";\n"
  return String.join texts

mutual

def writeEnd (depth : Nat) (i : Item) : Edit (Option String) :=
  match depth with
  | 0 => throw .tooDeep
  | depth + 1 =>
    match endItem i with
    | .snapshot e => do return some (← writeGraph depth none e)
    | .datum (.int n) => return some (toString n)
    | .datum (.bool b) => return some (if b then "True" else "False")
    | .datum (.text s) => return some s
    | _ => return none

def writeEdge (depth : Nat) (e : EntryId) : Edit String :=
  match depth with
  | 0 => throw .tooDeep
  | depth + 1 => do
    let n ← entry e
    let (source, target) ← fromExcept n.points?
    let source ← writeEnd depth source
    let arrow := if ← isDirected n.parent then "->" else "--"
    let target ← writeEnd depth target
    let list := ", ".intercalate (← attributeTexts (← tableAt n.attributes))
    let ending := if list.isEmpty then [] else [" [" ++ list ++ "]"]
    match source, target with
    | some a, some b => return " ".intercalate ([a, arrow, b] ++ ending) ++ ";"
    | _, _ => throw .wrongKind

def writeGraph (depth : Nat) (handle : Option HandleId) (e : EntryId) : Edit String :=
  match depth with
  | 0 => throw .tooDeep
  | depth + 1 => do
    let n ← entry e
    let attributes ← tableAt n.attributes
    let g ← fromExcept n.graph?
    let head := (← graphHeader handle n g) ++ (← graphAttributes attributes)
    let edges := listed (← roster g.edges)
    let nodes := listed (← roster g.nodes)
    let subgraphs := listed (← roster g.subgraphs)
    let ends ← edges.mapM fun x => do fromExcept (← entry x).points?
    let ends := ends.flatMap fun (a, b) => [a, b]
    let members ← sortMembers (edges ++ nodes ++ subgraphs)
    let (body, _) ← members.foldlM (fun (body, done) e => do
      let (text, done) ← writeMember depth g ends done e
      return (body ++ text, done)) ("", [])
    return head ++ body ++ "\x7d\n"

/-- A member of a graph in text, given the ends of all edges and the edges written so far, and the edges
written with it. -/
def writeMember (depth : Nat) (g : GraphPart) (ends : List Item) (done : List EntryId) (e : EntryId) :
    Edit (String × List EntryId) :=
  match depth with
  | 0 => throw .tooDeep
  | depth + 1 => do
    let n ← entry e
    if n.kind.isText "node" then
      let name ← fromExcept n.name?
      if g.suppressDisconnected.truthy then
        if !(← containsItem name ends) then return ("", done)
      return ((← vertexText name (← tableAt n.attributes)) ++ "\n", done)
    else if n.kind.isText "edge" then
      if g.simplify.truthy then
        if ← isAmongEdges e done then return ("", done)
      let text ← writeEdge depth e
      let known ← isAmongEdges e done
      return (text ++ "\n", if known then done else done ++ [e])
    else return ((← writeGraph depth none e) ++ "\n", done)

end

def text (h : HandleId) : Edit String := do
  let n ← handle h
  match n.role with
  | .vertex =>
    let e ← entry n.entry
    vertexText (← fromExcept e.name?) (← tableAt e.attributes)
  | .edge => writeEdge depthLimit n.entry
  | _ => writeGraph depthLimit (some h) n.entry

end ArrayKernel.Dot
