import ArrayKernel.CType.Text
import ArrayKernel.Dot.Identifier

/-!
# Drawings

A drawing holds entries for vertices, edges and graphs. Entries are reached through handles: several handles
may name one entry, and an entry may be listed in several graphs.
-/

namespace ArrayKernel.Dot

abbrev EntryId := Nat

abbrev HandleId := Nat

inductive Item where
  | datum (d : Datum)
  | handle (h : HandleId)
  | snapshot (e : EntryId)
  | items (xs : List Item)
  | table (fields : List (Datum × Item)) (frozen : Bool)
  deriving Inhabited

namespace Item

def null : Item := .datum .null

def text (s : String) : Item := .datum (.text s)

def bool (b : Bool) : Item := .datum (.bool b)

def int (n : Int) : Item := .datum (.int n)

def isNull : Item → Bool
  | .datum .null => true
  | _ => false

def isText (s : String) : Item → Bool
  | .datum d => d == .text s
  | _ => false

def truthy : Item → Bool
  | .datum d => d.truthy
  | .items xs => !xs.isEmpty
  | .table fields _ => !fields.isEmpty
  | _ => true

def kept : Item → Item
  | .datum d => .datum (Dot.kept d)
  | i => i

def display? : Item → Option String
  | .datum d => some d.display
  | _ => none

end Item

abbrev Roster := List (List Item × List EntryId)

structure GraphPart where
  name : Item
  strict : Item
  suppressDisconnected : Item
  simplify : Item
  nextSequence : Item := .int 1
  nodes : Nat
  edges : Nat
  subgraphs : Nat
  showKeyword : Item := .bool false

inductive Shape where
  | vertex (name port : Item)
  | edge (source target : Item)
  | graph (g : GraphPart)

structure Entry where
  kind : Item
  attributes : Nat
  parent : Item := .null
  sequence : Option Item := none
  shape : Shape
  frozen : Bool := false

inductive Role where
  | vertex
  | edge
  | graph
  | subgraph
  | cluster
  | sheet
  deriving Repr, DecidableEq

def Role.isGraph : Role → Bool
  | .vertex | .edge => false
  | _ => true

inductive Programs where
  | paths (d : Datum)
  | ready (name : String)

structure Handle where
  role : Role
  entry : EntryId
  shapeFiles : List Item := []
  programs : Option Programs := none
  program : Item := .text "dot"

structure Drawing where
  entries : Array Entry := #[]
  handles : Array Handle := #[]
  tables : Array (List (Datum × Item)) := #[]
  rosters : Array Roster := #[]

abbrev Edit := ExceptT Fault (StateM Drawing)

def depthLimit : Nat := 1000

def ofOption (fault : Fault) : Option α → Edit α
  | some a => return a
  | none => throw fault

/-! ## Reading -/

def entry (e : EntryId) : Edit Entry := do ofOption .noSuchKey (← get).entries[e]?

def handle (h : HandleId) : Edit Handle := do ofOption .noSuchField (← get).handles[h]?

def entryOf (h : HandleId) : Edit Entry := do entry (← handle h).entry

def tableAt (t : Nat) : Edit (List (Datum × Item)) := return ((← get).tables[t]?).getD []

def roster (r : Nat) : Edit Roster := return ((← get).rosters[r]?).getD []

def Entry.graph? (e : Entry) : Except Fault GraphPart :=
  match e.shape with
  | .graph g => .ok g
  | _ => .error .noSuchKey

def Entry.name? (e : Entry) : Except Fault Item :=
  match e.shape with
  | .vertex n _ => .ok n
  | .graph g => .ok g.name
  | .edge .. => .error .noSuchKey

def Entry.points? (e : Entry) : Except Fault (Item × Item) :=
  match e.shape with
  | .edge a b => .ok (a, b)
  | _ => .error .noSuchKey

def fromExcept : Except Fault α → Edit α
  | .ok a => return a
  | .error f => throw f

def graphOf (e : EntryId) : Edit GraphPart := do fromExcept (← entry e).graph?

def roleOf (h : HandleId) : Edit Role := return (← handle h).role

def ofRole? (role : Role → Bool) : Item → Edit (Option HandleId)
  | .handle h => do return if role (← roleOf h) then some h else none
  | _ => return none

def nameOrSelf (i : Item) : Edit Item := do
  match ← ofRole? (· == .vertex) i with
  | some h => fromExcept (← entryOf h).name?
  | none => return i

/-! ## Writing -/

def updateEntry (e : EntryId) (f : Entry → Entry) : Edit Unit := do
  if (← entry e).frozen then throw .frozen
  modify fun d => { d with entries := d.entries.modify e f }

def updateGraph (e : EntryId) (f : GraphPart → GraphPart) : Edit Unit := do
  let g ← graphOf e
  updateEntry e fun n => { n with shape := .graph (f g) }

def updateHandle (h : HandleId) (f : Handle → Handle) : Edit Unit :=
  modify fun d => { d with handles := d.handles.modify h f }

def addEntry (e : Entry) : Edit EntryId := do
  let id := (← get).entries.size
  modify fun d => { d with entries := d.entries.push e }
  return id

def addHandle (h : Handle) : Edit HandleId := do
  let id := (← get).handles.size
  modify fun d => { d with handles := d.handles.push h }
  return id

def addTable (fields : List (Datum × Item)) : Edit Nat := do
  let id := (← get).tables.size
  modify fun d => { d with tables := d.tables.push fields }
  return id

def addRoster (r : Roster) : Edit Nat := do
  let id := (← get).rosters.size
  modify fun d => { d with rosters := d.rosters.push r }
  return id

def setRoster (id : Nat) (r : Roster) : Edit Unit :=
  modify fun d => { d with rosters := d.rosters.modify id fun _ => r }

def entered (key : Datum) (value : Item) : List (Datum × Item) → List (Datum × Item)
  | [] => [(key, value)]
  | (k, v) :: rest => if k == key then (k, value) :: rest else (k, v) :: entered key value rest

def setAttribute (e : EntryId) (key : Datum) (value : Item) : Edit Unit := do
  let n ← entry e
  if n.frozen then throw .frozen
  if !key.hashable then throw .wrongKind
  modify fun d => { d with tables := d.tables.modify n.attributes (entered key value) }

def attributesOf (e : EntryId) : Edit (List (Datum × Item)) := do tableAt (← entry e).attributes

def attributeAt (e : EntryId) (key : Datum) : Edit Item := do
  return (((← attributesOf e).find? fun (k, _) => k == key).map (·.2)).getD .null

/-! ## Equality -/

mutual

def sameItem (depth : Nat) (a b : Item) : Edit Bool :=
  match depth with
  | 0 => throw .tooDeep
  | depth + 1 =>
    match a, b with
    | .datum x, .datum y => return x == y
    | .handle x, .handle y => return x == y
    | .snapshot x, .snapshot y => sameEntry depth x y
    | .items xs, .items ys => sameItems depth xs ys
    | _, _ => return false

def sameItems (depth : Nat) (xs ys : List Item) : Edit Bool :=
  match depth with
  | 0 => throw .tooDeep
  | depth + 1 =>
    match xs, ys with
    | [], [] => return true
    | x :: xs, y :: ys => do if ← sameItem depth x y then sameItems depth xs ys else return false
    | _, _ => return false

def sameEntry (depth : Nat) (a b : EntryId) : Edit Bool :=
  match depth with
  | 0 => throw .tooDeep
  | depth + 1 => do
    if a == b then return true
    let x ← entry a
    let y ← entry b
    if !(← sameTable depth (← tableAt x.attributes) (← tableAt y.attributes)) then return false
    let xs := [x.kind, x.parent, x.sequence.getD .null]
    let ys := [y.kind, y.parent, y.sequence.getD .null]
    if !(← sameItems depth xs ys) then return false
    match x.shape, y.shape with
    | .vertex n p, .vertex m q => sameItems depth [n, p] [m, q]
    | .edge n p, .edge m q => sameItems depth [n, p] [m, q]
    | .graph g, .graph h => do
      if !(← sameItems depth [g.name, g.strict, g.suppressDisconnected, g.simplify, g.nextSequence]
          [h.name, h.strict, h.suppressDisconnected, h.simplify, h.nextSequence]) then return false
      if !(← sameRoster depth (← roster g.nodes) (← roster h.nodes)) then return false
      if !(← sameRoster depth (← roster g.edges) (← roster h.edges)) then return false
      sameRoster depth (← roster g.subgraphs) (← roster h.subgraphs)
    | _, _ => return false

def sameTable (depth : Nat) (xs ys : List (Datum × Item)) : Edit Bool :=
  match depth with
  | 0 => throw .tooDeep
  | depth + 1 => do
    if xs.length != ys.length then return false
    xs.allM fun (k, v) =>
      match ys.find? fun (l, _) => k == l with
      | some (_, w) => sameItem depth v w
      | none => return false

def sameRoster (depth : Nat) (xs ys : Roster) : Edit Bool :=
  match depth with
  | 0 => throw .tooDeep
  | depth + 1 => do
    if xs.length != ys.length then return false
    xs.allM fun (k, es) => do
      match ← ys.findM? fun (l, _) => sameItems depth k l with
      | some (_, fs) =>
        if es.length != fs.length then return false
        (es.zip fs).allM fun (e, f) => sameEntry depth e f
      | none => return false

end

def same (a b : Item) : Edit Bool := sameItem (4 * depthLimit) a b

def hashableItem : Item → Bool
  | .datum d => d.hashable
  | .handle _ | .snapshot _ => true
  | .items _ | .table .. => false

def requireKey (key : List Item) : Edit Unit :=
  if key.all hashableItem then return else throw .wrongKind

def members? (r : Roster) (key : List Item) : Edit (Option (List EntryId)) := do
  requireKey key
  return (← r.findM? fun (k, _) => sameItems (4 * depthLimit) k key).map (·.2)

def withMembers (key : List Item) (es : List EntryId) : Roster → Edit Roster
  | [] => return [(key, es)]
  | (k, fs) :: rest => do
    if ← sameItems (4 * depthLimit) k key then return (k, es) :: rest
    return (k, fs) :: (← withMembers key es rest)

def withoutKey (key : List Item) (r : Roster) : Edit Roster :=
  r.filterM fun (k, _) => do return !(← sameItems (4 * depthLimit) k key)

end ArrayKernel.Dot
