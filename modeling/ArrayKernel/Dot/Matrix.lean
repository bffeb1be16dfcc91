import ArrayKernel.Datum.Extremum
import ArrayKernel.Dot.Call

/-! # Drawings of edge lists and matrices -/

namespace ArrayKernel.Dot

def sum (a b : Datum) : Except Fault Datum :=
  match a, b with
  | .text s, .text t => .ok (.text (s ++ t))
  | .list xs, .list ys => .ok (.list (xs ++ ys))
  | a, b =>
    match a.numeric?, b.numeric? with
    | some x, some y => return (← x.add y).toDatum
    | _, _ => .error .wrongKind

def multiple (n : Nat) : Datum → Except Fault Datum
  | .text s => .ok (.text (String.join (List.replicate n s)))
  | .list xs => .ok (.list (List.replicate n xs).flatten)
  | d =>
    match d.numeric? with
    | some x => return (← (Datum.Numeric.whole n).mul x).toDatum
    | none => .error .wrongKind

def itemAt (d : Datum) (i : Nat) : Except Fault Datum :=
  match d with
  | .list xs | .tuple xs =>
    match xs[i]? with
    | some x => .ok x
    | none => .error .outOfRange
  | .text s =>
    match s.toList[i]? with
    | some c => .ok (.text (String.singleton c))
    | none => .error .outOfRange
  | .record _ => .error .noSuchKey
  | _ => .error .wrongKind

def graphParametersOf (first : String) : List Parameter :=
  [required first, optional "node_prefix" (.text ""), optional "directed" (.bool false)]

def startGraph (directed : Item) : Edit HandleId :=
  let kind := if directed.truthy then Item.text "digraph" else .text "graph"
  newGraph .sheet (.text "G") { kind } []

def drawEdge (g : HandleId) (source target : Datum) : Edit Unit := do
  let e ← newEdge (.datum source) (.datum target) []
  addEdge g (.handle e)

def fromEdges (edges lead : Datum) (directed : Item) : Edit HandleId := do
  let g ← startGraph directed
  for edge in ← fromExcept edges.items do
    let source ← fromExcept do sum lead (.text (← itemAt edge 0).display)
    let target ← fromExcept do sum lead (.text (← itemAt edge 1).display)
    drawEdge g source target
  return g

def firstPlace (matrix row : Datum) : Except Fault Nat :=
  match matrix with
  | .list rows => .ok (rows.findIdx (· == row))
  | .text s =>
    match row with
    | .text c => .ok ((s.toList.map String.singleton).findIdx (· == c))
    | _ => .error .wrongKind
  | _ => .error .noSuchField

def rowFrom (row : Datum) (place : Nat) : Except Fault (List Datum) :=
  match row with
  | .list _ | .text _ => return (← row.items).drop place
  | _ => .error .wrongKind

/-- A graph with an edge for each item of a matrix that counts as true. Of an undirected graph only the
upper half is read; a row starts where the first row equal to it does. -/
def fromAdjacency (matrix lead : Datum) (directed : Item) : Edit HandleId := do
  let g ← startGraph directed
  let rows ← fromExcept matrix.items
  for (row, i) in rows.zipIdx do
    let place ← if directed.truthy then pure 0 else fromExcept (firstPlace matrix row)
    let cells ← fromExcept (if directed.truthy then row.items else rowFrom row place)
    for (cell, j) in cells.zipIdx do
      if cell.truthy then
        let source ← fromExcept (sum lead (.int (i + 1)))
        let target ← fromExcept (sum lead (.int (place + j + 1)))
        drawEdge g source target
  return g

def insertSorted (d : Datum) : List Datum → Except Fault (List Datum)
  | [] => .ok [d]
  | x :: rest => do
    if ← Datum.belowOr d x then return d :: x :: rest
    return x :: (← insertSorted d rest)

def incident (row : Datum) : Except Fault (List Datum) := do
  (← row.items).zipIdx.foldlM (fun found (cell, c) => do
    if cell.truthy then insertSorted (← multiple (c + 1) cell) found else return found) []

def fromIncidence (matrix lead : Datum) (directed : Item) : Edit HandleId := do
  let g ← startGraph directed
  for row in ← fromExcept matrix.items do
    match ← fromExcept (incident row) with
    | [a, b] =>
      let source ← fromExcept do sum lead (← Datum.numericOr a).abs.toDatum
      let target ← fromExcept (sum lead b)
      drawEdge g source target
    | _ => pure ()
  if !directed.truthy then updateGraph (← handle g).entry fun p => { p with simplify := .bool true }
  return g

def textFrom (function : String) (args : List Item) (named : Named) : Edit String := do
  let draw (first : String) (f : Datum → Datum → Item → Edit HandleId) : Edit String := do
    match ← fromExcept (bindAll (graphParametersOf first) args named) with
    | [.datum d, .datum lead, directed] => text (← f d lead directed)
    | _ => throw .wrongKind
  match function with
  | "edges" => draw "edge_list" fromEdges
  | "adjacency_matrix" => draw "matrix" fromAdjacency
  | "incidence_matrix" => draw "matrix" fromIncidence
  | "dot_data" =>
    let _ ← fromExcept (bindAll [required "data"] args named)
    throw .undefinedName
  | "dot_file" =>
    let _ ← fromExcept (bindAll [required "path"] args named)
    throw .undefinedName
  | _ => throw .noSuchField

end ArrayKernel.Dot
