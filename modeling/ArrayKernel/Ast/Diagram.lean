import ArrayKernel.Ast.Outline
import ArrayKernel.Dot.Call

/-! # Diagrams of functions -/

namespace ArrayKernel.Ast

/-- The colors of a diagram, null for those that are not set. -/
structure DiagramColors where
  node : Datum := .null
  edge : Datum := .null
  nodeFont : Datum := .null
  edgeFont : Datum := .null

/-- What is drawn, in order. Vertices are counted from zero. -/
inductive Stroke where
  | vertex (name : String) (label : Option String)
  | edge (source target : Nat) (label : Option String)

abbrev Drawing := StateT (Array Stroke × Nat) Action

def drawVertex (name : String → String) (label : Option String) : Drawing Nat := do
  let (strokes, count) ← get
  set (strokes.push (.vertex (name (toString (count + 1))) label), count + 1)
  return count

def drawEdge (source target : Nat) (label : Option String) : Drawing Unit :=
  modify fun (strokes, count) => (strokes.push (.edge source target label), count)

def drawNode (o : Operand) : Drawing Nat := do
  let label := "\"" ++ (← summary o false) ++ "\""
  drawVertex id (some label)

def drawWithin : Nat → Operand → Drawing Nat
  | 0, _ => throw .tooDeep
  | depth + 1, o => do
    let .node id := o | throw .noRule
    let vertex ← drawNode o
    let children ← visitChildren (fun _ _ child => drawWithin depth child) id
    for (name, v) in children do
      match v with
      | .one target => drawEdge vertex target (some name)
      | .many targets => targets.forM fun target => drawEdge vertex target none
    return vertex

def drawFunction (o : Operand) : Drawing Unit := do
  match ← formOf? o with
  | some (.function f) =>
    let function ← drawNode o
    let body ← drawWithin depthLimit f.body
    let arguments ← drawVertex (fun _ => "Arguments (omitted)") none
    drawEdge function body none
    drawEdge function arguments none
  | some _ =>
    let _ ← drawNode o
    throw .noSuchField
  | none => throw .noRule

def setColor (e : Dot.HandleId) (word : String) (color : Datum) : Dot.Edit Unit := do
  if color != .null then Dot.setAttribute (← Dot.handle e).entry (.text word) (.datum color)

def strokesText (name : Datum) (colors : DiagramColors) (strokes : List Stroke) : Dot.Edit String := do
  let g ← Dot.newGraph .sheet (.datum name) {} []
  let mut vertices : Array Dot.HandleId := #[]
  for s in strokes do
    match s with
    | .vertex name label =>
      let attributes := match label with
        | some l => [(Datum.text "label", Dot.Item.text l)]
        | none => []
      let v ← Dot.newVertex (.text name) attributes
      setColor v "color" colors.node
      setColor v "fontcolor" colors.nodeFont
      Dot.addNode g (.handle v)
      vertices := vertices.push v
    | .edge source target label =>
      let endOf (i : Nat) : Dot.Item := .handle ((vertices[i]?).getD 0)
      let e ← Dot.newEdge (endOf source) (endOf target) []
      if let some l := label then Dot.setAttribute (← Dot.handle e).entry (.text "label") (.text l)
      setColor e "color" colors.edge
      setColor e "fontcolor" colors.edgeFont
      Dot.addEdge g (.handle e)
  Dot.text g

def diagram (o : Operand) (name : Datum := .text "AST") (colors : DiagramColors := {}) : Action String := do
  let (_, strokes, _) ← (drawFunction o).run (#[], 0)
  Action.ofExcept ((strokesText name colors strokes.toList).run.run {}).1

end ArrayKernel.Ast
