import ArrayKernel.Attribute.OfType
import ArrayKernel.Ast.Traversal

/-! # Attributes of nodes -/

namespace ArrayKernel.Ast

open Value

def emittedValue : Option String → Value
  | some s => ofText s
  | none => null

def whenSet (o : Option Operand) : Option Value := o.map .operand

def listWhenSet (o : Option (List Operand)) : Option Value := o.map fun os => .operand (.group os)

def limitsWhenSet (o : Option (List (Nat × Operand))) : Option Value :=
  o.map fun ps => .pairs (ps.map fun (n, o) => (ofNat n, .operand o))

/-- Entries of a table with names as keys; of several entries for one name the last counts. -/
def byNameValue (ps : List (Name × Operand)) : Value :=
  let keys := ps.foldl (fun (keys : List Name) (n, _) => if keys.any (·.same n) then keys else keys ++ [n]) []
  .pairs (keys.filterMap fun k =>
    (ps.reverse.find? fun (n, _) => n.same k).map fun (_, o) => (ofName k, .operand o))

def functionAttribute? (f : Function) : String → Option Value
  | "name" => some (ofDatum f.name)
  | "arrays" => some (.operand (.group f.arrays))
  | "args" => some (byNameValue f.byName)
  | "shape" => some (.operand f.shape)
  | "posinfo" => some (.operand f.posinfo)
  | "error_value" => some (.operand f.errorValue)
  | "success_value" => some (.operand f.successValue)
  | "omp_size" => some (.operand f.ompSize)
  | "ndim" => some (ofNat f.ndim)
  | "total_shape" => whenSet f.totalShape
  | "mangled_name" => f.emitted.map ofText
  | "specializer" => f.specializer.map fun _ => .other "Specializer"
  | "specialization_name" => f.specialization.map ofText
  | "for_loops" => listWhenSet f.loops
  | "outer_loops" => listWhenSet f.outerLoops
  | "controlling_loops" => listWhenSet f.controllingLoops
  | "tiling_loops" => listWhenSet f.tilingLoops
  | "lower_tiling_limits" => limitsWhenSet f.lowerLimits
  | "upper_tiling_limits" => limitsWhenSet f.upperLimits
  | "data_pointers" => whenSet f.dataPointers
  | "strides_pointers" => whenSet f.stridesPointers
  | _ => none

def loopAttribute? (l : Loop) : String → Option Value
  | "index" => some (.operand l.index)
  | "target" => whenSet l.target
  | "dim" => l.dim.map ofNat
  | "blocksize" => whenSet l.blocksize
  | "is_controlling_loop" => some (ofBool l.isControlling)
  | "is_tiling_loop" => some (ofBool l.isTiling)
  | "should_vectorize" => some (ofBool l.isVector)
  | "is_fixup" => some (ofBool l.isFixup)
  | _ => none

def variableAttribute? (v : Variable) (isHoisted : Bool) : String → Option Value
  | "name" => some (ofName v.name)
  | "array_type" => some null
  | "mangled_name" => some (emittedValue v.emitted)
  | "hoisted" => some (ofBool isHoisted)
  | "data_pointer" => whenSet v.dataPointer
  | "strides_pointer" => whenSet v.stridesPointer
  | "repr_name" =>
    match v.role with
    | .temporary shown => some (ofText shown)
    | _ => none
  | "arrayvar" =>
    match v.role with
    | .dataPointer o | .stridePointer o => some (.operand o)
    | _ => none
  | "_name" =>
    match v.role with
    | .dataPointer _ => some (ofText "_data")
    | .stridePointer _ => some (ofText "_strides")
    | _ => none
  | _ => none

def formAttribute? (n : Node) (name : String) : Option Value :=
  match n.form, name with
  | .function f, _ => functionAttribute? f name
  | .call _ _ inline, "inline" => some (ofDatum inline)
  | .functionName word _, "name" => some (ofDatum word)
  | .functionName _ e, "is_external" => some (ofDatum e)
  | .positionInfo vs, "posinfo" => some (.operand vs)
  | .argument owner _ _ _, "variable" => some (.operand owner)
  | .argument _ _ word _, "name" => some (ofName word)
  | .argument _ _ _ used, "used" => some (ofBool used)
  | .argument .., "if_funcarg" => some (ofBool true)
  | .arrayArgument owner _ _ _ _ _, "variable" => some (.operand owner)
  | .arrayArgument _ word _ _ _ _, "name" => some (ofName word)
  | .arrayArgument _ _ _ _ vs _, "variables" => some (.operand (.group vs))
  | .arrayArgument _ _ _ _ _ used, "used" => some (ofBool used)
  | .loop l, _ => loopAttribute? l name
  | .branch b, "should_vectorize" => some (ofBool b.isVector)
  | .branch b, "is_fixup" => some (ofBool b.isFixup)
  | .foreign .., "opaque_node" => some (.other "Foreign")
  | .foreign .., "specialize_node_callback" => some (.other "function")
  | .foreign .., "is_constant_scalar" => some (ofBool false)
  | .assign _ _ k, "may_reorder" => some (ofDatum k)
  | .binop p _ _, "operator" => some (ofText p)
  | .vectorStore p _ _, "operator" => some (ofText p)
  | .vectorBinop p _ _, "operator" => some (ofText p)
  | .unop p _, "operator" => some (ofText p)
  | .cast _, "is_cast" => some (ofBool true)
  | .dereference _, "is_dereference" => some (ofBool true)
  | .index .., "is_index" => some (ofBool true)
  | .vectorLoad _ size, "size" => some (ofDatum (.int size))
  | .constant v, "value" => some (ofDatum v)
  | .sizeof t, "sizeof_type" => some (ofType t)
  | .var v, _ => variableAttribute? v n.marks.isHoisted name
  | .handler h, "error_label" => some (.operand h.errorLabel)
  | .handler h, "cleanup_label" => some (.operand h.cleanupLabel)
  | .handler h, "error_variable" => whenSet h.errorVariable
  | .label word _, "name" => some (ofDatum word)
  | .label _ emitted, "mangled_name" => some (emittedValue emitted)
  | .vectorConstant v, "constant" => some (ofDatum v)
  | _, _ => none

def question? (n : Node) : String → Option Bool
  | "is_expression" => some n.form.isExpression
  | "is_statlist" => some (n.form matches .sequence _)
  | "is_constant" => some n.form.isConstant
  | "is_assignment" => some (n.form matches .assign ..)
  | "is_unop" => some n.form.isUnop
  | "is_binop" => some n.form.isBinop
  | "is_node_wrapper" => some (n.form matches .foreign ..)
  | "is_temp" => some n.form.isTemporary
  | "is_statement" => some (n.marks.isStatement || n.form matches .statement _)
  | "is_sizeof" => some (n.form matches .sizeof _)
  | "is_variable" => some (n.form matches .var _)
  | "is_function" => some (n.form matches .function _)
  | "is_array_funcarg" => some (n.form matches .arrayArgument ..)
  | "is_specialized" => some n.marks.isSpecialized
  | "is_data_pointer" | "is_jump" | "is_label" | "is_funcarg" => some false
  | _ => none

def markValue (n : Node) (d : Option Datum) : Option Value :=
  match d with
  | some d => some (ofDatum d)
  | none => if n.form.isExpression then some (ofBool false) else none

def positionValue : Position → Value
  | .unknown => null
  | .raw d => ofDatum d
  | .located .. => .other "Position"

def comparisonValue (n : Node) : Value :=
  match n.form with
  | .binop p l r | .vectorStore p l r | .vectorBinop p l r =>
    .items [ofText p, .operand l, .operand r]
  | .unop p o => .items [ofText p, .operand o]
  | _ =>
    let children := n.presentChildren.map .operand
    match n.comparedType with
    | some t => .items (children ++ [.type t])
    | none => .items children

def nodeAttribute? (n : Node) (name : String) : Option Value :=
  match n.marks.others.lookup name with
  | some o => some (.operand o)
  | none =>
    match n.form.children.lookup name, formAttribute? n name, question? n name with
    | some o, _, _ => some (.operand o)
    | _, some v, _ => some v
    | _, _, some b => some (ofBool b)
    | none, none, none =>
      match name with
      | "type" => n.type.map ofType
      | "pos" => some (positionValue n.position)
      | "children" => some (.operand (.group n.presentChildren))
      | "comparison_objects" => some (comparisonValue n)
      | "child_attrs" => some (.items (n.form.children.map fun (c, _) => ofText c))
      | "hoistable" => markValue n n.marks.isHoistable
      | "need_temp" => markValue n n.marks.needsTemp
      | "broadcasting" => n.marks.broadcasting.map fun
        | none => null
        | some dims => .items (dims.map ofBool)
      | "prepending" => whenSet n.marks.prepending
      | "appending" => whenSet n.marks.appending
      | "may_error" | "print_tree" => some (.other "method")
      | _ => none

def attributeIn (nodes : Array Node) (v : Value) (name : String) : Except Fault Value :=
  let found := match v with
    | .operand (.node id) => nodes[id.index]?.bind (nodeAttribute? · name)
    | .type t => t.attribute? name
    | _ => none
  match found with
  | some a => .ok a
  | none => .error .noSuchField

def attributeOf (v : Value) (name : String) : Action Value := do
  Action.ofExcept (attributeIn (← get).nodes v name)

/-! ## Setting attributes -/

/-- Sets an attribute of a node. Positions and marks that the passes know are set in place; any other name
becomes a mark of its own. -/
def setAttribute (o : Operand) (name : String) (value : Operand) : Action Unit := do
  let id ← identity o
  let n ← node id
  if (n.form.children.lookup name).isSome then updateForm id (·.setChild name value)
  else match n.form, name, value with
    | .function _, "omp_size", _ => updateFunction id fun f => { f with ompSize := value }
    | .function _, "shape", _ => updateFunction id fun f => { f with shape := value }
    | .function _, "success_value", _ => updateFunction id fun f => { f with successValue := value }
    | .function _, "error_value", _ => updateFunction id fun f => { f with errorValue := value }
    | .function _, "posinfo", _ => updateFunction id fun f => { f with posinfo := value }
    | .function _, "total_shape", _ => updateFunction id fun f => { f with totalShape := some value }
    | .loop _, "index", _ => updateLoop id fun l => { l with index := value }
    | .loop _, "target", _ => updateLoop id fun l => { l with target := some value }
    | _, "prepending", _ => updateMarks id fun k => { k with prepending := some value }
    | _, "appending", _ => updateMarks id fun k => { k with appending := some value }
    | _, "hoistable", .datum d => updateMarks id fun k => { k with isHoistable := some d }
    | _, "need_temp", .datum d => updateMarks id fun k => { k with needsTemp := some d }
    | .var _, "hoisted", .datum d => updateMarks id fun k => { k with isHoisted := d.truthy }
    | .assign l r _, "may_reorder", .datum d => updateForm id fun _ => .assign l r d
    | .constant _, "value", .datum d => updateForm id fun _ => .constant d
    | _, _, _ =>
      updateMarks id fun k => { k with others := (name, value) :: k.others.filter (·.1 != name) }

end ArrayKernel.Ast
