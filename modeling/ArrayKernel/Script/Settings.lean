import ArrayKernel.Script.Node

/-! # Descriptions of settings -/

namespace ArrayKernel.Script

open ArrayKernel.Ast

def settingsOfSpec (d : Datum) : Action Settings := do
  let base : Settings := {}
  let typeOr (name : String) (default : CType) : Action CType :=
    match d.field? name with
    | some t => typeOfSpec [] t
    | none => return default
  let shapeType ← typeOr "shape_type" base.shapeType
  let stridesType ← typeOr "strides_type" base.stridesType
  return { base with
    debug := d.flagOr "debug" false
    debugElements := d.flagOr "debug_elements" false
    plainBackend := d.flagOr "use_llvm" false
    hoistBroadcasting := d.flagOr "optimize_broadcasting" true
    shapeType
    stridesType
    dynamicArguments := d.flagOr "dynamic" false
    addressing := !d.flagOr "no_final" false
    blocksize := if d.flagOr "tile_all" false then none else d.field? "blocksize"
    tileAllDimensions := d.flagOr "tile_all" false
    failing := (d.field? "may_error").map fun texts => texts.itemList.map Datum.textOrEmpty
    declaresForeign := d.flagOr "declare" false
    disposes := d.flagOr "disposal" false
    resolvesForeign := d.flagOr "resolve_mixin" false
    strengthReduction := d.flagOr "strength_reduction" true
    stringStyle := if d.flagOr "safe_strings" false then .escaped else .refused }

end ArrayKernel.Script
