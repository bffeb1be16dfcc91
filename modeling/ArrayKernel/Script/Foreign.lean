import ArrayKernel.Datum.Field
import ArrayKernel.Foreign.Expression

/-! # Descriptions of a client's expressions -/

namespace ArrayKernel.Script

def foreignTypeWithin : Nat → Datum → ForeignType
  | 0, _ => .mk [] none
  | depth + 1, d =>
    .mk ((d.field "flags").itemList.map Datum.textOrEmpty) ((d.field? "base").map (foreignTypeWithin depth))

def foreignTypeOfSpec (d : Datum) : ForeignType := foreignTypeWithin (d.depth + 1) d

def foreignWithin : Nat → Datum → ForeignExpr
  | 0, _ => .named .null .null (.mk [] none)
  | depth + 1, d =>
    let place := Datum.tuple (d.field "pos").itemList
    match (d.field "kind").textOrEmpty with
    | "bin" =>
      .binary place (d.field "op").textOrEmpty (foreignWithin depth (d.field "lhs"))
        (foreignWithin depth (d.field "rhs"))
    | "assign" => .assign place (foreignWithin depth (d.field "lhs")) (foreignWithin depth (d.field "rhs"))
    | _ => .named place (d.field "name") (foreignTypeOfSpec (d.field "type"))

def foreignOfSpec (d : Datum) : ForeignExpr := foreignWithin (d.depth + 1) d

end ArrayKernel.Script
