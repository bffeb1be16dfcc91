import ArrayKernel.Datum.Basic

/-! # Parts of data -/

namespace ArrayKernel.Datum

def fieldList : Datum → List (String × Datum)
  | .record fields => fields
  | _ => []

def field? (name : String) (d : Datum) : Option Datum := lookup name d.fieldList

def field (name : String) (d : Datum) : Datum := (d.field? name).getD .null

def hasField (name : String) (d : Datum) : Bool := (d.field? name).isSome

def flagOr (name : String) (default : Bool) (d : Datum) : Bool := ((d.field? name).map truthy).getD default

def itemList : Datum → List Datum
  | .list items | .tuple items => items
  | _ => []

def item (i : Nat) (d : Datum) : Datum := d.itemList.getD i .null

def text? : Datum → Option String
  | .text s => some s
  | _ => none

def textOrEmpty (d : Datum) : String := d.text?.getD ""

def intOrZero : Datum → Int
  | .int n => n
  | .bool b => if b then 1 else 0
  | _ => 0

def natOrZero (d : Datum) : Nat := d.intOrZero.toNat

mutual

def depth : Datum → Nat
  | .list items | .tuple items => depthOfItems items + 1
  | .record fields => depthOfFields fields + 1
  | _ => 0

def depthOfItems : List Datum → Nat
  | [] => 0
  | d :: rest => max (depth d) (depthOfItems rest)

def depthOfFields : List (String × Datum) → Nat
  | [] => 0
  | (_, d) :: rest => max (depth d) (depthOfFields rest)

end

end ArrayKernel.Datum
