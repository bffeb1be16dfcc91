import ArrayKernel.CType.Slicing
import ArrayKernel.Script.Reader

/-! # Descriptions of types -/

namespace ArrayKernel.Script

open ArrayKernel.Ast

def sliceFrom (d : Datum) : CType.Slice :=
  match d.itemList with
  | [start, stop, step] => { start, stop, step }
  | _ => {}

def structOptions (d : Datum) : CType.StructOptions :=
  { name := (d.field "name").text?, packed := (d.field "packed").truthy,
    readonly := (d.field "readonly").truthy }

def numberOptions (d : Datum) : CType.NumberOptions :=
  { name := (d.field? "name").map Datum.text?
    rank := (d.field? "rank").bind Rank.ofDatum?
    itemsize := (d.field? "itemsize").map fun
      | .int n => some n
      | _ => none
    signed := (d.field? "signed").map Datum.truthy }

def arrayFrom (dtype : CType) (ndim options : Datum) : CType :=
  let c := (options.field "is_c_contig").truthy
  let f := (options.field "is_f_contig").truthy
  let i := (options.field "inner_contig").truthy
  let broadcasting := match options.field "broadcasting" with
    | .list items => some (items.map Datum.truthy)
    | _ => none
  .array dtype ndim.natOrZero c f (i || c || f) broadcasting

/-- A struct of unordered fields. A field called `fields` would be the list of ordered ones. -/
def unorderedStruct (fields : List (String × CType)) (options : Datum) : Except Fault CType :=
  let others := fields.filter fun (n, _) => n != "fields"
  if fields.length != others.length then
    if others.isEmpty then .error (.violated (some "")) else .error (.specification .orderedAndUnordered)
  else if fields.isEmpty then .error .wrongKind
  else CType.structFrom [] fields (structOptions options)

def compoundType (r : Reader) (word : String) (args : List Datum) : Action CType := do
  match word, args with
  | "pointer", [t] => Action.ofExcept (← r.type t).pointerTo
  | "array", t :: n :: rest => return arrayFrom (← r.type t) n (rest.headD .null)
  | "slices", [t, slices] => Action.ofExcept ((← r.type t).specified (slices.itemList.map sliceFrom))
  | "slice", [t, s] => Action.ofExcept ((← r.type t).sliced (sliceFrom s))
  | "getitem", [t, _] => Action.ofExcept (← r.type t).indexed
  | "carray", [t, n] => return .block (← r.type t) n []
  | "vector", [t, n] =>
    let t ← r.type t
    Action.ofExcept (CType.vectorOf (← settings).declare t n.intOrZero)
  | "func", result :: params :: rest =>
    let options := rest.headD .null
    let result ← r.type result
    let params ← params.itemList.mapM r.type
    return .function result params false (options.field "name").text? (options.field "is_vararg").truthy
      (options.field "struct_by_reference").truthy []
  | "call", result :: params =>
    let result ← r.type result
    let params ← params.mapM r.type
    if result.isAbsent then throw .wrongKind
    return .function result params true none false false []
  | "struct", fields :: rest =>
    Action.ofExcept (CType.structOf (← r.pairedTypes fields) (structOptions (rest.headD .null)))
  | "ustruct", fields :: rest =>
    Action.ofExcept (unorderedStruct (← r.namedTypes fields) (rest.headD .null))
  | "mixedstruct", [ordered, unordered] =>
    let ordered ← r.pairedTypes ordered
    Action.ofExcept (CType.structFrom ordered (← r.namedTypes unordered) {})
  | "qualify", t :: qs => Action.ofExcept ((← r.type t).qualify (qs.map Datum.textOrEmpty))
  | "unqualify", t :: qs => Action.ofExcept ((← r.type t).unqualify (qs.map Datum.textOrEmpty))
  | "strided", [t] => Action.ofExcept (← r.type t).strided
  | "actual_signature", [t] => Action.ofExcept (← r.type t).actualSignature
  | "struct_return_type", [t] => Action.ofExcept (← r.type t).structReturnType
  | "int", code :: rest => Action.ofExcept (CType.intWith code.text? (numberOptions (rest.headD .null)))
  | "float", rest => Action.ofExcept (CType.floatWith (numberOptions (rest.headD .null)))
  | "typeof", [n] =>
    match ← r.node n with
    | .operand o => typeOf o
    | _ => throw .noSuchField
  | _, _ => throw .unbound

def typeFrom (r : Reader) : Datum → Action CType
  | .null => return .absent
  | .text name =>
    match CType.ofName? name with
    | some t => return t
    | none => throw .unbound
  | .list (.text word :: args) => compoundType r word args
  | _ => throw .unbound

end ArrayKernel.Script
