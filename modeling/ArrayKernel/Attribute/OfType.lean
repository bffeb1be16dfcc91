import ArrayKernel.Attribute.Value
import ArrayKernel.CType.Construct
import ArrayKernel.CType.Foreign
import ArrayKernel.CType.Slicing

/-! # Attributes of types -/

namespace ArrayKernel.CType

open Value

def sizeDatum : Option Int → Datum
  | some n => .int n
  | none => .null

def textOrNull : Option String → Datum
  | some s => .text s
  | none => .null

def scalarAttribute? (s : Scalar) : String → Option Value
  | "name" => some (ofDatum (textOrNull s.name))
  | "rank" => s.rank.map fun r => ofDatum r.toDatum
  | "itemsize" => s.itemsize.map fun n => ofDatum (sizeDatum n)
  | "signed" => s.signed.map ofBool
  | "typecode" =>
    match s.family with
    | .int | .char | .signedSize | .arrayIndex => some (ofDatum (textOrNull s.typecode))
    | _ => none
  | _ => none

def ownAttribute? (t : CType) (name : String) : Option Value :=
  match t, name with
  | .scalar s _, _ => scalarAttribute? s name
  | .complex _ p _, "base_type" => some (.type (.scalar p []))
  | .complex s _ _, _ => scalarAttribute? s name
  | .array d _ _ _ _ _, "dtype" => some (ofType d)
  | .array _ n _ _ _ _, "ndim" => some (ofNat n)
  | .array _ _ _ _ i _, "inner_contig" => some (ofBool i)
  | .array _ _ _ _ _ b, "broadcasting" =>
    some (match b with
      | none => null
      | some dims => .items (dims.map ofBool))
  | .array .., "strided" => t.strided.toOption.map .type
  | .pointer b _, "base_type" => some (ofType b)
  | .block b _ _, "base_type" => some (ofType b)
  | .block _ n _, "size" => some (ofDatum n)
  | .foreign o, "opaque_type" => some (ofType o)
  | .function r _ _ _ _ _ _, "return_type" => some (ofType r)
  | .function _ ps _ _ _ _ _, "args" => some (.items (ps.map ofType))
  | .function _ _ _ n _ _ _, "name" => some (ofDatum (textOrNull n))
  | .function _ _ _ _ _ b _, "struct_by_reference" => some (ofBool b)
  | .function .., "actual_signature" => t.actualSignature.toOption.map .type
  | .function .., "struct_return_type" => t.structReturnType.toOption.map .type
  | .vector e _ _, "element_type" => some (ofType e)
  | .vector _ n _, "vector_size" => some (ofDatum (.int n))
  | .vector .., "itemsize" => t.itemsize?.map fun n => ofDatum (sizeDatum n)
  | .struct fs _ _ _, "fields" => some (.items (fs.map fun (n, u) => .items [ofText n, ofType u]))
  | .struct _ n _ _, "name" => some (ofDatum (textOrNull n))
  | .struct _ _ p _, "packed" => some (ofBool p)
  | .struct _ _ _ r, "readonly" => some (ofBool r)
  | .struct .., "rank" => t.rank.toOption.map fun r => ofDatum r.toDatum
  | _, _ => none

def attribute? (t : CType) (name : String) : Option Value :=
  if t.isAbsent then none
  else match name with
    | "kind" => some (ofNat t.kind)
    | "qualifiers" => some (.items (t.qualifiers.map ofText))
    | _ => if name.startsWith "is_" then some (ofBool (t.flag name)) else t.ownAttribute? name

def parts : CType → List Value
  | .array d _ _ _ _ _ => [ofType d]
  | .pointer b _ | .block b _ _ => [ofType b]
  | .complex _ p _ => [.type (.scalar p [])]
  | .foreign o => [ofType o]
  | .function r ps _ _ _ _ _ => [ofType r, .items (ps.map ofType)]
  | .vector e _ _ => [ofType e]
  | _ => []

/-- What two types of one kind are compared by. A float of unknown size has nothing to compare. -/
def compared : CType → Value
  | .array d _ c f i _ => .items [ofType d, ofBool c, ofBool f, ofBool i]
  | .vector e n _ => .items [ofType e, ofDatum (.int n)]
  | .struct fs _ _ _ => .items (fs.map fun (n, u) => .items [ofText n, ofType u])
  | .scalar s q =>
    if s.family == .float then
      match s.itemsize with
      | some n => .items [ofDatum (sizeDatum n)]
      | none => .other "property"
    else .items (CType.scalar s q).parts
  | t => .items t.parts

end ArrayKernel.CType
