import ArrayKernel.CType.Predefined
import ArrayKernel.CType.Text

/-! # Building types from types -/

namespace ArrayKernel.CType

def pointerTo : CType → Except Fault CType
  | .absent => .error .noSuchField
  | .array .. => .error .pointerToArray
  | t => .ok (.pointer t [])

/-- Replaces the qualifiers. Arrays cannot carry any, and a struct would have to be both ordered and
unordered. -/
def withQualifiers (q : List String) : CType → Except Fault CType
  | .absent => .error .noSuchField
  | .scalar s _ => .ok (.scalar s q)
  | .complex s p _ => .ok (.complex s p q)
  | .array .. => .error .wrongKind
  | .pointer b _ => .ok (.pointer b q)
  | .block b n _ => .ok (.block b n q)
  | .foreign o => .ok (.foreign o)
  | .cString _ => .ok (.cString q)
  | .object _ => .ok (.object q)
  | .function r ps k n v b _ => .ok (.function r ps k n v b q)
  | .vector e n _ => .ok (.vector e n q)
  | .struct [] _ _ _ => .error .noSuchField
  | .struct _ _ _ _ => .error (.specification .orderedAndUnordered)

def qualify (added : List String) (t : CType) : Except Fault CType :=
  t.withQualifiers (added ++ t.qualifiers)

def unqualify (removed : List String) (t : CType) : Except Fault CType :=
  t.withQualifiers (t.qualifiers.filter fun q => !removed.contains q)

def vectorOf (declare : Declare) (element : CType) (size : Int) : Except Fault CType :=
  if element.isAbsent then .error .noSuchField
  else if element.isInt || element.isFloat then
    match element.itemsize? with
    | none => .error .noSuchField
    | some bytes =>
      if bytes == some 4 || bytes == some 8 then .ok (.vector element size [])
      else .error (.violated (element.text declare).toOption)
  else .error (.violated (element.text declare).toOption)

/-! ## Sort keys of fields -/

mutual

/-- The key by which fields are ordered: the rank of a number, twice the rank of a complex number's
parts, the sum of a struct's keys, eight for pointers and objects, one for all else. -/
def sortKey : CType → Except Fault Rank
  | .absent => .error .noSuchField
  | .complex _ p _ =>
    match p.rank with
    | some r => .ok r.double
    | none => .error .noSuchField
  | .scalar s q =>
    if (CType.scalar s q).isNumeric then
      match s.rank with
      | some r => .ok r
      | none => .error .noSuchField
    else .ok (.ofInt 1)
  | .struct fs _ _ _ => sortKeys fs
  | .vector .. => .error (.violated (some ""))
  | .array .. => .error .noSuchField
  | .pointer .. => .ok (.ofInt 8)
  | .object _ => .ok (.ofInt 8)
  | .block .. => .ok (.ofInt 1)
  | .foreign _ => .ok (.ofInt 1)
  | .cString _ => .ok (.ofInt 1)
  | .function .. => .ok (.ofInt 1)

def sortKeys (fields : List (String × CType)) : Except Fault Rank :=
  sumKeys .zero fields

def sumKeys (total : Rank) : List (String × CType) → Except Fault Rank
  | [] => .ok total
  | (_, t) :: rest => do
    let key ← sortKey t
    sumKeys (total.add key) rest

end

def rank : CType → Except Fault Rank
  | .struct fs _ _ _ => sortKeys fs
  | t =>
    match t.named?.bind (·.rank) with
    | some r => .ok r
    | none => .error .noSuchField

/-! ## Sorting of fields -/

/-- Fields in buckets, each for one key. -/
abbrev Buckets := List (Rank × List (String × CType))

/-- A key that has no bucket yet gets one. -/
def Buckets.put (key : Rank) (field : String × CType) : Buckets → Buckets
  | [] => [(key, [field])]
  | (k, fields) :: rest =>
    if k.same key then (k, fields ++ [field]) :: rest else (k, fields) :: put key field rest

def bucketFields (fields : List (String × CType)) : Except Fault Buckets :=
  fields.foldlM (fun buckets f => return Buckets.put (← sortKey f.2) f buckets) []

/-- The buckets from the largest key to the smallest, and the fields of each by their names. -/
def sortFields (fields : List (String × CType)) : Except Fault (List (String × CType)) := do
  let buckets ← bucketFields fields
  let descending := buckets.mergeSort fun a b => !a.1.below b.1
  return descending.flatMap fun bucket => bucket.2.mergeSort fun f g => !decide (g.1 < f.1)

/-! ## Structs -/

structure StructOptions where
  name : Option String := none
  packed : Bool := false
  readonly : Bool := false
  deriving Repr

def structOf (fields : List (String × CType)) (options : StructOptions) : Except Fault CType := do
  let _ ← sortKeys fields
  return .struct fields options.name options.packed options.readonly

def structFrom (ordered unordered : List (String × CType)) (options : StructOptions) :
    Except Fault CType :=
  if unordered.isEmpty then structOf ordered options
  else if !ordered.isEmpty then .error (.specification .orderedAndUnordered)
  else do structOf (← sortFields unordered) options

/-! ## Numbers -/

/-- What a number type is told besides its family; what is not told has a default or stays unknown. -/
structure NumberOptions where
  name : Option (Option String) := none
  rank : Option Rank := none
  itemsize : Option (Option Int) := none
  signed : Option Bool := none

def nativeSize? : Char → Option Nat
  | 'x' | 'c' | 'b' | 'B' | '?' | 's' | 'p' => some 1
  | 'h' | 'H' | 'e' => some 2
  | 'i' | 'I' | 'f' => some 4
  | 'l' | 'L' | 'q' | 'Q' | 'n' | 'N' | 'd' | 'P' => some 8
  | _ => none

def packedSize? (size : Nat) : List Char → Option Nat
  | [] => some size
  | c :: cs => do
    let n ← nativeSize? c
    packedSize? ((size + n - 1) / n * n + n) cs

def intWith (typecode : Option String) (o : NumberOptions) : Except Fault CType := do
  let size ← match typecode with
    | none => pure (o.itemsize.getD (some 4))
    | some code =>
      match packedSize? 0 code.toList with
      | some n => pure (some (n : Int))
      | none => throw .badTypecode
  return .scalar { family := .int, name := o.name.getD (some "int"), rank := some (o.rank.getD (.ofInt 4)),
                   itemsize := some size, signed := some (o.signed.getD true), typecode } []

def floatWith (o : NumberOptions) : Except Fault CType :=
  .ok (.scalar { family := .float, name := o.name.getD none, rank := o.rank, itemsize := o.itemsize,
                 signed := o.signed } [])

/-! ## Functions -/

def functionOf (result : CType) (params : List CType) : CType :=
  .function result params false none false false []

/-- The signature with structs and complex numbers passed by reference, where that was asked for: such a
result becomes a last parameter. -/
def actualSignature : CType → Except Fault CType
  | .function r ps _ _ _ true _ =>
    if r.isAbsent || ps.any isAbsent then .error .noSuchField
    else
      let params := ps.map fun p => if p.passByReference then .pointer p [] else p
      if r.passByReference then .ok (functionOf void (params ++ [.pointer r []]))
      else .ok (functionOf r params)
  | .function r ps k n v false q => .ok (.function r ps k n v false q)
  | _ => .error .noSuchField

def structReturnType : CType → Except Fault CType
  | .function r _ _ _ _ _ _ => r.pointerTo
  | _ => .error .noSuchField

def isString (t : CType) : Bool := t.isCString || t == .pointer charType []

end ArrayKernel.CType
