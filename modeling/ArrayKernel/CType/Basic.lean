import ArrayKernel.CType.Rank

/-!
# C types

The types of kernels: named scalars, pointers, strided arrays with contiguity marks, fixed blocks,
functions, SIMD vectors and structs. `CType.absent` stands where a node or a compound type was made
without a type.
-/

namespace ArrayKernel

inductive Family where
  | bool
  | int
  | char
  | signedSize
  | arrayIndex
  | float
  | complex
  | void
  deriving Repr, DecidableEq

/-- A named type. Every property but the family may be unknown. -/
structure Scalar where
  family : Family
  name : Option String
  rank : Option Rank := none
  /-- Size in bytes: `none` if the type has no size at all, `some none` if it is not known. -/
  itemsize : Option (Option Int) := none
  signed : Option Bool := none
  typecode : Option String := none
  deriving Repr, DecidableEq

inductive CType where
  | absent
  | scalar (s : Scalar) (qualifiers : List String)
  | complex (s : Scalar) (part : Scalar) (qualifiers : List String)
  | array (dtype : CType) (ndim : Nat) (isCContig isFContig innerContig : Bool)
      (broadcasting : Option (List Bool))
  | pointer (base : CType) (qualifiers : List String)
  | block (base : CType) (size : Datum) (qualifiers : List String)
  | foreign (owned : CType)
  | cString (qualifiers : List String)
  | object (qualifiers : List String)
  /-- A function; `closed` tells whether the parameters are a fixed tuple rather than a list. -/
  | function (result : CType) (params : List CType) (closed : Bool) (name : Option String)
      (isVararg byReference : Bool) (qualifiers : List String)
  | vector (element : CType) (size : Int) (qualifiers : List String)
  | struct (fields : List (String × CType)) (name : Option String) (packed readonly : Bool)
  deriving Inhabited

namespace CType

/-! ## Kinds -/

def isAbsent : CType → Bool
  | .absent => true
  | _ => false

def named? : CType → Option Scalar
  | .scalar s _ => some s
  | .complex s _ _ => some s
  | _ => none

def family? (t : CType) : Option Family := t.named?.map (·.family)

def isArray : CType → Bool
  | .array .. => true
  | _ => false

def isPointer : CType → Bool
  | .pointer .. => true
  | _ => false

def isForeign : CType → Bool
  | .foreign _ => true
  | _ => false

def isCString : CType → Bool
  | .cString _ => true
  | _ => false

def isObject : CType → Bool
  | .object _ => true
  | _ => false

def isFunction : CType → Bool
  | .function .. => true
  | _ => false

def isBlock : CType → Bool
  | .block .. => true
  | _ => false

def isVector : CType → Bool
  | .vector .. => true
  | _ => false

def isStruct : CType → Bool
  | .struct .. => true
  | _ => false

def isBool (t : CType) : Bool := t.family? == some .bool

def isVoid (t : CType) : Bool := t.family? == some .void

def isFloat (t : CType) : Bool := t.family? == some .float

def isComplex (t : CType) : Bool := t.family? == some .complex

def isChar (t : CType) : Bool := t.family? == some .char

def isSignedSize (t : CType) : Bool := t.family? == some .signedSize

def isArrayIndex (t : CType) : Bool := t.family? == some .arrayIndex

def isInt (t : CType) : Bool :=
  match t.family? with
  | some .int | some .char | some .signedSize | some .arrayIndex => true
  | _ => false

def isNumeric (t : CType) : Bool := t.isInt || t.isFloat || t.isComplex

def isVararg : CType → Bool
  | .function _ _ _ _ v _ _ => v
  | _ => false

def isCContig : CType → Bool
  | .array _ _ c _ _ _ => c
  | _ => false

def isFContig : CType → Bool
  | .array _ _ _ f _ _ => f
  | _ => false

def passByReference (t : CType) : Bool := t.isStruct || t.isComplex

def kind (t : CType) : Nat :=
  if t.isInt then 1 else if t.isFloat then 2 else if t.isComplex then 3 else 0

/-! ## Parts -/

def qualifiers : CType → List String
  | .scalar _ q | .complex _ _ q | .pointer _ q | .block _ _ q | .cString q | .object q
  | .function _ _ _ _ _ _ q | .vector _ _ q => q
  | _ => []

def base? : CType → Option CType
  | .pointer b _ | .block b _ _ => some b
  | .complex _ part _ => some (.scalar part [])
  | _ => none

def dtype? : CType → Option CType
  | .array d _ _ _ _ _ => some d
  | _ => none

def ndim? : CType → Option Nat
  | .array _ n _ _ _ _ => some n
  | _ => none

def broadcasting? : CType → Option (Option (List Bool))
  | .array _ _ _ _ _ b => some b
  | _ => none

def resolved : CType → CType
  | .array d _ _ _ _ _ => d
  | t => t

def itemsize? : CType → Option (Option Int)
  | .vector e n _ => some ((e.named?.bind (·.itemsize)).join.map (· * n))
  | t => t.named?.bind (·.itemsize)

def className : CType → String
  | .absent => "NoneType"
  | .scalar s _ | .complex s _ _ =>
    match s.family with
    | .bool => "BoolType"
    | .int => "IntType"
    | .char => "CharType"
    | .signedSize => "Py_ssize_t_Type"
    | .arrayIndex => "NPyIntp"
    | .float => "FloatType"
    | .complex => "ComplexType"
    | .void => "VoidType"
  | .array .. => "ArrayType"
  | .pointer .. => "PointerType"
  | .block .. => "CArrayType"
  | .foreign _ => "TypeWrapper"
  | .cString _ => "CStringType"
  | .object _ => "ObjectType"
  | .function .. => "FunctionType"
  | .vector .. => "VectorType"
  | .struct .. => "struct"

/-! ## Equality -/

mutual

/-- Equality of types. Named types agree iff their names do; arrays are compared by element type and
contiguity, not by the number of dimensions; qualifiers never count. -/
def same : CType → CType → Bool
  | .absent, .absent => true
  | .array d _ c f i _, .array d' _ c' f' i' _ => same d d' && c == c' && f == f' && i == i'
  | .pointer b _, .pointer b' _ => same b b'
  | .block b _ _, .block b' _ _ => same b b'
  | .foreign o, .foreign o' => same o o'
  | .cString _, .cString _ => true
  | .object _, .object _ => true
  | .function r ps k _ _ _ _, .function r' ps' k' _ _ _ _ => same r r' && k == k' && sameAll ps ps'
  | .vector e n _, .vector e' n' _ => same e e' && n == n'
  | .struct fs _ _ _, .struct fs' _ _ _ => sameFields fs fs'
  | .scalar s _, .scalar s' _ => s.name == s'.name
  | .scalar s _, .complex s' _ _ => s.name == s'.name
  | .complex s _ _, .scalar s' _ => s.name == s'.name
  | .complex s _ _, .complex s' _ _ => s.name == s'.name
  | _, _ => false

def sameAll : List CType → List CType → Bool
  | [], [] => true
  | t :: ts, u :: us => same t u && sameAll ts us
  | _, _ => false

def sameFields : List (String × CType) → List (String × CType) → Bool
  | [], [] => true
  | (n, t) :: ts, (m, u) :: us => n == m && same t u && sameFields ts us
  | _, _ => false

end

instance : BEq CType := ⟨same⟩

mutual

/-- Whether a type can be a key. An open list of parameters cannot, nor can a float without a size. -/
def hashable : CType → Bool
  | .absent => true
  | .scalar s _ => s.family != .float || s.itemsize.isSome
  | .complex _ p _ => p.family != .float || p.itemsize.isSome
  | .array d _ _ _ _ _ => hashable d
  | .pointer b _ => hashable b
  | .block b _ _ => hashable b
  | .foreign o => hashable o
  | .cString _ => true
  | .object _ => true
  | .function r ps k _ _ _ _ => hashable r && k && hashableAll ps
  | .vector e _ _ => hashable e
  | .struct fs _ _ _ => hashableFields fs

def hashableAll : List CType → Bool
  | [] => true
  | t :: ts => hashable t && hashableAll ts

def hashableFields : List (String × CType) → Bool
  | [] => true
  | (_, t) :: ts => hashable t && hashableFields ts

end

mutual

/-- Whether two equal types also have equal hashes: a hash joins the class with the compared parts, a
float's size among them, so equal names are not enough. -/
def sameHash : CType → CType → Bool
  | .scalar s _, .scalar s' _ =>
    s.family == s'.family && (s.family != .float || s.itemsize == s'.itemsize)
  | .complex _ p _, .complex _ p' _ => p.itemsize == p'.itemsize
  | .array d _ _ _ _ _, .array d' _ _ _ _ _ => sameHash d d'
  | .pointer b _, .pointer b' _ => sameHash b b'
  | .block b _ _, .block b' _ _ => sameHash b b'
  | .foreign o, .foreign o' => sameHash o o'
  | .function r ps _ _ _ _ _, .function r' ps' _ _ _ _ _ => sameHash r r' && sameHashes ps ps'
  | .vector e _ _, .vector e' _ _ => sameHash e e'
  | .struct fs _ _ _, .struct fs' _ _ _ => sameFieldHashes fs fs'
  | .absent, .absent => true
  | .cString _, .cString _ => true
  | .object _, .object _ => true
  | _, _ => false

def sameHashes : List CType → List CType → Bool
  | t :: ts, u :: us => sameHash t u && sameHashes ts us
  | _, _ => true

def sameFieldHashes : List (String × CType) → List (String × CType) → Bool
  | (_, t) :: ts, (_, u) :: us => sameHash t u && sameFieldHashes ts us
  | _, _ => true

end

end CType

end ArrayKernel
