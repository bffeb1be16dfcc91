import ArrayKernel.Ast.Session

/-! # Values of attributes -/

namespace ArrayKernel

inductive Value where
  | operand (o : Ast.Operand)
  | type (t : CType)
  | items (vs : List Value)
  | pairs (ps : List (Value × Value))
  | other (word : String)
  deriving Inhabited

namespace Value

def ofDatum (d : Datum) : Value := .operand (.datum d)

def ofBool (b : Bool) : Value := .ofDatum (.bool b)

def ofText (s : String) : Value := .ofDatum (.text s)

def ofNat (n : Nat) : Value := .ofDatum (.int n)

def null : Value := .ofDatum .null

def ofType (t : CType) : Value := if t.isAbsent then null else .type t

def ofName : Ast.Name → Value
  | .datum d => .ofDatum d
  | .type t => .ofType t

def isNull : Value → Bool
  | .operand o => o.isAbsent
  | .type t => t.isAbsent
  | _ => false

def isDatum (d : Datum) : Value → Bool
  | .operand (.datum e) => d == e
  | _ => false

end Value

end ArrayKernel
