import ArrayKernel.Proofs.CToken
import Mathlib.Logic.Function.Basic

/-! # Statements of C -/

namespace ArrayKernel.C

inductive Expr where
  | name (x : String)
  | number (digits : String)
  | unary (op : String) (e : Expr)
  | binary (op : String) (l r : Expr)
  | index (p i : Expr)
  | advance (e : Expr)
  deriving DecidableEq, Repr

inductive Statement where
  | expression (e : Expr)
  | assign (op : String) (l r : Expr)
  | declare (x : String) (r : Expr)
  deriving DecidableEq, Repr

/-! ## Reading -/

def inPlaceOperators : List String := ["+", "-", "*", "/", "%", "<<", ">>", "&", "|", "^"]

def binaryOperators : List String := inPlaceOperators ++ ["<", ">", "<=", ">=", "==", "!=", "&&", "||"]

def unaryOperators : List String := ["-", "+", "~", "!"]

def isBinary (cs : List Char) : Bool := binaryOperators.contains (String.ofList cs)

def isUnary (cs : List Char) : Bool := (unaryOperators ++ ["*", "--", "++"]).contains (String.ofList cs)

mutual

def expression : Nat → List Token → Option (Expr × List Token)
  | 0, _ => none
  | n + 1, ts => do
    let (l, rest) ← operand n ts
    match rest with
    | .sign op :: rest' =>
      if isBinary op then
        let (r, rest) ← operand n rest'
        return (.binary (String.ofList op) l r, rest)
      else return (l, rest)
    | _ => return (l, rest)

def operand : Nat → List Token → Option (Expr × List Token)
  | 0, _ => none
  | _ + 1, [] => none
  | n + 1, .word x :: ts => suffixes n (.name (String.ofList x)) ts
  | n + 1, .number d :: ts => suffixes n (.number (String.ofList d)) ts
  | n + 1, .sign op :: ts =>
    if op = ['('] then do
      match ← expression n ts with
      | (e, .sign [')'] :: rest) => suffixes n e rest
      | _ => none
    else if isUnary op then do
      let (e, rest) ← operand n ts
      return (.unary (String.ofList op) e, rest)
    else none

def suffixes : Nat → Expr → List Token → Option (Expr × List Token)
  | 0, _, _ => none
  | n + 1, e, ts =>
    match ts with
    | .sign ['['] :: ts => do
      match ← expression n ts with
      | (i, .sign [']'] :: rest) => suffixes n (.index e i) rest
      | _ => none
    | .sign ['+', '+'] :: ts => suffixes n (.advance e) ts
    | _ => some (e, ts)

end

/-- The rest of a declaration after its first word: the declared name, and what stands after the sign. -/
def declarator : List Token → Option (String × List Token)
  | .word x :: .sign ['='] :: ts => some (String.ofList x, ts)
  | .word _ :: ts => declarator ts
  | .sign ['*'] :: ts => declarator ts
  | _ => none

def declaration : List Token → Option (String × List Token)
  | .word _ :: ts => declarator ts
  | _ => none

def assignment? (sign : List Char) : Option String :=
  (inPlaceOperators ++ [""]).find? fun op => (op ++ "=").toList == sign

def lastExpression (n : Nat) (ts : List Token) : Option Expr := do
  match ← expression n ts with
  | (e, [.sign [';']]) => some e
  | _ => none

def statement (n : Nat) (ts : List Token) : Option Statement :=
  match declaration ts with
  | some (x, ts) => (lastExpression n ts).map (.declare x)
  | none => do
    match ← expression n ts with
    | (e, [.sign [';']]) => some (.expression e)
    | (l, .sign sign :: ts) =>
      let op ← assignment? sign
      return .assign op l (← lastExpression n ts)
    | _ => none

def read (line : String) : Option Statement :=
  let ts := lex line
  statement (3 * ts.length) ts

/-! ## Running -/

structure Meaning (V : Type) where
  number : String → V
  unary : String → V → V
  binary : String → V → V → V

inductive Place (V : Type) where
  | variable (x : String)
  | cell (address : V)
  deriving DecidableEq

abbrev State (V : Type) := Place V → V

variable {V : Type} [DecidableEq V] (M : Meaning V) (σ : State V)

/-- The value of an expression that changes nothing. An element of an array is the cell at the sum of its
pointer and its index. -/
def Expr.value? : Expr → Option V
  | .name x => some (σ (.variable x))
  | .number d => some (M.number d)
  | .unary op e => do
    let v ← e.value?
    if op = "*" then some (σ (.cell v))
    else if unaryOperators.contains op then some (M.unary op v)
    else none
  | .binary op l r => return M.binary op (← l.value?) (← r.value?)
  | .index p i => return σ (.cell (M.binary "+" (← p.value?) (← i.value?)))
  | .advance _ => none

def Expr.place? : Expr → Option (Place V)
  | .name x => some (.variable x)
  | .unary op e => if op = "*" then (e.value? M σ).map .cell else none
  | .index p i => return .cell (M.binary "+" (← p.value? M σ) (← i.value? M σ))
  | _ => none

def Statement.exec : Statement → Option (State V)
  | .expression (.advance e) => do
    let p ← e.place? M σ
    return Function.update σ p (M.binary "+" (σ p) (M.number "1"))
  | .expression e => do
    let _ ← e.value? M σ
    return σ
  | .assign op l r => do
    let p ← l.place? M σ
    let v ← r.value? M σ
    return Function.update σ p (if op = "" then v else M.binary op (σ p) v)
  | .declare x r => return Function.update σ (.variable x) (← r.value? M σ)

end ArrayKernel.C
