import ArrayKernel.Fault
import ArrayKernel.Path.Token

/-! # Reading paths -/

namespace ArrayKernel.Path

inductive Selector where
  | children (kind : String)
  | anyChild
  | this
  | descendants (kind : Option String)
  /-- The attribute that a chain of names leads to; with a value, only if it is equal to it. -/
  | attribute (names : List String) (value : Option Datum)
  | holds (chain : List Selector)
  /-- Keeps what a chain finds something for, once for each result of a second test. -/
  | both (chain : List Selector) (test : Selector)
  | negation (test : Selector)
  deriving Inhabited

abbrev Reading := StateT (List Token) (Except Fault)

def next? : Reading (Option Token) := do
  match ← get with
  | [] => return none
  | t :: rest => set rest; return some t

def next : Reading Token := do
  match ← next? with
  | some t => return t
  | none => throw .exhausted

def invalid (said : String) : Fault := .badValue (some said)

def readValue : Reading Datum := do
  match ← next with
  | .mark s =>
    if s.startsWith "'" || s.startsWith "\"" then
      return .text (String.ofList (s.toList.drop 1).dropLast)
    throw (invalid ("Invalid attribute predicate: '" ++ s ++ "'"))
  | .word s =>
    match s.toLower with
    | "true" => return .bool true
    | "false" => return .bool false
    | _ => throw (invalid "Invalid attribute predicate: ''")

def readAttribute : Reading Selector := do
  match ← next with
  | .mark _ => throw (invalid "Expected attribute name")
  | .word name =>
    let value ← match ← next? with
      | some (.mark "=") => pure (some (← readValue))
      | _ => pure none
    return .attribute ((name.toList.splitOn '.').map String.ofList) value

def readDescendants : Reading Selector := do
  match ← next with
  | .mark "*" => return .descendants none
  | .word kind => return .descendants (some kind)
  | .mark _ => throw (invalid "Expected node name after '//'")

mutual

/-- Reads the selector that starts with a token. Each selector takes a token, so the number of tokens
bounds the depth. -/
def readSelector : Nat → Token → Reading Selector
  | 0, _ => throw .tooDeep
  | depth + 1, t =>
    match t with
    | .mark "@" => readAttribute
    | .mark "*" => return .anyChild
    | .mark "." => return .this
    | .mark "//" => readDescendants
    | .mark "[" => readPredicate depth
    | .mark _ => throw .noSuchKey
    | .word "not" => do
      match ← next with
      | .mark "(" => return .negation (← readPredicate depth)
      | _ => throw (invalid "Expected '(' after function name 'not'")
    | .word kind => return .children kind

def readPredicate : Nat → Reading Selector
  | 0 => throw .tooDeep
  | depth + 1 => do readChain depth [] (← next)

def readChain : Nat → List Selector → Token → Reading Selector
  | 0, _, _ => throw .tooDeep
  | depth + 1, chain, t => do
    if t == .mark "]" then return .holds chain
    let chain := chain ++ [← readSelector depth t]
    match ← next? with
    | none => return .holds chain
    | some t =>
      let t ← if t == .mark "/" then next else pure t
      if t == .word "and" then return .both chain (← readPredicate depth)
      readChain depth chain t

end

def readAll (limit : Nat) : Nat → Token → Reading (List Selector)
  | 0, _ => throw .tooDeep
  | fuel + 1, t => do
    let selector ← try readSelector limit t catch
      | .exhausted => throw (invalid "invalid path")
      | e => throw e
    match ← next? with
    | none => return [selector]
    | some (.mark "/") =>
      match ← next? with
      | none => return [selector]
      | some t => return selector :: (← readAll limit fuel t)
    | some t => return selector :: (← readAll limit fuel t)

def parse (path : String) : Except Fault (List Selector) :=
  let ts := tokenize path
  match ts with
  | [] => .error .exhausted
  | t :: rest => do
    let limit := 4 * ts.length + 4
    let (selectors, _) ← (readAll limit limit t).run rest
    return selectors

end ArrayKernel.Path
