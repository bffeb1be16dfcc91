import ArrayKernel.Datum.Basic

/-! # Identifiers of the DOT language -/

namespace ArrayKernel.Dot

def isLetter (c : Char) : Bool := ('a' ≤ c && c ≤ 'z') || ('A' ≤ c && c ≤ 'Z')

def isDigit (c : Char) : Bool := '0' ≤ c && c ≤ '9'

def isWordStart (c : Char) : Bool := isLetter c || c == '_'

def isWordPart (c : Char) : Bool := isLetter c || isDigit c || c == '_' || c == ','

def withoutLineEnd (cs : List Char) : List Char :=
  if cs.getLast? == some '\n' then cs.dropLast else cs

def isWord (cs : List Char) : Bool :=
  match withoutLineEnd cs with
  | c :: rest => isWordStart c && rest.all isWordPart
  | [] => false

def isWordWithPorts (cs : List Char) : Bool :=
  match withoutLineEnd cs with
  | c :: rest =>
    isWordStart c && rest.all (fun d => isWordPart d || d == ':' || d == '"') &&
      match rest.getLast? with
      | some d => isWordPart d || d == '"'
      | none => false
  | [] => false

def isNumber (cs : List Char) : Bool :=
  let cs := withoutLineEnd cs
  !cs.isEmpty && cs.all fun c => isDigit c || c == ','

def isBetween (first last : Char) (cs : List Char) : Bool :=
  let cs := withoutLineEnd cs
  2 ≤ cs.length && cs.head? == some first && cs.getLast? == some last

def isQuoted (cs : List Char) : Bool := isBetween '"' '"' cs

def isMarkup (cs : List Char) : Bool := isBetween '<' '>' cs

def keywords : List String := ["graph", "subgraph", "digraph", "node", "edge", "strict"]

def splitPort? (cs : List Char) : Option (List Char × List Char) :=
  let before := cs.takeWhile (· != ':')
  match cs.dropWhile (· != ':') with
  | _ :: after => if after.contains ':' then none else some (before, after)
  | [] => none

def needsQuotesAlone (cs : List Char) : Bool :=
  if keywords.contains (String.ofList cs) then false
  else if (cs.any fun c => 0x7f < c.toNat || c.toNat == 0) && !isQuoted cs && !isMarkup cs then true
  else !(isWord cs || isNumber cs || isQuoted cs || isMarkup cs || isWordWithPorts cs)

/-- Whether a text needs quotes. With one colon in it, it does if one of the two parts does. -/
def needsQuotes (s : String) : Bool :=
  let cs := s.toList
  if keywords.contains s then false
  else if (cs.any fun c => 0x7f < c.toNat || c.toNat == 0) && !isQuoted cs && !isMarkup cs then true
  else if !needsQuotesAlone cs then false
  else match splitPort? cs with
    | some (a, b) => needsQuotesAlone a || needsQuotesAlone b
    | none => true

def escaped (c : Char) : String :=
  if c == '"' then "\\\"" else if c == '\n' then "\\n" else if c == '\r' then "\\r"
  else String.singleton c

def quoteIfNeeded (s : String) : String :=
  if !s.isEmpty && needsQuotes s then "\"" ++ String.join (s.toList.map escaped) ++ "\"" else s

/-- A value as it is kept in a drawing: truth values become words, texts are quoted if needed. -/
def kept : Datum → Datum
  | .bool b => .text (if b then "True" else "False")
  | .text s => .text (quoteIfNeeded s)
  | d => d

end ArrayKernel.Dot
