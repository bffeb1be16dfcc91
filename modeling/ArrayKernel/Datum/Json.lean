import ArrayKernel.Datum.Text

/-! # Data in JSON -/

namespace ArrayKernel.Json

/-! ## Reading -/

def skipBlank : List Char → List Char :=
  List.dropWhile fun c => c == ' ' || c == '\n' || c == '\t' || c == '\r'

def hexValue (c : Char) : Nat :=
  if c.isDigit then c.toNat - '0'.toNat
  else if 'a' ≤ c && c ≤ 'f' then c.toNat - 'a'.toNat + 10
  else if 'A' ≤ c && c ≤ 'F' then c.toNat - 'A'.toNat + 10
  else 0

def hexNumber (cs : List Char) : Nat := cs.foldl (fun n c => n * 16 + hexValue c) 0

def replacement : Char := Char.ofNat 0xFFFD

def isHighUnit (n : Nat) : Bool := 0xD800 ≤ n && n < 0xDC00

def isLowUnit (n : Nat) : Bool := 0xDC00 ≤ n && n < 0xE000

def joined (high low : Nat) : Char := Char.ofNat (0x10000 + (high - 0xD800) * 1024 + (low - 0xDC00))

def unescaped : Char → Char
  | 'n' => '\n'
  | 't' => '\t'
  | 'r' => '\r'
  | 'b' => Char.ofNat 8
  | 'f' => Char.ofNat 12
  | c => c

def readText (acc : List Char) : Nat → List Char → Option (String × List Char)
  | 0, _ => none
  | steps + 1, cs =>
    match cs with
    | [] => none
    | '"' :: rest => some (String.ofList acc.reverse, rest)
    | '\\' :: 'u' :: a :: b :: c :: d :: rest =>
      let n := hexNumber [a, b, c, d]
      if isHighUnit n then
        match rest with
        | '\\' :: 'u' :: a :: b :: c :: d :: more =>
          let m := hexNumber [a, b, c, d]
          if isLowUnit m then readText (joined n m :: acc) steps more
          else readText (replacement :: acc) steps rest
        | _ => readText (replacement :: acc) steps rest
      else if isLowUnit n then readText (replacement :: acc) steps rest
      else readText (Char.ofNat n :: acc) steps rest
    | '\\' :: c :: rest => readText (unescaped c :: acc) steps rest
    | c :: rest => readText (c :: acc) steps rest

def isNumberChar (c : Char) : Bool :=
  c.isDigit || c == '-' || c == '+' || c == '.' || c == 'e' || c == 'E'

def digitsValue (cs : List Char) : Nat := cs.foldl (fun n c => n * 10 + (c.toNat - '0'.toNat)) 0

def signedValue : List Char → Int
  | '-' :: cs => - (digitsValue cs : Int)
  | '+' :: cs => digitsValue cs
  | cs => digitsValue cs

def floatValue (cs : List Char) : Float :=
  let negative := cs.head? == some '-'
  let cs := if negative then cs.drop 1 else cs
  let isMark (c : Char) : Bool := c == 'e' || c == 'E'
  let mantissa := cs.takeWhile fun c => !isMark c
  let exponent := signedValue ((cs.dropWhile fun c => !isMark c).drop 1)
  let whole := mantissa.takeWhile (· != '.')
  let part := (mantissa.dropWhile (· != '.')).drop 1
  let digits := digitsValue (whole ++ part)
  let power := exponent - part.length
  let x := if power < 0 then Float.ofScientific digits true (-power).toNat
    else Float.ofScientific digits false power.toNat
  if negative then -x else x

def readNumber (cs : List Char) : Option (Datum × List Char) :=
  let number := cs.takeWhile isNumberChar
  let rest := cs.dropWhile isNumberChar
  if number.isEmpty then none
  else if number.any fun c => c == '.' || c == 'e' || c == 'E' then some (.float (floatValue number), rest)
  else some (.int (signedValue number), rest)

def afterWord? (word : String) (cs : List Char) : Option (List Char) :=
  if word.toList.isPrefixOf cs then some (cs.drop word.length) else none

def valueWords : List (String × Datum) :=
  [("null", .null), ("true", .bool true), ("false", .bool false), ("NaN", .float (0.0 / 0.0)),
   ("Infinity", .float (1.0 / 0.0)), ("-Infinity", .float (-1.0 / 0.0))]

def readWord (cs : List Char) : Option (Datum × List Char) :=
  valueWords.findSome? fun (word, d) => (afterWord? word cs).map fun rest => (d, rest)

mutual

/-- Reads a value; `steps` bounds the number of values, items and fields one within the other. -/
def readValue : Nat → List Char → Option (Datum × List Char)
  | 0, _ => none
  | steps + 1, cs =>
    let cs := skipBlank cs
    match cs with
    | '"' :: rest => (readText [] (rest.length + 1) rest).map fun (s, rest) => (.text s, rest)
    | '[' :: rest =>
      match skipBlank rest with
      | ']' :: rest => some (.list [], rest)
      | rest => readItems steps [] rest
    | '\x7b' :: rest =>
      match skipBlank rest with
      | '\x7d' :: rest => some (.record [], rest)
      | rest => readFields steps [] rest
    | cs => (readWord cs).or (readNumber cs)

def readItems : Nat → List Datum → List Char → Option (Datum × List Char)
  | 0, _, _ => none
  | steps + 1, acc, cs => do
    let (d, rest) ← readValue steps cs
    match skipBlank rest with
    | ',' :: rest => readItems steps (d :: acc) rest
    | ']' :: rest => return (.list (d :: acc).reverse, rest)
    | _ => none

def readFields : Nat → List (String × Datum) → List Char → Option (Datum × List Char)
  | 0, _, _ => none
  | steps + 1, acc, cs => do
    match skipBlank cs with
    | '"' :: rest =>
      let (key, rest) ← readText [] (rest.length + 1) rest
      match skipBlank rest with
      | ':' :: rest =>
        let (d, rest) ← readValue steps rest
        match skipBlank rest with
        | ',' :: rest => readFields steps ((key, d) :: acc) rest
        | '\x7d' :: rest => return (.record ((key, d) :: acc).reverse, rest)
        | _ => none
      | _ => none
    | _ => none

end

def read? (s : String) : Option Datum := (readValue (2 * s.length + 2) s.toList).map (·.1)

/-! ## Writing -/

def unitText (n : Nat) : String := Text.hexEscape 'u' 4 n

def escapedChar (c : Char) : String :=
  let n := c.toNat
  if c == '"' then "\\\"" else if c == '\\' then "\\\\"
  else if n < 0x20 || n == 0x7F then unitText n
  else if n < 0x7F then String.singleton c
  else if n < 0x10000 then unitText n
  else unitText (0xD800 + (n - 0x10000) / 1024) ++ unitText (0xDC00 + (n - 0x10000) % 1024)

def quoted (s : String) : String := "\"" ++ String.join (s.toList.map escapedChar) ++ "\""

def floatText (x : Float) : String :=
  if x.isNaN then "NaN" else if x.isInf then (if x < 0 then "-Infinity" else "Infinity")
  else Decimal.floatText x

mutual

def write : Datum → String
  | .null => "null"
  | .bool b => if b then "true" else "false"
  | .int n => toString n
  | .float x => floatText x
  | .text s => quoted s
  | .list items | .tuple items => "[" ++ ",".intercalate (writeItems items) ++ "]"
  | .record fields => Datum.braced (",".intercalate (writeFields fields))

def writeItems : List Datum → List String
  | [] => []
  | d :: rest => write d :: writeItems rest

def writeFields : List (String × Datum) → List String
  | [] => []
  | (k, d) :: rest => (quoted k ++ ":" ++ write d) :: writeFields rest

end

end ArrayKernel.Json
