import ArrayKernel.Datum.Basic
import ArrayKernel.Text.Lines

/-! # Text of plain values -/

namespace ArrayKernel

namespace Text

def hexEscape (letter : Char) (width n : Nat) : String :=
  String.ofList ['\\', letter] ++ Decimal.hexDigits width n

def quotedChar (quote c : Char) : String :=
  if c == quote || c == '\\' then String.ofList ['\\', c]
  else if c == '\n' then "\\n"
  else if c == '\r' then "\\r"
  else if c == '\t' then "\\t"
  else if isPrintable c then String.ofList [c]
  else
    let n := c.toNat
    if n ≤ 0xff then hexEscape 'x' 2 n
    else if n ≤ 0xffff then hexEscape 'u' 4 n
    else hexEscape 'U' 8 n

/-- Text between single quotes, or between double quotes if it holds single ones and no double ones. -/
def quoted (s : String) : String :=
  let quote := if s.toList.contains '\'' && !s.toList.contains '"' then '"' else '\''
  String.singleton quote ++ String.join (s.toList.map (quotedChar quote)) ++ String.singleton quote

end Text

namespace Datum

def braced (s : String) : String := "\x7b" ++ s ++ "\x7d"

mutual

def quoted : Datum → String
  | .null => "None"
  | .bool b => if b then "True" else "False"
  | .int n => toString n
  | .float x => Decimal.floatText x
  | .text s => Text.quoted s
  | .list items => "[" ++ ", ".intercalate (quotedItems items) ++ "]"
  | .tuple [x] => "(" ++ quoted x ++ ",)"
  | .tuple items => "(" ++ ", ".intercalate (quotedItems items) ++ ")"
  | .record fields => braced (", ".intercalate (quotedFields fields))

def quotedItems : List Datum → List String
  | [] => []
  | x :: xs => quoted x :: quotedItems xs

def quotedFields : List (String × Datum) → List String
  | [] => []
  | (k, v) :: rest => (Text.quoted k ++ ": " ++ quoted v) :: quotedFields rest

end

def display : Datum → String
  | .text s => s
  | other => quoted other

end Datum

end ArrayKernel
