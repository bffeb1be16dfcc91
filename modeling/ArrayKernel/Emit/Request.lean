import ArrayKernel.Datum.Field
import ArrayKernel.Emit.Writer
import ArrayKernel.Fault

/-! # Requests to writers -/

namespace ArrayKernel.Emit

inductive Style where
  | plain
  | code
  | template
  deriving Repr, DecidableEq

def Style.ofName? : String → Option Style
  | "CodeWriter" => some .plain
  | "CCodeWriter" => some .code
  | "TempitaCodeWriter" => some .template
  | _ => none

inductive Written where
  | datum (d : Datum)
  | label

structure Workshop where
  style : Style
  desk : Desk Written
  opened : List Nat

namespace Workshop

def start (style : Style) : Workshop :=
  let (desk, w) := match style with
    | .code => Desk.openCode {}
    | _ => Desk.openPlain {}
  { style, desk, opened := [w] }

inductive Reply where
  | nothing
  | number (n : Nat)
  | text (s : String)
  | texts (ss : List String)
  | items (is : List Written)

abbrev Step := ExceptT Fault (StateM Workshop)

def writerAt (i : Int) : Step Nat := do
  let opened := (← get).opened
  let place := if i < 0 then i + opened.length else i
  if place < 0 then throw .outOfRange
  match opened[place.toNat]? with
  | some w => return w
  | none => throw .outOfRange

def change (f : Desk Written → Desk Written) : Step Unit := modify fun s => { s with desk := f s.desk }

def requireCode : Step Unit := do
  if (← get).style != .code then throw .noSuchField

def occurrences (c : Char) : Datum → Except Fault Nat
  | .text s => .ok (countChar c s)
  | .list items | .tuple items => .ok (items.filter (· == .text (String.singleton c))).length
  | _ => .error .noSuchField

def putLine (w : Nat) (line : Datum) : Step Unit := do
  match occurrences '}' line, occurrences '{' line with
  | .ok closing, .ok opening =>
    change fun d =>
      let before := (d.writer w).indent - closing
      let text := indentation before ++ line.display ++ "\n"
      (d.write w (.datum (.text text))).update w fun n => { n with indent := before + opening }
  | _, _ => throw .noSuchField

def joined (items : List Written) : Except Fault String := do
  let texts ← items.mapM fun
    | .datum (.text s) => .ok s
    | _ => .error Fault.wrongKind
  return String.join texts

def format (w : Nat) (formatter : String) : Step Reply := do
  let desk := (← get).desk
  let code := desk.contents w
  let run (e : Except Fault Reply) : Step Reply := match e with
    | .ok r => return r
    | .error f => throw f
  match formatter with
  | "CodeFormatter" => return .items code
  | "CodeStringFormatter" => run do return .text (← joined code)
  | "CCodeStringFormatter" =>
    match (desk.writer w).proto with
    | none => throw .noSuchField
    | some p => run do return .texts [← joined (desk.contents p), ← joined code]
  | _ => throw .noSuchField

def answer (request : String) (w : Nat) (args : List Datum) : Step Reply := do
  let done (a : Step Unit) : Step Reply := do
    a
    return .nothing
  let label (d : Datum) : String := mangle d.display
  match request, args with
  | "write", [d] => done (change (·.write w (.datum d)))
  | "insertion_point", [] =>
    let s ← get
    let (desk, new) := s.desk.insertionPoint w
    set { s with desk, opened := s.opened ++ [new] }
    return .number s.opened.length
  | "putln", args =>
    if (← get).style == .plain then throw .noSuchField
    match (← get).style, args with
    | .code, [line] => done (putLine w line)
    | _, _ => throw .wrongKind
  | "mangle", args =>
    requireCode
    match args with
    | [d] => return .text (mangle d.display)
    | _ => throw .wrongKind
  | "put_label", [d] => done do
    if (← get).style == .code then putLine w (.text (label d ++ ":"))
    else change (·.write w .label)
  | "put_goto", [d] => done do
    if (← get).style == .code then putLine w (.text ("goto " ++ label d ++ ";"))
  | "format", [formatter] => format w formatter.textOrEmpty
  | "commit", [] => done (change (·.commit w))
  | "indent", [n] => done do
    requireCode
    match n with
    | .int n => change (·.update w fun s => { s with indent := s.indent + n })
    | .bool b => change (·.update w fun s => { s with indent := s.indent + (if b then 1 else 0) })
    | _ => throw .wrongKind
  | "proto", [line] => done do
    match ((← get).desk.writer w).proto with
    | some p => putLine p line
    | none => throw .noSuchField
  | "levels", [] => done (change (·.update w fun s =>
      { s with loopLevels := s.loopLevels ++ [w], declarationLevels := s.declarationLevels ++ [w] }))
  | _, _ => throw .wrongKind

end Workshop

end ArrayKernel.Emit
