import ArrayKernel.CType.Text

/-! # Texts of diagnostics -/

namespace ArrayKernel

structure Place where
  file : Datum
  line : Datum
  column : Datum

def Place.text (p : Place) : Except Fault String := do
  let line ← CType.wholeText p.line
  let column ← CType.wholeText p.column
  return p.file.display ++ ":" ++ line ++ ":" ++ column

def Place.ofParts : List Datum → Except Fault Place
  | [file, line, column] => .ok { file, line, column }
  | _ => .error .wrongKind

def Place.ofTuple : Datum → Except Fault Place
  | .tuple [file, line, column] => .ok { file, line, column }
  | .tuple _ => .error (.badValue none)
  | _ => .error .wrongKind

structure Diagnostic where
  /-- The parts of the position, if there is one; a place by itself has no parts. -/
  position : Option (List Datum)
  said : Datum

namespace Diagnostic

/-- The text of a diagnostic: the message, after the position if there is one. Only four parts make one. -/
def text (d : Diagnostic) : Except Fault String :=
  match d.position, d.said with
  | none, .text m => .ok m
  | some [a, b, c, e], .text m =>
    .ok (a.display ++ ":" ++ b.display ++ ":" ++ c.display ++ ": " ++ e.display ++ m)
  | _, _ => .error .wrongKind

def shown : String := "CompileError()"

end Diagnostic

end ArrayKernel
