import ArrayKernel.Dot.Edit
import ArrayKernel.Text.Lines

/-! # Programs that draw -/

namespace ArrayKernel.Dot

def programNames : List String := ["dot", "twopi", "neato", "circo", "fdp", "sfdp"]

structure Files where
  paths : List String

namespace Files

def parts (path : String) : List String :=
  (path.splitOn "/").foldl
    (fun done part =>
      if part == "" || part == "." then done
      else if part == ".." then done.dropLast
      else done ++ [part]) []

def isDirectory (f : Files) (path : String) : Bool :=
  !path.isEmpty && (f.paths.any fun file =>
    let ps := parts path
    let fs := parts file
    ps.length < fs.length && fs.take ps.length == ps)

def isFile (f : Files) (path : String) : Bool :=
  !path.endsWith "/" && f.paths.any fun file => parts file == parts path

def hasPath (f : Files) (path : String) : Bool := f.isDirectory path || f.isFile path

end Files

def joinPath (directory name : String) : String :=
  if directory.endsWith "/" then directory ++ name else directory ++ "/" ++ name

def strip (s : String) : String :=
  String.ofList ((s.toList.dropWhile Text.isBlank).reverse.dropWhile Text.isBlank).reverse

/-- The path of a program in a directory, with or without the ending that executables can have. -/
def programIn? (files : Files) (directory name : String) : Option String :=
  let plain := joinPath directory name
  let ended := joinPath directory (name ++ ".exe")
  if files.hasPath plain then some plain else if files.hasPath ended then some ended else none

/-- All programs with their paths in a directory, where empty paths stand for those not found. -/
def programsIn? (files : Files) (directory : String) : Option (List (String × String)) :=
  let stripped := strip directory
  let isQuoted := stripped.startsWith "\"" && stripped.endsWith "\""
  let cs := stripped.toList
  let path := if isQuoted then String.ofList (cs.drop 1).dropLast else stripped
  let quote (s : String) : String := if isQuoted then "\"" ++ s ++ "\"" else s
  if files.isDirectory path then
    let found := programNames.map fun n => (n, ((programIn? files path n).map quote).getD "")
    if found.any fun (_, p) => !p.isEmpty then some found else none
  else none

def findPrograms (files : Files) (searchPath : Option String) : Option (List (String × String)) :=
  match searchPath with
  | none => none
  | some path => (path.splitOn ":").findSome? (programsIn? files)

/-! ## Running -/

def notFound (name : String) : Fault :=
  .notInvocable ("GraphViz's executable \"" ++ name ++ "\" not found")

def notAFile (path : String) : Fault :=
  .notInvocable ("GraphViz's executable \"" ++ path ++ "\" is not a file or doesn't exist")

def programAsked (i : Item) : Except Fault Item :=
  match i.list? with
  | some (first :: _) => .ok first
  | some [] => .error .outOfRange
  | none => .ok i

def runFrom (paths : Datum) (name : Datum) : Fault :=
  match paths with
  | .record fields =>
    if !name.hashable then .wrongKind
    else match name with
      | .text s =>
        match Datum.lookup s fields with
        | some (.text path) => notAFile path
        | some .null => .wrongKind
        | some other => notAFile other.display
        | none => notFound s
      | other => notFound other.display
  | .list items => if items.any (· == name) then .wrongKind else notFound name.display
  | _ => .wrongKind

/-- Draws a sheet. Programs that are not given are looked for and not found; a program that is there would
need a file to be written, which there is no way to do. -/
def create (h : HandleId) (program : Item) : Edit Item := do
  let n ← handle h
  let asked ← fromExcept (programAsked (if program.isNull then n.program else program))
  match n.programs with
  | none => throw (.notInvocable "GraphViz's executables not found")
  | some (.ready name) =>
    if asked.isText name then throw .undefinedName
    throw (notFound (asked.display?.getD ""))
  | some (.paths d) =>
    match asked with
    | .datum a => throw (runFrom d a)
    | _ => throw .wrongKind

def addShapeFiles (h : HandleId) (i : Item) : Edit (List Item) := do
  let more := match i with
    | .datum (.text s) => [Item.text s]
    | i => i.list?.getD []
  updateHandle h fun n => { n with shapeFiles := n.shapeFiles ++ more }
  return (← handle h).shapeFiles

end ArrayKernel.Dot
