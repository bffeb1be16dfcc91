import ArrayKernel.Fault

/-! # The package's description of itself -/

namespace ArrayKernel.Package

def name : String := "minivect"

def version : String := "0.1"

def author : String := "Mark Florisson"

def contact : String := "mark.florisson@continuum.io"

def description : String := "Compiler backend for array expressions"

def longDescription : List String :=
  ["minivect", "========", "",
   "Mini compiler for array expressions. Provide mappings between the original AST and minivect, " ++
   "specialize according to data layout and compile using whatever code generator backend is provided."]

def classifiers : List String :=
  ["Development Status :: 4 - Beta",
   "Intended Audience :: Developers",
   "Operating System :: OS Independent",
   "Operating System :: MacOS :: MacOS X",
   "Operating System :: Microsoft :: Windows",
   "Operating System :: POSIX",
   "Operating System :: POSIX :: Linux",
   "Programming Language :: Python",
   "Programming Language :: Python :: 2.4",
   "Programming Language :: Python :: 2.5",
   "Programming Language :: Python :: 2.6",
   "Programming Language :: Python :: 2.7",
   "Programming Language :: Python :: 3.0",
   "Programming Language :: Python :: 3.1",
   "Programming Language :: Python :: 3.2",
   "Programming Language :: Python :: 3.3",
   "Topic :: Software Development :: Compilers"]

def unknown : String := "UNKNOWN"

def linesFor : String → List String
  | "--name" => [name]
  | "--version" | "-V" => [version]
  | "--fullname" => [name ++ "-" ++ version]
  | "--author" | "--contact" => [author]
  | "--author-email" | "--contact-email" => [contact]
  | "--maintainer" | "--maintainer-email" => [unknown]
  | "--url" => ["https://github.com/markflorisson88/minivect"]
  | "--license" | "--licence" => ["BSD"]
  | "--description" => [description]
  | "--long-description" => longDescription
  | "--platforms" => [unknown]
  | "--classifiers" => classifiers
  | "--keywords" | "--provides" | "--requires" | "--obsoletes" => [""]
  | _ => []

def headers : String := name ++ "/include"

def loaded (available : List String) (part : String) : Except Fault Unit :=
  if available.contains part then .ok () else .error .noSuchModule

end ArrayKernel.Package
