import ArrayKernel.Attribute.OfNode
import ArrayKernel.Builder.Function
import ArrayKernel.Builder.Statement
import ArrayKernel.Script.Type

/-! # Descriptions of nodes -/

namespace ArrayKernel.Script

open ArrayKernel.Ast

def built (r : Reader) (word : String) (args : List Datum) : Action Operand :=
  let node := fun (i : Nat) => r.operand (args.getD i .null)
  let nodes := fun (i : Nat) => r.operands (args.getD i (.list []))
  let type := fun (i : Nat) => r.type (args.getD i .null)
  let value := fun (i : Nat) => args.getD i .null
  let text := fun (i : Nat) => (args.getD i .null).textOrEmpty
  let given := fun (i : Nat) (d : Datum) => args.getD i d
  match word with
  | "constant" => do Build.constant (value 0) (← type 1)
  | "variable" => do Build.variableOf (← type 0) (value 1)
  | "temp" => do Build.temporaryNamed (← type 0) (value 1)
  | "resolved_variable" => do
    let _ ← type 0
    Build.element (.datum (value 1)) (← node 2)
  | "binop" => do
    let t ← type 0
    let l ← node 2
    Build.binop t (text 1) l (← node 3)
  | "add" => do
    let l ← node 0
    let r ← node 1
    Build.add l r (← type 2) ((given 3 (.text "+")).textOrEmpty)
  | "sub" => do
    let l ← node 0
    let r ← node 1
    Build.sub l r (← type 2)
  | "mul" => do
    let l ← node 0
    let r ← node 1
    Build.mul l r (← type 2) ((given 3 (.text "*")).textOrEmpty)
  | "div" => do
    let l ← node 0
    let r ← node 1
    Build.div l r (← type 2)
  | "min" => do
    let l ← node 0
    Build.min l (← node 1)
  | "index" => do
    let l ← node 0
    let r ← node 1
    Build.index l r (← type 2)
  | "index_multiple" => do
    let l ← node 0
    let r ← nodes 1
    Build.indexMultiple l r (← type 2)
  | "assign_expr" => do
    let l ← node 0
    Build.assignment l (← node 1) (given 2 (.bool false))
  | "assign" => do
    let l ← node 0
    Build.assign l (← node 1) (given 2 (.bool false))
  | "dereference" => do Build.dereference (← node 0)
  | "unop" => do
    let t ← type 0
    Build.unop t (text 1) (← node 2)
  | "coerce_to_temp" => do Build.coerceToTemporary (← node 0)
  | "cast" => do
    let n ← node 0
    Build.cast n (← type 1)
  | "return_" => do Build.yield (← node 0)
  | "data_pointer" => do Build.dataPointer (← node 0)
  | "shape_index" => do Build.shapeIndex (value 0) (← node 1)
  | "extent" => do
    let v ← node 0
    Build.extent v (value 1) (← node 2)
  | "stridesvar" => do Build.stridesPointer (← node 0)
  | "stride" => do Build.stride (← node 0) (value 1)
  | "sizeof" => do Build.sizeof (← type 0)
  | "jump" => do Build.jump (← node 0)
  | "jump_target" => do Build.jumpTarget (← node 0)
  | "label" => Build.label (value 0)
  | "raise_exc" => do
    let p ← node 0
    let e ← node 1
    let m ← node 2
    Build.raise p e m (.group (← nodes 3))
  | "posinfo" => do Build.positionInfo (.group (← nodes 0))
  | "error_handler" => do Build.handler (← node 0)
  | "vector_variable" => do Build.vectorVariable (← node 0) ((value 1).intOrZero)
  | "vector_load" => do Build.vectorLoad (← node 0) ((value 1).intOrZero)
  | "vector_store" => do
    let p ← node 0
    Build.vectorStore p (← node 1)
  | "vector_binop" => do
    let l ← node 1
    Build.vectorBinop (text 0) l (← node 2)
  | "vector_unop" => do
    let _ ← type 0
    let _ ← node 2
    throw .wrongKind
  | "vector_const" => do Build.vectorConstant (← type 0) (value 1)
  | "noop_expr" => Build.noop
  | "funccall" => do
    let f ← node 0
    Build.call f (← nodes 1) (given 2 (.bool false))
  | "funcname" => do Build.functionName (← type 0) (value 1) (given 2 (.bool true))
  | "nditerate" => do Build.iterate (← node 0)
  | "for_" => do
    let b ← node 0
    let i ← node 1
    let c ← node 2
    let s ← node 3
    Build.loop b i c s (← node 4)
  | "for_range_upwards" => do
    let b ← node 0
    let u ← node 1
    let l ← node 2
    Build.countUpwards b u l (← node 3)
  | "omp_for" => do
    let f ← node 0
    Build.parallel f (← node 1)
  | "omp_if" => do
    let a ← node 0
    Build.parallelChoice a (← node 1)
  | "pragma_for" => do Build.pragma (← node 0)
  | "stats" => do Build.sequence (← args.mapM r.operand)
  | "expr_stat" => do Build.statement (← node 0)
  | "expr" => do
    let ss ← nodes 0
    Build.prepared ss (← node 1)
  | "if_" => do
    let c ← node 0
    Build.branch c (← node 1)
  | "if_else" => do
    let c ← node 0
    let a ← node 1
    Build.branch c a (← node 2)
  | "if_else_expr" => do
    let c ← node 0
    let a ← node 1
    Build.conditional c a (← node 2)
  | "promote" => do
    let t ← type 0
    Build.promote t (← node 1)
  | "incref" => do Build.countReference (← node 0) (given 1 (.text "Py_INCREF"))
  | "decref" => do Build.countReference (← node 0) (.text "Py_DECREF")
  | "print_" => do Build.print (← args.mapM r.operand)
  | "funcarg" => do
    let v ← node 0
    Build.argument v (← (args.drop 1).mapM r.operand)
  | "array_funcarg" => do Build.arrayArgument (← node 0)
  | "build_function" => do
    let vs ← nodes 0
    let b ← node 1
    Build.functionOver vs b (value 2) (← node 3)
  | "function" => do
    let b ← node 1
    let vs ← nodes 2
    let shape ← node 3
    let posinfo ← node 4
    Build.function (value 0) b vs shape posinfo (← node 5)
  | "wrap" => do
    let t ← type 1
    Build.foreign (text 0) t (.located (.text "file.pyx") (.int 1) (.int 2))
  | _ => throw .unbound

def nodeFrom (r : Reader) (names : Names) : Datum → Action Value
  | .text name =>
    match names.lookup name with
    | some v => return v
    | none => throw .unbound
  | .list [.text "attr", n, name] => do attributeOf (← r.node n) name.textOrEmpty
  | .list (.text word :: args) => return .operand (← built r word args)
  | .list _ | .record _ => throw .unbound
  | d => return .operand (.datum d)

def readerWithin (names : Names) : Nat → Reader
  | 0 => { type := fun _ => throw .tooDeep, node := fun _ => throw .tooDeep }
  | depth + 1 =>
    let inner := readerWithin names depth
    { type := typeFrom inner, node := nodeFrom inner names }

def readerFor (names : Names) (d : Datum) : Reader := readerWithin names (d.depth + 1)

def typeOfSpec (names : Names) (d : Datum) : Action CType := (readerFor names d).type d

def nodeOfSpec (names : Names) (d : Datum) : Action Value := (readerFor names d).node d

def operandOfSpec (names : Names) (d : Datum) : Action Operand := (readerFor names d).operand d

end ArrayKernel.Script
