import ArrayKernel.Ast.Session
import ArrayKernel.Buffer.Basic
import ArrayKernel.Native.OfType

/-! # Calls of compiled kernels -/

namespace ArrayKernel

open Ast

inductive Passed where
  | extents (ns : List Nat)
  | address (target : NativeType)

namespace Invocation

def extentsDiffer (dim extent expected : Nat) : Fault :=
  .badValue (some ("Differing extents in dim " ++ toString dim ++ " (" ++ toString extent ++ ", "
    ++ toString expected ++ ")"))

def checkShape (first shape : List Nat) : Except Fault Unit :=
  shape.zipIdx.forM fun (extent, dim) =>
    match first[dim]? with
    | none => .error .outOfRange
    | some expected =>
      if extent ≠ expected ∧ extent ≠ 1 then .error (extentsDiffer dim extent expected) else .ok ()

def argumentsFor (isContiguous : Bool) (type : CType) (b : Buffer) : Except Fault (List Passed) :=
  match type with
  | .absent => .error .noSuchField
  | .array dtype .. => do
    let pointer ← dtype.pointerTo
    match ← pointer.toNative with
    | .address target =>
      return .address target :: (if isContiguous then [] else [.extents b.strides])
    | other => return .address other :: (if isContiguous then [] else [.extents b.strides])
  | _ => .error (.notSupported "")

def arguments (isContiguous : Bool) (types : List CType) (buffers : List Buffer) :
    Except Fault (List Passed) := do
  match buffers with
  | [] => throw .outOfRange
  | first :: _ =>
    (types.zip buffers).forM fun (_, b) => checkShape first.shape b.shape
    let parts ← (types.zip buffers).mapM fun (t, b) => argumentsFor isContiguous t b
    return .extents first.shape :: parts.flatten

/-- What a call is told by name: a buffer for the result, and nothing else. -/
structure Options where
  out : Option Buffer := none
  others : List (String × Datum) := []

def call (isContiguous : Bool) (types : List CType) (buffers : List Buffer) (o : Options) :
    Except Fault (List Passed) :=
  if !o.others.isEmpty then .error (.violated (some (Datum.record o.others).display))
  else match o.out with
    | none => .error .noSuchField
    | some out =>
      if buffers.length + 1 ≠ types.length then .error (.violated (some ""))
      else arguments isContiguous types (out :: buffers)

end Invocation

end ArrayKernel
