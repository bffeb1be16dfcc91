/-!
# Layout schemes

A scheme says for which memory layout a kernel is specialized: which dimension is innermost, whether the
operands are contiguous, whether the loops are tiled, and how many units a SIMD register holds.
-/

namespace ArrayKernel.Layout

inductive Order where
  | rowMajor
  | columnMajor
  deriving Repr, DecidableEq

inductive Pattern where
  | contiguous
  | innerContiguous
  | strided
  | tiled
  deriving Repr, DecidableEq

structure Scheme where
  pattern : Pattern
  order : Order
  vectorSize : Option Nat := none
  deriving Repr, DecidableEq

namespace Scheme

def isContiguous (s : Scheme) : Bool := s.pattern == .contiguous

def isTiled (s : Scheme) : Bool := s.pattern == .tiled

def indexesInner (s : Scheme) : Bool := s.pattern != .contiguous

def isStrided (s : Scheme) : Bool := s.pattern == .strided || s.pattern == .tiled

def isVectorizing (s : Scheme) : Bool := s.vectorSize.isSome

/-- The name that specialized functions carry; a vectorizing scheme has that of its scalar one. -/
def name (s : Scheme) : String :=
  let base := match s.pattern with
    | .contiguous => "contig"
    | .innerContiguous => "inner_contig"
    | .strided => "strided"
    | .tiled => "tiled"
  match s.order, s.pattern with
  | .columnMajor, .contiguous => base
  | .columnMajor, _ => base ++ "_fortran"
  | .rowMajor, _ => base

def registered : List (String × Scheme) :=
  [("contig", ⟨.contiguous, .rowMajor, none⟩),
   ("contig_sse", ⟨.contiguous, .rowMajor, some 4⟩),
   ("contig_avx", ⟨.contiguous, .rowMajor, some 8⟩),
   ("inner_contig", ⟨.innerContiguous, .rowMajor, none⟩),
   ("inner_contig_sse", ⟨.innerContiguous, .rowMajor, some 4⟩),
   ("inner_contig_avx", ⟨.innerContiguous, .rowMajor, some 8⟩),
   ("inner_contig_fortran", ⟨.innerContiguous, .columnMajor, none⟩),
   ("inner_contig_fortran_sse", ⟨.innerContiguous, .columnMajor, some 4⟩),
   ("inner_contig_fortran_avx", ⟨.innerContiguous, .columnMajor, some 8⟩),
   ("strided", ⟨.strided, .rowMajor, none⟩),
   ("strided_fortran", ⟨.strided, .columnMajor, none⟩),
   ("tiled", ⟨.tiled, .rowMajor, none⟩),
   ("tiled_fortran", ⟨.tiled, .columnMajor, none⟩)]

def ofName? (name : String) : Option Scheme := registered.lookup name

end Scheme

end ArrayKernel.Layout
