import ArrayKernel.Proofs.OperandTypes

/-!
# Sums of pointers and integers

A pointer keeps its type when an integer is added on its right. On its left only a constant zero can stand: the rule for
that side asks the pointer, and not the other operand, whether it is an integer.
-/

namespace ArrayKernel

namespace CType

variable {p t base : CType} {q : List String}

/-! ## Types -/

theorem isInt_cases (h : t.isInt = true) : (∃ s q, t = .scalar s q) ∨ ∃ s part q, t = .complex s part q := by
  cases t with
  | scalar s q => exact .inl ⟨s, q, rfl⟩
  | complex s part q => exact .inr ⟨s, part, q, rfl⟩
  | _ => cases h

theorem promote_pointer_integer (ht : t.isInt = true) : promote (.pointer base q) t = .ok (.pointer base q) := by
  obtain ⟨s, q', rfl⟩ | ⟨s, part, q', rfl⟩ := isInt_cases ht <;> simp [promote, isAbsent, isPointer, ht]

theorem promote_integer_pointer (ht : t.isInt = true) :
    promote t (.pointer base q) = .error (.unpromotable t (.pointer base q)) := by
  have hpointer : (CType.pointer base q).isInt = false := rfl
  have htext : t.isText = false := by
    obtain ⟨s, q', rfl⟩ | ⟨s, part, q', rfl⟩ := isInt_cases ht <;> rfl
  obtain ⟨s, q', rfl⟩ | ⟨s, part, q', rfl⟩ := isInt_cases ht <;>
    simp [promote, isAbsent, isPointer, isObject, isNumeric, isFloat, isComplex, family?, named?, htext, hpointer]

theorem join_pointer_integer (ht : t.isInt = true) : join (.pointer base q) t = .ok (.pointer base q) := by
  unfold join
  split
  · rfl
  · exact promote_pointer_integer ht

theorem join_integer_pointer (ht : t.isInt = true) :
    join t (.pointer base q) = .error (.unpromotable t (.pointer base q)) := by
  have hne : (t == .pointer base q) = false := by
    obtain ⟨s, q', rfl⟩ | ⟨s, part, q', rfl⟩ := isInt_cases ht <;> rfl
  rw [join, hne, if_neg Bool.false_ne_true, promote_integer_pointer ht]

end CType

namespace Ast

variable {s t u : Session} {x i o : Operand} {base ty : CType} {q : List String} {indices : List Operand}

/-! ## Addresses -/

theorem isSame_eq_false {n : Int} : isSame n (s.constant? o) = false ↔ ¬ IsNumber s o n := by
  rw [← isSame_constant?, Bool.not_eq_true]

theorem add_dropped_left {a b : CType} (hl : HasType s x a) (hr : HasType s i b) (hzero : IsNumber s x 0) :
    Runs (Build.add x i) s i s := by
  show (Operation.sum.build x i).runOn s = _
  rw [Operation.build_runOn hl hr]
  exact if_pos (isSame_constant?.2 hzero)

theorem add_dropped_right {a b : CType} (hl : HasType s x a) (hr : HasType s i b) (hleft : isSame 0 (s.constant? x) = false)
    (hzero : isSame 0 (s.constant? i) = true) : Runs (Build.add x i) s x s := by
  show (Operation.sum.build x i).runOn s = _
  rw [Operation.build_runOn hl hr, show Operation.sum.droppedLeft?.any (isSame · (s.constant? x)) = false from hleft,
    if_neg Bool.false_ne_true]
  exact if_pos hzero

section

variable (hx : HasType s x (.pointer base q)) (hzero : isSame 0 (s.constant? x) = false)

include hx hzero

theorem add_pointer_integer (hi : HasType s i ty) (hint : ty.isInt = true) :
    ∃ o t, Runs (Build.add x i) s o t ∧ Within s t ∧ HasType t o (.pointer base q) ∧
      isSame 0 (t.constant? o) = false := by
  cases hindex : isSame 0 (s.constant? i) with
  | true => exact ⟨x, s, add_dropped_right hx hi hzero hindex, .refl s, hx, hzero⟩
  | false =>
    have hleft : Operation.sum.droppedLeft?.any (isSame · (s.constant? x)) = false := hzero
    obtain ⟨o, t, hrun, hst, hmade⟩ := Operation.build_joined hx hi hleft hindex
      (CType.join_pointer_integer hint)
    exact ⟨o, t, hrun, hst, hmade.hasType, by rw [hmade.constant?]; rfl⟩

theorem add_indices (hindices : ∀ i ∈ indices, ∃ ty, HasType s i ty ∧ ty.isInt = true) :
    ∃ o t, Runs (indices.foldlM (fun p i => Build.add p i) x) s o t ∧ HasType t o (.pointer base q) := by
  induction indices generalizing s x with
  | nil => exact ⟨x, s, rfl, hx⟩
  | cons i rest ih =>
    obtain ⟨ty, hi, hint⟩ := hindices i (by simp)
    obtain ⟨y, u, hadd, hsu, hy, hyzero⟩ := add_pointer_integer hx hzero hi hint
    obtain ⟨o, t, hrest, ho⟩ := ih hy hyzero fun j hj => by
      obtain ⟨ty, hj, hint⟩ := hindices j (by simp [hj])
      exact ⟨ty, hj.within hsu, hint⟩
    refine ⟨o, t, ?_, ho⟩
    exact runs_bind.2 ⟨y, u, hadd, hrest⟩

theorem indexMultiple_pointer (hindices : ∀ i ∈ indices, ∃ ty, HasType s i ty ∧ ty.isInt = true) :
    ∃ o t, Runs (Build.indexMultiple x indices) s o t ∧ HasType t o base := by
  obtain ⟨y, u, hsum, hy⟩ := add_indices hx hzero hindices
  obtain ⟨p, hp⟩ := create_runs (.dereference y) (some base) u
  refine ⟨.node u.next, u.add { form := .dereference y, type := some base, position := p }, ?_,
    Made.hasType made_add⟩
  refine runs_bind.2 ⟨y, u, hsum, ?_⟩
  show Runs (Build.dereference y) u _ _
  unfold Build.dereference
  simp only [runs_bind]
  exact ⟨_, u, hy.typeOf_runOn, base, u, rfl, hp⟩

theorem add_integer_pointer (hi : HasType s i ty) (hint : ty.isInt = true)
    (hindex : isSame 0 (s.constant? i) = false) :
    (Build.add i x).runOn s = (.error (.unpromotable ty (.pointer base q)), s) := by
  show (Operation.sum.build i x).runOn s = _
  exact Operation.build_unjoined hi hx hindex hzero (CType.join_integer_pointer hint)

end

/-- A pointer and an integer are promoted to the pointer if it comes first, and are refused if it comes second. So an index
that is added on the right of a pointer gives an address of the pointer's type, in a single sum and in an element access with
any number of indices. An index on the left is refused, and nothing is built, unless one of the two is a constant zero: that
one is dropped on either side. -/
theorem pointer_stands_first (hint : ty.isInt = true) :
    CType.promote (.pointer base q) ty = .ok (.pointer base q) ∧
    CType.promote ty (.pointer base q) = .error (.unpromotable ty (.pointer base q)) ∧
    ∀ (s : Session) (x i : Operand), HasType s x (.pointer base q) → HasType s i ty →
      (IsNumber s i 0 → Runs (Build.add i x) s x s) ∧
      (IsNumber s x 0 → Runs (Build.add x i) s i s ∧ (¬ IsNumber s i 0 → Runs (Build.add i x) s i s)) ∧
      (¬ IsNumber s x 0 → (∃ o t, Runs (Build.add x i) s o t ∧ HasType t o (.pointer base q)) ∧
        (∀ indices : List Operand, (∀ j ∈ indices, ∃ ty, HasType s j ty ∧ ty.isInt = true) →
          ∃ o t, Runs (Build.indexMultiple x indices) s o t ∧ HasType t o base) ∧
        (¬ IsNumber s i 0 → (Build.add i x).runOn s = (.error (.unpromotable ty (.pointer base q)), s) ∧
          (Build.indexMultiple i [x]).runOn s = (.error (.unpromotable ty (.pointer base q)), s))) := by
  refine ⟨CType.promote_pointer_integer hint, CType.promote_integer_pointer hint, fun s x i hx hi => ?_⟩
  refine ⟨add_dropped_left hi hx, fun hnull => ⟨add_dropped_left hx hi hnull, fun hindex => ?_⟩, fun hnull => ?_⟩
  · exact add_dropped_right hi hx (isSame_eq_false.2 hindex) (isSame_constant?.2 hnull)
  · have hzero := isSame_eq_false.2 hnull
    refine ⟨?_, fun indices hindices => indexMultiple_pointer hx hzero hindices, fun hindex => ?_⟩
    · obtain ⟨o, t, hrun, -, ho, -⟩ := add_pointer_integer hx hzero hi hint
      exact ⟨o, t, hrun, ho⟩
    · have hfails := add_integer_pointer hx hzero hi hint (isSame_eq_false.2 hindex)
      refine ⟨hfails, ?_⟩
      unfold Build.indexMultiple
      rw [runOn_bind, List.foldlM_cons, runOn_bind, hfails]

def walking : Session where
  nodes :=
    #[{ form := .var { role := .plain, name := .ofString "p" }, type := some (.pointer .float64 []), position := .unknown },
      { form := .var { role := .plain, name := .ofString "i" }, type := some .signedSize, position := .unknown }]

theorem walking_pointer_first :
    (∃ o t, Runs (Build.indexMultiple (.node ⟨0⟩) [.node ⟨1⟩, .node ⟨1⟩]) walking o t ∧ HasType t o .float64) ∧
    (Build.add (.node ⟨1⟩) (.node ⟨0⟩)).runOn walking =
      (.error (.unpromotable .signedSize (.pointer .float64 [])), walking) := by
  have hp : HasType walking (.node ⟨0⟩) (.pointer .float64 []) := ⟨_, rfl, rfl⟩
  have hi : HasType walking (.node ⟨1⟩) .signedSize := ⟨_, rfl, rfl⟩
  have hnumber : ∀ k, ¬ IsNumber walking (.node k) 0 := by
    rintro ⟨k⟩ ⟨_, v, hid, hf, -⟩
    cases hid
    rcases k with _ | _ | k <;> cases hf
  obtain ⟨-, -, hsums⟩ := (pointer_stands_first (rfl : CType.signedSize.isInt = true)).2.2 walking _ _ hp hi
  obtain ⟨-, hindices, hrefused⟩ := hsums (hnumber _)
  exact ⟨hindices _ (by simpa using ⟨_, hi, rfl⟩), (hrefused (hnumber _)).1⟩

/-- An index before a pointer has no type, though the two have one in the other order. -/
theorem index_before_pointer_refused :
    CType.promote .signedSize (.pointer .float32 []) = .error (.unpromotable .signedSize (.pointer .float32 [])) ∧
    CType.promote (.pointer .float32 []) .signedSize = .ok (.pointer .float32 []) :=
  ⟨rfl, rfl⟩

end Ast

end ArrayKernel
