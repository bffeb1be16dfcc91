import ArrayKernel.Pipeline
import ArrayKernel.Proofs.Unhoisted

/-!
# Hoisting with nothing to hoist

Hoisting that ends well changes nothing in a kernel without broadcast operands. It need not end well: it asks
the operand of a unary operator for its broadcast dimensions, which nothing has recorded if there are none.
-/

namespace ArrayKernel.Ast

variable {s t : Session} {o : Operand} {fid : NodeId} {R : NodeId → Prop}

/-- Hoisting a kernel without broadcast operands, if it ends well, gives the kernel back, and no node has
changed but for the marks that only hoisting reads. -/
theorem hoisting_keeps_unbroadcast_kernel (hs : Unbroadcast R fid s)
    (h : Runs (Layout.hoistBroadcasting (.node fid)) s o t) : o = .node fid ∧ t.bare = s.bare :=
  hoistBroadcasting_quiet h hs

def copying : Session where
  nodes :=
    let type := CType.array CType.float64 1 false false false none
    #[{ form := .function {
          name := .text "f", body := .node ⟨1⟩, arguments := .group [], scalarArguments := .group [], arrays := []
          byName := [], shape := .absent, posinfo := .absent, errorValue := .absent, successValue := .absent
          ompSize := .absent, ndim := 1, loops := some [.node ⟨1⟩] }
        type := none, position := .unknown },
      { form := .loop { start := .absent, condition := .absent, step := .absent, body := .node ⟨2⟩, index := .absent }
        type := none, position := .unknown },
      { form := .statement (.node ⟨3⟩), type := none, position := .unknown },
      { form := .assign (.node ⟨4⟩) (.node ⟨5⟩) (.bool true), type := some type, position := .unknown },
      { form := .var { role := .plain, name := .ofString "out" }, type := some type, position := .unknown },
      { form := .var { role := .plain, name := .ofString "a" }, type := some type, position := .unknown }]

theorem copying_unbroadcast : Unbroadcast (fun id => id.index ∈ [1, 2, 3, 4, 5]) ⟨0⟩ copying where
  still := by
    rintro ⟨i⟩ n hi hn
    simp only [List.mem_cons, List.not_mem_nil, or_false] at hi
    rcases hi with rfl | rfl | rfl | rfl | rfl
    all_goals
      obtain rfl := Option.some.inj hn
      constructor
      · simp [copying, Form.ids, Form.children, Operand.ids, Operand.absent]
      · simp [copying]
      · rfl
      · rfl
      · rfl
      · intro v ty dims hform hty hdims
        cases hform <;> cases hty <;> cases hdims
  inner := ⟨_, _, ⟨1⟩, rfl, rfl, rfl, by simp⟩

theorem hoisting_keeps_copying : ∃ o t, Runs (Layout.hoistBroadcasting (.node ⟨0⟩)) copying o t ∧
    o = .node ⟨0⟩ ∧ t.bare = copying.bare := by
  obtain ⟨o, t, h⟩ := exists_runs (a := Layout.hoistBroadcasting (.node ⟨0⟩)) (s := copying) (by decide +kernel)
  exact ⟨o, t, h, hoisting_keeps_unbroadcast_kernel copying_unbroadcast h⟩

def negation : Action Operand := do
  let type := CType.array CType.float64 1 false false false none
  let out ← Build.variableOf type (.text "out")
  let a ← Build.variableOf type (.text "a")
  Build.functionOver [out, a] (← Build.assignment out (← Build.unop type "-" a)) (.text "f")

/-- Nothing is broadcast in the negation of an array, but it can be run only without hoisting. -/
theorem negation_needs_hoisting_off :
    (negation >>= fun k => runKernel k ⟨.strided, .rowMajor, none⟩).succeeds {} = false ∧
      (negation >>= fun k => runKernel k ⟨.strided, .rowMajor, none⟩).succeeds
        { settings := { hoistBroadcasting := false } } = true := by
  constructor
  · decide +kernel
  · decide +kernel

end ArrayKernel.Ast
