import ArrayKernel.Proofs.Arithmetic

/-!
# Types of operations

The builder gives an operation the joined type of its operands. Where the types cannot be joined it fails with the
fault of joining them, and the session is as it was.
-/

namespace ArrayKernel.Ast

variable {s t u : Session} {o l r : Operand} {op : Operation} {a b c : CType} {f : Form}

/-! ## Sessions that only grow -/

structure Within (s t : Session) : Prop where
  node? : ∀ {id n}, s.node? id = some n → t.node? id = some n

theorem Within.refl (s : Session) : Within s s := ⟨fun h => h⟩

theorem Within.trans (h : Within s t) (h' : Within t u) : Within s u := ⟨fun hn => h'.node? (h.node? hn)⟩

theorem Within.add (s : Session) (n : Node) : Within s (s.add n) := by
  constructor
  intro id m hm
  have hlt := node?_lt hm
  rw [node?_add, if_neg, hm]
  rintro rfl
  simp [Session.next] at hlt

def HasType (s : Session) (o : Operand) (ty : CType) : Prop := ∃ id, o = .node id ∧ s.type? id = some ty

theorem HasType.within (h : HasType s o a) (hst : Within s t) : HasType t o a := by
  obtain ⟨id, rfl, hty⟩ := h
  obtain ⟨n, hn, hty⟩ := Option.bind_eq_some_iff.1 hty
  exact ⟨id, rfl, by rw [type?_of_node? (hst.node? hn), hty]⟩

theorem HasType.constant?_within (h : HasType s o a) (hst : Within s t) : t.constant? o = s.constant? o := by
  obtain ⟨id, rfl, hty⟩ := h
  obtain ⟨n, hn, -⟩ := Option.bind_eq_some_iff.1 hty
  simp [Session.constant?, form?_of_node? hn, form?_of_node? (hst.node? hn)]

/-! ## Reading operands -/

theorem ofExcept_runOn {α : Type} (e : Except Fault α) (s : Session) : (Action.ofExcept e).runOn s = (e, s) := by
  cases e <;> rfl

theorem HasType.typeOf_runOn (h : HasType s o a) : (typeOf o).runOn s = (.ok a, s) := by
  obtain ⟨id, rfl, hty⟩ := h
  exact runs_typeOf.2 ⟨id, rfl, hty, rfl⟩

theorem HasType.joinTypes_runOn (hl : HasType s l a) (hr : HasType s r b) :
    (Build.joinTypes l r).runOn s = (a.join b, s) := by
  unfold Build.joinTypes
  simp only [runOn_bind, hl.typeOf_runOn, hr.typeOf_runOn, ofExcept_runOn]

theorem HasType.isConstant_runOn (h : HasType s o a) (n : Int) :
    (Build.isConstant o n).runOn s = (.ok (isSame n (s.constant? o)), s) := by
  obtain ⟨id, rfl, hty⟩ := h
  obtain ⟨m, hm, -⟩ := Option.bind_eq_some_iff.1 hty
  have hnode : (nodeOf (.node id)).runOn s = (.ok m, s) := runs_nodeOf.2 ⟨id, rfl, hm, rfl⟩
  unfold Build.isConstant
  simp only [runOn_bind, hnode, Session.constant?, form?_of_node? hm]
  cases m.form <;> rfl

theorem create_runs (f : Form) (ty : Option CType) (s : Session) :
    ∃ p, Runs (Build.create f ty) s (.node s.next) (s.add { form := f, type := ty, position := p }) :=
  ⟨(s.builders[s.builder]?.map Builder.position).getD .unknown, rfl⟩

/-! ## Operations -/

theorem HasType.rest_runOn (hl : HasType s l a) (hr : HasType s r b) (n : Int) (sign : String) : (do
      if ← Build.isConstant r n then return l
      Build.binop (← Build.resultType .absent l r) sign l r : Action Operand).runOn s =
    if isSame n (s.constant? r) then (.ok l, s)
    else (Action.ofExcept (a.join b) >>= fun c => Build.binop c sign l r).runOn s := by
  have htype : Build.resultType .absent l r = Build.joinTypes l r := rfl
  rw [runOn_bind, hr.isConstant_runOn, htype]
  cases isSame n (s.constant? r) with
  | true => rfl
  | false =>
    dsimp only
    rw [if_neg Bool.false_ne_true, if_neg Bool.false_ne_true, runOn_bind, hl.joinTypes_runOn hr, runOn_bind,
      ofExcept_runOn]

theorem Operation.build_runOn (hl : HasType s l a) (hr : HasType s r b) (op : Operation) :
    (op.build l r).runOn s =
      if op.droppedLeft?.any (isSame · (s.constant? l)) then (.ok r, s)
      else if isSame op.droppedRight (s.constant? r) then (.ok l, s)
      else (Action.ofExcept (a.join b) >>= fun c => Build.binop c op.sign l r).runOn s := by
  cases op with
  | sum | difference =>
    rw [← hl.rest_runOn hr]
    show (Build.isConstant l 0 >>= _).runOn s = _
    rw [runOn_bind, hl.isConstant_runOn]
    cases h : isSame 0 (s.constant? l) <;> simp [droppedLeft?, h] <;> rfl
  | product =>
    rw [← hl.rest_runOn hr]
    show (Build.isConstant l 1 >>= _).runOn s = _
    rw [runOn_bind, hl.isConstant_runOn]
    cases h : isSame 1 (s.constant? l) <;> simp [droppedLeft?, h] <;> rfl
  | quotient => exact hl.rest_runOn hr 1 "/"

theorem Made.hasType (h : Made s t o f (some a)) : HasType t o a := by
  obtain ⟨id, rfl, -, -, hty⟩ := h
  exact ⟨id, rfl, hty⟩

theorem Made.constant? {sign : String} {ty : Option CType} (h : Made s t o (.binop sign l r) ty) :
    t.constant? o = none := by
  obtain ⟨id, rfl, -, hf, -⟩ := h
  simp [Session.constant?, hf]

theorem Operation.build_joined (hl : HasType s l a) (hr : HasType s r b)
    (hleft : op.droppedLeft?.any (isSame · (s.constant? l)) = false)
    (hright : isSame op.droppedRight (s.constant? r) = false) (hjoin : a.join b = .ok c) :
    ∃ o t, Runs (op.build l r) s o t ∧ Within s t ∧ Made s t o (.binop op.sign l r) (some c) := by
  obtain ⟨p, hp⟩ := create_runs (.binop op.sign l r) (some c) s
  refine ⟨_, _, ?_, .add s { form := .binop op.sign l r, type := some c, position := p }, made_add⟩
  unfold Runs
  rw [op.build_runOn hl hr, hleft, hright, if_neg Bool.false_ne_true, if_neg Bool.false_ne_true, runOn_bind,
    ofExcept_runOn, hjoin]
  exact hp

theorem Operation.build_unjoined {e : Fault} (hl : HasType s l a) (hr : HasType s r b)
    (hleft : op.droppedLeft?.any (isSame · (s.constant? l)) = false)
    (hright : isSame op.droppedRight (s.constant? r) = false) (hjoin : a.join b = .error e) :
    (op.build l r).runOn s = (.error e, s) := by
  rw [op.build_runOn hl hr, hleft, hright, if_neg Bool.false_ne_true, if_neg Bool.false_ne_true, runOn_bind,
    ofExcept_runOn, hjoin]

end ArrayKernel.Ast
