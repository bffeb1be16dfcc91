import ArrayKernel.Proofs.RelocatedLayout

/-! # Pending statements, hoisting and promotion inside another session -/

namespace ArrayKernel.Layout

open Ast

variable {E : Guard}

/-! ## Statements around a body -/

theorem moves_joined : Mirrors E joined joined := by
  intro a b
  unfold joined
  rw [Operand.truthy_rename, Operand.truthy_rename]
  exact tracks_ite (fun _ => Build.moves_sequence [a, b]) fun _ => moves_pure Operand.absent

theorem moves_fuseFrom : Mirrors E fuseFrom fuseFrom := by
  intro last rest
  induction rest generalizing last with
  | nil => exact moves_pure [last]
  | cons next rest ih =>
    have hplain : Moves E (List.map E.operand) (do return last :: (← fuseFrom next rest))
        (do return E.operand last :: (← fuseFrom (E.operand next) (rest.map E.operand))) :=
      (ih next).bind fun fused => moves_pure (last :: fused)
    refine (tracks_formOf last).bind fun x x' hx => (tracks_formOf next).bind fun y y' hy => ?_
    obtain @⟨f, _, h | h | ⟨_, h⟩⟩ | _ := hx
    on_goal 3 => cases f
    case parallelChoice a b =>
      obtain @⟨g, _, h | h | ⟨_, h⟩⟩ | _ := hy
      on_goal 3 => cases g
      case parallelChoice a' b' =>
        refine (moves_joined a a').bind fun whenParallel => (moves_joined b b').bind fun otherwise => ?_
        exact (Build.moves_parallelChoice whenParallel otherwise).bind fun choice => ih choice
      all_goals exact hplain
    all_goals exact hplain

theorem moves_fuseChoices : Mirrors E fuseChoices fuseChoices := by
  refine fun o => (moves_identity o).bind fun i => tracks_knowing i fun form _ _ _ _ _ hf hi => ?_
  obtain h | h | ⟨_, h⟩ := hf
  on_goal 3 => cases form
  case sequence s =>
    cases s
    case group items =>
      cases items with
      | nil => exact moves_pure o
      | cons first rest =>
        simp only [Form.moved, Operand.rename_group, List.map_cons]
        refine (moves_fuseFrom first rest).bind fun statements => tracks_then (moves_reform i hi rfl ?_ rfl) (moves_pure o)
        rw [Form.moved, Operand.rename_group]
    all_goals exact tracks_throw _ _
  all_goals exact tracks_throw _ _

theorem moves_startPending : Mirrors E startPending startPending := by
  refine fun i isFunction => tracks_ite (fun _ => (Build.moves_sequence []).bind fun prepending => ?_) fun _ => ?_
  on_goal 1 => refine tracks_then (moves_updateMarks i fun _ => rfl) ?_
  all_goals exact (Build.moves_sequence []).bind fun appending => moves_updateMarks i fun _ => rfl

theorem moves_placePending : Mirrors E placePending placePending := by
  refine fun i isFunction => (tracks_node i).bind ?_
  rintro ⟨form, type, x, k⟩ _ ⟨f, -, rfl⟩
  refine tracks_ite (fun _ => (moves_pure (g := List.map E.operand) []).bind fun before => ?_) fun _ =>
    (moves_required k.prepending).bind fun p => (moves_pure (g := List.map E.operand) [p]).bind fun before => ?_
  all_goals
    refine (moves_bodyOf (.node i)).bind fun body => (moves_required k.appending).bind fun after => ?_
    have hplaced := Build.moves_sequence (E := E) (before ++ [body, after])
    rw [List.map_append] at hplaced
    refine Moves.bind hplaced fun placed => (moves_setBody (.node i) placed).bind fun _ => ?_
    refine moves_settings.bind fun _ => tracks_ite (fun _ => ?_) fun _ => moves_pure _
    exact (moves_fuseChoices placed).bind fun fused => moves_setBody (.node i) fused

theorem moves_prepend : Mirrors E prepend prepend := by
  refine fun o statement => (tracks_nodeOf o).bind ?_
  rintro n _ ⟨_, -, rfl⟩
  exact (moves_required n.marks.prepending).bind fun list => moves_appendTo list statement

theorem moves_append : Mirrors E append append := by
  refine fun o statement => (tracks_nodeOf o).bind ?_
  rintro n _ ⟨_, -, rfl⟩
  exact (moves_required n.marks.appending).bind fun list => moves_appendTo list statement

/-! ## Marks -/

theorem moves_setHoistable : Mirrors E setHoistable setHoistable := fun i _ => moves_updateMarks i fun _ => rfl

theorem moves_setBroadcasting : Mirrors E setBroadcasting setBroadcasting := fun i _ =>
  moves_updateMarks i fun _ => rfl

theorem moves_expressionMark {mark : Marks → Option Datum} (hmark : ∀ k : Marks, mark (k.moved E.name) = mark k) :
    Mirrors E (expressionMark mark) (expressionMark mark) := by
  refine fun o => (tracks_nodeOf o).bind ?_
  rintro n _ ⟨f, hf, rfl⟩
  simp only [hmark, hf.isExpression]
  cases mark n.marks with
  | some d => exact moves_pure d
  | none => exact tracks_ite (fun _ => moves_pure _) fun _ => tracks_throw _ _

theorem moves_hoistable : Mirrors E hoistable hoistable := moves_expressionMark fun _ => rfl

theorem moves_needsTemp : Mirrors E needsTemp needsTemp := moves_expressionMark fun _ => rfl

theorem moves_broadcastingOf : Mirrors E broadcastingOf broadcastingOf := by
  refine fun o => (tracks_nodeOf o).bind ?_
  rintro n _ ⟨f, -, rfl⟩
  exact moves_present n.marks.broadcasting

theorem moves_markVariable (function : Option NodeId) :
    Mirrors E (markVariable function) (markVariable (function.map E.name)) := by
  refine fun i => (moves_knownType (.node i)).bind fun type => ?_
  dsimp only [id]
  split
  · next dims _ =>
    refine (moves_required function).bind fun j => tracks_inFunction (.node j) fun f _ _ => ?_
    refine (moves_required f.loops).bind fun loops => ?_
    rw [List.length_map]
    refine tracks_ite (fun _ => ?_) fun _ => (moves_ofExcept _).bind fun last => tracks_ite (fun _ => ?_) fun _ => ?_
    · exact (moves_setHoistable i _).bind fun _ => moves_setBroadcasting i _
    · exact (moves_setHoistable i _).bind fun _ => moves_setBroadcasting i _
    · exact moves_setBroadcasting i _
  · exact moves_pure _

/-! ## Hoisting -/

theorem moves_hoistingLevel (function : Option NodeId) :
    Mirrors E (hoistingLevel function) (hoistingLevel (function.map E.name)) := by
  refine fun o => (moves_broadcastingOf o).bind fun dims => ?_
  cases dims with
  | none => exact tracks_throw _ _
  | some dims =>
    exact (moves_required function).bind fun j => tracks_inFunction (.node j) fun f _ _ => moves_pure _

section

variable {visit visit' : Operand → Action Operand} (hvisit : Visiting E visit visit')
variable (function : Option NodeId)

include hvisit

theorem moves_hoist : Mirrors E (hoist function visit) (hoist (function.map E.name) visit') := by
  refine fun o => (moves_hoistable o).bind fun d => tracks_ite (fun _ => moves_pure o) fun _ => ?_
  refine (moves_hoistingLevel function o).bind fun level => (moves_required function).bind fun j => ?_
  refine tracks_ite (fun _ => (moves_pure (g := E.operand) (Operand.node j)).bind fun place => ?_) fun _ =>
    tracks_inFunction (.node j) fun f _ _ => (moves_required f.loops).bind fun loops => ?_
  on_goal 2 =>
    dsimp only [id]
    rw [List.getElem?_map]
    rcases loops[level.toNat]? with _ | loop
    · exact tracks_throw_bind _ _
    refine (moves_pure loop).bind fun place => ?_
  all_goals
    refine (moves_typeOf o).bind fun t => (moves_dtypeOf t).bind fun dtype => ?_
    refine (Build.moves_temporary dtype coined_hoisted).bind fun temp => (moves_identity temp).bind fun i => ?_
    refine (moves_setBroadcasting i none).bind fun _ => (moves_descendantsOfKind _ _ o).bind fun vars => ?_
    refine (moves_forIn (fun v => (moves_identity v).bind fun i => ?_) vars).bind fun _ => ?_
    · exact tracks_then (moves_updateMarks i fun _ => rfl) (moves_pure _)
    refine (Build.moves_assign temp o _).bind fun statement => (moves_bodyOf place).bind fun body => ?_
    refine (Build.moves_sequence [statement, body]).bind fun both => ?_
    exact (moves_setBody place both).bind fun _ => hvisit temp

theorem moves_hoistIfPossible :
    Mirrors E (hoistIfPossible function visit) (hoistIfPossible (function.map E.name) visit') := fun o =>
  (moves_hoistable o).bind fun _ => tracks_ite (fun _ => moves_hoist hvisit function o) fun _ =>
    (moves_needsTemp o).bind fun _ => moves_pure o

theorem moves_hoistOperands : Mirrors E (hoistOperands function visit) (hoistOperands (function.map E.name) visit') := by
  intro i
  let Q (p q : Option (List Bool) × String × Operand) := q = (p.1, p.2.1, E.operand p.2.2) ∧ p.2.1 ≠ "operand"
  refine (moves_leftOf (.node i)).bind fun lhs => (moves_rightOf (.node i)).bind fun rhs => ?_
  refine (moves_hoistable lhs).bind fun left => tracks_ite (fun _ => (moves_hoistable rhs).bind fun right => ?_) fun _ => ?_
  on_goal 1 => refine (moves_pure (g := id) right.truthy).bind fun both => ?_
  on_goal 2 => refine (moves_pure (g := id) false).bind fun both => ?_
  all_goals
    refine tracks_ite (fun _ => tracks_ite (fun _ => ?_) fun _ => ?_) fun _ => ?_
    · refine (moves_hoist hvisit function lhs).bind fun lhs => (moves_setChild i "lhs" lhs (by decide)).bind fun _ => ?_
      exact moves_pure (Operand.node i)
    · refine (moves_hoist hvisit function rhs).bind fun rhs => (moves_setChild i "rhs" rhs (by decide)).bind fun _ => ?_
      exact moves_pure (Operand.node i)
    refine (moves_hoistingLevel function lhs).bind fun a => (moves_hoistingLevel function rhs).bind fun b => ?_
    refine tracks_ite (fun _ => ?_) fun _ => ?_
    · refine (moves_setHoistable i _).bind fun _ => (moves_broadcastingOf lhs).bind fun dims => ?_
      exact (moves_setBroadcasting i dims).bind fun _ => moves_pure (Operand.node i)
    refine tracks_ite (fun _ => (moves_broadcastingOf rhs).bind fun dims => ?_) fun _ =>
      (moves_broadcastingOf lhs).bind fun dims => ?_
    on_goal 1 => refine Tracks.bind (P := Q) (tracks_pure (x := (dims, "lhs", lhs)) ⟨rfl, by simp⟩) ?_
    on_goal 2 => refine Tracks.bind (P := Q) (tracks_pure (x := (dims, "rhs", rhs)) ⟨rfl, by simp⟩) ?_
    all_goals
      rintro p _ ⟨rfl, hp⟩
      refine (moves_hoist hvisit function p.2.2).bind fun operand => (moves_setChild i p.2.1 operand hp).bind fun _ => ?_
      refine (moves_typeOf (.node i)).bind fun type => (tracks_node i).bind ?_
      rintro n _ ⟨f, hf, rfl⟩
      rw [hf.operator?]
      refine (moves_present n.form.operator?).bind fun operator => (moves_leftOf (.node i)).bind fun l => ?_
      refine (moves_rightOf (.node i)).bind fun r => (Build.moves_binop type operator l r).bind fun whole => ?_
      refine (moves_identity whole).bind fun j => (moves_setBroadcasting j _).bind fun _ => ?_
      refine (moves_identity whole).bind fun j => (moves_setHoistable j _).bind fun _ => ?_
      exact moves_hoist hvisit function whole

omit hvisit in
theorem moves_markTemp : Mirrors E markTemp markTemp := by
  refine fun i => (moves_leftOf (.node i)).bind fun l => (moves_broadcastingOf l).bind fun a => ?_
  refine (moves_rightOf (.node i)).bind fun r => (moves_broadcastingOf r).bind fun b => ?_
  refine tracks_ite (fun _ => moves_updateMarks i fun k => rfl) fun _ => ?_
  refine (moves_leftOf (.node i)).bind fun l => (moves_needsTemp l).bind fun _ => ?_
  exact (moves_rightOf (.node i)).bind fun r => (moves_needsTemp r).bind fun _ => moves_pure _

theorem moves_hoistBinary : Mirrors E (hoistBinary function visit) (hoistBinary (function.map E.name) visit') := by
  refine fun i => (moves_transformChildren hvisit i).bind fun _ => (moves_setBroadcasting i none).bind fun _ => ?_
  refine (moves_leftOf (.node i)).bind fun lhs => (moves_rightOf (.node i)).bind fun rhs => ?_
  refine (moves_needsTemp lhs).bind fun d => tracks_ite (fun _ => ?_) fun _ => (moves_needsTemp rhs).bind fun d' => ?_
  on_goal 1 => refine (moves_pure (g := id) true).bind fun needs => ?_
  on_goal 2 => refine (moves_pure (g := id) d'.truthy).bind fun needs => ?_
  all_goals
    refine tracks_ite (fun _ => (moves_markTemp i).bind fun _ => moves_pure Operand.absent) fun _ => ?_
    refine (moves_hoistable lhs).bind fun d => tracks_ite (fun _ => ?_) fun _ => (moves_hoistable rhs).bind fun d' => ?_
    on_goal 1 => refine (moves_pure (g := id) true).bind fun either => ?_
    on_goal 2 => refine (moves_pure (g := id) d'.truthy).bind fun either => ?_
    all_goals exact tracks_ite (fun _ => moves_hoistOperands hvisit function i) fun _ => moves_pure (Operand.node i)

omit function in
theorem moves_hoistUnary {i : NodeId} (hi : E.Knows i .other) (operand : Operand) :
    Moves E id (hoistUnary visit i operand) (hoistUnary visit' (E.name i) (E.operand operand)) := by
  refine (hvisit operand).bind fun operand => (moves_setOperand i hi nofun "operand" operand).bind fun _ => ?_
  refine (moves_hoistable operand).bind fun d => (moves_setHoistable i d).bind fun _ => ?_
  refine (moves_needsTemp operand).bind fun needs => tracks_then (moves_updateMarks i fun _ => rfl) ?_
  exact (moves_broadcastingOf operand).bind fun dims => moves_setBroadcasting i dims

theorem moves_hoistNode : Mirrors E (hoistNode function visit) (hoistNode (function.map E.name) visit') := by
  refine fun i => tracks_knowing i fun form _ _ _ _ u hf hi => ?_
  replace hvisit := hvisit.since u
  have hself : Moves (E.since u) E.operand (return .node i) (return .node (E.name i) : Action Operand) :=
    moves_pure (Operand.node i)
  obtain h | h | ⟨_, h⟩ := hf
  on_goal 3 => cases form
  case function =>
    obtain ⟨-, -, -⟩ := h
    rename_i f _ _
    refine (moves_required f.loops).bind fun loops => ?_
    rw [List.getLast?_map]
    cases loops.getLast? with
    | none => exact tracks_throw _ _
    | some inner =>
      exact (moves_identity inner).bind fun j => (moves_transformChildren hvisit j).bind fun _ => hself
  case other.function => cases h
  case var v => exact (moves_markVariable function i).bind fun _ => hself
  case assign lhs rhs mayReorder =>
    refine (hvisit rhs).bind fun rhs => (moves_hoistIfPossible hvisit function rhs).bind fun rhs => ?_
    exact (moves_setChild i "rhs" rhs (by decide)).bind fun _ => hself
  case binop | index | vectorStore | vectorBinop => exact moves_hoistBinary hvisit function i
  case unop p operand => exact (moves_hoistUnary hvisit hi operand).bind fun _ => hself
  case loop l =>
    exact (moves_transformChildren hvisit i).bind fun _ => (moves_placePending i false).bind fun _ => hself
  case iterate => exact hself
  all_goals exact moves_passed hvisit i

end

theorem visiting_hoistWithin (function : Option NodeId) (depth : Nat) :
    Visiting E (hoistWithin function depth) (hoistWithin (function.map E.name) depth) := by
  induction depth with
  | zero => exact ⟨fun _ => tracks_throw _ _, fun h _ => (Stateful.ends_throw.1 h).elim⟩
  | succ depth ih =>
    refine visiting_atPosition (fun i => moves_hoistNode ih function i) fun h hc => ?_
    exact ends_constant h hc fun n hn => by rw [hn]

theorem moves_hoistBroadcasting : Mirrors E hoistBroadcasting hoistBroadcasting := by
  intro function
  unfold hoistBroadcasting
  rw [Operand.id?_rename]
  exact visiting_hoistWithin _ _ function

/-! ## Operands of one type -/

theorem moves_resolveType : Mirrors E resolveType resolveType := by
  refine fun i => (moves_knownType (.node i)).bind fun type => ?_
  refine tracks_when (fun _ => moves_updateNode i (fun _ => .refl _) ?_) (moves_pure _)
  rintro n _ ⟨f, hf, rfl⟩
  exact ⟨f, hf, rfl⟩

theorem moves_promoteOperands : Mirrors E promoteOperands promoteOperands := by
  refine fun target i => (moves_leftOf (.node i)).bind fun l => (Build.moves_promote target l).bind fun lhs => ?_
  refine (moves_setChild i "lhs" lhs (by decide)).bind fun _ => (moves_rightOf (.node i)).bind fun r => ?_
  exact (Build.moves_promote target r).bind fun rhs => moves_setChild i "rhs" rhs (by decide)

theorem moves_promoteNode {visit visit' : Operand → Action Operand} (hvisit : Visiting E visit visit') :
    Mirrors E (promoteNode visit) (promoteNode visit') := by
  refine fun i => tracks_knowing i fun form _ _ _ _ u hf hi => ?_
  replace hvisit := hvisit.since u
  have hself : Moves (E.since u) E.operand (return .node i) (return .node (E.name i) : Action Operand) :=
    moves_pure (Operand.node i)
  obtain h | h | ⟨_, h⟩ := hf
  on_goal 3 => cases form
  case unop p operand =>
    refine (moves_resolveType i).bind fun type => (hvisit operand).bind fun operand => ?_
    exact (Build.moves_promote type operand).bind fun operand => (moves_setOperand i hi nofun "operand" operand).bind fun _ => hself
  case binop | vectorBinop =>
    refine (moves_transformChildren hvisit i).bind fun _ => (moves_resolveType i).bind fun type => ?_
    refine tracks_ite (fun _ => (moves_leftOf (.node i)).bind fun l => (moves_rightOf (.node i)).bind fun r =>
      (Build.moves_joinTypes l r).bind fun target => ?_) fun _ => (moves_pure type).bind fun target => ?_
    all_goals
      exact (moves_known target).bind fun _ => tracks_when (fun _ => moves_promoteOperands target i) hself
  case assign =>
    refine (moves_transformChildren hvisit i).bind fun _ => (moves_resolveType i).bind fun _ => ?_
    refine (moves_leftOf (.node i)).bind fun l => (moves_typeOf l).bind fun type => ?_
    exact (moves_promoteOperands type i).bind fun _ => hself
  case var v =>
    obtain ⟨role, name, emitted, data, strides⟩ := v
    cases role
    case element e => exact hvisit e
    all_goals exact moves_passed hvisit i
  all_goals exact moves_passed hvisit i

theorem visiting_promoteWithin (depth : Nat) : Visiting E (promoteWithin depth) (promoteWithin depth) := by
  induction depth with
  | zero => exact ⟨fun _ => tracks_throw _ _, fun h _ => (Stateful.ends_throw.1 h).elim⟩
  | succ depth ih =>
    constructor
    · intro o
      cases o with
      | node i => exact moves_promoteNode ih i
      | datum d => exact tracks_throw _ _
      | group os => exact tracks_throw _ _
    · intro s t r c d h hc
      replace h : Runs (promoteNode (promoteWithin depth) c) s r t := h
      exact ends_constant h hc fun n hn => by rw [hn]

end ArrayKernel.Layout
