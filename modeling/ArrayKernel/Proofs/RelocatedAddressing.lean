import ArrayKernel.Proofs.RelocatedPointers

/-! # Addressing inside another session -/

namespace ArrayKernel.Layout

open Ast

namespace Addressed

variable {E : Guard} {α β : Type}
variable {visit visit' : Operand → Addressed Operand} (hvisit : Visiting E visit visit')

/-! ## Elements -/

section

include hvisit

theorem moves_announceElement : Mirrors E (announceElement visit) (announceElement visit') := by
  refine fun array item => (moves_nameOf array).lift.bind fun name => (moves_shownName name).lift.bind fun shown => ?_
  refine (moves_announce _ [item]).lift.bind fun said => (hvisit said).bind fun line => ?_
  refine moves_currentLoop.bind fun loop => (moves_prepend loop line).lift.bind fun _ => ?_
  refine moves_scheme.bind fun s => tracks_ite (fun _ => moves_state.bind fun a => ?_) fun _ => moves_pure _
  refine (moves_lookup a.strides array).lift.bind fun found => ?_
  cases found with
  | none => exact tracks_throw_bind _ _
  | some strides =>
    refine (moves_pure strides).bind fun strides => ?_
    dsimp only [movedStrides]
    rw [List.zipIdx_map]
    refine Moves.bind (moves_filterMapM (l := E.operand) ?_ _) fun lines => ?_
    · rintro ⟨_ | s, n⟩
      · exact moves_pure none
      · exact (moves_announce _ [s]).lift.bind fun line => moves_pure (some line)
    refine (Build.moves_sequence lines).lift.bind fun all => ?_
    exact (hvisit all).bind fun steps => moves_function.bind fun f => (moves_prepend f steps).lift

theorem moves_elementAt : Mirrors E (elementAt visit) (elementAt visit') := by
  intro array pointer loop isIndexed
  refine tracks_ite (fun _ => (moves_loopOf loop).lift.bind fun l =>
    (Build.moves_index pointer l.index _).lift.bind fun item => ?_) fun _ => (Build.moves_dereference pointer).lift.bind fun item => ?_
  all_goals
    refine moves_settings.lift.bind fun _ => ?_
    exact tracks_when (fun _ => moves_announceElement hvisit array item) (moves_pure item)

theorem moves_registerAt : Mirrors E (registerAt visit) (registerAt visit') := by
  intro array pointer loop isIndexed
  refine tracks_ite (fun _ => (moves_loopOf loop).lift.bind fun l =>
    (Build.moves_add pointer l.index _ _).lift.bind fun pointer => ?_) fun _ => (moves_pure pointer).bind fun pointer => ?_
  all_goals
    refine moves_state.bind fun a => tracks_ite (fun _ => moves_pure pointer) fun _ => moves_scheme.bind fun s => ?_
    refine (Build.moves_vectorVariable array _).lift.bind fun register => moves_state.bind fun a => ?_
    refine (moves_lookup a.registers register).lift.bind fun found => ?_
    cases found with
    | some temp => exact moves_pure temp
    | none =>
      refine (Build.moves_vectorLoad pointer _).lift.bind fun load => (moves_typeOf register).lift.bind fun t => ?_
      refine (Build.moves_temporary t coined_register).lift.bind fun temp => moves_state.bind fun a => ?_
      refine (moves_insert a.registers register temp).lift.bind fun table => ?_
      refine tracks_then (moves_note fun _ => rfl) ((Build.moves_assign temp load _).lift.bind fun statement => ?_)
      exact (moves_prepend loop statement).lift.bind fun _ => hvisit temp

end

theorem moves_isHoisted : Mirrors E isHoisted isHoisted := by
  refine fun o => (tracks_nodeOf o).bind ?_
  rintro ⟨form, type, x, k⟩ _ ⟨f, hf, rfl⟩
  obtain h | h | ⟨_, h⟩ := hf
  on_goal 3 => cases form
  case var v => exact moves_pure k.isHoisted
  all_goals exact tracks_throw _ _

theorem moves_isInner : Mirrors E isInner isInner := by
  refine fun o type => moves_scheme.bind fun s => moves_state.bind fun a => tracks_functionData.bind ?_
  rintro f _ ⟨-, -, -⟩
  refine tracks_ite (fun _ => (moves_pure false).bind fun _ => moves_pure _) fun _ => ?_
  refine tracks_ite (fun _ => (moves_pure true).bind fun _ => moves_pure _) fun _ => ?_
  exact (moves_isHoisted o).lift.bind fun _ => moves_pure _

theorem moves_pointerTo : Mirrors E pointerTo pointerTo := by
  intro o isInner
  refine (moves_nameOf o).lift.bind fun name => (moves_passedData name).bind fun data => moves_scheme.bind fun s => ?_
  refine tracks_ite (fun _ => moves_pure data) fun _ => ?_
  exact (moves_storeStrides o isInner).bind fun _ => moves_pointerAt o data isInner

section

include hvisit

theorem moves_addressVariable : Mirrors E (addressVariable visit) (addressVariable visit') := by
  refine fun o => (moves_knownType o).lift.bind fun type => tracks_ite (fun _ => moves_pure o) fun _ => ?_
  refine (moves_isInner o type).bind fun inner => (moves_pointerTo o inner).bind fun pointer => ?_
  refine moves_currentLoop.bind fun loop => moves_scheme.bind fun s => moves_state.bind fun a => ?_
  refine tracks_ite (fun _ => moves_registerAt hvisit o pointer loop _) fun _ => ?_
  exact (moves_elementAt hvisit o pointer loop _).bind fun item => (Build.moves_element _ item).lift

/-! ## Other nodes -/

omit hvisit in
theorem moves_deeper {k : α → β} (isLoop : Bool) {act : Addressed α} {act' : Addressed β} (h : Moves E k act act') :
    Moves E k (deeper isLoop act) (deeper isLoop act') := by
  refine tracks_then (moves_note fun _ => rfl) (h.bind fun r => ?_)
  exact tracks_then (moves_note fun _ => rfl) (moves_pure r)

theorem moves_visitFlagged : Mirrors E (visitFlagged visit) (visitFlagged visit') := by
  refine fun i isVector => moves_state.bind fun a => tracks_then (moves_note fun _ => rfl) ?_
  exact (moves_transformChildren hvisit i).bind fun _ => moves_note fun _ => rfl

theorem moves_addressFunction : Mirrors E (addressFunction visit) (addressFunction visit') := by
  refine fun i => tracks_then (moves_note fun _ => rfl) (moves_state.bind fun a => ?_)
  refine (moves_specializer a.specializer).lift.bind fun s => (moves_required s.indices).lift.bind fun _ => ?_
  refine moves_settings.lift.bind fun _ => tracks_ite (fun _ => ?_) fun _ => ?_
  on_goal 1 => refine (moves_hoistBroadcasting (.node i)).lift.bind fun _ => ?_
  all_goals
    refine (moves_startPending i true).lift.bind fun _ => (moves_transformChildren hvisit i).bind fun _ => ?_
    exact (moves_placePending i true).lift

theorem moves_addressLoop (i : NodeId) (l : Loop) :
    Moves E id (addressLoop visit i l) (addressLoop visit' (E.name i) (l.moved E.name)) := by
  refine moves_loops.bind fun loops => (moves_isAmong (.node i) loops).lift.bind fun b => ?_
  refine tracks_ite (fun _ => (moves_pure (g := id) true).bind fun isLoop => ?_) fun _ =>
    (moves_pure (g := id) l.isFixup).bind fun isLoop => ?_
  all_goals
    refine moves_deeper isLoop ((moves_startPending i false).lift.bind fun _ => ?_)
    exact (moves_visitFlagged hvisit i l.isVector).bind fun _ => (moves_placePending i false).lift

theorem moves_addressAssignment : Mirrors E (addressAssignment visit) (addressAssignment visit') := by
  intro i lhs
  refine tracks_then (moves_note fun _ => rfl) ((hvisit lhs).bind fun lhs => ?_)
  refine (moves_setChild i "lhs" lhs (by decide)).lift.bind fun _ => tracks_then (moves_note fun _ => rfl) ?_
  refine (moves_rightOf (.node i)).lift.bind fun r => (hvisit r).bind fun rhs => ?_
  refine (moves_setChild i "rhs" rhs (by decide)).lift.bind fun _ => (moves_knownType lhs).lift.bind fun _ => ?_
  refine tracks_ite (fun _ => (moves_knownType rhs).lift.bind fun _ => ?_) fun _ => moves_pure (Operand.node i)
  exact tracks_ite (fun _ => (Build.moves_vectorStore lhs rhs).lift) fun _ => moves_pure (Operand.node i)

theorem moves_addressBinop : Mirrors E (addressBinop visit) (addressBinop visit') := by
  refine fun i operator => (moves_knownType (.node i)).lift.bind fun t => (moves_known _).lift.bind fun type => ?_
  refine moves_settings.lift.bind fun _ => tracks_ite (fun _ => (moves_present _).lift.bind fun size => ?_) fun _ => ?_
  · refine (Build.moves_variableOf _ fun _ _ _ => .inl ?_).lift.bind fun callee => ?_
    on_goal 1 => split <;> decide
    refine (moves_leftOf (.node i)).lift.bind fun l => (moves_rightOf (.node i)).lift.bind fun r => ?_
    exact (Build.moves_call callee [l, r] _).lift.bind hvisit.mirrors
  · exact (moves_transformChildren hvisit i).bind fun _ => moves_pure (Operand.node i)

theorem moves_addressUnop : Mirrors E (addressUnop visit) (addressUnop visit') := by
  refine fun i operator operand => (moves_knownType (.node i)).lift.bind fun t => tracks_ite (fun _ => ?_) fun _ => ?_
  · refine (moves_knownType operand).lift.bind fun type => (Build.moves_vectorConstant type _).lift.bind fun zero => ?_
    exact (Build.moves_binop type "-" zero operand).lift.bind hvisit.mirrors
  · exact (moves_transformChildren hvisit i).bind fun _ => moves_pure (Operand.node i)

theorem moves_addressConditional : Mirrors E (addressConditional visit) (addressConditional visit') := by
  refine fun i => (moves_transformChildren hvisit i).bind fun _ => moves_settings.lift.bind fun _ => ?_
  refine tracks_ite (fun _ => moves_pure (Operand.node i)) fun _ => (tracks_node i).lift.bind ?_
  rintro ⟨form, type, x, k⟩ _ ⟨f, hf, rfl⟩
  obtain h | h | ⟨_, h⟩ := hf
  on_goal 3 => cases form
  case conditional condition lhs rhs =>
    refine (moves_typeOf lhs).lift.bind fun t => (Build.moves_temporary t coined_choice).lift.bind fun temp => ?_
    refine (Build.moves_assign temp lhs _).lift.bind fun whenTrue => ?_
    refine (Build.moves_assign temp rhs _).lift.bind fun whenFalse => ?_
    refine (Build.moves_branch condition whenTrue whenFalse).lift.bind fun choice => moves_state.bind fun a => ?_
    refine tracks_ite (fun _ => moves_currentLoop.bind fun place => ?_) fun _ => moves_function.bind fun place => ?_
    all_goals exact (moves_prepend place choice).lift.bind fun _ => moves_pure temp
  all_goals exact moves_pure (Operand.node i)

omit hvisit in
theorem moves_addressRaise : Mirrors E addressRaise addressRaise := by
  intro exception message args
  cases args with
  | node i | datum d => exact tracks_throw _ _
  | group items =>
    rw [Frame.operand, Frame.operand, Frame.operand, Operand.rename_group]
    unfold addressRaise
    dsimp only
    rw [List.length_map]
    refine (Build.moves_functionName _ _ _).lift.bind fun callee => ?_
    have hcall := Build.moves_call (E := E) callee ([exception, message] ++ items) (.bool false)
    exact hcall.lift.bind fun c => (Build.moves_statement c).lift

theorem moves_addressHandler {i : NodeId} (hi : E.Knows i .handling) (h : Handler) :
    Moves E id (addressHandler visit i h) (addressHandler visit' (E.name i) (h.moved E.name)) := by
  have hreports : E.Reports := by
    intro K s hs
    obtain ⟨f, hf, hkept⟩ := hi K s hs
    cases f with
    | handler g => exact K.handled hs.holds hf
    | _ => cases hkept
  refine (Build.moves_temporary _ coined_temp).lift.bind fun failed => ?_
  refine (Build.moves_assign failed (.datum (.int 0)) _).lift.bind fun errorStart => ?_
  refine (Build.moves_jump hreports h.cleanupLabel).lift.bind fun cleanupJump => ?_
  refine (Build.moves_jumpTarget h.errorLabel).lift.bind fun errorTarget => ?_
  refine (Build.moves_jumpTarget h.cleanupLabel).lift.bind fun cleanupTarget => ?_
  refine (Build.moves_assign failed (.datum (.int 1)) _).lift.bind fun errorSet => moves_state.bind fun a => ?_
  obtain ⟨_, _, _, _, _, _, _, _, _ | ⟨outer, labels⟩⟩ := a
  on_goal 1 =>
    refine tracks_functionData.bind ?_
    rintro f _ ⟨-, -, -⟩
    refine (Build.moves_yield f.errorValue (hreports.admits rfl)).lift.bind fun onwards => ?_
  on_goal 2 => refine (Build.moves_jump hreports outer).lift.bind fun onwards => ?_
  all_goals
    refine (Build.moves_branch failed onwards .absent).lift.bind fun cascade => ?_
    refine tracks_then (Moves.lift (moves_reform i hi rfl rfl rfl)) (tracks_then (moves_note fun _ => rfl) ?_)
    refine (moves_transformChildren hvisit i).bind fun _ => moves_note fun a => ?_
    simp only [Addressing.moved, List.map_drop]

/-! ## The pass -/

omit hvisit in
theorem moves_resolve (hr : ∀ K, E.keeps K → Resolves K) {i : NodeId} (hi : E.Knows i .foreign) (text : String)
    (type : CType) : Moves E id (updateForm i fun _ => .foreign ("resolved_" ++ text) type)
      (updateForm (E.name i) fun _ => .foreign ("resolved_" ++ text) type) := by
  refine moves_alter i (fun w hw K hK => ?_) fun _ _ => Frame.Node.reform fun _ _ _ => .other (.foreign _ type) rfl
  obtain ⟨f, hf, hkept⟩ := hi K w (hw K hK)
  refine ⟨hr K hK (hw K hK).holds ⟨f, hf, hkept⟩, .alter fun n hn => ?_⟩
  rw [form_of_node? hn hf, hkept]
  rfl

theorem moves_addressForm (hr : ∀ K, E.keeps K → Resolves K) {i : NodeId} {f f' : Form} (hi : E.Knows i f.kept)
    (hf : E.Form f f') : Moves E E.operand (addressForm visit i f) (addressForm visit' (E.name i) f') := by
  have hself : Moves E E.operand (return .node i) (return .node (E.name i) : Addressed Operand) :=
    moves_pure (Operand.node i)
  obtain h | h | ⟨_, h⟩ := hf
  on_goal 3 => cases f
  case function => exact (moves_addressFunction hvisit i).bind fun _ => hself
  case other.function => cases h
  case var v =>
    obtain ⟨role, name, emitted, data, strides⟩ := v
    cases role
    case register owner => exact moves_addressVariable hvisit owner
    case temporary => exact hself
    all_goals exact moves_addressVariable hvisit (.node i)
  case loop l => exact (moves_addressLoop hvisit i l).bind fun _ => hself
  case branch b => exact (moves_deeper _ (moves_visitFlagged hvisit i b.isVector)).bind fun _ => hself
  case assign lhs rhs k => exact moves_addressAssignment hvisit i lhs
  case binop p l r | vectorStore p l r | vectorBinop p l r => exact moves_addressBinop hvisit i p
  case unop p operand => exact moves_addressUnop hvisit i p operand
  case dereference operand =>
    exact (hvisit operand).bind fun operand => (moves_setOperand i hi nofun "operand" operand).lift.bind fun _ => tracks_throw _ _
  case conditional => exact moves_addressConditional hvisit i
  case print args =>
    cases args with
    | node j | datum d => exact tracks_throw _ _
    | group items =>
      simp only [Form.moved, Operand.rename_group]
      exact (Build.moves_printCall items).lift
  case positionInfo => exact tracks_throw _ _
  case raise p e s a => exact moves_addressRaise e s a
  case handler g => exact (moves_addressHandler hvisit hi g).bind fun _ => hself
  case pragmaLoop loop =>
    exact moves_scheme.bind fun _ => tracks_ite (fun _ => hvisit loop) fun _ => moves_passed hvisit i
  case sequence s =>
    exact (moves_transformChildren hvisit i).bind fun _ => (moves_fuseChoices (.node i)).lift
  case iterate => exact hself
  case foreign text owned =>
    exact moves_settings.lift.bind fun _ => tracks_when (fun _ => Moves.lift (moves_resolve hr hi text owned)) hself
  all_goals exact moves_passed hvisit i

end

theorem visiting_addressWithin (hr : ∀ K, E.keeps K → Resolves K) (depth : Nat) :
    Visiting E (addressWithin depth) (addressWithin depth) := by
  induction depth with
  | zero => exact ⟨fun _ => tracks_throw _ _, fun h _ => (Stateful.ends_throw.1 h).elim⟩
  | succ depth ih =>
    refine visiting_atPosition (fun i => ?_) fun h hc => ends_constant h hc fun n hn => by rw [hn]; rfl
    exact tracks_knowing i fun _ _ _ _ _ s hf hi => moves_addressForm (ih.since s) hr hi hf

end Addressed

theorem moves_address {E : Guard} {sp : Nat} (hr : ∀ K, E.keeps K → Resolves K) :
    Mirrors E (address sp) (address (E.slot sp)) := by
  intro o
  have h := (Addressed.visiting_addressWithin (E := E) hr depthLimit o).run (x := { specializer := sp })
    rfl
  refine Tracks.bind h ?_
  rintro ⟨o, _⟩ ⟨_, _⟩ ⟨rfl, -⟩
  exact moves_pure o

theorem moves_finish {E : Guard} {sp : Nat} (hr : ∀ K, E.keeps K → Resolves K) (o : Operand) :
    Moves E E.operand (do promoteTypes (← if (← settings).addressing then address sp o else pure o))
      (do promoteTypes (← if (← settings).addressing then address (E.slot sp) (E.operand o) else pure (E.operand o))) := by
  refine moves_settings.bind fun s => ?_
  refine tracks_ite (fun _ => (moves_address hr o).bind fun o => ?_) fun _ => (moves_pure o).bind fun o => ?_
  all_goals exact visiting_promoteWithin depthLimit o

end ArrayKernel.Layout
