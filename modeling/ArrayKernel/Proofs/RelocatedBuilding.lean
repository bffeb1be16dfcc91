import ArrayKernel.Proofs.RelocatedGraph

/-! # Building inside another session -/

namespace ArrayKernel.Build

open Ast

variable {E : Guard}

/-! ## Nodes -/

theorem moves_createForm {f f' : Form} (h : E.Form f f') (ha : E.Admits f) (type : Option CType) :
    Moves E E.operand (create f type) (create f' type) :=
  moves_position.bind fun _ => (moves_addNode ⟨_, h, rfl⟩ ha).bind fun i => moves_pure (Operand.node i)

theorem moves_createAdmitted (f : Form) (h : Frame.counts f = false) (ha : E.Admits f) (type : Option CType) :
    Moves E E.operand (create f type) (create (f.moved E.name) type) := moves_createForm (.other f h) ha type

/-- The forms that passes may add anywhere, and that are the same in all places. -/
def isOrdinary (f : Form) : Bool := f.isPlain && !Frame.counts f

theorem moves_createAs {f f' : Form} (hf : f' = f.moved E.name) (h : isOrdinary f = true) (type : Option CType) :
    Moves E E.operand (create f type) (create f' type) := by
  subst hf
  obtain ⟨hplain, hcounts⟩ := Bool.and_eq_true_iff.1 h
  exact moves_createAdmitted f (by simpa using hcounts) (fun K _ _ => K.plain hplain) type

theorem moves_create (f : Form) (h : isOrdinary f = true) (type : Option CType) :
    Moves E E.operand (create f type) (create (f.moved E.name) type) := moves_createAs rfl h type

theorem moves_createConstant {a b : Datum} (h : E.Value a b) (type : Option CType) :
    Moves E E.operand (create (.constant a) type) (create (.constant b) type) :=
  moves_createForm (.constant h) (fun K _ _ => K.plain rfl) type

theorem moves_inferType {a b : Datum} (h : E.Value a b) : Moves E id (inferType a) (inferType b) := by
  cases h with
  | same =>
    cases a
    case bool | int | float | text => exact moves_pure _
    all_goals exact tracks_throw _ _
  | text h => exact moves_pure _

theorem tracks_constant {a b : Datum} (h : E.Value a b) (type : CType) :
    Moves E E.operand (constant a type) (constant b type) :=
  tracks_ite (fun _ => (moves_inferType h).bind fun t => moves_createConstant h (some t))
    fun _ => (moves_pure type).bind fun t => moves_createConstant h (some t)

theorem moves_constant : Mirrors E @constant @constant := fun d type => tracks_constant (.same d) type

theorem moves_variableOf (type : CType) {name : String} (h : ∀ K s, E.At K s → Lent s name) :
    Moves E E.operand (variableOf type (.text name)) (variableOf type (.text name)) :=
  moves_createAdmitted (.var { role := .plain, name := .datum (.text name) }) rfl (fun K s hs => K.lent hs.holds (h K s hs)) _

theorem moves_nextTemporary : Moves E id nextTemporary nextTemporary := by
  refine tracks_action (fun hg _ hr => ?_) (fun hp hr => ?_) (fun hp hr => ?_)
  on_goal 1 =>
    obtain ⟨-, rfl⟩ := runs_nextTemporary.1 hr
    exact hg.same (fun _ => rfl) rfl
  all_goals
    obtain ⟨rfl, rfl⟩ := runs_nextTemporary.1 hr
    refine ⟨_, _, runs_nextTemporary.2 ⟨rfl, rfl⟩, ?_, ?_⟩
    all_goals rw [hp.builderAt]
    · rfl
    · exact hp.updateBuilder _

theorem moves_temporary (type : CType) {name : String} (h : Coined name) :
    Moves E E.operand (temporary type name) (temporary type name) := by
  unfold temporary temporaryNamed
  simp only [h.isEmpty, pure_bind]
  exact moves_nextTemporary.bind fun n =>
    moves_createAdmitted (.var { role := .temporary (shownTemporary name n), name := .ofString name }) rfl
      (fun K _ _ => K.temporary h) _

theorem moves_element : Mirrors E element element := fun name found => (moves_typeOf found).bind fun type =>
  moves_createAdmitted (.var { role := .element found, name }) rfl (fun K _ _ => K.held ⟨found, .inl rfl⟩) (some type)

/-! ## Operators -/

theorem moves_binop : Mirrors E binop binop := fun _ operator lhs rhs =>
  moves_create (.binop operator lhs rhs) rfl _

theorem moves_joinTypes : Mirrors E joinTypes joinTypes := fun lhs rhs =>
  (moves_typeOf lhs).bind fun _ => (moves_typeOf rhs).bind fun _ => moves_ofExcept _

theorem moves_isConstant : Mirrors E isConstant isConstant := by
  refine fun o n => tracks_reading o fun form _ _ _ _ hf => ?_
  obtain ⟨_ | h⟩ | h | ⟨_, h⟩ := hf
  on_goal 4 => cases form
  case constant.same => exact moves_pure _
  case other.constant => cases h
  all_goals exact moves_pure false

theorem moves_resultType : Mirrors E resultType resultType := fun type lhs rhs =>
  tracks_ite (fun _ => moves_joinTypes lhs rhs) fun _ => moves_pure type

theorem moves_add : Mirrors E @add @add := fun lhs rhs type operator =>
  (moves_isConstant lhs 0).bind fun _ => tracks_ite (fun _ => moves_pure rhs) fun _ =>
    (moves_isConstant rhs 0).bind fun _ => tracks_ite (fun _ => moves_pure lhs) fun _ =>
      (moves_resultType type lhs rhs).bind fun type => moves_binop type operator lhs rhs

theorem moves_sub : Mirrors E @sub @sub := fun lhs rhs type => moves_add lhs rhs type "-"

theorem moves_mul : Mirrors E @mul @mul := by
  refine fun lhs rhs type operator => tracks_ite (fun _ => ?_) fun _ => ?_
  on_goal 1 => refine (moves_isConstant lhs 1).bind fun _ => tracks_ite (fun _ => moves_pure rhs) fun _ => ?_
  all_goals
    exact (moves_isConstant rhs 1).bind fun _ => tracks_ite (fun _ => moves_pure lhs) fun _ =>
      (moves_resultType type lhs rhs).bind fun type => moves_binop type operator lhs rhs

theorem moves_div : Mirrors E @div @div := fun lhs rhs type => moves_mul lhs rhs type "/"

theorem moves_conditional : Mirrors E conditional conditional := fun condition lhs rhs =>
  (moves_joinTypes lhs rhs).bind fun _ => moves_create (.conditional condition lhs rhs) rfl _

theorem moves_min : Mirrors E min min := fun lhs rhs =>
  (moves_joinTypes lhs rhs).bind fun type => (moves_binop type "<" lhs rhs).bind fun condition =>
    moves_conditional condition lhs rhs

theorem Frame.Form.isConstant {E : Frame} {f f' : Form} (h : E.Form f f') : f'.isConstant = f.isConstant := by
  cases h with
  | other f h => cases f <;> rfl
  | _ => rfl

theorem moves_promote : Mirrors E promote promote := by
  refine fun target o => (moves_identity o).bind fun i => (tracks_node i).bind ?_
  rintro n _ ⟨f, hf, rfl⟩
  refine (moves_typeOf o).bind fun type => tracks_ite (fun _ => moves_pure o) fun _ => ?_
  have hrest : Moves E E.operand (create (.promotion o) (some target))
      (create (.promotion (E.operand o)) (some target)) := moves_create (.promotion o) rfl _
  simp only [Frame.Form.isConstant hf]
  refine tracks_ite (fun _ => ?_) fun _ => hrest
  refine (moves_known type).bind fun type => (moves_known target).bind fun target' => ?_
  refine tracks_ite (fun _ => ?_) fun _ => hrest
  refine tracks_then (moves_updateNode i (fun _ => .refl _) ?_) (moves_pure o)
  rintro n _ ⟨f, hf, rfl⟩
  exact ⟨f, hf, rfl⟩

/-! ## Pointers -/

theorem moves_cast : Mirrors E cast cast := fun o _ => moves_create (.cast o) rfl _

theorem moves_dereference : Mirrors E dereference dereference := fun o =>
  (moves_typeOf o).bind fun t => (moves_baseOf t).bind fun base => moves_create (.dereference o) rfl (some base)

theorem moves_indexMultiple : Mirrors E @indexMultiple @indexMultiple := by
  refine fun pointer indices target => (moves_foldlM (fun p i => moves_add p i _ _) indices pointer).bind fun p => ?_
  exact tracks_ite (fun _ => (moves_pure p).bind moves_dereference) fun _ => (moves_cast p target).bind moves_dereference

theorem moves_index : Mirrors E @index @index := by
  refine fun pointer i target => tracks_ite (fun _ => moves_indexMultiple pointer [i] target) fun _ => ?_
  exact (moves_typeOf pointer).bind fun t => (moves_baseOf t).bind fun base => moves_create (.index pointer i) rfl (some base)

theorem moves_sizeof : Mirrors E sizeof sizeof := fun type => moves_create (.sizeof type) rfl _

/-! ## Assignments, statements -/

theorem moves_assignment : Mirrors E @assignment @assignment := by
  intro lhs value mayReorder
  unfold assignment
  rw [Operand.isAbsent_rename]
  refine tracks_ite (fun _ => tracks_throw _ _) fun _ => ?_
  rcases value with i | d | os
  on_goal 1 => refine (moves_pure (g := E.operand) (.node i)).bind fun value => ?_
  on_goal 2 => refine (moves_constant d _).bind fun value => ?_
  on_goal 3 =>
    exact tracks_throw_bind _ _
  all_goals exact (moves_typeOf lhs).bind fun t => moves_create (.assign lhs value mayReorder) rfl _

theorem moves_statement : Mirrors E statement statement := by
  refine fun expr => (tracks_nodeOf expr).bind ?_
  rintro n _ ⟨f, -, rfl⟩
  refine (moves_typeOf expr).bind fun _ => ?_
  exact (moves_addNode ⟨_, .other (.statement expr) rfl, rfl⟩ fun K _ _ => K.plain rfl).bind fun i =>
    moves_pure (Operand.node i)

theorem moves_assign : Mirrors E @assign @assign := fun lhs value mayReorder =>
  (moves_assignment lhs value mayReorder).bind moves_statement

theorem moves_sequence : Mirrors E sequence sequence := fun os =>
  moves_createAs (by rw [Form.moved, Operand.rename_group]) rfl none

theorem moves_functionName : Mirrors E @functionName @functionName := fun type name isExternal =>
  (moves_known type).bind fun _ => tracks_ite (fun _ => tracks_throw _ _) fun _ =>
    moves_create (.functionName name isExternal) rfl _

theorem moves_resultOf : Mirrors E resultOf resultOf := by
  refine fun t => (moves_known t).bind fun t => tracks_ite (fun _ => (moves_baseOf t).bind fun t => ?_) fun _ =>
    (moves_pure t).bind fun t => ?_
  all_goals
    cases t
    case function => exact moves_pure _
    all_goals exact tracks_throw _ _

theorem moves_call : Mirrors E @call @call := by
  refine fun callee args inline => (moves_typeOf callee).bind fun t => (moves_resultOf t).bind fun type => ?_
  exact moves_createAs (by rw [Form.moved, Operand.rename_group]) rfl (some type)

/-! ## Vectors -/

theorem moves_vectorType : Mirrors E vectorType vectorType := fun _ _ =>
  moves_settings.bind fun _ => moves_ofExcept _

theorem moves_vectorVariable : Mirrors E vectorVariable vectorVariable := fun o size =>
  (moves_typeOf o).bind fun t => (moves_dtypeOf t).bind fun dtype => (moves_vectorType dtype size).bind fun type =>
    (moves_nameOf o).bind fun name => (moves_shownName name).bind fun _ =>
      moves_createAdmitted (.var { role := .register o, name := .ofString _ }) rfl (fun K _ _ => K.held ⟨o, .inr rfl⟩) (some type)

theorem moves_vectorLoad : Mirrors E vectorLoad vectorLoad := fun pointer size =>
  (moves_typeOf pointer).bind fun t => (moves_baseOf t).bind fun base => (moves_vectorType base size).bind fun type =>
    moves_create (.vectorLoad pointer size) rfl (some type)

theorem moves_vectorStore : Mirrors E vectorStore vectorStore := by
  intro pointer value
  refine (moves_typeOf pointer).bind fun t => (moves_baseOf t).bind fun base => (moves_typeOf value).bind fun u => ?_
  cases u
  case vector e n q =>
    exact tracks_ite (fun _ => moves_create (.vectorStore "=" pointer value) rfl _) fun _ => tracks_throw _ _
  all_goals exact tracks_throw _ _

theorem moves_vectorBinop : Mirrors E vectorBinop vectorBinop := fun operator lhs rhs =>
  (moves_typeOf lhs).bind fun _ => (moves_typeOf rhs).bind fun _ =>
    tracks_ite (fun _ => moves_create (.vectorBinop operator lhs rhs) rfl _) fun _ =>
      moves_settings.bind fun _ => tracks_throw _ _

theorem moves_vectorConstant : Mirrors E vectorConstant vectorConstant := fun _ value =>
  moves_create (.vectorConstant value) rfl _

theorem moves_noop : Moves E E.operand noop noop := moves_create .noop rfl _

/-! ## Statements -/

theorem moves_loop : Mirrors E @loop @loop := by
  intro body start condition step index
  unfold loop
  rw [Operand.truthy_rename]
  exact moves_choose (fun _ => moves_pure index) (fun _ => moves_leftOf start) fun index =>
    moves_create (.loop { start, condition, step, body, index }) rfl none

theorem moves_countUpwards : Mirrors E @countUpwards @countUpwards := by
  refine fun body upper lower step => (moves_typeOf upper).bind fun t => (moves_ofExcept _).bind fun type => ?_
  rw [Operand.isAbsent_rename, Operand.isAbsent_rename]
  refine moves_choose (fun _ => moves_constant (.int 0) type) (fun _ => moves_pure lower) fun lower => ?_
  refine moves_choose (fun _ => moves_constant (.int 1) type) (fun _ => moves_pure step) fun step => ?_
  refine (moves_temporary type coined_temp).bind fun temp => (moves_assignment temp lower _).bind fun start => ?_
  refine (moves_binop _ "<" temp upper).bind fun condition => (moves_add temp step _ _).bind fun next => ?_
  refine (moves_assignment temp next _).bind fun step => (moves_loop body start condition step .absent).bind fun result => ?_
  exact (moves_identity result).bind fun i => tracks_then (moves_updateLoop i fun _ => rfl) (moves_pure result)

theorem moves_parallelChoice : Mirrors E @parallelChoice @parallelChoice := fun a b =>
  moves_create (.parallelChoice a b) rfl none

theorem moves_pragma : Mirrors E pragma pragma := fun body => moves_create (.pragmaLoop body) rfl none

theorem moves_branch : Mirrors E @branch @branch := fun condition body otherwise =>
  moves_create (.branch { condition, body, otherwise }) rfl none

theorem moves_yield (result : Operand) (h : E.Admits (.yield result)) :
    Moves E E.operand (yield result) (yield (E.operand result)) := moves_createAdmitted (.yield result) rfl h none

theorem moves_label : Mirrors E label label := fun name => moves_create (.label name none) rfl _

theorem moves_jump (h : E.Reports) : Mirrors E jump jump := fun target =>
  moves_createAdmitted (.jump target) rfl (h.admits rfl) none

theorem moves_jumpTarget : Mirrors E jumpTarget jumpTarget := fun target => moves_create (.jumpTarget target) rfl none

theorem moves_print : Mirrors E print print := fun args =>
  moves_createAs (by rw [Form.moved, Operand.rename_group]) rfl none

theorem moves_handler (h : E.Reports) : Mirrors E handler handler := fun body =>
  (moves_label (.text "error")).bind fun errorLabel => (moves_label (.text "cleanup")).bind fun cleanupLabel =>
    moves_createAdmitted (.handler { body, errorLabel, cleanupLabel }) rfl (h.admits rfl) none

theorem moves_parallel : Mirrors E parallel parallel := by
  refine fun body condition => (tracks_formOf body).bind fun found found' hfound => ?_
  obtain @⟨f, _, h | h | ⟨_, h⟩⟩ | _ := hfound
  on_goal 3 => cases f
  all_goals
    refine (moves_loopOf _).bind fun l => (moves_leftOf l.start).bind fun i => moves_createAs ?_ rfl none
    rfl

/-! ## Functions -/

/-- What is built for an array under a name after the array's own. -/
theorem tracks_extendName {α β : Type} {Q : α → β → Prop} {k : String → Action α} {k' : String → Action β} (array : Operand)
    (word : String) (h : ∀ name s, Runs (nameOf array) s (.ofString name) s →
      Tracks (E.since s) Q (k (name ++ word)) (k' (name ++ word))) :
    Tracks E Q (do k (← extendName (← nameOf array) word)) (do k' (← extendName (← nameOf (E.operand array)) word)) := by
  refine (moves_nameOf array).since_bind ?_
  rintro (_ | _) _ s t rfl hr
  all_goals obtain rfl := readOnly_nameOf array _ _ _ hr
  on_goal 1 => rename_i d; cases d
  case text name => exact h name t hr
  all_goals exact tracks_throw_bind _ _

theorem moves_attachedStrides : Mirrors E attachedStrides attachedStrides := by
  refine fun o => tracks_reading o fun form _ _ _ _ hf => ?_
  obtain h | h | ⟨_, h⟩ := hf
  on_goal 3 => cases form
  case var v => exact moves_pure v.stridesPointer
  case arrayArgument a n d s vs u => exact moves_pure (some s)
  all_goals exact moves_pure none

theorem moves_stridesPointer : Mirrors E stridesPointer stridesPointer := by
  refine fun array => moves_settings.bind fun s => moves_settings.bind fun s' => tracks_ite (fun _ => ?_) fun _ => ?_
  · refine (moves_attachedStrides array).bind fun p => ?_
    cases p with
    | some p => exact moves_pure p
    | none =>
      refine tracks_extendName array _ fun name s _ => ?_
      refine (moves_temporary _ (coined_strideTemp name)).bind fun temp => (moves_identity array).bind fun i => ?_
      exact tracks_then (moves_updateVariable i (fun _ => rfl) fun _ => rfl) (moves_pure temp)
  · refine tracks_extendName array _ fun name s hname => ?_
    exact moves_createAdmitted (.var { role := .stridePointer array, name := .ofString (name ++ "_strides") }) rfl
      (fun K _ ht => K.strides hname ht.since.2) _

theorem moves_stride : Mirrors E stride stride := fun array dim =>
  (moves_stridesPointer array).bind fun strides => (moves_constant dim _).bind fun i => moves_index strides i _

theorem moves_shapeIndex : Mirrors E shapeIndex shapeIndex := fun dim function =>
  tracks_inFunction function fun f _ _ => (moves_constant dim _).bind fun i => moves_index f.shape i _

theorem moves_isUsed : Mirrors E isUsed isUsed := by
  refine fun o => tracks_reading o fun form _ _ _ _ hf => ?_
  obtain h | h | ⟨_, h⟩ := hf
  on_goal 3 => cases form
  case argument o vs n u => exact moves_pure u
  case arrayArgument a n d s vs u => exact moves_pure u
  all_goals exact tracks_throw _ _

theorem moves_argumentVariables : Mirrors E argumentVariables argumentVariables := by
  refine fun o => tracks_reading o fun form _ _ _ _ hf => ?_
  obtain h | h | ⟨_, h⟩ := hf
  on_goal 3 => cases form
  case argument o vs n u => exact tracks_pure (Operand.items_rename vs)
  case arrayArgument a n d s vs u => exact moves_pure vs
  all_goals exact tracks_throw _ _

theorem moves_argumentData : Mirrors E argumentData argumentData := by
  refine fun o => tracks_reading o fun form _ _ _ _ hf => ?_
  obtain h | h | ⟨_, h⟩ := hf
  on_goal 3 => cases form
  case arrayArgument a n d s vs u => exact moves_pure d
  all_goals exact tracks_throw _ _

theorem moves_dropStrides : Mirrors E dropStrides dropStrides := by
  refine fun o => (moves_identity o).bind fun i => moves_updateForm i (fun f => ?_) fun f f' hf => ?_
  · cases f with
    | arrayArgument => exact .of_kept rfl rfl
    | _ => exact .refl _
  obtain h | h | ⟨_, h⟩ := hf
  on_goal 3 => cases f
  case constant => exact .constant h
  case function => exact .function h
  case arrayArgument a n d s vs u => exact .other (.arrayArgument a n d s [d] u) rfl
  all_goals exact .other _ h

theorem moves_parameterTypes : Mirrors E parameterTypes parameterTypes := by
  intro withStrides argument
  refine (moves_isUsed argument).bind fun used => tracks_ite (fun _ => moves_pure []) fun _ => ?_
  refine (moves_typeOf argument).bind fun type => tracks_ite (fun _ => ?_) fun _ => ?_
  · refine (moves_argumentData argument).bind fun data => (moves_typeOf data).bind fun t => ?_
    exact (moves_dropStrides argument).bind fun _ => moves_pure [t]
  · refine (moves_argumentVariables argument).bind fun vars => ?_
    exact (moves_mapM moves_typeOf vars).mono fun _ _ h => by rw [h, List.map_id]; rfl

theorem moves_updateSignature : Mirrors E @updateSignature @updateSignature := by
  refine fun function withStrides => (tracks_functionOf function).bind ?_
  rintro f _ ⟨-, -, -⟩
  have hitems : (E.operand f.arguments).items ++ (E.operand f.scalarArguments).items =
      (f.arguments.items ++ f.scalarArguments.items).map E.operand := by
    rw [Operand.items_rename, Operand.items_rename, List.map_append]
  have hparams := moves_flatMapM (E := E)
    (fun a => (moves_parameterTypes withStrides a).mono fun _ _ h => by rw [h, List.map_id]; rfl)
    (f.arguments.items ++ f.scalarArguments.items)
  rw [← hitems] at hparams
  refine hparams.bind fun params => (moves_typeOf f.successValue).bind fun result => ?_
  rw [List.map_id]
  refine (moves_identity function).bind fun i => moves_updateNode i (fun _ => .refl _) ?_
  rintro n _ ⟨f, hf, rfl⟩
  exact ⟨f, hf, rfl⟩

/-! ## Printed values -/

theorem moves_conversion (o : Operand) :
    Moves E (fun c => (c.1, E.operand c.2)) (conversion o) (conversion (E.operand o)) := by
  refine (moves_knownType o).bind fun type => tracks_ite (fun _ => moves_pure ("%p", o)) fun _ => ?_
  refine tracks_ite (fun _ => (moves_cast o CType.int).bind fun c => moves_pure ("%i", c)) fun _ => ?_
  refine tracks_ite (fun _ => moves_pure ("%f", o)) fun _ => ?_
  exact tracks_ite (fun _ => moves_pure ("%s", o)) fun _ => tracks_throw _ _

theorem moves_printCall : Mirrors E printCall printCall := by
  intro args
  refine (moves_functionName _ _ _).bind fun callee => (moves_mapM moves_conversion args).bind fun converted => ?_
  simp only [List.map_map, Function.comp_def]
  refine (moves_constant _ _).bind fun format => ?_
  have hargs : E.operand format :: converted.map (fun c => E.operand c.2) =
      (format :: converted.map (·.2)).map E.operand := by simp
  rw [hargs]
  exact (moves_call callee _ _).bind fun c => moves_statement c

end ArrayKernel.Build
