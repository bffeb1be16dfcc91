import ArrayKernel.Proofs.RelocatedHoisting

/-! # Moving pointers inside another session -/

namespace ArrayKernel.Layout

open Ast

def Addressing.moved (E : Frame) (a : Addressing) : Addressing :=
  { a with
    specializer := E.slot a.specializer
    function := a.function.map E.name
    strides := a.strides.map fun p => (E.operand p.1, p.2.map (·.map E.operand))
    pointers := a.pointers.map fun p => (E.operand p.1, p.2.map E.operand)
    registers := a.registers.map fun p => (E.operand p.1, E.operand p.2)
    errorLabels := a.errorLabels.map E.operand }

instance : Carried Addressing where
  Rel E a b := b = a.moved E

namespace Addressed

variable {E : Guard} {α β : Type} {k : α → β}

theorem moves_state : Moves E (Addressing.moved E) (get : Addressed Addressing) (get : Addressed Addressing) :=
  tracks_get

theorem moves_note {f g : Addressing → Addressing} (h : ∀ a, g (a.moved E) = (f a).moved E) :
    Moves E id (modify f : Addressed PUnit) (modify g : Addressed PUnit) :=
  moves_modify fun a _ hb => hb ▸ h a

theorem moves_scheme : Moves E id scheme scheme :=
  moves_state.bind fun a => (moves_specializer a.specializer).lift.bind fun s => moves_pure s.scheme

theorem moves_function : Moves E E.operand function function :=
  moves_state.bind fun a => (moves_required a.function).lift.bind fun i => moves_pure (Operand.node i)

theorem tracks_functionData : Tracks E E.Function functionData functionData :=
  moves_function.bind fun o => (tracks_functionOf o).lift

theorem moves_loops : Moves E (List.map E.operand) loops loops := by
  refine tracks_functionData.bind ?_
  rintro f _ ⟨-, -, -⟩
  exact (moves_required f.loops).lift

theorem get?_map (f : α → β) (xs : List α) (i : Int) :
    ArrayKernel.Position.get? (xs.map f) i = (ArrayKernel.Position.get? xs i).map f := by
  unfold ArrayKernel.Position.get?
  rw [List.length_map]
  cases ArrayKernel.Position.index? xs.length i with
  | none => rfl
  | some j => exact List.getElem?_map

theorem between_map (f : α → β) (xs : List α) (i j : Int) :
    ArrayKernel.Position.between (xs.map f) i j = (ArrayKernel.Position.between xs i j).map f := by
  unfold ArrayKernel.Position.between
  rw [List.length_map, ← List.map_take, ← List.map_drop]

theorem moves_loopAt : Mirrors E loopAt loopAt := by
  refine fun i => moves_loops.bind fun loops => ?_
  rw [get?_map]
  cases ArrayKernel.Position.get? loops i with
  | some l => exact moves_pure l
  | none => exact tracks_throw _ _

theorem moves_currentLoop : Moves E E.operand currentLoop currentLoop :=
  moves_state.bind fun a => moves_loopAt (a.loopLevel - 1)

/-! ## Tables -/

theorem moves_lookup (table : List (Operand × α)) (key : Operand) :
    Moves E (Option.map k) (lookup table key) (lookup (table.map fun p => (E.operand p.1, k p.2)) (E.operand key)) := by
  refine (moves_checkKey key).bind fun _ => ?_
  have hfind := moves_findM (k := fun p : Operand × α => (E.operand p.1, k p.2))
    (g := fun p => same p.1 (E.operand key)) (fun p => moves_same p.1 key) table
  refine Moves.bind hfind fun found => ?_
  cases found with
  | some p => exact moves_pure (some p.2)
  | none => exact moves_pure none

theorem moves_insert (table : List (Operand × α)) (key : Operand) (a : α) :
    Moves E (List.map fun p => (E.operand p.1, k p.2)) (insert table key a)
      (insert (table.map fun p => (E.operand p.1, k p.2)) (E.operand key) (k a)) := by
  refine (moves_lookup table key).bind fun found => ?_
  cases found with
  | none => exact tracks_pure (by rw [List.map_append]; rfl)
  | some b =>
    refine moves_mapM (fun p => ?_) table
    exact (moves_same p.1 key).bind fun b => tracks_ite (fun _ => moves_pure (p.1, a)) fun _ => moves_pure p

theorem moves_passedData : Mirrors E passedData passedData := by
  refine fun name => tracks_ite (fun _ => tracks_throw_bind _ _) fun _ => tracks_functionData.bind ?_
  rintro f _ ⟨-, -, -⟩
  have hfind : (movedPairs E.name f.byName).reverse.find? (fun p => p.1.same name) =
      (f.byName.reverse.find? fun p => p.1.same name).map fun p => (p.1, E.operand p.2) := by
    rw [movedPairs, ← List.map_reverse, List.find?_map]
    rfl
  dsimp only [Function.moved]
  rw [hfind]
  cases f.byName.reverse.find? fun p => p.1.same name with
  | some p => exact (Build.moves_argumentData p.2).lift
  | none => exact tracks_throw _ _

/-! ## Strides and pointers -/

abbrev movedStrides (E : Frame) : List (Option Operand) → List (Option Operand) := List.map (·.map E.operand)

theorem moves_storeStride : Mirrors E storeStride storeStride := by
  intro array dim
  refine (Build.moves_stride array (.int dim)).lift.bind fun s => (moves_typeOf s).lift.bind fun t => ?_
  refine (moves_ofExcept _).lift.bind fun type => (moves_nameOf array).lift.bind fun name => ?_
  refine (moves_shownName name).lift.bind fun shown => (Build.moves_temporary type (coined_stride shown dim)).lift.bind fun temp => ?_
  refine (moves_typeOf array).lift.bind fun t => (moves_dtypeOf t).lift.bind fun dtype => ?_
  refine (Build.moves_sizeof dtype).lift.bind fun size => (Build.moves_div s size _).lift.bind fun q => ?_
  refine (Build.moves_assign temp q _).lift.bind fun statement => moves_function.bind fun f => ?_
  refine (moves_prepend f statement).lift.bind fun _ => moves_state.bind fun a => ?_
  refine (moves_lookup a.strides array).lift.bind fun found => ?_
  cases found with
  | none => exact tracks_throw _ _
  | some strides =>
    show Moves E id (if dim < strides.length then _ else throw Fault.outOfRange)
      (if dim < (strides.map _).length then _ else throw Fault.outOfRange)
    rw [List.length_map]
    refine tracks_ite (fun _ => moves_state.bind fun a => ?_) fun _ => tracks_throw _ _
    have hset : (movedStrides E strides).set dim (some (E.operand temp)) = movedStrides E (strides.set dim (some temp)) := by
      rw [movedStrides, List.map_set]
      rfl
    have hinsert := moves_insert (E := E) (k := movedStrides E) a.strides array (strides.set dim (some temp))
    rw [← hset] at hinsert
    exact hinsert.lift.bind fun table => moves_note fun _ => rfl

theorem moves_storeStrides : Mirrors E storeStrides storeStrides := by
  intro array skipsInner
  refine moves_state.bind fun a => (moves_lookup a.strides array).lift.bind fun found => ?_
  rw [Option.isSome_map]
  refine tracks_ite (fun _ => moves_pure _) fun _ => (moves_typeOf array).lift.bind fun t => ?_
  refine (moves_ndimOf t).lift.bind fun ndim => moves_scheme.bind fun s => moves_state.bind fun a => ?_
  refine moves_loops.bind fun loops => ?_
  have hinsert := moves_insert (E := E) (k := movedStrides E) a.strides array (List.replicate loops.length none)
  rw [movedStrides, List.map_replicate] at hinsert
  rw [List.length_map]
  refine hinsert.lift.bind fun table => tracks_then (moves_note fun _ => rfl) ?_
  have hdims := moves_forIn (k := id) (f := fun dim _ => do storeStride array dim; return .yield ⟨⟩)
    (g := fun dim _ => do storeStride (E.operand array) dim; return .yield ⟨⟩) fun dim => (moves_storeStride array dim).bind fun _ => moves_pure (ForInStep.yield PUnit.unit)
  simp only [List.map_id] at hdims
  exact Moves.bind (hdims _) fun _ => moves_pure _

theorem moves_strideOf : Mirrors E strideOf strideOf := by
  intro array dim
  refine moves_state.bind fun a => (moves_lookup a.strides array).lift.bind fun found => ?_
  have hget : ((found.map (movedStrides E)).getD [])[dim]? = ((found.getD [])[dim]?).map (·.map E.operand) := by
    cases found with
    | none => rfl
    | some strides => exact List.getElem?_map
  rw [hget]
  cases (found.getD [])[dim]? with
  | none => exact tracks_throw _ _
  | some s =>
    cases s with
    | none => exact tracks_throw _ _
    | some s => exact moves_pure s

theorem moves_outerOf : Mirrors E outerOf outerOf := by
  intro array moving i
  unfold outerOf
  rw [List.getLast?_map]
  cases moving.getLast? with
  | none =>
    refine moves_function.bind fun f => (moves_nameOf array).lift.bind fun name => ?_
    exact (moves_passedData name).bind fun data => moves_pure (f, data)
  | some p => exact (moves_loopAt (i - 1)).bind fun loop => moves_pure (loop, p)

theorem moves_paceOf (l : Loop) : Mirrors E (paceOf l) (paceOf (l.moved E.name)) := fun stride =>
  tracks_ite (fun _ => (moves_required l.blocksize).bind fun size => Build.moves_mul stride size _ _) fun _ =>
    moves_pure stride

theorem moves_privatize : Mirrors E privatize privatize := by
  refine fun temp => moves_function.bind fun f => (moves_firstOfKind _ _ f).lift.bind fun found => ?_
  cases found with
  | none => exact moves_pure _
  | some parallel =>
    refine (moves_identity parallel).lift.bind fun i => Moves.lift (moves_updateForm i (fun f => ?_) fun f f' hf => ?_)
    · cases f with
      | parallelLoop => exact .of_kept rfl rfl
      | _ => exact .refl _
    obtain h | h | ⟨_, h⟩ := hf
    on_goal 3 => cases f
    case parallelLoop l c ls ps =>
      have hform := Frame.Form.other (E := E) (.parallelLoop l c ls (.group (ps.items ++ [temp]))) rfl
      simpa [Form.moved] using hform
    case constant => exact .constant h
    case function => exact .function h
    all_goals exact .other _ h

theorem moves_moveFirst (loop : Operand) (l : Loop) :
    Mirrors E (moveFirst loop l) (moveFirst (E.operand loop) (l.moved E.name)) := by
  intro temp data stride move
  refine (Build.moves_mul stride l.index _ _).lift.bind fun p => (Build.moves_add data p _ _).lift.bind fun q => ?_
  refine (Build.moves_assign temp q _).lift.bind fun start => (Build.moves_parallelChoice start .absent).lift.bind fun c => ?_
  refine (moves_prepend loop c).lift.bind fun _ => (Build.moves_parallelChoice .absent move).lift.bind fun c => ?_
  exact (moves_append loop c).lift.bind fun _ => moves_privatize temp

theorem getD_nil_map (f : α → β) (x : Option (List α)) : (x.map (List.map f)).getD [] = (x.getD []).map f := by
  cases x <;> rfl

theorem moves_movePointer : Mirrors E movePointer movePointer := by
  intro array type offset i loop
  refine (moves_loopOf loop).lift.bind fun l => (moves_present l.dim).lift.bind fun dim => ?_
  refine tracks_ite (fun _ => moves_pure none) fun _ => moves_state.bind fun a => ?_
  refine (moves_lookup a.pointers array).lift.bind fun found => ?_
  rw [getD_nil_map]
  generalize found.getD [] = moving
  refine (Build.moves_temporary type coined_temp).lift.bind fun temp => (moves_outerOf array moving i).bind fun outer => ?_
  refine (Build.moves_assign temp outer.2 _).lift.bind fun start => (moves_prepend outer.1 start).lift.bind fun _ => ?_
  refine (moves_strideOf array _).bind fun stride => (moves_paceOf l stride).lift.bind fun step => ?_
  refine (Build.moves_add temp step _ _).lift.bind fun sum => (Build.moves_assign temp sum _).lift.bind fun move => ?_
  rw [List.isEmpty_map]
  have hinsert (a : Addressing) := moves_insert (E := E) (k := List.map E.operand) a.pointers array (moving ++ [temp])
  simp only [List.map_append] at hinsert
  refine tracks_ite (fun _ => (moves_moveFirst loop l temp outer.2 stride move).bind fun _ => ?_) fun _ =>
    (moves_append loop move).lift.bind fun _ => ?_
  all_goals
    refine moves_state.bind fun a => (hinsert a).lift.bind fun table => ?_
    exact tracks_then (moves_note fun _ => rfl) (moves_pure (some temp))

theorem moves_pointerAt : Mirrors E pointerAt pointerAt := by
  intro array data skipsInner
  refine (moves_typeOf data).lift.bind fun t => (moves_ofExcept _).lift.bind fun type => ?_
  refine (moves_typeOf array).lift.bind fun t => (moves_ndimOf t).lift.bind fun ndim => tracks_functionData.bind ?_
  rintro f _ ⟨-, -, -⟩
  refine moves_state.bind fun a => moves_state.bind fun b => ?_
  refine (moves_lookup b.pointers array).lift.bind fun found => ?_
  dsimp only
  rw [getD_nil_map]
  generalize found.getD [] = moving
  rw [List.isEmpty_map, List.length_map, get?_map]
  have hinsert (a : Addressing) := moves_insert (E := E) (k := List.map E.operand) a.pointers array []
  refine tracks_ite (fun _ => moves_state.bind fun c => (hinsert c).lift.bind fun table => ?_) fun _ =>
    tracks_ite (fun _ => ?_) fun _ => ?_
  on_goal 2 =>
    dsimp only [Addressing.moved]
    cases ArrayKernel.Position.get? moving _ with
    | some p => exact moves_pure p
    | none => exact tracks_throw_bind _ _
  on_goal 1 => refine tracks_then (moves_note fun _ => rfl) ?_
  all_goals
    refine (moves_pure (g := id) _).bind fun start => moves_loops.bind fun loops => ?_
    rw [between_map, zip_moved]
    refine moves_foldlM (fun p x => ?_) _ data
    refine (moves_movePointer array type _ x.1 x.2).bind fun q => tracks_pure ?_
    cases q <;> rfl

end Addressed

end ArrayKernel.Layout
