import ArrayKernel.Proofs.RelocatedBuilding
import ArrayKernel.Proofs.RelocatedCopy

/-! # Specializing inside another session -/

namespace ArrayKernel.Layout

open Ast

variable {E : Guard} {sp : Nat}

instance : Unmoved DimRange := ⟨⟩

/-! ## Loops -/

theorem moves_currentFunction : Moves E E.operand (currentFunction sp) (currentFunction (E.slot sp)) :=
  (moves_specializer sp).bind fun s => (moves_required s.function).bind fun i => moves_pure (Operand.node i)

structure Bounds.Moved (E : Guard) (b b' : Bounds) : Prop where
  lower : ∀ i, Moves E E.operand (b.lower i) (b'.lower i)
  upper : ∀ i, Moves E E.operand (b.upper i) (b'.upper i)
  step : b'.step = E.operand b.step

theorem wholeShape_moved (function : Operand) : (wholeShape function).Moved E (wholeShape (E.operand function)) where
  lower _ := moves_pure Operand.absent
  upper i := Build.moves_shapeIndex (.int i) function
  step := rfl

theorem moves_wrapInLoop {b b' : Bounds} (hb : b.Moved E b') : Mirrors E (wrapInLoop b) (wrapInLoop b') := by
  refine fun body dim => (hb.lower dim).bind fun lower => (hb.upper dim).bind fun upper => ?_
  rw [hb.step]
  refine (Build.moves_countUpwards body upper lower b.step).bind fun loop => (moves_identity loop).bind fun i => ?_
  exact tracks_then (moves_updateLoop i fun _ => rfl) (moves_pure loop)

theorem moves_wrapInLoops {b b' : Bounds} (hb : b.Moved E b') (dims : List Int) (body : Operand) :
    Moves E (fun r => (r.1.map E.operand, E.operand r.2)) (wrapInLoops b dims body)
      (wrapInLoops b' dims (E.operand body)) := by
  induction dims generalizing body with
  | nil => exact moves_pure ([], body)
  | cons dim dims ih =>
    refine (moves_wrapInLoop hb body dim).bind fun loop => (ih loop).bind fun r => ?_
    exact moves_pure (loop :: r.1, r.2)

theorem moves_targetOf : Mirrors E targetOf targetOf := fun loop =>
  (moves_loopOf loop).bind fun l => moves_required l.target

def Nest.moved (E : Frame) (n : Nest) : Nest :=
  { loops := n.loops.map E.operand, indices := n.indices.map E.operand, statement := E.operand n.statement }

theorem arrange_map {α β : Type} (order : Order) (f : α → β) (xs : List α) :
    order.arrange (xs.map f) = (order.arrange xs).map f := by
  cases order with
  | rowMajor => exact (List.map_reverse ..).symm
  | columnMajor => rfl

theorem moves_nest (order : Order) (body : Operand) (dims : DimRange) {b b' : Bounds} (hb : b.Moved E b') :
    Moves E (Nest.moved E) (nest order body dims b) (nest order (E.operand body) dims b') := by
  refine (moves_wrapInLoops hb dims.dims body).bind fun r => (moves_mapM moves_targetOf r.1).bind fun indices => ?_
  refine tracks_pure ?_
  rw [Nest.moved, arrange_map, List.map_reverse]

theorem moves_parallelAboveThreshold :
    Mirrors E (parallelAboveThreshold sp) (parallelAboveThreshold (E.slot sp)) := fun loop =>
  moves_currentFunction.bind fun function => tracks_inFunction function fun f _ _ =>
    (moves_required f.totalShape).bind fun total =>
      (Build.moves_binop CType.bool ">" total f.ompSize).bind fun condition => Build.moves_parallel loop condition

theorem moves_product : Mirrors E product product := by
  intro os
  cases os with
  | nil => exact tracks_throw _ _
  | cons x xs => exact moves_foldlM (fun a b => Build.moves_mul a b _ _) xs x

theorem moves_indices : Mirrors E indexList indexList := by
  intro pointer n
  have h := moves_mapM (k := id)
    (f := fun i => do Build.index pointer (← Build.constant (.int i)))
    (g := fun i => do Build.index (E.operand pointer) (← Build.constant (.int i)))
    (fun i => (Build.moves_constant _ _).bind fun c => Build.moves_index pointer c _) (List.range n)
  rw [List.map_id] at h
  exact h

theorem moves_computeTotalShape : Mirrors E computeTotalShape computeTotalShape := by
  refine fun function => (moves_identity function).bind fun i => tracks_inFunction function fun f _ _ => ?_
  refine (moves_indices f.shape f.ndim).bind fun extents => (moves_typeOf f.shape).bind fun t => ?_
  refine (moves_baseOf t).bind fun base => (Build.moves_temporary base coined_temp).bind fun total => ?_
  refine tracks_then (moves_updateFunction i (fun _ => rfl) fun _ _ ⟨he, hs, hc⟩ => .moved he hs hc) ?_
  refine (moves_product extents).bind fun product => (Build.moves_assign total product _).bind fun start => ?_
  refine tracks_inFunction function fun f _ _ => (Build.moves_sequence [start, f.body]).bind fun body => ?_
  exact moves_updateFunction i (fun _ => rfl) fun _ _ ⟨he, hs, hc⟩ => .moved he hs hc

/-! ## Tiles -/

theorem moves_blocksize : Moves E E.operand (blocksize sp) (blocksize (E.slot sp)) := by
  refine moves_settings.since_bind ?_
  rintro _ _ _ s rfl hr
  obtain ⟨rfl, rfl⟩ := runs_settings.1 hr
  generalize hedge : s.settings.blocksize = edge
  cases edge with
  | none =>
    exact (moves_specializer sp).bind fun s => tracks_ite (fun _ => Build.moves_constant _ _) fun _ => tracks_throw _ _
  | some d =>
    cases d
    case text name =>
      refine Build.moves_variableOf _ fun K t ht => .inr ?_
      rw [ht.since.2.settings]
      exact hedge
    all_goals exact Build.moves_constant _ _

theorem moves_tileLimit : Mirrors E tileLimit tileLimit := by
  intro function body edge dim i
  refine (moves_typeOf i).bind fun t => (Build.moves_temporary t coined_temp).bind fun limit => ?_
  refine (Build.moves_add i edge _ _).bind fun stop => (Build.moves_shapeIndex (.int dim) function).bind fun extent => ?_
  refine (Build.moves_min stop extent).bind fun smaller => (Build.moves_assign limit smaller _).bind fun statement => ?_
  exact (moves_appendTo body statement).bind fun _ => moves_pure limit

theorem tracks_emptyTile {α β : Type} {Q : α → β → Prop} {k : Operand → Action α} {k' : Operand → Action β}
    (h : ∀ tile s, (E.since s).Knows tile .sequence → Tracks (E.since s) Q (k (.node tile)) (k' (.node (E.name tile)))) :
    Tracks E Q (emptyTile >>= k) (emptyTile >>= k') := by
  have hempty : Moves E E.operand emptyTile emptyTile :=
    (Build.moves_constant _ _).bind fun c => (Build.moves_sequence [c]).bind fun tile => moves_pure tile
  refine hempty.since_bind ?_
  rintro _ _ s t rfl hr
  obtain ⟨c, u, -, hr⟩ := runs_bind.1 hr
  obtain ⟨x, rfl, rfl⟩ := runs_create hr
  refine h _ _ (Guard.knows_since (f := .sequence (.group [c])) ?_)
  rw [form?_add, if_pos rfl]

theorem moves_clear {tile : NodeId} (h : E.Knows tile .sequence) :
    Moves E id (clear (.node tile)) (clear (.node (E.name tile))) :=
  moves_reform tile h rfl (by rw [Form.moved, Operand.rename_group]; rfl) rfl

theorem moves_setDims : Mirrors E setDims setDims := by
  intro dims loops
  unfold setDims
  rw [List.zip_map_right]
  refine moves_forM (fun p => (moves_identity p.2).bind fun i => ?_) _
  exact moves_updateLoop i fun _ => rfl

theorem zip_moved (dims : List Int) (os : List Operand) :
    dims.zip (os.map E.operand) = (dims.zip os).map fun p => (p.1, E.operand p.2) := List.zip_map_right ..

theorem getD_absent_moved (o : Option Operand) : (o.map E.operand).getD .absent = E.operand (o.getD .absent) := by
  cases o <;> rfl

theorem stepped_moved (function edge : Operand) : Bounds.Moved E { wholeShape function with step := edge }
    { wholeShape (E.operand function) with step := E.operand edge } :=
  { wholeShape_moved function with step := rfl }

/-! ## Vectorized loops -/

theorem moves_elementsPerVector : Mirrors E elementsPerVector elementsPerVector := by
  refine fun size element => (moves_present element.itemsize?).bind fun size' => ?_
  dsimp only [id]
  split
  · exact tracks_throw _ _
  · exact tracks_throw _ _
  · exact moves_pure _

theorem moves_stepByVectors : Mirrors E stepByVectors stepByVectors := by
  refine fun loop elements step => (moves_loopOf loop).bind fun l => (moves_leftOf l.step).bind fun i => ?_
  refine (moves_rightOf l.condition).bind fun limit => (Build.moves_constant _ _).bind fun c => ?_
  refine (Build.moves_mul step c _ _).bind fun step => (Build.moves_add i step _ _).bind fun sum => ?_
  refine (Build.moves_assignment i sum _).bind fun next => (moves_identity loop).bind fun j => ?_
  refine tracks_then (moves_updateLoop j fun _ => rfl) ((Build.moves_constant _ _).bind fun tail => ?_)
  refine (Build.moves_sub limit tail _).bind fun bound => (moves_loopOf loop).bind fun l => ?_
  exact (moves_identity l.condition).bind fun c => tracks_then (moves_setChild c "rhs" bound (by decide)) (moves_pure (limit, i))

theorem moves_fixup : Mirrors E fixup fixup := by
  intro i limit body elements
  refine (Build.moves_binop CType.bool "<" i limit).bind fun condition => tracks_ite (fun _ => ?_) fun _ => ?_
  · refine (Build.moves_branch condition body .absent).bind fun branch => (moves_identity branch).bind fun j => ?_
    refine tracks_then (moves_updateForm j (fun f => ?_) fun f f' hf => ?_) (moves_pure branch)
    · cases f with
      | branch b => exact .of_kept rfl rfl
      | _ => exact .refl _
    obtain h | h | ⟨_, h⟩ := hf
    on_goal 3 => cases f
    case constant => exact .constant h
    case function => exact .function h
    case branch b => exact .other (.branch { b with isFixup := true }) rfl
    all_goals exact .other _ h
  · refine Build.moves_noop.bind fun start => (Build.moves_constant _ _).bind fun one => ?_
    refine (Build.moves_add i one _ _).bind fun sum => (Build.moves_assignment i sum _).bind fun step => ?_
    refine (Build.moves_loop body start condition step i).bind fun loop => (moves_identity loop).bind fun j => ?_
    exact tracks_then (moves_updateLoop j fun _ => rfl) (moves_pure loop)

/-! ## Calls are announced -/

theorem moves_announce : Mirrors E @announce @announce := fun _ args =>
  (Build.moves_constant _ _).bind fun text => Build.moves_print (text :: args)

theorem tracks_announce {a b : String} (h : E.Text a b) : Moves E E.operand (announce a) (announce b) :=
  (Build.tracks_constant (.text h) _).bind fun text => Build.moves_print [text]

theorem moves_announceArray : Mirrors E announceArray announceArray := by
  refine fun arg i => tracks_reading arg fun form _ _ _ _ hf => ?_
  obtain h | h | ⟨_, h⟩ := hf
  on_goal 3 => cases form
  case arrayArgument a n data strides vs u =>
    refine (Build.moves_constant _ _).bind fun text => (moves_typeOf arg).bind fun t => ?_
    refine (moves_ndimOf t).bind fun n => (moves_indices strides n).bind fun items => ?_
    refine (Build.moves_print (text :: items)).bind fun stridesLine => ?_
    exact (moves_announce _ [data]).bind fun dataLine => moves_pure [stridesLine, dataLine]
  all_goals exact moves_pure []

theorem Frame.Labels.calling {a b : Option String} (h : E.Labels a b) (rest : String) :
    E.Text ("Calling function " ++ a.getD "None" ++ rest) ("Calling function " ++ b.getD "None" ++ rest) := by
  cases h with
  | none => exact .refl _
  | some h => exact (h _ (by simp [Emit.Part.words])).append (.refl rest)

theorem moves_announceCall : Mirrors E (announceCall sp) (announceCall (E.slot sp)) := by
  refine fun function => (tracks_functionOf function).bind ?_
  rintro f _ ⟨he, -, -⟩
  refine (moves_specializer sp).bind fun s => (tracks_announce ?_).bind fun first => ?_
  · have hcalling := Frame.Labels.calling he (" (" ++ s.name ++ " specializer)")
    simp only [← String.append_assoc] at hcalling
    exact hcalling
  have hoperands : Moves E (List.map E.operand) (f.arguments.items.zipIdx.flatMapM fun p => announceArray p.1 p.2)
      ((E.operand f.arguments).items.zipIdx.flatMapM fun p => announceArray p.1 p.2) := by
    rw [Operand.items_rename, List.zipIdx_map]
    exact moves_flatMapM (fun p => moves_announceArray p.1 p.2) _
  rcases s with ⟨⟨pattern, order, _ | size⟩, name, builder, of, indices, tiled, target, inner, element, on, pointers⟩
  on_goal 1 => refine (moves_pure (g := List.map E.operand) []).bind fun size => ?_
  on_goal 2 => refine (moves_announce _ []).bind fun line => (moves_pure (g := List.map E.operand) [line]).bind fun size => ?_
  all_goals
    refine (Build.moves_constant _ _).bind fun text => (moves_indices f.shape f.ndim).bind fun items => ?_
    refine (Build.moves_print (text :: items)).bind fun shape => tracks_ite (fun _ => ?_) fun _ => ?_
    on_goal 1 =>
      refine (Build.moves_constant _ _).bind fun text => moves_blocksize.bind fun edge => ?_
      refine (Build.moves_print [text, edge]).bind fun line => (moves_pure (g := List.map E.operand) [line]).bind fun edge => ?_
    on_goal 2 => refine (moves_pure (g := List.map E.operand) []).bind fun edge => ?_
    all_goals
      refine moves_choose (fun _ => moves_pure []) (fun _ => hoperands) fun operands => ?_
      have hlines : [E.operand first] ++ size.map E.operand ++ [E.operand shape] ++ edge.map E.operand ++
          operands.map E.operand = ([first] ++ size ++ [shape] ++ edge ++ operands).map E.operand := by simp
      dsimp only
      rw [hlines]
      refine (Build.moves_sequence _).bind fun lines => (tracks_nodeOf function).bind ?_
      rintro n _ ⟨_, -, rfl⟩
      exact (moves_required n.marks.prepending).bind fun prepending => moves_appendTo prepending lines

/-! ## Functions -/

theorem tracks_freshFunctionName (name : Datum) (h : E.called name.display) :
    Tracks E E.Label (freshFunctionName name) (freshFunctionName name) := by
  have hrun {s t : Session} {r : String} : Runs (freshFunctionName name) s r t ↔
      r = name.display ++ "_" ++ toString s.functions ∧ t = { s with functions := s.functions + 1 } := by
    rw [freshFunctionName, runs_get_bind, runs_set_bind, runs_pure]
  have hstep {w v : Session} (hp : E.Holds w v) :
      E.Label (name.display ++ "_" ++ toString w.functions) (name.display ++ "_" ++ toString v.functions) ∧
      E.Holds { w with functions := w.functions + 1 } { v with functions := v.functions + 1 } := by
    refine ⟨fun word hword => ?_, { hp with node := hp.node, functions := ?_ }⟩
    · have hcounted := Emit.Recounted.counted (m := 0) (n := E.before.functions) hword h w.functions
      rw [Nat.zero_add] at hcounted
      rw [hp.functions]
      exact hcounted
    · show v.functions + 1 = _
      rw [hp.functions, Nat.add_assoc]
  refine tracks_action (fun hg _ hr => ?_) (fun hp hr => ?_) (fun hp hr => ?_)
  on_goal 1 =>
    obtain ⟨-, rfl⟩ := hrun.1 hr
    exact hg.same (fun _ => rfl) rfl
  all_goals
    obtain ⟨rfl, rfl⟩ := hrun.1 hr
    exact ⟨_, _, hrun.2 ⟨rfl, rfl⟩, (hstep hp).1, (hstep hp).2⟩

theorem moves_elementType : Mirrors E elementType elementType := by
  intro args
  refine (moves_findM (fun a => (moves_typeOf a).bind fun t => moves_pure t.isArray) args).bind fun found => ?_
  cases found with
  | none => exact tracks_throw _ _
  | some a => exact (moves_typeOf a).bind fun t => moves_dtypeOf t

/-! ## The iteration over the shape -/

theorem moves_bodyOf : Mirrors E bodyOf bodyOf := by
  refine fun o => tracks_reading o fun form _ _ _ _ hf => ?_
  obtain h | h | ⟨_, h⟩ := hf
  on_goal 3 => cases form
  case function =>
    cases h
    exact moves_pure _
  case other.function => cases h
  case iterate b => exact moves_pure b
  case loop l => exact moves_pure l.body
  case branch b => exact moves_pure b.body
  case handler g => exact moves_pure g.body
  all_goals exact tracks_throw _ _

theorem moves_setBody : Mirrors E setBody setBody := fun o body =>
  (moves_identity o).bind fun i => moves_setChild i "body" body (by decide)

theorem length_indices_moved (s : Specializer) :
    ((E.specializer s).indices.getD []).length = (s.indices.getD []).length := by
  show ((s.indices.map (·.map E.operand)).getD []).length = _
  cases s.indices <;> simp

theorem moves_markInnerLoop : Mirrors E (markInnerLoop sp) (markInnerLoop (E.slot sp)) := by
  refine fun outermost => (moves_specializer sp).bind fun s => ?_
  rw [length_indices_moved]
  refine tracks_ite (fun _ => ?_) fun _ => ?_
  · refine moves_choose (fun _ => moves_bodyOf outermost) (fun _ => moves_pure outermost) fun loop => ?_
    refine (moves_bodyOf loop).bind fun inner => tracks_then (moves_updateSpecializer sp fun _ => rfl) ?_
    refine (Build.moves_pragma inner).bind fun pragma => (moves_setBody loop pragma).bind fun _ => ?_
    exact (moves_parallelAboveThreshold outermost).bind fun statement => moves_pure (loop, statement)
  · refine tracks_then (moves_updateSpecializer sp fun _ => rfl) ((Build.moves_pragma outermost).bind fun pragma => ?_)
    exact (moves_parallelAboveThreshold pragma).bind fun statement => moves_pure (outermost, statement)

/-! ## Nodes in a vectorized loop -/

theorem moves_vectorizeVariable : Mirrors E vectorizeVariable vectorizeVariable := fun size o =>
  (moves_knownType o).bind fun _ => tracks_ite (fun _ => Build.moves_vectorVariable o size) fun _ => moves_pure o

theorem moves_vectorizeBinop : Mirrors E vectorizeBinop vectorizeBinop := fun operator o =>
  (moves_leftOf o).bind fun lhs => (moves_knownType lhs).bind fun _ =>
    tracks_ite (fun _ => (moves_rightOf o).bind fun rhs => Build.moves_vectorBinop operator lhs rhs) fun _ => moves_pure o

theorem moves_vectorizeUnop : Mirrors E vectorizeUnop vectorizeUnop := by
  intro operator o operand
  refine (moves_knownType operand).bind fun _ => tracks_ite (fun _ => ?_) fun _ => moves_pure o
  refine tracks_ite (fun _ => moves_pure operand) fun _ => ?_
  exact tracks_ite (fun _ => tracks_throw_bind _ _) fun _ => tracks_throw_bind _ _

/-! ## The pass -/

section

variable {visit visit' : Operand → Action Operand} (hvisit : Visiting E visit visit') (hw : ∀ K, E.keeps K → Warns K)

include hvisit

theorem moves_tileTwo : Mirrors E (tileTwo sp visit) (tileTwo (E.slot sp) visit') := by
  refine fun body => moves_currentFunction.bind fun function => (moves_identity function).bind fun fid => ?_
  refine (moves_specializer sp).bind fun s => tracks_inFunction function fun f _ _ => ?_
  refine tracks_then (moves_updateSpecializer sp fun _ => rfl) ?_
  refine moves_blocksize.bind fun edge => tracks_emptyTile fun tile u htile => ?_
  refine (moves_nest _ (.node tile) _ (stepped_moved function edge)).bind fun controlling => ?_
  refine tracks_then (moves_updateSpecializer sp fun _ => rfl) ((moves_clear htile).bind fun _ => ?_)
  simp only [Nest.moved, zip_moved, Frame.scheme_specializer, Frame.ndim_moved]
  generalize hstarts : List.zip _ controlling.indices = starts
  have hlimits := moves_mapM (E := E.since u) (k := fun p : Int × Operand => (p.1, E.operand p.2))
    (l := fun p : Int × Operand => (p.1, E.operand p.2))
    (g := fun p => do
      return (p.1, ← tileLimit (E.operand function) (.node (E.name tile)) (E.operand edge) p.1 p.2))
    (fun p => (moves_tileLimit function (.node tile) edge p.1 p.2).bind fun limit => moves_pure (p.1, limit)) starts
  refine Moves.bind hlimits fun limits => Moves.bind (moves_nest _ body _ ?_) fun inner => ?_
  · refine ⟨fun i => ?_, fun i => ?_, rfl⟩
    · refine tracks_pure ?_
      rw [lookup_map_snd, getD_absent_moved]
    · simp only [lookup_map_snd]
      cases limits.lookup i with
      | some limit => exact moves_pure limit
      | none => exact Build.moves_shapeIndex (.int i) function
  refine tracks_then (moves_updateSpecializer sp fun _ => rfl) ((moves_appendTo (.node tile) inner.statement).bind fun _ => ?_)
  refine (moves_nest _ controlling.statement _ (wholeShape_moved function)).bind fun outer => ?_
  refine (moves_parallelAboveThreshold outer.statement).bind fun statement => ?_
  refine tracks_then (moves_updateSpecializer sp fun s' => ?_) ?_
  · cases s.scheme.order <;> simp only [Frame.specializer, Nest.moved, Option.map_some, List.map_append]
  refine (moves_forIn (fun loop => (moves_identity loop).bind fun i => ?_) controlling.loops).bind fun _ => ?_
  · exact tracks_then (moves_updateLoop i fun _ => rfl) (moves_pure _)
  refine (moves_forIn (fun loop => (moves_identity loop).bind fun i => ?_) inner.loops).bind fun _ => ?_
  · exact tracks_then (moves_updateLoop i fun _ => rfl) (moves_pure _)
  refine (moves_setDims _ controlling.loops).bind fun _ => (moves_setDims _ inner.loops).bind fun _ => ?_
  refine tracks_then (moves_updateFunction fid (fun _ => rfl) ?_) (hvisit.since u statement)
  rintro f _ ⟨he, hs, hc⟩
  have hpairs (ps : List (Int × Operand)) : (ps.map fun p => (p.1, E.operand p.2)).map (fun p => (p.1.toNat, p.2)) =
      movedPairs E.name (ps.map fun p => (p.1.toNat, p.2)) := by
    simp [movedPairs]
  simp only [Nest.moved, ← List.map_append]
  rw [hpairs, hpairs]
  exact .moved he hs hc

theorem moves_tileAll : Mirrors E (tileAll sp visit) (tileAll (E.slot sp) visit') := by
  refine fun body => (moves_specializer sp).bind fun s => tracks_ite (fun _ => tracks_throw _ _) fun _ => ?_
  refine moves_currentFunction.bind fun function => (moves_identity function).bind fun fid => ?_
  refine (moves_specializer sp).bind fun s => tracks_inFunction function fun f _ _ => ?_
  refine tracks_then (moves_updateSpecializer sp fun _ => rfl) ?_
  refine moves_blocksize.bind fun edge => tracks_emptyTile fun tile u htile => ?_
  refine (moves_nest _ (.node tile) _ (stepped_moved function edge)).bind fun controlling => ?_
  refine tracks_then (moves_updateSpecializer sp fun _ => rfl) ?_
  refine (moves_parallelAboveThreshold controlling.statement).bind fun statement => (moves_clear htile).bind fun _ => ?_
  have hzip : (controlling.indices.map E.operand).zipIdx =
      controlling.indices.zipIdx.map fun p => (E.operand p.1, p.2) := List.zipIdx_map ..
  simp only [Nest.moved, hzip, Frame.scheme_specializer, Frame.ndim_moved]
  have hlimits := moves_mapM (E := E.since u) (k := fun p : Operand × Nat => (E.operand p.1, p.2))
    (g := fun p => tileLimit (E.operand function) (.node (E.name tile)) (E.operand edge) p.2 p.1)
    (fun p => moves_tileLimit function (.node tile) edge p.2 p.1) controlling.indices.zipIdx
  refine Moves.bind hlimits fun limits => Moves.bind (moves_nest _ body _ ?_) fun inner => ?_
  · refine ⟨fun i => tracks_pure ?_, fun i => tracks_pure ?_, rfl⟩
    all_goals rw [List.getElem?_map, getD_absent_moved]
  refine tracks_then (moves_updateSpecializer sp fun _ => rfl) ((moves_appendTo (.node tile) inner.statement).bind fun _ => ?_)
  exact tracks_then (moves_updateFunction fid (fun _ => rfl) fun _ _ ⟨he, hs, hc⟩ => .moved he hs hc) (hvisit.since u statement)

theorem moves_vectorizeLoop : Mirrors E (vectorizeLoop sp visit) (vectorizeLoop (E.slot sp) visit') := by
  refine fun loop body => (Build.moves_constant _ _).bind fun step => (moves_specializer sp).bind fun s => ?_
  refine (moves_present s.element).bind fun element => (moves_elementsPerVector _ element).bind fun elements => ?_
  refine (moves_stepByVectors loop elements step).bind fun r => (moves_fixup r.2 r.1 body elements).bind fun rest => ?_
  refine tracks_then (moves_updateSpecializer sp fun _ => rfl) ((hvisit rest).bind fun rest => ?_)
  exact tracks_then (moves_updateSpecializer sp fun _ => rfl) (moves_pure rest)

omit hvisit in
theorem admits_success {o : Operand} {f : Function} {s t : Session} (h : Runs (functionOf o) s f t) :
    (E.since t).Admits (.yield f.successValue) := by
  obtain ⟨i, -, hf, rfl⟩ := runs_functionOf.1 h
  intro K u hu
  obtain ⟨_, hg, hkept⟩ := hu.since.2.kept i _ hf
  obtain ⟨g, rfl, hvalue⟩ := eq_function_of_kept hkept
  exact hvalue ▸ K.success hu.holds hg

include hw in
theorem moves_specializeFunction :
    Mirrors E (specializeFunction sp visit) (specializeFunction (E.slot sp) visit') := by
  refine fun i => (moves_specializer sp).bind fun s =>
    tracks_ite (fun _ => tracks_inFunction (.node i) fun f _ _ => ?_) fun _ => ?_
  on_goal 1 =>
    have helement := moves_elementType (E := E) f.arguments.items
    rw [← Operand.items_rename] at helement
    refine helement.bind fun element => tracks_then (moves_updateSpecializer sp fun _ => rfl) ?_
  all_goals
    refine (moves_computeTotalShape (.node i)).bind fun _ => (tracks_functionOf (.node i)).bind ?_
    rintro f _ ⟨-, -, hcalled⟩
    refine (tracks_freshFunctionName f.name hcalled).bind fun a b hlabel => ?_
    refine tracks_then (moves_updateFunction i (fun _ => rfl) fun _ _ ⟨_, _, hc⟩ => .moved (.some hlabel) rfl hc) ?_
    refine tracks_then (moves_updateSpecializer sp fun _ => rfl) (moves_settings.bind fun settings => ?_)
    refine tracks_when (fun _ => moves_announceCall (.node i)) (tracks_inFunction (.node i) fun f _ _ => ?_)
    refine (tracks_mayFail hw f.body).bind ?_
    rintro fails _ ⟨rfl, hreports⟩
    refine tracks_ite (fun hfails => ?_) fun _ => ?_
    on_goal 1 =>
      refine (Build.moves_handler (hreports hfails) f.body).bind fun body => ?_
      refine tracks_then (moves_updateFunction i (fun _ => rfl) fun _ _ ⟨he, hs, hc⟩ => .moved he hs hc) ?_
    all_goals
      refine (tracks_functionOf (.node i)).since_bind ?_
      rintro f _ _ u ⟨_, _, _⟩ hr
      refine (Build.moves_yield f.successValue (admits_success hr)).bind fun result => ?_
      refine (Build.moves_sequence [f.body, result]).bind fun body => ?_
      refine tracks_then (moves_updateFunction i (fun _ => rfl) fun _ _ ⟨he, hs, hc⟩ => .moved he hs hc) ?_
      refine (moves_transformChildren (hvisit.since u) i).bind fun _ => ?_
      exact tracks_when (fun _ => Build.moves_updateSignature (.node i) false) (moves_pure (Operand.node i))

theorem moves_expandFlat : Mirrors E (expandFlat sp visit) (expandFlat (E.slot sp) visit') := by
  refine fun body => (moves_clone body).bind fun kept => moves_currentFunction.bind fun function => ?_
  refine tracks_inFunction function fun f _ _ => (moves_required f.totalShape).bind fun total => ?_
  refine (Build.moves_countUpwards body total .absent .absent).bind fun loop => (moves_identity function).bind fun i => ?_
  refine tracks_then (moves_updateFunction i (fun _ => rfl) fun _ _ ⟨he, hs, hc⟩ => .moved he hs hc) ?_
  refine (moves_loopOf loop).bind fun l => tracks_then (moves_updateSpecializer sp fun _ => rfl) ?_
  refine (Build.moves_pragma loop).bind fun pragma => (moves_parallelAboveThreshold pragma).bind fun statement => ?_
  refine tracks_then (moves_updateSpecializer sp fun _ => rfl) ((hvisit statement).bind fun statement => ?_)
  refine (moves_specializer sp).bind fun s => tracks_ite (fun _ => ?_) fun _ => moves_pure statement
  exact (moves_vectorizeLoop hvisit loop kept).bind fun rest => Build.moves_sequence [statement, rest]

theorem moves_expandNested : Mirrors E (expandNested sp visit) (expandNested (E.slot sp) visit') := by
  refine fun i body => (moves_descendantsOfKind _ _ (.node i)).bind fun found => ?_
  rw [List.isEmpty_map]
  refine tracks_ite (fun _ => tracks_throw_bind _ _) fun _ => ?_
  refine (moves_clone body).bind fun kept => moves_currentFunction.bind fun function => ?_
  refine (moves_specializer sp).bind fun s => tracks_inFunction function fun f _ _ => ?_
  refine (moves_nest _ body _ (wholeShape_moved function)).bind fun loops => ?_
  refine tracks_then (moves_updateSpecializer sp fun s => ?_) ?_
  · simp only [Frame.specializer, Nest.moved, Option.map_some, List.map_append]
    cases s.indices <;> rfl
  refine (moves_identity function).bind fun j => ?_
  refine tracks_then (moves_updateFunction j (fun _ => rfl) fun _ _ ⟨he, hs, hc⟩ => .moved he hs hc) ?_
  refine (moves_markInnerLoop loops.statement).bind fun r => (hvisit r.2).bind fun result => ?_
  refine (moves_specializer sp).bind fun s => tracks_ite (fun _ => ?_) fun _ => moves_pure result
  refine (moves_required s.innerLoop).bind fun inner => (moves_vectorizeLoop hvisit inner kept).bind fun rest => ?_
  rw [length_indices_moved]
  refine tracks_ite (fun _ => ?_) fun _ => ?_
  · refine (moves_bodyOf r.1).bind fun body => (Build.moves_sequence [body, rest]).bind fun both => ?_
    exact (moves_setBody r.1 both).bind fun _ => moves_pure result
  · exact (Build.moves_sequence [r.2, rest]).bind fun _ => moves_pure result

theorem moves_expand : Mirrors E (expand sp visit) (expand (E.slot sp) visit') := by
  refine fun i body => moves_settings.bind fun _ => tracks_ite (fun _ => moves_tileAll hvisit body) fun _ => ?_
  refine (moves_specializer sp).bind fun s => ?_
  rcases s with ⟨⟨_ | _ | _ | _, order, size⟩, name, builder, of, indices, tiled, target, inner, element, on, pointers⟩
  · exact moves_expandFlat hvisit body
  · exact moves_expandNested hvisit i body
  · exact moves_expandNested hvisit i body
  · exact moves_currentFunction.bind fun function => tracks_inFunction function fun f _ _ =>
      tracks_ite (fun _ => tracks_throw_bind _ _) fun _ => moves_tileTwo hvisit body

include hw in
theorem moves_specializeNode : Mirrors E (specializeNode sp visit) (specializeNode (E.slot sp) visit') := by
  refine fun i => (moves_specializer sp).bind fun s => tracks_knowing i fun form type x k f u hf hi => ?_
  replace hvisit := hvisit.since u
  have hsize : (if (E.specializer s).vectorizing then (E.specializer s).scheme.vectorSize else none) =
      if s.vectorizing then s.scheme.vectorSize else none := rfl
  rw [hsize]
  generalize (if s.vectorizing then s.scheme.vectorSize else none) = size
  obtain h | h | ⟨_, h⟩ := hf
  on_goal 3 => cases form
  case function => cases size <;> exact moves_specializeFunction hvisit hw i
  case other.function => cases h
  case iterate body => cases size <;> exact moves_expand hvisit i body
  all_goals cases size
  case loop.none l =>
    refine (tracks_mayFail (E := E.since u) hw l.body).bind ?_
    rintro fails _ ⟨rfl, hreports⟩
    refine tracks_ite (fun hfails => ?_) fun _ => moves_passed hvisit i
    refine (Build.moves_handler (hreports hfails) l.body).bind fun body => ?_
    exact tracks_then (moves_updateLoop i fun _ => rfl) (moves_passed hvisit i)
  case loop.some => exact tracks_then (moves_updateLoop i fun _ => rfl) (moves_passed hvisit i)
  case branch.some => exact tracks_then (moves_reform i hi rfl rfl rfl) (moves_passed hvisit i)
  case binop.some p _ _ _ | vectorStore.some p _ _ _ | vectorBinop.some p _ _ _ =>
    exact (moves_transformChildren hvisit i).bind fun _ => moves_vectorizeBinop p (.node i)
  case unop.some p _ _ =>
    refine (moves_transformChildren hvisit i).bind fun _ => (tracks_node i).bind ?_
    rintro ⟨form, type, x, k⟩ _ ⟨f, hf, rfl⟩
    obtain h | h | ⟨_, h⟩ := hf
    on_goal 3 => cases form
    case unop p' operand => exact moves_vectorizeUnop p (.node i) operand
    all_goals exact moves_pure (Operand.node i)
  case var.none v | var.some v n =>
    refine tracks_ite (fun _ => ?_) fun _ => ?_
    on_goal 1 => rcases v with ⟨_ | _ | _ | _ | _ | _, name, emitted, data, strides⟩
    case stridePointer => exact moves_pure Operand.absent
    all_goals
      try simp only [Variable.moved, VariableRole.moved, Bool.false_eq_true, if_false]
      first
        | exact moves_vectorizeVariable _ (.node i)
        | exact tracks_ite (fun _ => tracks_throw_bind _ _) fun _ => moves_passed hvisit i
  all_goals exact moves_passed hvisit i

end

theorem visiting_specializeWithin (hw : ∀ K, E.keeps K → Warns K) (depth : Nat) :
    Visiting E (specializeWithin sp depth) (specializeWithin (E.slot sp) depth) := by
  induction depth with
  | zero => exact ⟨fun _ => tracks_throw _ _, fun h _ => (Stateful.ends_throw.1 h).elim⟩
  | succ depth ih =>
    refine visiting_atPosition (fun i => moves_specializeNode ih hw i) fun h hc => ?_
    obtain ⟨_, _, hs, h1⟩ := runs_bind.1 h
    obtain ⟨-, rfl⟩ := runs_specializer.1 hs
    exact ends_constant h1 hc fun n hn => by rw [hn]

end ArrayKernel.Layout
