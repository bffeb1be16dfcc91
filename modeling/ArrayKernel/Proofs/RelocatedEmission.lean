import ArrayKernel.Proofs.RelocatedGraph

/-! # Code written inside another session -/

namespace ArrayKernel.Emit

open Ast

variable {r r' : Rendered} {a b : String}

/-! ## Documents with other items -/

section

variable {α β : Type}

def Child.map (f : α → β) : Child α → Child β
  | .output items => .output (items.map f)
  | .place s => .place s

def Section.map (f : α → β) (s : Section α) : Section β := ⟨s.children.map (·.map f), s.output.map f⟩

@[simp] theorem Section.map_empty (f : α → β) : ({} : Section α).map f = {} := by simp [Section.map]

def Document.map (f : α → β) (d : Document α) : Document β := { sections := d.sections.map (·.map f) }

def Desk.map (f : α → β) (d : Desk α) : Desk β := { document := d.document.map f, writers := d.writers }

variable (f : α → β)

theorem Section.map_write (s : Section α) (a : α) : (s.write a).map f = (s.map f).write (f a) := by
  simp [Section.map, Section.write]

theorem Section.map_insert (s : Section α) (t : Nat) : (s.insert t).map f = (s.map f).insert t := by
  by_cases h : s.output = #[] <;> simp [Section.map, Section.insert, Section.commit, Child.map, h]

theorem Document.map_update {g : Section α → Section α} {g' : Section β → Section β} (d : Document α) (s : Nat)
    (h : ∀ x, (g x).map f = g' (x.map f)) : (d.map f).update s g' = (d.update s g).map f := by
  unfold Document.map Document.update
  rw [map_modify]
  exact fun x => (h x).symm

theorem Document.map_addSection (d : Document α) :
    (d.map f).addSection = (d.addSection.1.map f, d.addSection.2) := by
  simp [Document.map, Document.addSection]

theorem Document.map_insertionPoint (d : Document α) (s : Nat) :
    (d.map f).insertionPoint s = ((d.insertionPoint s).1.map f, (d.insertionPoint s).2) := by
  unfold Document.insertionPoint
  rw [Document.map_addSection]
  exact congrArg (·, _) (Document.map_update f _ s fun x => x.map_insert f _)

theorem Document.itemsWithin_map (d : Document α) (depth s : Nat) :
    (d.map f).itemsWithin depth s = (d.itemsWithin depth s).map f := by
  induction depth generalizing s with
  | zero => rfl
  | succ depth ih =>
    have hsection : ((d.map f).sections[s]?).getD {} = ((d.sections[s]?).getD {}).map f := by
      rw [Document.map, Array.getElem?_map]
      cases d.sections[s]? with
      | none => exact (Section.map_empty f).symm
      | some s => rfl
    unfold Document.itemsWithin
    simp only [hsection, Section.map, Array.toList_map, List.map_append, List.flatMap_map, List.map_flatMap]
    congr 1
    refine List.flatMap_congr fun c _ => ?_
    cases c with
    | output items => exact Array.toList_map
    | place t => exact ih t

theorem Desk.contents_map (d : Desk α) (w : Nat) : (d.map f).contents w = (d.contents w).map f := by
  unfold Desk.contents Document.items
  rw [← Document.itemsWithin_map]
  congr 1
  exact Array.size_map

theorem Desk.map_write (d : Desk α) (w : Nat) (a : α) : (d.map f).write w (f a) = (d.write w a).map f :=
  congrArg (Desk.mk · d.writers) (Document.map_update f d.document (d.writer w).sectionId fun x => x.map_write f a)

theorem Desk.map_insertionPoint (d : Desk α) (w : Nat) :
    (d.map f).insertionPoint w = ((d.insertionPoint w).1.map f, (d.insertionPoint w).2) := by
  have hwriter : (d.map f).writer w = d.writer w := rfl
  have hdocument : (d.map f).document = d.document.map f := rfl
  simp only [Desk.insertionPoint, hwriter, hdocument, Document.map_insertionPoint]
  cases (d.writer w).proto with
  | none => rfl
  | some p =>
    simp only [Desk.openPlain, Document.map_addSection]
    rfl

end

/-! ## Results and writers -/

variable {E : Frame} {α β : Type}

inductive Rendered.Moved (E : Frame) : Rendered → Rendered → Prop where
  | nothing : Moved E .nothing .nothing
  | text {a b : String} (h : E.Text a b) : Moved E (.text a) (.text b)
  | itself (kind : String) : Moved E (.itself kind) (.itself kind)

theorem Rendered.Moved.same (s : String) : Rendered.Moved E (.text s) (.text s) := .text (.refl s)

theorem Rendered.Moved.shown (h : r.Moved E r') : E.Text r.shown r'.shown := by
  cases h with
  | nothing => exact .refl _
  | text h => exact h
  | itself kind => exact .refl _

theorem Rendered.Moved.initializer (h : r.Moved E r') : E.Text r.initializer r'.initializer := by
  cases h with
  | nothing => exact .refl _
  | text h =>
    unfold Rendered.initializer
    dsimp only
    rw [h.isEmpty]
    split
    · exact .refl _
    · exact h.after _
  | itself kind => exact .refl _

theorem Rendered.Moved.tracks_asText (h : r.Moved E r') :
    Tracks E.loose E.Text (Action.ofExcept r.asText) (Action.ofExcept r'.asText) := by
  cases h with
  | nothing => exact tracks_throw _ _
  | text h => exact tracks_pure h
  | itself kind => exact tracks_throw _ _

theorem Rendered.Moved.tracks_stripped (h : r.Moved E r') :
    Tracks E.loose E.Text (Action.ofExcept (strippedResult r)) (Action.ofExcept (strippedResult r')) := by
  cases h with
  | nothing => exact tracks_pure (.refl _)
  | text h => exact tracks_pure h.stripped
  | itself kind => exact tracks_throw _ _

abbrev Lines (E : Frame) := { p : String × String // E.Text p.1 p.2 }

inductive Emitter.Moved (E : Frame) : Emitter → Emitter → Prop where
  | of (d : Desk (Lines E)) (main : Nat) (declared : List NodeId) (names : List String) (labels : Nat) :
    Moved E ⟨d.map (·.1.1), main, declared, names, labels⟩
      ⟨d.map (·.1.2), main, declared.map E.name, names, labels⟩

instance : Carried Emitter where
  Rel := Emitter.Moved

instance : Mirrored (Emitting Rendered) := ⟨fun E => Tracks E (Rendered.Moved E)⟩

theorem contains_map_name (ids : List NodeId) (i : NodeId) : (ids.map E.name).contains (E.name i) = ids.contains i := by
  rw [Bool.eq_iff_iff, List.contains_iff_mem, List.contains_iff_mem, List.mem_map_of_injective fun _ _ => Frame.name_inj]

theorem indented_moved (h : E.Text a b) (n : Int) :
    E.Text (indented n a).1 (indented n b).1 ∧ (indented n a).2 = (indented n b).2 := by
  unfold indented
  rw [h.countChar (by decide), h.countChar (by decide)]
  exact ⟨(h.after _).before _, rfl⟩

theorem moves_putLineTo (w : Nat) (h : E.Text a b) : Moves E.loose id (putLineTo w a) (putLineTo w b) := by
  refine moves_modify ?_
  rintro _ _ ⟨d, main, declared, names, labels⟩
  obtain ⟨htext, hindent⟩ := indented_moved h (d.writer w).indent
  let written : Lines E := ⟨(_, _), htext⟩
  have hdesk (f : Lines E → String) c (hf : f written = (indented (d.writer w).indent c).1)
      (hc : (indented (d.writer w).indent c).2 = (indented (d.writer w).indent a).2) :
      (d.map f).putLine id w c = ((d.write w written).update w fun x =>
        { x with indent := (indented (d.writer w).indent a).2 }).map f := by
    show ((d.map f).write w (indented (d.writer w).indent c).1).update w _ = _
    rw [← hf, Desk.map_write, ← hc]
    rfl
  have h1 := hdesk (·.1.1) a rfl rfl
  have h2 := hdesk (·.1.2) b rfl hindent.symm
  rw [h1, h2]
  exact .of ..

theorem moves_putLine (h : E.Text a b) : Moves E.loose id (putLine a) (putLine b) := by
  refine tracks_get.bind ?_
  rintro _ _ ⟨d, main, declared, names, labels⟩
  exact moves_putLineTo main h

theorem moves_say : Mirrors E.loose putLine putLine := fun line => moves_putLine (.refl line)

theorem moves_newInsertionPoint : Moves E.loose id newInsertionPoint newInsertionPoint := by
  refine tracks_get.bind ?_
  rintro _ _ ⟨d, main, declared, names, labels⟩
  rw [Desk.map_insertionPoint, Desk.map_insertionPoint]
  exact (moves_set (Emitter.Moved.of ..)).bind fun _ => moves_pure _

theorem moves_updateMain (f : Writer → Writer) : Moves E.loose id (updateMain f) (updateMain f) := by
  refine moves_modify ?_
  rintro _ _ ⟨d, main, declared, names, labels⟩
  exact Emitter.Moved.of (d.update main f) main declared names labels

theorem tracks_inBlock {Q : α → β → Prop} {act : Emitting α} {act' : Emitting β} (h : Tracks E.loose Q act act') :
    Tracks E.loose Q (inBlock act) (inBlock act') := by
  refine moves_newInsertionPoint.bind fun w => (moves_updateMain _).bind fun _ => h.bind fun r r' hr => ?_
  exact (moves_updateMain _).bind fun _ => tracks_pure hr

/-! ## Temporaries, labels, constants -/

theorem moves_nameTemporary : Mirrors E.loose nameTemporary nameTemporary := by
  refine fun i shown => tracks_get.bind ?_
  rintro _ _ ⟨d, main, declared, names, labels⟩
  rw [List.length_map, contains_map_name]
  refine (moves_loosely i fun f f' hf => ?_).lift.bind fun _ => moves_set ?_
  · obtain h | h | ⟨_, h⟩ := hf
    on_goal 3 => cases f
    case constant => exact .constant h
    case function => exact .function h
    case var v => exact .other _ rfl
    all_goals exact .other _ h
  · have hdeclared : (if declared.contains i = true then declared.map E.name else declared.map E.name ++ [E.name i]) =
        (if declared.contains i = true then declared else declared ++ [i]).map E.name := by
      split
      · rfl
      · rw [List.map_append, List.map_singleton]
    rw [hdeclared]
    exact .of ..

theorem writer_map {α β : Type} (d : Desk α) (g : α → β) (w : Nat) : (d.map g).writer w = d.writer w := rfl

theorem moves_putDeclaration (i : NodeId) {value value' : Rendered} (h : value.Moved E value') :
    Moves E.loose id (putDeclaration i value) (putDeclaration (E.name i) value') := by
  refine tracks_get.bind ?_
  rintro _ _ ⟨d, main, declared, names, labels⟩
  rw [writer_map, writer_map]
  cases (d.writer main).declarationLevels.getLast? with
  | none => exact tracks_throw _ _
  | some w =>
    refine (moves_typeOf (.node i)).lift.bind fun t => (moves_typeText t).lift.bind fun type => ?_
    refine (moves_nameOf (.node i)).lift.bind fun n => (moves_shownName n).lift.bind fun name => ?_
    exact moves_putLineTo w ((h.initializer.after _).before _)

theorem moves_declareTemporary (i : NodeId) (shown : String) {value value' : Rendered} (h : value.Moved E value') :
    Moves E.loose id (declareTemporary i shown value) (declareTemporary (E.name i) shown value') := by
  refine tracks_get.bind ?_
  rintro _ _ ⟨d, main, declared, names, labels⟩
  rw [contains_map_name]
  exact tracks_when (fun _ => moves_nameTemporary i shown) (moves_putDeclaration i h)

theorem tracks_emitTemporary : Mirrors E.loose emitTemporary emitTemporary := by
  refine fun i shown => tracks_get.bind ?_
  rintro _ _ ⟨d, main, declared, names, labels⟩
  rw [contains_map_name]
  refine tracks_when (fun _ => moves_declareTemporary i shown .nothing) ?_
  exact (moves_nameOf (.node i)).lift.bind fun n => (moves_shownName n).lift.bind fun name => tracks_pure (.same name)

theorem tracks_emitVariable (i : NodeId) (v : Variable) :
    Tracks E.loose (Rendered.Moved E) (emitVariable i v) (emitVariable (E.name i) (v.moved E.name)) := by
  refine (moves_shownName v.name).lift.bind fun name => (moves_knownType (.node i)).lift.bind fun type => ?_
  refine tracks_ite (fun _ => tracks_pure (.same name)) fun _ => ?_
  obtain ⟨role, own, emitted, data, strides⟩ := v
  cases emitted with
  | some s => exact tracks_pure (.same s)
  | none => exact tracks_then (moves_loosely i fun _ _ _ => .other _ rfl).lift (tracks_pure (.same (mangle name)))

theorem tracks_emitLabel : Mirrors E.loose emitLabel emitLabel := by
  intro i name emitted
  cases emitted with
  | some s => exact tracks_pure (.same s)
  | none =>
    refine tracks_get.bind ?_
    rintro _ _ ⟨d, main, declared, names, labels⟩
    exact tracks_then (moves_set (.of ..)) (tracks_then (moves_loosely i fun _ _ _ => .other _ rfl).lift (tracks_pure (.same _)))

theorem tracks_emitConstant (i : NodeId) {a b : Datum} (h : E.Value a b) :
    Tracks E.loose (Rendered.Moved E) (emitConstant i a) (emitConstant (E.name i) b) := by
  -- Only a text can differ, and it is copied, with or without escapes.
  have htext (s s' : String) (hs : E.Text s s') :
      Tracks E.loose (Rendered.Moved E) (emitConstant i (.text s)) (emitConstant (E.name i) (.text s')) := by
    refine (moves_knownType (.node i)).lift.bind fun type => tracks_ite (fun _ => ?_) fun _ => tracks_pure (.text hs)
    refine moves_settings.lift.bind fun s => ?_
    dsimp only [id]
    cases s.stringStyle with
    | refused => exact tracks_throw_bind _ _
    | escaped => exact tracks_pure (.text ((hs.escaped.after _).before _))
    | verbatim => exact tracks_pure (.text ((hs.after _).before _))
  cases h with
  | text hs => exact htext _ _ hs
  | same =>
    cases a
    case text s => exact htext s s (.refl s)
    all_goals
      refine (moves_knownType (.node i)).lift.bind fun type => ?_
      exact tracks_ite (fun _ => tracks_throw_bind _ _) fun _ => tracks_pure (.same _)

/-! ## Expressions -/

theorem moves_incremented (l r : Operand) : Moves E.loose (Option.map E.operand) (do match (← nodeOf r).form with
        | .constant v => return if v == .int 1 then some l else none
        | _ => return none : Action (Option Operand))
    (do match (← nodeOf (E.operand r)).form with
        | .constant v => return if v == .int 1 then some (E.operand l) else none
        | _ => return none : Action (Option Operand)) := by
  refine tracks_reading r fun form _ _ _ _ hf => ?_
  obtain ⟨_ | h⟩ | h | ⟨_, h⟩ := hf
  on_goal 4 => cases form
  case constant.same =>
    refine tracks_pure ?_
    split <;> rfl
  case other.constant => cases h
  all_goals exact moves_pure none

theorem moves_isIncrement {f f' : Form} (hf : E.Form f f') :
    Moves E.loose (Option.map E.operand) (isIncrement f) (isIncrement f') := by
  unfold isIncrement
  rw [hf.isBinop, hf.operator?]
  refine tracks_ite (fun _ => moves_pure none) fun _ => ?_
  obtain h | h | ⟨_, h⟩ := hf
  on_goal 3 => cases f
  case binop p l r _ | vectorStore p l r _ | vectorBinop p l r _ => exact moves_incremented l r
  all_goals exact moves_pure none

variable {visit visit' : Operand → Emitting Rendered} (hvisit : Mirrors E.loose visit visit')

include hvisit

theorem tracks_results (o : Operand) :
    Tracks E.loose (List.Forall₂ (Rendered.Moved E)) (results visit o) (results visit' (E.operand o)) := by
  cases o with
  | group items =>
    rw [Frame.operand, Operand.rename_group]
    exact tracks_mapM (fun o _ ho => ho ▸ hvisit o) (forall₂_graph.2 rfl)
  | node i => exact (hvisit (.node i)).bind fun r r' hr => tracks_pure (.cons hr .nil)
  | datum d => exact (hvisit (.datum d)).bind fun r r' hr => tracks_pure (.cons hr .nil)

theorem tracks_single (o : Operand) : Tracks E.loose E.Text (single visit o) (single visit' (E.operand o)) := by
  refine (tracks_results hvisit o).bind fun rs rs' hrs => ?_
  match rs, rs', hrs with
  | [], [], .nil => exact tracks_throw _ _
  | [r], [r'], .cons hr .nil => exact tracks_pure hr.shown
  | _ :: _ :: _, _ :: _ :: _, .cons _ (.cons _ _) => exact tracks_throw _ _

theorem tracks_commaList (o : Operand) : Tracks E.loose E.Text (commaList visit o) (commaList visit' (E.operand o)) := by
  refine (tracks_results hvisit o).bind fun rs rs' hrs => ?_
  refine (tracks_mapM (fun r r' hr => hr.tracks_asText.lift) hrs).bind fun texts texts' h => ?_
  exact tracks_pure (.intercalate h _)

theorem tracks_emitStore : Mirrors E.loose (emitStore visit) (emitStore visit') := by
  intro lhs rhs
  refine (tracks_results hvisit lhs).bind fun l l' hl => (tracks_results hvisit rhs).bind fun r r' hr => ?_
  have hboth : List.Forall₂ (Rendered.Moved E) (l ++ r) (l' ++ r') := List.rel_append hl hr
  generalize l ++ r = rs at hboth ⊢
  generalize l' ++ r' = rs' at hboth ⊢
  match rs, rs', hboth with
  | [], [], .nil | [_], [_], .cons _ .nil => exact tracks_throw _ _
  | [a, b], [a', b'], .cons ha (.cons hb .nil) =>
    exact tracks_pure (.text ((((ha.shown.after _).before _).append hb.shown).before _))
  | _ :: _ :: _ :: _, _ :: _ :: _ :: _, .cons _ (.cons _ (.cons _ _)) => exact tracks_throw _ _

theorem tracks_emitFirstStore : Mirrors E.loose (emitFirstStore visit) (emitFirstStore visit') := by
  intro i lhs rhs mayReorder
  have hplain := tracks_emitStore hvisit lhs rhs
  refine (tracks_node i).lift.bind ?_
  rintro n _ ⟨_, -, rfl⟩
  refine tracks_ite (fun _ => (tracks_nodeOf lhs).lift.bind ?_) fun _ => hplain
  rintro ⟨form, type, x, k⟩ _ ⟨f, hf, rfl⟩
  obtain h | h | ⟨_, h⟩ := hf
  on_goal 3 => cases form
  case var v =>
    obtain ⟨role, name, emitted, data, strides⟩ := v
    cases role
    case temporary shown =>
      cases lhs with
      | group items | datum d => exact hplain
      | node t =>
        refine tracks_get.bind ?_
        rintro _ _ ⟨d, main, declared, names, labels⟩
        rw [contains_map_name]
        refine tracks_ite (fun _ => ?_) fun _ => hplain
        refine (moves_nameTemporary t shown).bind fun _ => (hvisit rhs).bind fun value value' hvalue => ?_
        exact (moves_declareTemporary t shown hvalue).bind fun _ => tracks_pure .nothing
    all_goals exact hplain
  all_goals exact hplain

theorem tracks_emitAssignment : Mirrors E.loose (emitAssignment visit) (emitAssignment visit') := by
  intro i lhs rhs mayReorder
  have hfirst := tracks_emitFirstStore hvisit i lhs rhs mayReorder
  refine (tracks_nodeOf rhs).lift.bind ?_
  rintro n _ ⟨f, hf, rfl⟩
  refine (moves_isIncrement hf).lift.bind fun counted => ?_
  cases counted with
  | some o => exact (hvisit o).bind fun r r' hr => tracks_pure (.text (hr.shown.before _))
  | none =>
    rw [hf.isBinop, hf.operator?]
    refine tracks_ite (fun _ => ?_) fun _ => hfirst
    refine (moves_leftOf rhs).lift.bind fun left => (moves_same lhs left).lift.bind fun b => ?_
    refine tracks_ite (fun _ => ?_) fun _ => hfirst
    refine (hvisit lhs).bind fun l l' hl => (moves_rightOf rhs).lift.bind fun right => ?_
    refine (hvisit right).bind fun r r' hr => tracks_pure (.text ?_)
    exact (((((hl.shown.after _).before _).before _).before _).append hr.shown).before _

/-! ## Statements -/

omit hvisit in
theorem moves_disposeWithin : Mirrors E.loose disposeWithin disposeWithin := by
  intro w depth o
  induction depth generalizing o with
  | zero => exact tracks_throw _ _
  | succ depth ih =>
    cases o with
    | group items | datum d => exact tracks_throw _ _
    | node i =>
      have hchildren : Moves E.loose id (do let _ ← visitChildren (fun _ _ child => disposeWithin w depth child) i)
          (do let _ ← visitChildren (fun _ _ child => disposeWithin w depth child) (E.name i)) :=
        (tracks_visitChildren (fun _ _ o => ih o) i).bind fun _ _ _ => moves_pure ()
      refine (tracks_node i).lift.bind ?_
      rintro ⟨form, type, x, k⟩ _ ⟨f, hf, rfl⟩
      obtain h | h | ⟨_, h⟩ := hf
      on_goal 3 => cases form
      case handler g => exact moves_pure ()
      case foreign text owned =>
        refine moves_settings.lift.bind fun s => ?_
        exact tracks_ite (fun _ => moves_putLineTo w (.refl _)) fun _ => moves_pure ()
      all_goals exact hchildren

theorem tracks_emitParameters : Mirrors E.loose (emitParameters visit) (emitParameters visit') := by
  intro vars
  have hpresent : (vars.map E.operand).filter (!·.isAbsent) = (vars.filter (!·.isAbsent)).map E.operand := by
    rw [List.filter_map]
    congr 1
    refine List.filter_congr fun o _ => ?_
    cases o <;> rfl
  unfold emitParameters
  rw [hpresent]
  refine (tracks_mapM ?_ (forall₂_graph.2 rfl)).bind
    fun parts parts' h => tracks_pure (.text (.intercalate h _))
  rintro v _ rfl
  refine (moves_typeOf v).lift.bind fun type => (hvisit v).bind fun name name' hname => ?_
  exact (moves_typeText type).lift.bind fun t => tracks_pure (hname.shown.after _)

omit hvisit in
theorem Labels.mangle {a b : Option String} (h : E.Labels a b) (suffix : String) :
    E.Text (mangle (a.getD "" ++ suffix)) (mangle (b.getD "" ++ suffix)) := by
  unfold Emit.mangle
  rw [← String.append_assoc, ← String.append_assoc]
  refine Recounted.append ?_ (.refl _)
  cases h with
  | none => exact .refl _
  | some h => exact h _ (List.mem_cons_self ..)

omit hvisit in
theorem tracks_presentTexts {rs rs' : List Rendered} (h : List.Forall₂ (Rendered.Moved E) rs rs') :
    Tracks E.loose (List.Forall₂ E.Text)
      ((rs.filter fun r => !(r matches .nothing)).mapM fun r => (Action.ofExcept r.asText : Action String) : Emitting _)
      ((rs'.filter fun r => !(r matches .nothing)).mapM fun r => (Action.ofExcept r.asText : Action String) :
        Emitting _) := by
  refine tracks_mapM (P := Rendered.Moved E) (fun r r' hr => hr.tracks_asText.lift) ?_
  induction h with
  | nil => exact .nil
  | cons hr _ ih =>
    cases hr with
    | nothing => exact ih
    | text h => exact .cons (.text h) ih
    | itself kind => exact .cons (.itself kind) ih

theorem moves_emitFunction (i : NodeId) {f f' : Function} (hf : E.Function f f') :
    Moves E.loose id (emitFunction visit i f) (emitFunction visit' (E.name i) f') := by
  obtain ⟨hemitted, hspecializer, hcalled⟩ := hf
  rename_i emitted specializer
  have hrequired : Tracks E.loose (fun _ _ => True) (required f.specializer) (required specializer) := by
    cases hs : f.specializer <;> cases hs' : specializer <;> simp_all
    · exact tracks_throw _ _
    · exact tracks_pure trivial
  have hname := Labels.mangle hemitted (f.specialization.getD "")
  refine hrequired.lift.bind fun _ _ _ => tracks_then (Moves.lift (moves_updateFunction i (fun _ => rfl)
    fun _ _ ⟨_, hs, hc⟩ => .moved (.some fun word _ => hname.after word) hs hc)) ?_
  refine (tracks_mapM (fun o _ ho => ho ▸ hvisit o) (forall₂_graph.2 ?_)).bind
    fun args args' hargs => (tracks_presentTexts hargs).bind fun texts texts' ht => ?_
  · rw [List.map_append, ← Operand.items_rename, ← Operand.items_rename]
    rfl
  have hproto := (((hname.after "static int ").before "(").append (Recounted.intercalate ht ", ")).before ")"
  refine tracks_get.bind ?_
  rintro _ _ ⟨d, main, declared, names, labels⟩
  rw [writer_map, writer_map]
  cases (d.writer main).proto with
  | none => exact tracks_throw_bind _ _
  | some w =>
    refine (moves_putLineTo w (hproto.before _)).bind fun _ => (moves_putLine (hproto.before _)).bind fun _ => ?_
    refine Tracks.bind (P := fun _ _ => True) (tracks_inBlock ?_) fun _ _ _ => moves_say _
    exact moves_newInsertionPoint.bind fun _ => moves_newInsertionPoint.bind fun _ =>
      (tracks_visitChildren (fun _ _ o => hvisit o) i).bind fun _ _ _ => tracks_pure trivial

theorem moves_emitLoop (l : Loop) : Moves E.loose id (emitLoop visit l) (emitLoop visit' (l.moved E.name)) := by
  refine (tracks_results hvisit l.start).bind fun start start' hstart => ?_
  refine (tracks_results hvisit l.condition).bind fun condition condition' hcondition => ?_
  refine (tracks_results hvisit l.step).bind fun step step' hstep => ?_
  have hall : List.Forall₂ (Rendered.Moved E) (start ++ condition ++ step) (start' ++ condition' ++ step') :=
    List.rel_append (List.rel_append hstart hcondition) hstep
  refine (tracks_mapM (fun r r' hr => hr.tracks_stripped.lift) hall).bind fun parts parts' hparts => ?_
  rw [← hparts.length_eq]
  refine tracks_ite (fun _ => tracks_throw_bind _ _) fun _ => ?_
  refine (moves_putLine (((Recounted.refl _).append (.intercalate hparts _)).before _)).bind fun _ => ?_
  refine Tracks.bind (P := fun _ _ => True) (tracks_inBlock ?_) fun _ _ _ =>
    (moves_updateMain _).bind fun _ => moves_say _
  refine moves_newInsertionPoint.bind fun w => (moves_updateMain _).bind fun _ => ?_
  exact (hvisit l.start).bind fun _ _ _ => (hvisit l.body).bind fun _ _ _ => tracks_pure trivial

theorem moves_emitBranch (b : Branch) : Moves E.loose id (emitBranch visit b) (emitBranch visit' (b.moved E.name)) := by
  refine (tracks_single hvisit b.condition).bind fun condition condition' hcondition => ?_
  refine (moves_putLine ((hcondition.after _).before _)).bind fun _ => ?_
  refine (hvisit b.body).bind fun _ _ _ => ?_
  have hotherwise : (b.moved E.name).otherwise.truthy = b.otherwise.truthy := Operand.truthy_rename _
  rw [hotherwise]
  refine tracks_ite (fun _ => ?_) fun _ => moves_say _
  exact (moves_say _).bind fun _ => (hvisit b.otherwise).bind fun _ _ _ => moves_say _

theorem moves_emitParallelLoop : Mirrors E.loose (emitParallelLoop visit) (emitParallelLoop visit') := by
  intro loop condition lastprivates privates
  refine (moves_say _).bind fun _ => (hvisit condition).bind fun test test' htest => ?_
  refine (tracks_commaList hvisit lastprivates).bind fun last last' hlast => ?_
  rw [Operand.truthy_rename]
  refine tracks_ite (fun _ => ?_) fun _ => (tracks_pure (Q := E.Text) (.refl "")).bind fun own own' hown => ?_
  on_goal 1 =>
    refine (tracks_commaList hvisit privates).bind fun own own' hown => ?_
    refine (tracks_pure ((hown.after _).before _)).bind fun own own' hown => ?_
  all_goals
    have hpragma := ((((htest.shown.after "#pragma omp parallel for if(").before ") lastprivate(").append hlast).before
      ")").append hown
    exact (moves_putLine hpragma).bind fun _ => (moves_say _).bind fun _ =>
      (hvisit loop).bind fun _ _ _ => moves_pure ()

theorem moves_emitParallelChoice : Mirrors E.loose (emitParallelChoice visit) (emitParallelChoice visit') := by
  intro a b
  unfold emitParallelChoice
  rw [Operand.truthy_rename, Operand.truthy_rename]
  refine tracks_ite (fun _ => (moves_say _).bind fun _ => (hvisit a).bind fun _ _ _ => ?_) fun _ => ?_
  all_goals
    refine tracks_ite (fun _ => ?_) fun _ => moves_say _
    exact (moves_say _).bind fun _ => (hvisit b).bind fun _ _ _ => moves_say _

theorem moves_emitHandler (h : Handler) : Moves E.loose id (emitHandler visit h) (emitHandler visit' (h.moved E.name)) := by
  refine Moves.bind (moves_forIn (fun o => (hvisit o).bind fun _ _ _ => moves_pure (ForInStep.yield PUnit.unit))
    [h.errorLabel, h.cleanupLabel, h.errorStart, h.body, h.cleanupJump, h.errorTarget, h.errorSet, h.cleanupTarget])
    fun _ => ?_
  refine moves_newInsertionPoint.bind fun w => (moves_disposeWithin w depthLimit h.body).bind fun _ => ?_
  exact (hvisit h.cascade).bind fun _ _ _ => moves_pure ()

theorem moves_emitStatement : Mirrors E.loose (emitStatement visit) (emitStatement visit') := by
  refine fun o => (moves_identity o).lift.bind fun i => tracks_then (Moves.lift (moves_updateMarks i fun _ => rfl)) ?_
  refine (hvisit o).bind fun r r' hr => ?_
  cases hr with
  | nothing => exact moves_pure ()
  | text h =>
    dsimp only
    rw [h.isEmpty]
    exact tracks_ite (fun _ => moves_putLine (h.stripped.before _)) fun _ => moves_pure ()
  | itself kind => exact tracks_throw _ _

/-! ## The code generator -/

theorem tracks_emitNode : Mirrors E.loose (emitNode visit) (emitNode visit') := by
  intro i
  have hnothing {a b : Emitting Unit} (h : Moves E.loose id a b) :
      Tracks E.loose (Rendered.Moved E) (do a; return .nothing) (do b; return .nothing) :=
    h.bind fun _ => tracks_pure .nothing
  refine (tracks_node i).lift.bind ?_
  rintro ⟨form, type, x, k⟩ _ ⟨f, hf, rfl⟩
  cases hf with
  | constant h => exact tracks_emitConstant i h
  | function h => exact hnothing (moves_emitFunction hvisit i h)
  | other _ h =>
    cases form
    case constant => cases h
    case function => cases h
    case argument name vars owner used =>
      refine tracks_ite (fun _ => ?_) fun _ => tracks_pure .nothing
      rw [Operand.items_rename]
      exact tracks_emitParameters hvisit vars.items
    case arrayArgument name owner data strides owned used =>
      exact tracks_ite (fun _ => tracks_emitParameters hvisit [data, strides]) fun _ => tracks_pure .nothing
    case sequence s =>
      exact (tracks_visitChildren (fun _ _ o => hvisit o) i).bind fun _ _ _ => tracks_pure (.itself _)
    case statement o => exact hnothing (moves_emitStatement hvisit o)
    case prepared s o => exact (hvisit s).bind fun _ _ _ => hvisit o
    case parallelLoop l c ls ps => exact hnothing (moves_emitParallelLoop hvisit l c ls ps)
    case parallelChoice a b => exact hnothing (moves_emitParallelChoice hvisit a b)
    case pragmaLoop loop =>
      refine (moves_say _).bind fun _ => (moves_say _).bind fun _ => (moves_say _).bind fun _ => ?_
      exact (hvisit loop).bind fun _ _ _ => tracks_pure .nothing
    case loop l => exact hnothing (moves_emitLoop hvisit l)
    case branch b => exact hnothing (moves_emitBranch hvisit b)
    case promotion o => exact hvisit o
    case call callee args owner =>
      refine (hvisit callee).bind fun f f' hf => (tracks_commaList hvisit args).bind fun xs xs' hxs => ?_
      exact tracks_pure (.text (((hf.shown.before _).append hxs).before _))
    case functionName name owner => exact tracks_pure (.same _)
    case yield o =>
      refine (tracks_single hvisit o).bind fun r r' hr => ?_
      exact (moves_putLine ((hr.after _).before _)).bind fun _ => tracks_pure .nothing
    case binop p l r =>
      refine (hvisit l).bind fun l l' hl => (hvisit r).bind fun r r' hr => tracks_pure (.text ?_)
      exact (((((hl.shown.after _).before _).before _).before _).append hr.shown).before _
    case unop p o =>
      exact (hvisit o).bind fun r r' hr => tracks_pure (.text ((hr.shown.after _).before _))
    case assign l r mayReorder => exact tracks_emitAssignment hvisit i l r mayReorder
    case conditional c l r =>
      refine (tracks_results hvisit c).bind fun c c' hc => (tracks_results hvisit l).bind fun l l' hl => ?_
      refine (tracks_results hvisit r).bind fun r r' hr => ?_
      have hall : List.Forall₂ (Rendered.Moved E) (c ++ l ++ r) (c' ++ l' ++ r') :=
        List.rel_append (List.rel_append hc hl) hr
      generalize c ++ l ++ r = rs at hall ⊢
      generalize c' ++ l' ++ r' = rs' at hall ⊢
      match rs, rs', hall with
      | [], [], .nil | [_], [_], .cons _ .nil | [_, _], [_, _], .cons _ (.cons _ .nil) => exact tracks_throw _ _
      | [a, b, d], [a', b', d'], .cons ha (.cons hb (.cons hd .nil)) =>
        refine tracks_pure (.text ?_)
        exact (((((ha.shown.after _).before _).append hb.shown).before _).append hd.shown).before _
      | _ :: _ :: _ :: _ :: _, _ :: _ :: _ :: _ :: _, .cons _ (.cons _ (.cons _ (.cons _ _))) =>
        exact tracks_throw _ _
    case cast o =>
      refine (moves_typeOf (.node i)).lift.bind fun t => (hvisit o).bind fun r r' hr => ?_
      refine (moves_typeText t).lift.bind fun text => tracks_pure (.text ?_)
      exact (hr.shown.after _).before _
    case dereference o =>
      exact (hvisit o).bind fun r r' hr => tracks_pure (.text ((hr.shown.after _).before _))
    case index p o =>
      refine (tracks_results hvisit p).bind fun p p' hp => (tracks_results hvisit o).bind fun o o' ho => ?_
      have hboth : List.Forall₂ (Rendered.Moved E) (p ++ o) (p' ++ o') := List.rel_append hp ho
      generalize p ++ o = rs at hboth ⊢
      generalize p' ++ o' = rs' at hboth ⊢
      match rs, rs', hboth with
      | [], [], .nil | [_], [_], .cons _ .nil => exact tracks_throw _ _
      | [a, b], [a', b'], .cons ha (.cons hb .nil) =>
        exact tracks_pure (.text (((ha.shown.before _).append hb.shown).before _))
      | _ :: _ :: _ :: _, _ :: _ :: _ :: _, .cons _ (.cons _ (.cons _ _)) => exact tracks_throw _ _
    case sizeof t => exact (moves_typeText t).lift.bind fun text => tracks_pure (.same _)
    case var v =>
      obtain ⟨role, name, emitted, data, strides⟩ := v
      cases role
      case plain => exact tracks_emitVariable i _
      case element o => exact hvisit o
      case dataPointer => exact (moves_shownName name).lift.bind fun shown => tracks_pure (.same shown)
      case stridePointer => exact (moves_shownName name).lift.bind fun shown => tracks_pure (.same shown)
      case temporary shown => exact tracks_emitTemporary i shown
      case register o => exact hvisit o
    case noop => exact tracks_pure (.same _)
    case jump l =>
      refine (tracks_single hvisit l).bind fun r r' hr => ?_
      exact (moves_putLine ((hr.after _).before _)).bind fun _ => tracks_pure .nothing
    case jumpTarget l =>
      refine (tracks_single hvisit l).bind fun r r' hr => ?_
      exact (moves_putLine (hr.before _)).bind fun _ => tracks_pure .nothing
    case label name emitted => exact tracks_emitLabel i name emitted
    case handler g => exact (moves_emitHandler hvisit g).bind fun _ => tracks_pure (.itself _)
    case foreign text owner =>
      exact moves_settings.lift.bind fun s => tracks_ite (fun _ => tracks_pure (.same text)) fun _ => tracks_throw _ _
    case vectorLoad o size =>
      refine (moves_typeOf (.node i)).lift.bind fun t => (moves_ofExcept _).lift.bind fun load => ?_
      exact (hvisit o).bind fun r r' hr => tracks_pure (.text ((hr.shown.after _).before _))
    case vectorStore op p v =>
      refine (moves_typeOf v).lift.bind fun t => (moves_ofExcept _).lift.bind fun store => ?_
      refine (hvisit p).bind fun p p' hp => (hvisit v).bind fun v v' hv => tracks_pure (.text ?_)
      exact (((hp.shown.after _).before _).append hv.shown).before _
    case vectorBinop p l r =>
      dsimp only [Form.moved]
      cases vectorOperations.lookup p with
      | none => exact tracks_throw _ _
      | some name =>
        refine (moves_typeOf l).lift.bind fun t => (moves_ofExcept _).lift.bind fun operation => ?_
        refine (hvisit l).bind fun l l' hl => (hvisit r).bind fun r r' hr => tracks_pure (.text ?_)
        exact (((hl.shown.after _).before _).append hr.shown).before _
    case vectorConstant value =>
      refine (moves_typeOf (.node i)).lift.bind fun t => tracks_ite (fun _ => ?_) fun _ => ?_
      · exact (moves_ofExcept _).lift.bind fun zero => tracks_pure (.same zero)
      · exact (moves_ofExcept _).lift.bind fun load => tracks_pure (.same _)
    all_goals exact tracks_throw _ _

omit hvisit in
theorem tracks_emitWithin : Mirrors E.loose emitWithin emitWithin := by
  intro depth o
  induction depth generalizing o with
  | zero => exact tracks_throw _ _
  | succ depth ih =>
    cases o with
    | group items | datum d => exact tracks_throw _ _
    | node i => exact tracks_emitNode ih i

/-! ## What was written -/

omit hvisit

theorem contents_moved (d : Desk (Lines E)) (w : Nat) :
    E.Text ("".intercalate ((d.map (·.1.1)).contents w)) ("".intercalate ((d.map (·.1.2)).contents w)) := by
  rw [Desk.contents_map, Desk.contents_map]
  refine Recounted.intercalate ?_ _
  rw [List.forall₂_map_left_iff, List.forall₂_map_right_iff, List.forall₂_same]
  exact fun p _ => p.2

theorem Emitter.Moved.start : Emitter.start.Moved E Emitter.start := by
  have hdesk (f : Lines E → String) : (({} : Desk (Lines E)).openCode).1.map f = (({} : Desk String).openCode).1 := by
    simp [Desk.map, Document.map, Desk.openCode, Desk.openPlain, Desk.addWriter, Document.addSection]
  have h := Emitter.Moved.of (({} : Desk (Lines E)).openCode).1 (({} : Desk String).openCode).2 [] [] 0
  rw [hdesk, hdesk] at h
  exact h

theorem Emitter.Moved.code {e e' : Emitter} (h : e.Moved E e') : E.Text e.code e'.code := by
  obtain ⟨d, main, declared, names, labels⟩ := h
  exact contents_moved d main

theorem Emitter.Moved.prototypes {e e' : Emitter} (h : e.Moved E e') : E.Text e.prototypes e'.prototypes := by
  obtain ⟨d, main, declared, names, labels⟩ := h
  unfold Emitter.prototypes
  rw [writer_map, writer_map]
  cases (d.writer main).proto with
  | none => exact .refl _
  | some w => exact contents_moved d w

end ArrayKernel.Emit
