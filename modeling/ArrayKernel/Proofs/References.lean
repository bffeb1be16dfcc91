import ArrayKernel.Proofs.Copying
import ArrayKernel.Proofs.Moved

/-! # What nodes refer to -/

namespace ArrayKernel.Ast

variable {α : Type}

/-! ## The operands of a node -/

def VariableRole.operands : VariableRole → List Operand
  | .element o | .dataPointer o | .stridePointer o | .register o => [o]
  | _ => []

def Variable.operands (v : Variable) : List Operand :=
  v.role.operands ++ v.dataPointer.toList ++ v.stridesPointer.toList

def Loop.operands (l : Loop) : List Operand :=
  [l.start, l.condition, l.step, l.body, l.index] ++ l.target.toList ++ l.blocksize.toList

def Handler.operands (h : Handler) : List Operand :=
  [h.body, h.errorLabel, h.cleanupLabel] ++ h.errorVariable.toList ++
    [h.errorStart, h.cleanupJump, h.errorTarget, h.errorSet, h.cleanupTarget, h.cascade]

def Function.operands (f : Function) : List Operand :=
  [f.body, f.arguments, f.scalarArguments] ++ f.arrays ++ f.byName.map (·.2) ++
    [f.shape, f.posinfo, f.errorValue, f.successValue, f.ompSize] ++ f.totalShape.toList ++
    f.loops.getD [] ++ f.outerLoops.getD [] ++ f.controllingLoops.getD [] ++ f.tilingLoops.getD [] ++
    (f.lowerLimits.getD []).map (·.2) ++ (f.upperLimits.getD []).map (·.2) ++
    f.dataPointers.toList ++ f.stridesPointers.toList

def Form.operands : Form → List Operand
  | .function f => f.operands
  | .call c a _ => [c, a]
  | .raise p e s a => [p, e, s, a]
  | .argument o vs _ _ => [o, vs]
  | .arrayArgument o _ d s vs _ => o :: d :: s :: vs
  | .loop l => l.operands
  | .branch b => [b.condition, b.body, b.otherwise]
  | .prepared s e => [s, e]
  | .assign l r _ | .binop _ l r | .index l r | .vectorStore _ l r | .vectorBinop _ l r => [l, r]
  | .conditional c l r => [c, l, r]
  | .var v => v.operands
  | .parallelLoop l c ls ps => [l, c, ls, ps]
  | .parallelChoice a b => [a, b]
  | .handler h => h.operands
  | .yield o | .positionInfo o | .print o | .iterate o | .sequence o | .statement o | .promotion o | .unop _ o
  | .cast o | .dereference o | .vectorLoad o _ | .pragmaLoop o | .jump o | .jumpTarget o => [o]
  | .functionName .. | .foreign .. | .constant _ | .sizeof _ | .label .. | .noop | .vectorConstant _ => []

def Marks.operands (k : Marks) : List Operand :=
  k.prepending.toList ++ k.appending.toList ++ k.others.map (·.2)

def Node.operands (n : Node) : List Operand := n.form.operands ++ n.marks.operands

/-! ## Gathering -/

section

def gather (o : Operand) : StateM (List NodeId) Operand := do
  modify (· ++ o.ids)
  return o

variable (acc : List NodeId)

theorem gather_run (o : Operand) : ((gather o).run acc).run = (o, acc ++ o.ids) := rfl

theorem gather_all (os : List Operand) : ((os.mapM gather).run acc).run = (os, acc ++ os.flatMap (·.ids)) := by
  induction os generalizing acc with
  | nil => simp
  | cons o os ih => simp [gather_run, ih]

theorem gather_option (o : Option Operand) :
    ((traverseOption gather o).run acc).run = (o, acc ++ o.toList.flatMap (·.ids)) := by
  cases o with
  | none => simp [traverseOption]
  | some o => simp [traverseOption, gather_run]

theorem gather_lists (os : Option (List Operand)) :
    ((traverseLists gather os).run acc).run = (os, acc ++ (os.getD []).flatMap (·.ids)) := by
  cases os with
  | none => simp [traverseLists]
  | some os => simp [traverseLists, gather_all]

theorem gather_pairs (ps : List (α × Operand)) :
    ((traversePairs gather ps).run acc).run = (ps, acc ++ (ps.map (·.2)).flatMap (·.ids)) := by
  induction ps generalizing acc with
  | nil => simp [traversePairs]
  | cons p ps ih =>
    unfold traversePairs at ih ⊢
    rw [List.mapM_cons]
    simp only [StateT.run_bind, Id.run_bind, gather_run, StateT.run_pure, Id.run_pure, ih]
    simp

theorem gather_limits (ps : Option (List (Nat × Operand))) :
    ((traverseLimits gather ps).run acc).run = (ps, acc ++ ((ps.getD []).map (·.2)).flatMap (·.ids)) := by
  cases ps with
  | none => simp [traverseLimits]
  | some ps => simp [traverseLimits, gather_pairs]

theorem gather_role (role : VariableRole) :
    ((role.traverse gather).run acc).run = (role, acc ++ role.operands.flatMap (·.ids)) := by
  cases role <;> simp [VariableRole.traverse, VariableRole.operands, gather_run]

theorem gather_form (f : Form) : ((f.traverse gather).run acc).run = (f, acc ++ f.operands.flatMap (·.ids)) := by
  cases f with
  | function f =>
    simp [Form.traverse, Function.traverse, Form.operands, Function.operands, gather_run, gather_all, gather_option,
      gather_lists, gather_pairs, gather_limits]
  | var v =>
    simp [Form.traverse, Variable.traverse, Form.operands, Variable.operands, gather_role, gather_option]
  | loop l => simp [Form.traverse, Loop.traverse, Form.operands, Loop.operands, gather_run, gather_option]
  | handler h => simp [Form.traverse, Handler.traverse, Form.operands, Handler.operands, gather_run, gather_option]
  | arrayArgument o n d s vs u => simp [Form.traverse, Form.operands, gather_run, gather_all]
  | _ => simp [Form.traverse, Form.operands, gather_run]

theorem Node.references_eq (n : Node) : n.references = n.operands.flatMap (·.ids) := by
  have hrun : ((n.traverse gather).run []).run = (n, n.operands.flatMap (·.ids)) := by
    simp [Node.traverse, Marks.traverse, gather_form, gather_option, gather_pairs, Node.operands, Marks.operands]
  exact congrArg Prod.snd hrun

end

/-! ## Moved nodes -/

section

variable {ρ τ : NodeId → NodeId}

theorem toList_map_rename (o : Option Operand) : (o.map (·.rename ρ)).toList = o.toList.map (·.rename ρ) := by
  cases o <;> rfl

theorem getD_map_rename (os : Option (List Operand)) :
    (os.map (·.map (·.rename ρ))).getD [] = (os.getD []).map (·.rename ρ) := by
  cases os <;> rfl

theorem map_snd_movedPairs (ps : List (α × Operand)) :
    (movedPairs ρ ps).map (·.2) = (ps.map (·.2)).map (·.rename ρ) := by
  simp [movedPairs]

theorem getD_map_movedPairs (ps : Option (List (α × Operand))) :
    (ps.map (movedPairs ρ)).getD [] = movedPairs ρ (ps.getD []) := by
  cases ps <;> rfl

theorem Form.operands_moved (f : Form) : (f.moved ρ).operands = f.operands.map (·.rename ρ) := by
  cases f with
  | function f =>
    simp only [Form.operands, Form.moved, Function.operands, Function.moved, List.map_append, toList_map_rename,
      getD_map_rename, map_snd_movedPairs, getD_map_movedPairs, List.map_cons, List.map_nil]
  | var v =>
    rcases v with ⟨_ | _ | _ | _ | _ | _, _, _, _, _⟩ <;>
      simp only [Form.operands, Form.moved, Variable.operands, Variable.moved, VariableRole.operands,
        VariableRole.moved, List.map_append, toList_map_rename, List.map_cons, List.map_nil]
  | loop l =>
    simp only [Form.operands, Form.moved, Loop.operands, Loop.moved, List.map_append, toList_map_rename, List.map_cons,
      List.map_nil]
  | handler h =>
    simp only [Form.operands, Form.moved, Handler.operands, Handler.moved, List.map_append, toList_map_rename,
      List.map_cons, List.map_nil]
  | _ => rfl

theorem Node.references_moved (n : Node) : (n.moved ρ).references = n.references.map ρ := by
  have hmarks : (n.marks.moved ρ).operands = n.marks.operands.map (·.rename ρ) := by
    simp only [Marks.operands, Marks.moved, List.map_append, toList_map_rename, map_snd_movedPairs]
  rw [references_eq, references_eq, Node.operands, Node.operands]
  show ((n.form.moved ρ).operands ++ (n.marks.moved ρ).operands).flatMap (·.ids) = _
  rw [Form.operands_moved, hmarks, ← List.map_append, List.flatMap_map, List.map_flatMap]
  exact congrArg (List.flatMap · _) (funext fun o => Operand.ids_rename o)

theorem map_rename_congr {os : List Operand} (h : ∀ o ∈ os, o.rename ρ = o.rename τ) :
    os.map (·.rename ρ) = os.map (·.rename τ) := List.map_congr_left h

theorem option_rename_congr {o : Option Operand} (h : ∀ x ∈ o.toList, x.rename ρ = x.rename τ) :
    o.map (·.rename ρ) = o.map (·.rename τ) := by
  cases o with
  | none => rfl
  | some o => exact congrArg some (h o (by simp))

theorem lists_rename_congr {os : Option (List Operand)} (h : ∀ x ∈ os.getD [], x.rename ρ = x.rename τ) :
    os.map (·.map (·.rename ρ)) = os.map (·.map (·.rename τ)) := by
  cases os with
  | none => rfl
  | some os => exact congrArg some (map_rename_congr h)

theorem movedPairs_congr {ps : List (α × Operand)} (h : ∀ x ∈ ps.map (·.2), x.rename ρ = x.rename τ) :
    movedPairs ρ ps = movedPairs τ ps :=
  List.map_congr_left fun p hp => by rw [h p.2 (List.mem_map_of_mem hp)]

theorem limits_congr {ps : Option (List (Nat × Operand))}
    (h : ∀ x ∈ (ps.getD []).map (·.2), x.rename ρ = x.rename τ) :
    ps.map (movedPairs ρ) = ps.map (movedPairs τ) := by
  cases ps with
  | none => rfl
  | some ps => exact congrArg some (movedPairs_congr h)

theorem Form.moved_congr {f : Form} (h : ∀ o ∈ f.operands, o.rename ρ = o.rename τ) : f.moved ρ = f.moved τ := by
  cases f with
  | function f =>
    simp only [Form.operands, Function.operands, List.forall_mem_append, List.forall_mem_cons] at h
    obtain ⟨⟨⟨⟨⟨⟨⟨⟨⟨⟨⟨⟨⟨hbody, hargs, hscalars, -⟩, harrays⟩, hnames⟩, hshape, hpos, herror, hsuccess, homp, -⟩,
      htotal⟩, hloops⟩, houter⟩, hcontrolling⟩, htiling⟩, hlower⟩, hupper⟩, hdata⟩, hstrides⟩ := h
    simp only [Form.moved, Function.moved, hbody, hargs, hscalars, hshape, hpos, herror, hsuccess, homp,
      map_rename_congr harrays, movedPairs_congr hnames, option_rename_congr htotal, lists_rename_congr hloops,
      lists_rename_congr houter, lists_rename_congr hcontrolling, lists_rename_congr htiling, limits_congr hlower,
      limits_congr hupper, option_rename_congr hdata, option_rename_congr hstrides]
  | var v =>
    simp only [Form.operands, Variable.operands, List.forall_mem_append] at h
    obtain ⟨⟨hrole, hdata⟩, hstrides⟩ := h
    have hmoved : v.role.moved ρ = v.role.moved τ := by
      rcases v with ⟨_ | o | o | o | _ | o, _, _, _, _⟩
      case plain | temporary => rfl
      all_goals
        have ho : o.rename ρ = o.rename τ := hrole o (List.mem_singleton_self o)
        simp only [VariableRole.moved, ho]
    simp only [Form.moved, Variable.moved, hmoved, option_rename_congr hdata, option_rename_congr hstrides]
  | loop l =>
    simp only [Form.operands, Loop.operands, List.forall_mem_append, List.forall_mem_cons] at h
    obtain ⟨⟨⟨h1, h2, h3, h4, h5, -⟩, htarget⟩, hsize⟩ := h
    simp only [Form.moved, Loop.moved, h1, h2, h3, h4, h5, option_rename_congr htarget, option_rename_congr hsize]
  | handler g =>
    simp only [Form.operands, Handler.operands, List.forall_mem_append, List.forall_mem_cons] at h
    obtain ⟨⟨⟨h1, h2, h3, -⟩, herror⟩, h4, h5, h6, h7, h8, h9, -⟩ := h
    simp only [Form.moved, Handler.moved, h1, h2, h3, h4, h5, h6, h7, h8, h9, option_rename_congr herror]
  | arrayArgument o n d s vs u =>
    simp only [Form.operands, List.forall_mem_cons] at h
    obtain ⟨h1, h2, h3, hvars⟩ := h
    simp only [Form.moved, h1, h2, h3, map_rename_congr hvars]
  | branch b =>
    simp only [Form.operands, List.forall_mem_cons] at h
    obtain ⟨h1, h2, h3, -⟩ := h
    simp only [Form.moved, Branch.moved, h1, h2, h3]
  | _ => simp_all [Form.operands, Form.moved]

theorem Node.moved_congr {n : Node} (h : ∀ id ∈ n.references, ρ id = τ id) : n.moved ρ = n.moved τ := by
  have hall : ∀ o ∈ n.operands, o.rename ρ = o.rename τ := by
    intro o ho
    refine Operand.rename_congr fun id hid => h id ?_
    rw [references_eq]
    exact List.mem_flatMap.2 ⟨o, ho, hid⟩
  simp only [Node.operands, Marks.operands, List.forall_mem_append] at hall
  obtain ⟨hform, ⟨hpre, hpost⟩, hothers⟩ := hall
  simp only [Node.moved, Form.moved_congr hform, Marks.moved, option_rename_congr hpre, option_rename_congr hpost,
    movedPairs_congr hothers]

end

/-! ## Searches side by side -/

def refs (nodes : Array Node) (id : NodeId) : List NodeId :=
  match nodes[id.index]? with
  | some n => n.references
  | none => []

def Found.next (nodes : Array Node) (start : Nat) (g : Found) : Found :=
  ((g.ids.extract start g.ids.size).toList.flatMap (refs nodes)).foldl Found.add g

theorem Found.close_succ (nodes : Array Node) (rounds start : Nat) (g : Found) :
    Found.close nodes (rounds + 1) start g =
      if (g.next nodes start).ids.size == g.ids.size then g
      else Found.close nodes rounds g.ids.size (g.next nodes start) := rfl

/-- Two node stores correspond on some nodes: those of the first one refer only to such nodes, and those of the
second one refer to the same under other names. -/
structure Corresponds (A B : Array Node) (S : NodeId → Prop) (ρ : NodeId → NodeId) : Prop where
  inj : ∀ a b, S a → S b → ρ a = ρ b → a = b
  step : ∀ id, S id → ∀ r ∈ refs A id, S r
  refs : ∀ id, S id → refs B (ρ id) = (refs A id).map ρ

structure Found.Matches (S : NodeId → Prop) (ρ : NodeId → NodeId) (g g' : Found) : Prop where
  inside : ∀ id ∈ g.ids, S id
  ids : g'.ids = g.ids.map ρ
  seen : ∀ id, S id → g'.seen[(ρ id).index]? = g.seen[id.index]?

section

variable {A B : Array Node} {S : NodeId → Prop} {ρ : NodeId → NodeId} {g g' : Found}

theorem Found.Matches.add (hinj : ∀ a b, S a → S b → ρ a = ρ b → a = b) (h : g.Matches S ρ g') {id : NodeId} (hid : S id) :
    (g.add id).Matches S ρ (g'.add (ρ id)) := by
  unfold Found.add
  rw [h.seen id hid]
  split
  · next hfalse =>
    refine ⟨?_, ?_, ?_⟩
    · intro j hj
      rcases Array.mem_push.1 hj with hj | rfl
      · exact h.inside j hj
      · exact hid
    · simp [h.ids]
    · intro j hj
      simp only [Array.set!_eq_setIfInBounds, Array.getElem?_setIfInBounds]
      have hlt : id.index < g.seen.size := (Array.getElem?_eq_some_iff.1 hfalse).1
      have hlt' : (ρ id).index < g'.seen.size := (Array.getElem?_eq_some_iff.1 ((h.seen id hid).trans hfalse)).1
      have hiff : (ρ id).index = (ρ j).index ↔ id.index = j.index := by
        constructor
        · intro heq
          have : ρ id = ρ j := by
            cases hx : ρ id
            cases hy : ρ j
            rw [hx, hy] at heq
            exact congrArg NodeId.mk heq
          rw [hinj id j hid hj this]
        · intro heq
          have : id = j := by
            cases id
            cases j
            exact congrArg NodeId.mk heq
          rw [this]
      simp only [hiff, hlt, hlt', if_true, h.seen j hj]
  · exact h

theorem Found.Matches.addAll (hinj : ∀ a b, S a → S b → ρ a = ρ b → a = b) (h : g.Matches S ρ g') {ids : List NodeId}
    (hids : ∀ id ∈ ids, S id) : (ids.foldl Found.add g).Matches S ρ ((ids.map ρ).foldl Found.add g') := by
  induction ids generalizing g g' with
  | nil => exact h
  | cons id ids ih =>
    exact ih (h.add hinj (hids id (List.mem_cons_self ..))) fun j hj => hids j (List.mem_cons_of_mem id hj)

theorem Found.Matches.next (hc : Corresponds A B S ρ) (start : Nat) (h : g.Matches S ρ g') :
    (g.next A start).Matches S ρ (g'.next B start) := by
  have hlast : ∀ id ∈ (g.ids.extract start g.ids.size).toList, S id := by
    intro id hid
    rw [Array.toList_extract] at hid
    exact h.inside id (Array.mem_toList_iff.1 (List.mem_of_mem_drop (List.mem_of_mem_take hid)))
  have hfound : ((g'.ids.extract start g'.ids.size).toList.flatMap (Ast.refs B)) =
      ((g.ids.extract start g.ids.size).toList.flatMap (Ast.refs A)).map ρ := by
    rw [h.ids, Array.size_map, ← Array.map_extract, Array.toList_map, List.flatMap_map, List.map_flatMap]
    exact List.flatMap_congr fun id hid => hc.refs id (hlast id hid)
  unfold Found.next
  rw [hfound]
  refine h.addAll hc.inj fun r hr => ?_
  obtain ⟨id, hid, hr⟩ := List.mem_flatMap.1 hr
  exact hc.step id (hlast id hid) r hr

theorem Found.Matches.size (h : g.Matches S ρ g') : g'.ids.size = g.ids.size := by rw [h.ids, Array.size_map]

theorem Found.Matches.close (hc : Corresponds A B S ρ) (rounds start : Nat) (h : g.Matches S ρ g') :
    (Found.close A rounds start g).Matches S ρ (Found.close B rounds start g') := by
  induction rounds generalizing start g g' with
  | zero => exact h
  | succ rounds ih =>
    have hnext := h.next hc start
    rw [Found.close_succ, Found.close_succ, h.size, hnext.size]
    split
    · exact h
    · exact ih _ hnext

end

/-! ### Rounds -/

def Found.unseen (g : Found) : Nat := g.seen.count false

section

variable {nodes : Array Node} {g : Found}

theorem Found.unseen_add (g : Found) (id : NodeId) :
    (g.add id).ids.size + (g.add id).unseen = g.ids.size + g.unseen := by
  unfold Found.add
  split
  · next hfalse =>
    obtain ⟨hlt, hget⟩ := Array.getElem?_eq_some_iff.1 hfalse
    have hpos : 0 < g.seen.count false := Array.count_pos_iff.2 (hget ▸ Array.getElem_mem hlt)
    simp only [Found.unseen, Array.set!_eq_setIfInBounds, Array.setIfInBounds_def, dif_pos hlt, Array.count_set, hget,
      Array.size_push]
    simp only [beq_self_eq_true, if_true, Bool.true_beq, Bool.false_eq_true, if_false]
    omega
  · rfl

theorem Found.unseen_addAll (g : Found) (ids : List NodeId) :
    (ids.foldl Found.add g).ids.size + (ids.foldl Found.add g).unseen = g.ids.size + g.unseen := by
  induction ids generalizing g with
  | nil => rfl
  | cons id ids ih => rw [List.foldl_cons, ih, Found.unseen_add]

variable (nodes) in
theorem Found.unseen_next (g : Found) (start : Nat) :
    (g.next nodes start).ids.size + (g.next nodes start).unseen = g.ids.size + g.unseen :=
  g.unseen_addAll _

variable (nodes) in
theorem Found.size_next_le (g : Found) (start : Nat) : g.ids.size ≤ (g.next nodes start).ids.size := by
  unfold Found.next
  generalize (g.ids.extract start g.ids.size).toList.flatMap (refs nodes) = ids
  induction ids generalizing g with
  | nil => exact Nat.le_refl _
  | cons id ids ih =>
    refine Nat.le_trans ?_ (ih (g.add id))
    unfold Found.add
    split
    · simp
    · exact Nat.le_refl _

theorem Found.close_rounds {rounds more start : Nat} (h : g.unseen ≤ rounds) (hmore : rounds ≤ more) :
    Found.close nodes more start g = Found.close nodes rounds start g := by
  induction rounds generalizing more start g with
  | zero =>
    cases more with
    | zero => rfl
    | succ more =>
      have hunseen := g.unseen_next nodes start
      have hle := g.size_next_le nodes start
      rw [Found.close_succ, if_pos (by rw [beq_iff_eq]; omega)]
      rfl
  | succ rounds ih =>
    cases more with
    | zero => omega
    | succ more =>
      have hunseen := g.unseen_next nodes start
      have hle := g.size_next_le nodes start
      rw [Found.close_succ, Found.close_succ]
      split
      · rfl
      · next hne =>
        rw [beq_iff_eq] at hne
        exact ih (by omega) (by omega)

end

/-- What is found before the first round: what an operand names itself. -/
def Found.start (nodes : Array Node) (o : Operand) : Found :=
  o.ids.foldl Found.add { ids := #[], seen := Array.replicate nodes.size false }

theorem Found.unseen_start (nodes : Array Node) (o : Operand) : (Found.start nodes o).unseen ≤ nodes.size := by
  have hall := Found.unseen_addAll { ids := #[], seen := Array.replicate nodes.size false } o.ids
  have hcount : Found.unseen { ids := #[], seen := Array.replicate nodes.size false } = nodes.size := by
    simp [Found.unseen]
  rw [hcount, Array.size_empty, Nat.zero_add] at hall
  exact Nat.le.intro (Nat.add_comm _ _ ▸ hall)

theorem reachable_map {A B : Array Node} {S : NodeId → Prop} {ρ : NodeId → NodeId} (hc : Corresponds A B S ρ)
    (hsize : A.size ≤ B.size) (hin : ∀ id, S id → ((ρ id).index < B.size ↔ id.index < A.size)) {o o' : Operand}
    (ho : ∀ id ∈ o.ids, S id) (ho' : o'.ids = o.ids.map ρ) : reachable B o' = (reachable A o).map ρ := by
  have hempty : Found.Matches S ρ { ids := #[], seen := Array.replicate A.size false }
      { ids := #[], seen := Array.replicate B.size false } := by
    refine ⟨by simp, by simp, ?_⟩
    intro id hid
    simp only [Array.getElem?_replicate, hin id hid]
  have hstart : (Found.start A o).Matches S ρ (Found.start B o') := by
    unfold Found.start
    rw [ho']
    exact hempty.addAll hc.inj ho
  have hclosed := hstart.close hc B.size 0
  rw [Found.close_rounds (Found.unseen_start A o) hsize] at hclosed
  exact hclosed.ids

end ArrayKernel.Ast
