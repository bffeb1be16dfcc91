import ArrayKernel.Ast.Clone
import ArrayKernel.Ast.Equality
import Mathlib.Data.List.Basic

/-! # Nodes under other names -/

namespace ArrayKernel.Ast

/-! ## Operands -/

section

variable {ρ τ : NodeId → NodeId}

theorem Operand.renameAll_eq (os : List Operand) : Operand.renameAll ρ os = os.map (·.rename ρ) := by
  induction os with
  | nil => rfl
  | cons o os ih => rw [Operand.renameAll, ih, List.map_cons]

@[simp] theorem Operand.rename_node (id : NodeId) : (Operand.node id).rename ρ = .node (ρ id) := rfl

@[simp] theorem Operand.rename_group (os : List Operand) :
    (Operand.group os).rename ρ = .group (os.map (·.rename ρ)) := by
  rw [Operand.rename, Operand.renameAll_eq]

mutual

theorem Operand.rename_rename : ∀ o : Operand, (o.rename ρ).rename τ = o.rename fun id => τ (ρ id)
  | .node _ | .datum _ => rfl
  | .group items => by
    rw [Operand.rename, Operand.rename, Operand.rename, Operand.renameAll_renameAll items]

theorem Operand.renameAll_renameAll : ∀ os : List Operand,
    Operand.renameAll τ (Operand.renameAll ρ os) = Operand.renameAll (fun id => τ (ρ id)) os
  | [] => rfl
  | o :: os => by
    rw [Operand.renameAll, Operand.renameAll, Operand.renameAll, Operand.rename_rename o,
      Operand.renameAll_renameAll os]

end

mutual

theorem Operand.ids_rename : ∀ o : Operand, (o.rename ρ).ids = o.ids.map ρ
  | .node _ | .datum _ => rfl
  | .group items => by rw [Operand.rename, Operand.ids, Operand.ids, Operand.idsAll_renameAll items]

theorem Operand.idsAll_renameAll : ∀ os : List Operand,
    Operand.idsAll (Operand.renameAll ρ os) = (Operand.idsAll os).map ρ
  | [] => rfl
  | o :: os => by
    rw [Operand.renameAll, Operand.idsAll, Operand.idsAll, Operand.ids_rename o,
      Operand.idsAll_renameAll os, List.map_append]

end

mutual

theorem Operand.rename_congr : ∀ {o : Operand}, (∀ id ∈ o.ids, ρ id = τ id) → o.rename ρ = o.rename τ
  | .node id, h => congrArg Operand.node (h id (List.mem_singleton.2 rfl))
  | .datum _, _ => rfl
  | .group items, h => by rw [Operand.rename, Operand.rename, Operand.renameAll_congr h]

theorem Operand.renameAll_congr : ∀ {os : List Operand}, (∀ id ∈ Operand.idsAll os, ρ id = τ id) →
    Operand.renameAll ρ os = Operand.renameAll τ os
  | [], _ => rfl
  | o :: os, h => by
    have hfirst : o.rename ρ = o.rename τ := Operand.rename_congr fun id hid => h id (List.mem_append_left _ hid)
    have hrest : Operand.renameAll ρ os = Operand.renameAll τ os :=
      Operand.renameAll_congr fun id hid => h id (List.mem_append_right _ hid)
    rw [Operand.renameAll, Operand.renameAll, hfirst, hrest]

end

@[simp] theorem Operand.isAbsent_rename (o : Operand) : (o.rename ρ).isAbsent = o.isAbsent := by
  cases o <;> rfl

@[simp] theorem Operand.truthy_rename (o : Operand) : (o.rename ρ).truthy = o.truthy := by
  cases o with
  | group os => simp [Operand.truthy]
  | _ => rfl

@[simp] theorem Operand.items_rename (o : Operand) : (o.rename ρ).items = o.items.map (·.rename ρ) := by
  cases o with
  | group os => simp [Operand.items]
  | _ => rfl

@[simp] theorem Operand.id?_rename (o : Operand) : (o.rename ρ).id? = o.id?.map ρ := by
  cases o <;> rfl

end

/-! ## Nodes -/

section

variable (ρ : NodeId → NodeId)

def VariableRole.moved : VariableRole → VariableRole
  | .element o => .element (o.rename ρ)
  | .dataPointer o => .dataPointer (o.rename ρ)
  | .stridePointer o => .stridePointer (o.rename ρ)
  | .register o => .register (o.rename ρ)
  | role => role

def Variable.moved (v : Variable) : Variable :=
  { v with
    role := v.role.moved ρ
    dataPointer := v.dataPointer.map (·.rename ρ)
    stridesPointer := v.stridesPointer.map (·.rename ρ) }

def Loop.moved (l : Loop) : Loop :=
  { l with
    start := l.start.rename ρ
    condition := l.condition.rename ρ
    step := l.step.rename ρ
    body := l.body.rename ρ
    index := l.index.rename ρ
    target := l.target.map (·.rename ρ)
    blocksize := l.blocksize.map (·.rename ρ) }

def Branch.moved (b : Branch) : Branch :=
  { b with
    condition := b.condition.rename ρ
    body := b.body.rename ρ
    otherwise := b.otherwise.rename ρ }

def Handler.moved (h : Handler) : Handler :=
  { h with
    body := h.body.rename ρ
    errorLabel := h.errorLabel.rename ρ
    cleanupLabel := h.cleanupLabel.rename ρ
    errorVariable := h.errorVariable.map (·.rename ρ)
    errorStart := h.errorStart.rename ρ
    cleanupJump := h.cleanupJump.rename ρ
    errorTarget := h.errorTarget.rename ρ
    errorSet := h.errorSet.rename ρ
    cleanupTarget := h.cleanupTarget.rename ρ
    cascade := h.cascade.rename ρ }

def movedPairs {α : Type} (ps : List (α × Operand)) : List (α × Operand) := ps.map fun p => (p.1, p.2.rename ρ)

def Function.moved (f : Function) : Function :=
  { f with
    body := f.body.rename ρ
    arguments := f.arguments.rename ρ
    scalarArguments := f.scalarArguments.rename ρ
    arrays := f.arrays.map (·.rename ρ)
    byName := movedPairs ρ f.byName
    shape := f.shape.rename ρ
    posinfo := f.posinfo.rename ρ
    errorValue := f.errorValue.rename ρ
    successValue := f.successValue.rename ρ
    ompSize := f.ompSize.rename ρ
    totalShape := f.totalShape.map (·.rename ρ)
    loops := f.loops.map (·.map (·.rename ρ))
    outerLoops := f.outerLoops.map (·.map (·.rename ρ))
    controllingLoops := f.controllingLoops.map (·.map (·.rename ρ))
    tilingLoops := f.tilingLoops.map (·.map (·.rename ρ))
    lowerLimits := f.lowerLimits.map (movedPairs ρ)
    upperLimits := f.upperLimits.map (movedPairs ρ)
    dataPointers := f.dataPointers.map (·.rename ρ)
    stridesPointers := f.stridesPointers.map (·.rename ρ) }

def Form.moved : Form → Form
  | .function g => .function (g.moved ρ)
  | .call c a i => .call (c.rename ρ) (a.rename ρ) i
  | .yield o => .yield (o.rename ρ)
  | .raise p e s a => .raise (p.rename ρ) (e.rename ρ) (s.rename ρ) (a.rename ρ)
  | .positionInfo vs => .positionInfo (vs.rename ρ)
  | .argument o vs n u => .argument (o.rename ρ) (vs.rename ρ) n u
  | .arrayArgument o n d s vs u =>
    .arrayArgument (o.rename ρ) n (d.rename ρ) (s.rename ρ) (vs.map (·.rename ρ)) u
  | .print a => .print (a.rename ρ)
  | .iterate b => .iterate (b.rename ρ)
  | .loop l => .loop (l.moved ρ)
  | .branch b => .branch (b.moved ρ)
  | .sequence s => .sequence (s.rename ρ)
  | .statement e => .statement (e.rename ρ)
  | .prepared s e => .prepared (s.rename ρ) (e.rename ρ)
  | .assign l r k => .assign (l.rename ρ) (r.rename ρ) k
  | .binop p l r => .binop p (l.rename ρ) (r.rename ρ)
  | .index p i => .index (p.rename ρ) (i.rename ρ)
  | .vectorStore p l r => .vectorStore p (l.rename ρ) (r.rename ρ)
  | .vectorBinop p l r => .vectorBinop p (l.rename ρ) (r.rename ρ)
  | .promotion o => .promotion (o.rename ρ)
  | .unop p o => .unop p (o.rename ρ)
  | .cast o => .cast (o.rename ρ)
  | .dereference o => .dereference (o.rename ρ)
  | .vectorLoad o n => .vectorLoad (o.rename ρ) n
  | .conditional c l r => .conditional (c.rename ρ) (l.rename ρ) (r.rename ρ)
  | .var v => .var (v.moved ρ)
  | .parallelLoop l c ls ps => .parallelLoop (l.rename ρ) (c.rename ρ) (ls.rename ρ) (ps.rename ρ)
  | .parallelChoice a b => .parallelChoice (a.rename ρ) (b.rename ρ)
  | .pragmaLoop l => .pragmaLoop (l.rename ρ)
  | .handler h => .handler (h.moved ρ)
  | .jump l => .jump (l.rename ρ)
  | .jumpTarget l => .jumpTarget (l.rename ρ)
  | f => f

def Marks.moved (k : Marks) : Marks :=
  { k with
    prepending := k.prepending.map (·.rename ρ)
    appending := k.appending.map (·.rename ρ)
    others := movedPairs ρ k.others }

def Node.moved (n : Node) : Node := { n with form := n.form.moved ρ, marks := n.marks.moved ρ }

end

section

variable {ρ τ : NodeId → NodeId} {α : Type}

/-! ### Copies are moved nodes -/

theorem traverseOption_run (o : Option Operand) :
    (traverseOption (fun o => (pure (o.rename ρ) : Id Operand)) o).run = o.map (·.rename ρ) := by
  cases o <;> rfl

theorem traverseLists_run (os : Option (List Operand)) :
    (traverseLists (fun o => (pure (o.rename ρ) : Id Operand)) os).run = os.map (·.map (·.rename ρ)) := by
  cases os with
  | none => rfl
  | some os => simp [traverseLists]

theorem traversePairs_run (ps : List (α × Operand)) :
    (traversePairs (fun o => (pure (o.rename ρ) : Id Operand)) ps).run = movedPairs ρ ps := by
  simp [traversePairs, movedPairs]

theorem traverseLimits_run (ps : Option (List (Nat × Operand))) :
    (traverseLimits (fun o => (pure (o.rename ρ) : Id Operand)) ps).run = ps.map (movedPairs ρ) := by
  cases ps with
  | none => rfl
  | some ps => simp [traverseLimits, traversePairs_run]

theorem Function.traverse_run (g : Function) :
    (g.traverse fun o => (pure (o.rename ρ) : Id Operand)).run = g.moved ρ := by
  simp [Function.traverse, Function.moved, traverseOption_run, traverseLists_run, traversePairs_run,
    traverseLimits_run]

theorem Variable.traverse_run (v : Variable) :
    (v.traverse fun o => (pure (o.rename ρ) : Id Operand)).run = v.moved ρ := by
  rcases v with ⟨_ | _ | _ | _ | _ | _, _, _, _, _⟩ <;>
    simp [Variable.traverse, VariableRole.traverse, Variable.moved, VariableRole.moved, traverseOption_run]

theorem Form.traverse_run (f : Form) :
    (f.traverse fun o => (pure (o.rename ρ) : Id Operand)).run = f.moved ρ := by
  cases f with
  | function g => simp [Form.traverse, Form.moved, Function.traverse_run]
  | var v => simp [Form.traverse, Form.moved, Variable.traverse_run]
  | arrayArgument => simp [Form.traverse, Form.moved]
  | loop l => simp [Form.traverse, Form.moved, Loop.traverse, Loop.moved, traverseOption_run]
  | handler h => simp [Form.traverse, Form.moved, Handler.traverse, Handler.moved, traverseOption_run]
  | _ => rfl

theorem Node.rename_eq_moved (n : Node) : n.rename ρ = n.moved ρ := by
  simp [Node.rename, Node.traverse, Node.moved, Form.traverse_run, Marks.traverse, Marks.moved,
    traverseOption_run, traversePairs_run]

/-! ### Moving twice -/

theorem movedPairs_movedPairs (ps : List (α × Operand)) :
    movedPairs τ (movedPairs ρ ps) = movedPairs (fun id => τ (ρ id)) ps := by
  simp [movedPairs, Operand.rename_rename]

theorem Form.moved_moved (f : Form) : (f.moved ρ).moved τ = f.moved fun id => τ (ρ id) := by
  cases f with
  | var v =>
    rcases v with ⟨_ | _ | _ | _ | _ | _, _, _, _, _⟩ <;>
      simp [Form.moved, Variable.moved, VariableRole.moved, Operand.rename_rename, Function.comp_def]
  | function g =>
    simp [Form.moved, Function.moved, Operand.rename_rename, Function.comp_def, movedPairs_movedPairs]
  | loop l => simp [Form.moved, Loop.moved, Operand.rename_rename, Function.comp_def]
  | branch b => simp [Form.moved, Branch.moved, Operand.rename_rename]
  | handler h => simp [Form.moved, Handler.moved, Operand.rename_rename, Function.comp_def]
  | _ => simp [Form.moved, Operand.rename_rename]

theorem Marks.moved_moved (k : Marks) : (k.moved ρ).moved τ = k.moved fun id => τ (ρ id) := by
  simp [Marks.moved, Operand.rename_rename, Function.comp_def, movedPairs_movedPairs]

theorem Node.moved_moved (n : Node) : (n.moved ρ).moved τ = n.moved fun id => τ (ρ id) := by
  simp only [Node.moved, Form.moved_moved, Marks.moved_moved]

theorem Form.function_of_moved {f : Form} {g : Function} (h : f.moved ρ = .function g) :
    ∃ f', f = .function f' ∧ g = f'.moved ρ := by
  cases f <;> cases h
  exact ⟨_, rfl, rfl⟩

/-! ## What is read of a moved node -/

theorem Form.children_moved (f : Form) : (f.moved ρ).children = f.children.map fun c => (c.1, c.2.rename ρ) := by
  cases f with
  | var v => rcases v with ⟨_ | _ | _ | _ | _ | _, _, _, _, _⟩ <;> rfl
  | _ => rfl

theorem Form.setChild_moved (f : Form) (name : String) (o : Operand) :
    (f.moved ρ).setChild name (o.rename ρ) = (f.setChild name o).moved ρ := by
  cases f with
  | var v =>
    rcases v with ⟨_ | of | _ | _ | _ | of, _, _, _, _⟩
    case element =>
      by_cases h : name = "element"
      · subst h
        rfl
      · simp [Form.moved, Form.setChild, Variable.moved, VariableRole.moved, h]
    case register =>
      by_cases h : name = "variable"
      · subst h
        rfl
      · simp [Form.moved, Form.setChild, Variable.moved, VariableRole.moved, h]
    all_goals rfl
  | _ =>
    first
      | rfl
      | simp only [Form.moved, Form.setChild]
        split <;> rfl

theorem Form.kindName_moved (f : Form) : (f.moved ρ).kindName = f.kindName := by
  cases f with
  | var v => rcases v with ⟨_ | _ | _ | _ | _ | _, _, _, _, _⟩ <;> rfl
  | _ => rfl

end

end ArrayKernel.Ast
