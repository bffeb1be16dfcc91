import ArrayKernel.Ast.Equality
import ArrayKernel.Proofs.Run

/-!
# The node store

What is stored under an identity, how adding and altering nodes changes that, and regions: sets of nodes that
are closed under going to an operand.
-/

namespace ArrayKernel.Ast

variable {α : Type} {s t u : Session} {o : Operand} {id j : NodeId} {n : Node} {f : Form}
variable {g : Node → Node} {r : CType} {op : String}

/-! ## Looking up -/

def Session.node? (s : Session) (id : NodeId) : Option Node := s.nodes[id.index]?

def Session.form? (s : Session) (id : NodeId) : Option Form := (s.node? id).map (·.form)

def Session.type? (s : Session) (id : NodeId) : Option CType := (s.node? id).bind (·.type)

def Session.add (s : Session) (n : Node) : Session := { s with nodes := s.nodes.push n }

def Session.alter (s : Session) (id : NodeId) (g : Node → Node) : Session :=
  { s with nodes := s.nodes.modify id.index g }

def Session.next (s : Session) : NodeId := ⟨s.nodes.size⟩

theorem node?_lt (h : s.node? id = some n) : id.index < s.nodes.size :=
  (Array.getElem?_eq_some_iff.1 h).1

theorem node?_of_lt (h : id.index < s.nodes.size) : ∃ n, s.node? id = some n :=
  ⟨_, Array.getElem?_eq_some_iff.2 ⟨h, rfl⟩⟩

theorem node?_add : (s.add n).node? id = if id = s.next then some n else s.node? id := by
  obtain ⟨i⟩ := id
  simp only [Session.node?, Session.add, Session.next, Array.getElem?_push, NodeId.mk.injEq]

theorem node?_alter :
    (s.alter id g).node? j = if j = id then (s.node? j).map g else s.node? j := by
  obtain ⟨i⟩ := id
  obtain ⟨k⟩ := j
  simp only [Session.node?, Session.alter, Array.getElem?_modify, NodeId.mk.injEq, eq_comm]

@[simp] theorem size_add : (s.add n).nodes.size = s.nodes.size + 1 := by simp [Session.add]

@[simp] theorem size_alter : (s.alter id g).nodes.size = s.nodes.size := by
  simp [Session.alter]

theorem alter_alter {h : Node → Node} : (s.alter id g).alter id h = s.alter id (h ∘ g) := by
  simp only [Session.alter, Session.mk.injEq, and_true]
  refine Array.ext_getElem? fun i => ?_
  simp only [Array.getElem?_modify]
  split <;> simp

theorem alter_congr {g' : Node → Node} (h : ∀ n, s.node? id = some n → g n = g' n) :
    s.alter id g = s.alter id g' := by
  simp only [Session.alter, Session.mk.injEq, and_true]
  refine Array.ext_getElem? fun i => ?_
  simp only [Array.getElem?_modify]
  split
  · subst i
    cases hn : s.nodes[id.index]? with
    | none => rfl
    | some n => rw [Option.map_some, Option.map_some, h n hn]
  · rfl

theorem alter_id : s.alter id (fun n => n) = s := by
  obtain ⟨nodes, _, _, _, _, _⟩ := s
  simp only [Session.alter, Session.mk.injEq, and_true]
  refine Array.ext_getElem? fun i => ?_
  simp [Array.getElem?_modify]

theorem alter_same (h : ∀ n, s.node? id = some n → g n = n) : s.alter id g = s :=
  (alter_congr h).trans alter_id

@[simp] theorem specializers_alter :
    (s.alter id g).specializers = s.specializers := rfl

theorem form?_of_node? (h : s.node? id = some n) : s.form? id = some n.form := by
  simp [Session.form?, h]

theorem form_of_node? {n : Node} {f : Form} (hn : s.node? id = some n) (hf : s.form? id = some f) : n.form = f :=
  Option.some.inj ((form?_of_node? hn).symm.trans hf)

theorem form?_lt {f : Form} (h : s.form? id = some f) : id.index < s.nodes.size := by
  obtain ⟨n, hn, -⟩ := Option.map_eq_some_iff.1 h
  exact node?_lt hn

theorem type?_of_node? (h : s.node? id = some n) : s.type? id = n.type := by
  simp [Session.type?, h]

theorem node?_of_form? (h : s.form? id = some f) : ∃ n, s.node? id = some n ∧ n.form = f := by
  simpa [Session.form?] using h

/-! ## Reading -/

theorem runs_node {r : Node} : Runs (node id) s r t ↔ s.node? id = some r ∧ t = s := by
  rw [node, runs_get_bind, Session.node?]
  cases s.nodes[id.index]? with
  | none => simp [runs_throw]
  | some n => simp only [runs_pure, Option.some.injEq, eq_comm]

theorem runs_identity {r : NodeId} : Runs (identity o) s r t ↔ o = .node r ∧ t = s := by
  cases o <;> simp [identity, runs_pure, runs_throw, eq_comm]

theorem runs_nodeOf {r : Node} : Runs (nodeOf o) s r t ↔ ∃ id, o = .node id ∧ s.node? id = some r ∧ t = s := by
  simp only [nodeOf, runs_bind, runs_identity, runs_node]
  constructor
  · rintro ⟨id, _, ⟨rfl, rfl⟩, h, rfl⟩
    exact ⟨id, rfl, h, rfl⟩
  · rintro ⟨id, rfl, h, rfl⟩
    exact ⟨id, _, ⟨rfl, rfl⟩, h, rfl⟩

theorem runs_typeOf :
    Runs (typeOf o) s r t ↔ ∃ id, o = .node id ∧ s.type? id = some r ∧ t = s := by
  simp only [typeOf, runs_bind, runs_nodeOf]
  constructor
  · rintro ⟨n, _, ⟨id, rfl, hn, rfl⟩, h⟩
    split at h
    · obtain ⟨rfl, rfl⟩ := runs_pure.1 h
      exact ⟨id, rfl, by simp [Session.type?, *], rfl⟩
    · exact absurd h (by simp [runs_throw])
  · rintro ⟨id, rfl, h, rfl⟩
    obtain ⟨n, hn, ht⟩ := Option.bind_eq_some_iff.1 h
    exact ⟨n, _, ⟨id, rfl, hn, rfl⟩, by simp [ht, runs_pure]⟩

theorem runs_known {ty : CType} (h : Runs (known ty) s r t) : r = ty ∧ t = s := by
  unfold known at h
  split at h
  · cases runs_throw.1 h
  · exact runs_pure.1 h

theorem runs_knownType (h : Runs (knownType (.node id)) s r t) : s.type? id = some r ∧ t = s := by
  simp only [knownType, runs_bind, runs_typeOf] at h
  obtain ⟨_, _, ⟨_, hid, hty, rfl⟩, h⟩ := h
  cases hid
  obtain ⟨rfl, rfl⟩ := runs_known h
  exact ⟨hty, rfl⟩

theorem runs_nodeOf_bind {β : Type} {k : Node → Action β} {n : Node} {x : β} (hn : s.node? id = some n) :
    Runs (nodeOf (.node id) >>= k) s x t ↔ Runs (k n) s x t := by
  simp only [runs_bind, runs_nodeOf]
  constructor
  · rintro ⟨m, _, ⟨_, hid, hm, rfl⟩, h⟩
    cases hid
    rwa [Option.some.inj (hn.symm.trans hm)]
  · exact fun h => ⟨n, s, ⟨id, rfl, hn, rfl⟩, h⟩

theorem runs_leftOf_binop {l r x : Operand} (hf : s.form? id = some (.binop op l r)) :
    Runs (leftOf (.node id)) s x t ↔ x = l ∧ t = s := by
  obtain ⟨n, hn, hnf⟩ := node?_of_form? hf
  rw [leftOf, runs_nodeOf_bind hn, hnf]
  exact runs_pure

theorem runs_rightOf_binop {l r x : Operand} (hf : s.form? id = some (.binop op l r)) :
    Runs (rightOf (.node id)) s x t ↔ x = r ∧ t = s := by
  obtain ⟨n, hn, hnf⟩ := node?_of_form? hf
  rw [rightOf, runs_nodeOf_bind hn, hnf]
  exact runs_pure

theorem runs_functionOf {r : Function} :
    Runs (functionOf o) s r t ↔ ∃ id, o = .node id ∧ s.form? id = some (.function r) ∧ t = s := by
  simp only [functionOf, runs_bind, runs_nodeOf]
  constructor
  · rintro ⟨n, _, ⟨id, rfl, hn, rfl⟩, h⟩
    split at h
    · obtain ⟨rfl, rfl⟩ := runs_pure.1 h
      exact ⟨id, rfl, by simp [Session.form?, *], rfl⟩
    · exact absurd h (by simp [runs_throw])
  · rintro ⟨id, rfl, h, rfl⟩
    obtain ⟨n, hn, hf⟩ := node?_of_form? h
    exact ⟨n, _, ⟨id, rfl, hn, rfl⟩, by simp [hf, runs_pure]⟩

theorem runs_loopOf {r : Loop} :
    Runs (loopOf o) s r t ↔ ∃ id, o = .node id ∧ s.form? id = some (.loop r) ∧ t = s := by
  simp only [loopOf, runs_bind, runs_nodeOf]
  constructor
  · rintro ⟨n, _, ⟨id, rfl, hn, rfl⟩, h⟩
    split at h
    · obtain ⟨rfl, rfl⟩ := runs_pure.1 h
      exact ⟨id, rfl, by simp [Session.form?, *], rfl⟩
    · exact absurd h (by simp [runs_throw])
  · rintro ⟨id, rfl, h, rfl⟩
    obtain ⟨n, hn, hf⟩ := node?_of_form? h
    exact ⟨n, _, ⟨id, rfl, hn, rfl⟩, by simp [hf, runs_pure]⟩

theorem runs_formOf? {r : Option Form} : Runs (formOf? o) s r t ↔ r = o.id?.bind s.form? ∧ t = s := by
  cases o with
  | node id =>
    rw [formOf?, runs_get_bind, runs_pure]
    rfl
  | datum d | group items => simp [formOf?, runs_pure, Operand.id?]

theorem runs_leftOf_assign {l r x : Operand} {d : Datum} (hf : s.form? id = some (.assign l r d))
    (h : Runs (leftOf (.node id)) s x t) : x = l ∧ t = s := by
  obtain ⟨n, hn, hnf⟩ := node?_of_form? hf
  rw [leftOf, runs_nodeOf_bind hn, hnf] at h
  exact runs_pure.1 h

/-! ## Writing -/

def Node.reform (g : Form → Form) (n : Node) : Node := { n with form := g n.form }

theorem form?_reform {k : Form → Form} :
    (s.alter id (Node.reform k)).form? j = if j = id then (s.form? j).map k else s.form? j := by
  simp only [Session.form?, node?_alter]
  split
  · cases s.node? j <;> rfl
  · rfl

theorem type?_reform {k : Form → Form} : (s.alter id (Node.reform k)).type? j = s.type? j := by
  simp only [Session.type?, node?_alter]
  split
  · cases s.node? j <;> rfl
  · rfl

theorem runs_updateNode {r : Unit} : Runs (updateNode id g) s r t ↔ t = s.alter id g := by
  simp only [updateNode, runs_modify, Session.alter]

theorem runs_updateForm {g : Form → Form} {r : Unit} :
    Runs (updateForm id g) s r t ↔ t = s.alter id (Node.reform g) := by
  simp only [updateForm, runs_updateNode]
  rfl

theorem updateForm_same {k : Form → Form} {r : Unit} (hk : ∀ f, s.form? id = some f → k f = f)
    (h : Runs (updateForm id k) s r t) : t = s := by
  rw [runs_updateForm.1 h]
  refine alter_same fun n hn => ?_
  rw [Node.reform, hk _ (form?_of_node? hn)]

theorem runs_addNode {r : NodeId} : Runs (addNode n) s r t ↔ r = s.next ∧ t = s.add n := by
  rw [addNode, runs_get_bind, runs_set_bind, runs_pure]
  rfl

theorem runs_position {r : Position} :
    Runs position s r t ↔ r = (s.builders[s.builder]?.map (·.position)).getD .unknown ∧ t = s := by
  rw [position, runs_get_bind, runs_pure]

theorem runs_create {type : Option CType} (h : Runs (Build.create f type) s o t) :
    ∃ p, o = .node s.next ∧ t = s.add { form := f, type, position := p } := by
  simp only [Build.create, runs_bind, runs_addNode, runs_pure] at h
  obtain ⟨_, _, hp, _, _, ⟨rfl, rfl⟩, rfl, rfl⟩ := h
  obtain ⟨-, rfl⟩ := runs_position.1 hp
  exact ⟨_, rfl, rfl⟩

theorem runs_nextTemporary {r : Nat} : Runs Build.nextTemporary s r t ↔
    r = (s.builders[s.builder]?.map (·.temporaries)).getD 0 ∧ t = { s with builders := s.builders.modify s.builder fun b =>
      { b with temporaries := (s.builders[s.builder]?.map (·.temporaries)).getD 0 + 1 } } := by
  rw [Build.nextTemporary, runs_get_bind, runs_set_bind, runs_pure]

/-! ## Equality -/

theorem runs_same {s t : Session} {o o' : Operand} {b : Bool} :
    Runs (same o o') s b t ↔ sameWithin s.nodes depthLimit o o' = .ok b ∧ t = s := by
  rw [same, runs_get_bind, runs_ofExcept]

theorem allSame_congr {f g : Operand → Operand → Except Fault Bool} (h : ∀ a b, f a b = g a b) (as bs : List Operand) :
    allSame f as bs = allSame g as bs := by
  induction as generalizing bs with
  | nil => cases bs <;> rfl
  | cons a as ih =>
    cases bs with
    | nil => rfl
    | cons b bs => simp only [allSame, h, ih]

theorem sameWithin_congr {nodes nodes' : Array Node}
    (h : ∀ i : Nat, nodes'[i]?.map (fun n => (n.form, n.type)) = nodes[i]?.map fun n => (n.form, n.type))
    (depth : Nat) (a b : Operand) : sameWithin nodes' depth a b = sameWithin nodes depth a b := by
  have hcomparison : ∀ {m m' n n' : Node}, m'.form = m.form → m'.type = m.type → n'.form = n.form → n'.type = n.type →
      m'.comparison n' = m.comparison n := by
    rintro ⟨_, _, _, _⟩ ⟨_, _, _, _⟩ ⟨_, _, _, _⟩ ⟨_, _, _, _⟩ rfl rfl rfl rfl
    rfl
  induction depth generalizing a b with
  | zero => cases a <;> cases b <;> rfl
  | succ depth ih =>
    cases a with
    | datum d => cases b <;> rfl
    | group as =>
      cases b with
      | group bs => simp only [sameWithin, allSame_congr ih]
      | _ => rfl
    | node i =>
      cases b with
      | node j =>
        simp only [sameWithin]
        have hi := h i.index
        have hj := h j.index
        split
        · rfl
        · cases hm : nodes[i.index]? <;> cases hm' : nodes'[i.index]? <;> cases hn : nodes[j.index]? <;>
            cases hn' : nodes'[j.index]? <;> simp only [hm, hm', hn, hn', Option.map_none, Option.map_some,
              reduceCtorEq, Option.some.injEq, Prod.mk.injEq] at hi hj
          all_goals try rfl
          simp only [hcomparison hi.1 hi.2 hj.1 hj.2, allSame_congr ih]
      | _ => rfl

end ArrayKernel.Ast
