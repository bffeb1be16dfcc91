import ArrayKernel.Layout.Promotion
import ArrayKernel.Proofs.Refilling
import ArrayKernel.Proofs.Trees
import ArrayKernel.Proofs.TypeEquality

/-!
# Promoted trees

What the promotion of types makes of a tree: operands are wrapped, constants get other types, operations the types
of their elements, and an element stands in place of the variable that holds it. Nothing else changes, and a
promoted tree is promoted again without any change.
-/

namespace ArrayKernel

/-- A type of elements: it is there, and it is no array. -/
def CType.IsElement (type : CType) : Prop := type.isArray = false ∧ type.isAbsent = false

instance (type : CType) : Decidable type.IsElement :=
  inferInstanceAs (Decidable (type.isArray = false ∧ type.isAbsent = false))

theorem CType.resolved_of_not_array {type : CType} (h : type.isArray = false) : type.resolved = type := by
  cases type with
  | array => cases h
  | _ => rfl

namespace Ast

variable {s s' t t' : Session} {i k : NodeId} {o r l : Operand} {n n' : Node} {f : Form} {h h' : Nat}

/-! ## Types -/

def Form.isOperation (f : Form) : Bool := f.kindName ∈ ["UnopNode", "BinopNode", "VectorBinopNode", "AssignmentExpr"]

/-- The type of an operand as the pass finds it, when it has been below: of the element if it is one, and of the
elements if it is an operation on arrays. -/
inductive Sees (s : Session) : Operand → Option CType → Prop where
  | element {i : NodeId} {v : Variable} {e : Operand} {type : Option CType} (hf : s.form? i = some (.var v))
    (hv : v.role = .element e) (he : Sees s e type) : Sees s (.node i) type
  | node {i : NodeId} {n : Node} (hn : s.node? i = some n) (he : n.form.kindName ≠ "ResolvedVariable") :
    Sees s (.node i) (if n.form.isOperation then n.type.map CType.resolved else n.type)

def Session.TypeOf (t : Session) (o : Operand) (type : CType) : Prop := ∃ k, o = .node k ∧ t.type? k = some type

def Session.HasType (t : Session) (o : Operand) (type : CType) : Prop := ∃ a, t.TypeOf o a ∧ (a == type) = true

/-! ## Agreement -/

/-- The type that the operands of an operation are to have: its own, or that to which the types of compared operands
are promoted. Operands that are compared as pointers keep their types. -/
def Target (s t : Session) (i : NodeId) (operator : String) (l r : Operand) (type target : CType) : Prop :=
  if Layout.isComparison operator then
    ∃ f l₀ r₀ a b, s.form? i = some f ∧ f.children = [("lhs", l₀), ("rhs", r₀)] ∧ Sees s l₀ (some a) ∧
      Sees s r₀ (some b) ∧ a.join b = .ok target ∧ (target.isPointer = true → t.TypeOf l a ∧ t.TypeOf r b)
  else target = type

def SidesAgree (s t : Session) (i : NodeId) (operator : String) (l r : Operand) (type : CType) : Prop :=
  ∃ target, Target s t i operator l r type target ∧ target.isAbsent = false ∧
    (target.isPointer = true ∨ t.HasType l target ∧ t.HasType r target)

/-- The operands of a node have the types that the node asks for. -/
def Agrees (s t : Session) (i : NodeId) (n : Node) : Prop :=
  match n.form with
  | .unop _ o => ∃ type, n.type = some type ∧ type.IsElement ∧ t.HasType o type
  | .binop operator l r | .vectorBinop operator l r =>
    ∃ type, n.type = some type ∧ type.IsElement ∧ SidesAgree s t i operator l r type
  | .assign l r _ => ∃ type left, n.type = some type ∧ type.IsElement ∧ t.TypeOf l left ∧ t.HasType r left
  | _ => True

/-! ## The relation -/

/-- A node after the pass: operations have the types of their elements, constants a type of the same kind of number,
and of the form at most operands differ. -/
structure Rewritten (n n' : Node) : Prop where
  form : ∃ news, n'.form = setChildren news n.form
  type : n'.type = (if n.form.isOperation then n.type.map CType.resolved else n.type) ∨
    n.form.isConstant = true ∧ n'.type.map CType.kind = n.type.map CType.kind
  position : n'.position = n.position
  marks : n'.marks = n.marks

/-- An operand of a session, and what stands for it in a later one where the tree below is promoted. The number bounds
the height of the later tree. -/
inductive Promoted (s t : Session) : Nat → Operand → Operand → Prop where
  | absent {h : Nat} : Promoted s t h .absent .absent
  | nil {h : Nat} : Promoted s t h (.group []) (.group [])
  | cons {h : Nat} {i k : NodeId} {os rs : List Operand} (hd : Promoted s t h (.node i) (.node k))
    (tl : Promoted s t h (.group os) (.group rs)) : Promoted s t h (.group (.node i :: os)) (.group (.node k :: rs))
  | element {h : Nat} {i k : NodeId} {v : Variable} {e : Operand} (hf : s.form? i = some (.var v))
    (hv : v.role = .element e) (he : Promoted s t h e (.node k)) : Promoted s t h (.node i) (.node k)
  | wrapped {h : Nat} {i j k : NodeId} {n : Node} (hn : t.node? k = some n) (hf : n.form = .promotion (.node j))
    (hnew : s.node? k = none) (hj : Promoted s t h (.node i) (.node j)) : Promoted s t (h + 1) (.node i) (.node k)
  | node {h : Nat} {i : NodeId} {n n' : Node} {kids : String → Operand} (hn : s.node? i = some n)
    (he : n.form.kindName ≠ "ResolvedVariable") (hn' : t.node? i = some n') (hr : Rewritten n n')
    (ha : Agrees s t i n')
    (hl : ∀ name o, n.form.children.lookup name = some o → n'.form.children.lookup name = some (kids name))
    (hk : ∀ name o, n.form.children.lookup name = some o → Promoted s t h o (kids name)) :
    Promoted s t (h + 1) (.node i) (.node i)

theorem under_node {j : NodeId} : Under s (Operand.node i).ids j ↔ Below s i j := by
  simp [Under, Operand.ids]

theorem under_group {os : List Operand} {j : NodeId} : Under s (Operand.group os).ids j ↔ ∃ o ∈ os, Under s o.ids j := by
  unfold Under
  simp only [Operand.ids, mem_idsAll]
  constructor
  · rintro ⟨c, ⟨o, ho, hc⟩, hj⟩
    exact ⟨o, ho, c, hc, hj⟩
  · rintro ⟨o, ho, c, hc, hj⟩
    exact ⟨c, ⟨o, ho, hc⟩, hj⟩

theorem not_under_absent {j : NodeId} : ¬ Under s Operand.absent.ids j := by
  rintro ⟨c, hc, -⟩
  cases hc

theorem Under.child {name : String} {j : NodeId} (hf : s.form? i = some f) (ho : f.children.lookup name = some o)
    (hj : Under s o.ids j) : Below s i j := by
  obtain ⟨c, hc, hj⟩ := hj
  exact hj.head ⟨f, hf, ids_of_lookup ho hc⟩

theorem Rewritten.kindName (hr : Rewritten n n') : n'.form.kindName = n.form.kindName := by
  obtain ⟨news, hform⟩ := hr.form
  rw [hform, kindName_setChildren]

/-- A position of the later form was one of the earlier form. -/
theorem Rewritten.lookup {name : String} (hr : Rewritten n n') (ho : n'.form.children.lookup name = some r) :
    ∃ o, n.form.children.lookup name = some o := by
  obtain ⟨news, hform⟩ := hr.form
  refine exists_lookup_of_names ?_ ho
  rw [hform, names_setChildren]

namespace Promoted

theorem mono (hp : Promoted s t h o r) (hle : h ≤ h') : Promoted s t h' o r := by
  induction hp generalizing h' with
  | absent => exact .absent
  | nil => exact .nil
  | cons _ _ ihd itl => exact .cons (ihd hle) (itl hle)
  | element hf hv _ ih => exact .element hf hv (ih hle)
  | wrapped hn hf hnew _ ih =>
    obtain ⟨m, rfl⟩ : ∃ m, h' = m + 1 := ⟨h' - 1, by omega⟩
    exact .wrapped hn hf hnew (ih (by omega))
  | node hn he hn' hr ha hl _ ih =>
    obtain ⟨m, rfl⟩ : ∃ m, h' = m + 1 := ⟨h' - 1, by omega⟩
    exact .node hn he hn' hr ha hl fun name o ho => ih name o ho (by omega)

/-- What stands below a promoted operand is all there. -/
theorem stored (hp : Promoted s t h o r) {j : NodeId} (hj : Under t r.ids j) : ∃ n, t.node? j = some n := by
  induction hp with
  | absent => exact absurd hj not_under_absent
  | nil => simp [under_group] at hj
  | cons _ _ ihd itl =>
    obtain ⟨x, hx, hj⟩ := under_group.1 hj
    rcases List.mem_cons.1 hx with rfl | hx
    · exact ihd hj
    · exact itl (under_group.2 ⟨x, hx, hj⟩)
  | element _ _ _ ih => exact ih hj
  | @wrapped h i j' k n hn hf hnew _ ih =>
    rcases (under_node.1 hj).cases_head with rfl | ⟨c, ⟨f, hf', hc⟩, hj⟩
    · exact ⟨n, hn⟩
    · rw [form?_of_node? hn, hf] at hf'
      cases hf'
      obtain rfl : c = j' := by simpa [Form.ids, Form.children, Operand.ids] using hc
      exact ih (under_node.2 hj)
  | node _ _ hn' hr _ hl _ ih =>
    rcases (under_node.1 hj).cases_head with rfl | ⟨c, ⟨f, hf', hc⟩, hj⟩
    · exact ⟨_, hn'⟩
    · cases (form?_of_node? hn').symm.trans hf'
      obtain ⟨name, x, hx, hcx⟩ := exists_lookup_of_mem_ids hc
      obtain ⟨o, ho⟩ := hr.lookup hx
      cases hx.symm.trans (hl name o ho)
      exact ih name o ho ⟨c, hcx, hj⟩

end Promoted

/-! ## Other sessions -/

theorem Sees.congr {type : Option CType} (hs : Sees s o type) (hsame : ∀ j, Under s o.ids j → s'.node? j = s.node? j) :
    Sees s' o type := by
  induction hs with
  | @element i v e type hf hv _ ih =>
    have hform : s'.form? i = some (.var v) := by
      rw [Session.form?, hsame i (under_node.2 .refl)]
      exact hf
    have hchild : (Form.var v).children.lookup "element" = some e := by simp [Form.children, hv]
    exact .element hform hv (ih fun j hj => hsame j (under_node.2 (hj.child hf hchild)))
  | @node i n hn he =>
    refine .node ?_ he
    rw [hsame i (under_node.2 .refl), hn]

theorem Session.TypeOf.congr {type : CType} (ht : t.TypeOf o type) (hsame : ∀ c ∈ o.ids, t'.node? c = t.node? c) :
    t'.TypeOf o type := by
  obtain ⟨k, rfl, hk⟩ := ht
  refine ⟨k, rfl, ?_⟩
  rw [Session.type?, hsame k (by simp [Operand.ids])]
  exact hk

theorem Session.HasType.congr {type : CType} (ht : t.HasType o type) (hsame : ∀ c ∈ o.ids, t'.node? c = t.node? c) :
    t'.HasType o type := by
  obtain ⟨a, ha, hs⟩ := ht
  exact ⟨a, ha.congr hsame, hs⟩

theorem Target.congr {operator : String} {type target : CType} (h : Target s t i operator l r type target)
    (hs : ∀ j, Below s i j → s'.node? j = s.node? j) (hl : ∀ c ∈ l.ids, t'.node? c = t.node? c)
    (hr : ∀ c ∈ r.ids, t'.node? c = t.node? c) : Target s' t' i operator l r type target := by
  unfold Target at h ⊢
  split
  · rename_i hcomparison
    rw [if_pos hcomparison] at h
    obtain ⟨f, l₀, r₀, a, b, hf, hchildren, ha, hb, hjoin, hpointer⟩ := h
    have hf' : s'.form? i = some f := by
      rw [Session.form?, hs i .refl]
      exact hf
    have hleft : f.children.lookup "lhs" = some l₀ := by rw [hchildren]; rfl
    have hright : f.children.lookup "rhs" = some r₀ := by rw [hchildren]; rfl
    have ha' := ha.congr fun j hj => hs j (hj.child hf hleft)
    have hb' := hb.congr fun j hj => hs j (hj.child hf hright)
    refine ⟨f, l₀, r₀, a, b, hf', hchildren, ha', hb', hjoin, fun hp => ?_⟩
    exact ⟨(hpointer hp).1.congr hl, (hpointer hp).2.congr hr⟩
  · rename_i hcomparison
    rw [if_neg hcomparison] at h
    exact h

theorem Agrees.congr (h : Agrees s t i n) (hs : ∀ j, Below s i j → s'.node? j = s.node? j)
    (ht : ∀ c ∈ n.form.ids, t'.node? c = t.node? c) : Agrees s' t' i n := by
  unfold Agrees at h ⊢
  split
  · rename_i operator x hform
    rw [hform] at h ht
    obtain ⟨type, htype, helement, hx⟩ := h
    exact ⟨type, htype, helement, hx.congr fun c hc => ht c (by simp [Form.ids, Form.children, hc])⟩
  case h_2 operator l r hform | h_3 operator l r hform =>
    rw [hform] at h ht
    have hl : ∀ c ∈ l.ids, t'.node? c = t.node? c := fun c hc => ht c (by simp [Form.ids, Form.children, hc])
    have hr : ∀ c ∈ r.ids, t'.node? c = t.node? c := fun c hc => ht c (by simp [Form.ids, Form.children, hc])
    obtain ⟨type, htype, helement, target, htarget, habsent, hagree⟩ := h
    refine ⟨type, htype, helement, target, htarget.congr hs hl hr, habsent, hagree.imp_right fun hsides => ?_⟩
    exact ⟨hsides.1.congr hl, hsides.2.congr hr⟩
  · rename_i l r mayReorder hform
    rw [hform] at h ht
    obtain ⟨type, left, htype, helement, hl, hr⟩ := h
    refine ⟨type, left, htype, helement, hl.congr fun c hc => ht c ?_, hr.congr fun c hc => ht c ?_⟩
    · simp [Form.ids, Form.children, hc]
    · simp [Form.ids, Form.children, hc]
  · trivial

/-- Promotion speaks of nothing but the nodes below the two operands, and of which nodes are new. -/
theorem Promoted.congr (hp : Promoted s t h o r) (hs : ∀ j, Under s o.ids j → s'.node? j = s.node? j)
    (hnew : ∀ j, s.node? j = none → s'.node? j = none) (ht : ∀ j, Under t r.ids j → t'.node? j = t.node? j) :
    Promoted s' t' h o r := by
  induction hp with
  | absent => exact .absent
  | nil => exact .nil
  | @cons h i k os rs _ _ ihd itl =>
    refine .cons (ihd (fun j hj => hs j ?_) fun j hj => ht j ?_) (itl (fun j hj => hs j ?_) fun j hj => ht j ?_)
    · exact under_group.2 ⟨_, .head _, hj⟩
    · exact under_group.2 ⟨_, .head _, hj⟩
    · obtain ⟨x, hx, hj⟩ := under_group.1 hj
      exact under_group.2 ⟨x, .tail _ hx, hj⟩
    · obtain ⟨x, hx, hj⟩ := under_group.1 hj
      exact under_group.2 ⟨x, .tail _ hx, hj⟩
  | @element h i k v e hf hv _ ih =>
    have hform : s'.form? i = some (.var v) := by
      rw [Session.form?, hs i (under_node.2 .refl)]
      exact hf
    have hchild : (Form.var v).children.lookup "element" = some e := by simp [Form.children, hv]
    exact .element hform hv (ih (fun j hj => hs j (under_node.2 (hj.child hf hchild))) ht)
  | @wrapped h i j k n hn hf hfresh _ ih =>
    have hchild : IsChild t k j := ⟨n.form, form?_of_node? hn, by simp [hf, Form.ids, Form.children, Operand.ids]⟩
    refine .wrapped ((ht k (under_node.2 .refl)).trans hn) hf (hnew k hfresh) (ih hs fun j' hj' => ht j' ?_)
    exact under_node.2 ((under_node.1 hj').head hchild)
  | @node h i n n' kids hn he hn' hr ha hl _ ih =>
    have hform := form?_of_node? hn
    have hform' := form?_of_node? hn'
    refine .node ((hs i (under_node.2 .refl)).trans hn) he ((ht i (under_node.2 .refl)).trans hn') hr
      (ha.congr (fun j hj => hs j (under_node.2 hj)) fun c hc => ht c ?_) hl fun name o ho => ?_
    · exact under_node.2 (Relation.ReflTransGen.single ⟨n'.form, hform', hc⟩)
    · refine ih name o ho (fun j hj => hs j ?_) fun j hj => ht j ?_
      · exact under_node.2 (hj.child hform ho)
      · exact under_node.2 (hj.child hform' (hl name o ho))

end Ast

end ArrayKernel
