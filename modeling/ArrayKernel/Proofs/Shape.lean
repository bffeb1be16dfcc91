import ArrayKernel.Proofs.Dressing
import ArrayKernel.Proofs.Nested

/-! # Loops over a shape -/

namespace ArrayKernel.Ast

open Running

variable {s t u : Session} {o : Operand} {id fid : NodeId} {g : Region} {first sp : Nat}
variable {x : Name} {shape : NodeId} {d : Int} {σ : Specializer}

/-! ## Growth while a specializer takes notes -/

def Extends (g : Region) (s t : Session) : Prop := Grows g { s with specializers := t.specializers } t

theorem Extends.refl : Extends g s s := Grows.refl

theorem Extends.grows (h : Extends g s t) (h' : Grows g t u) : Extends g s u := by
  unfold Extends at h ⊢
  rw [h'.specializers]
  exact h.trans h'

theorem Grows.extends (h : Grows g s t) : Extends g s t := Extends.refl.grows h

section

variable (h : Extends g s t)

include h

theorem Extends.size_le : s.nodes.size ≤ t.nodes.size := by
  unfold Extends at h
  exact h.size_le

theorem Extends.noted (specializers : Array Specializer) : Extends g s { t with specializers } := by
  exact { kept := h.kept, size_le := h.size_le, new := h.new, settings := h.settings, specializers := rfl }

theorem Extends.alter_new {k : Node → Node} (hid : s.nodes.size ≤ id.index)
    (hk : ∀ n, t.node? id = some n → g.allows (k n).form ∧ ∀ c ∈ (k n).form.ids, g.Has t c) :
    Extends g s (t.alter id k) :=
  Grows.alter_new h hid hk

theorem Extends.onLoop_new {k : Loop → Loop} (hid : s.nodes.size ≤ id.index)
    (hk : ∀ l, (Form.loop (k l)).children = (Form.loop l).children) :
    Extends g s (t.alter id (Node.reform (Form.onLoop k))) :=
  Grows.onLoop_new h hid hk

theorem Extends.closed (hg : g.Closed s) : g.Closed t :=
  Grows.closed h hg

theorem Extends.form? {f : Form} (hf : s.form? id = some f) : t.form? id = some f :=
  Grows.form? h hf

theorem Extends.keeps : Keeps (fun _ => False) s t where
  form? hf := ⟨_, h.form? hf, .refl _ _⟩
  type? ht := Grows.type? h ht

end

theorem Keeps.noted {X : NodeId → Prop} (specializers : Array Specializer) :
    Keeps X s { s with specializers } :=
  ⟨fun hf => ⟨_, hf, .refl _ _⟩, id⟩

theorem runs_updateSpecializer {k : Specializer → Specializer} {r : Unit} :
    Runs (updateSpecializer sp k) s r t ↔ t = { s with specializers := s.specializers.modify sp k } := by
  simp only [updateSpecializer, runs_modify]

/-! ## Extents -/

def IsPassed (s : Session) (id : NodeId) (x : Name) : Prop :=
  ∃ v, s.form? id = some (.var v) ∧ isPassed v.role = true ∧ v.name = x

theorem Steady.passed (h : Steady s t) (hp : IsPassed s id x) : IsPassed t id x := by
  obtain ⟨v, hf, hr⟩ := hp
  exact ⟨v, h.form? hf rfl, hr⟩

/-- A node is a function whose shape is a table of numbers that is passed under a name. -/
structure HasShape (s : Session) (fid shape : NodeId) (x : Name) : Prop where
  table : ∃ F, s.form? fid = some (.function F) ∧ F.shape = .node shape
  passed : IsPassed s shape x
  numbers : ∃ ty base, s.type? shape = some ty ∧ ty.base? = some base ∧ base.isPointer = false

theorem HasShape.mono (hs : HasShape s fid shape x)
    (hform : ∀ {id f}, s.form? id = some f → t.form? id = some f)
    (htype : ∀ {id ty}, s.type? id = some ty → t.type? id = some ty) : HasShape t fid shape x where
  table := by
    obtain ⟨F, hF, hsh⟩ := hs.table
    exact ⟨F, hform hF, hsh⟩
  passed := by
    obtain ⟨v, hv, hr⟩ := hs.passed
    exact ⟨v, hform hv, hr⟩
  numbers := by
    obtain ⟨ty, base, hty, hb⟩ := hs.numbers
    exact ⟨ty, base, htype hty, hb⟩

def IsExtent (x : Name) (d : Int) (s : Session) (o : Operand) : Prop :=
  ∃ id shape k ty, o = .node id ∧ s.form? id = some (.index (.node shape) (.node k)) ∧
    s.form? k = some (.constant (.int d)) ∧ IsPassed s shape x ∧ s.type? id = some ty ∧ ty.isPointer = false

theorem Steady.extent (h : Steady s t) (he : IsExtent x d s o) : IsExtent x d t o := by
  obtain ⟨id, shape, k, ty, rfl, hf, hk, hp, hty, hn⟩ := he
  exact ⟨id, shape, k, ty, rfl, h.form? hf rfl, h.form? hk rfl, h.passed hp, h.type? hty, hn⟩

theorem shapeIndex_spec (h : Runs (Build.shapeIndex (.int d) (.node fid)) s o t) (hs : HasShape s fid shape x)
    (hg : g.start ≤ s.nodes.size) (hsh : g.Has s shape) :
    Grows g s t ∧ g.HasAll t o ∧ IsExtent x d t o := by
  obtain ⟨F, hF, hshape⟩ := hs.table
  obtain ⟨ty, base, hty, hb, hn⟩ := hs.numbers
  simp only [Build.shapeIndex, runs_bind, runs_functionOf] at h
  obtain ⟨F', _, ⟨_, hid, hF', rfl⟩, k, s1, hk, h⟩ := h
  cases hid
  rw [hF] at hF'
  cases hF'
  rw [hshape] at h
  obtain ⟨g1, _, hm1⟩ := constant_spec hk
  obtain ⟨g2, j, ty', base', hj, hty', hb', hm2⟩ := index_spec h
    (Region.hasAll_node.2 (hsh.mono g1.size_le)) (hm1.hasAll hg)
  cases hj
  rw [g1.type? hty] at hty'
  cases hty'
  rw [hb] at hb'
  cases hb'
  refine ⟨g1.trans g2, hm2.hasAll (Nat.le_trans hg g1.size_le), ?_⟩
  obtain ⟨kid, rfl, -, hkf, -⟩ := hm1
  obtain ⟨id, rfl, -, hf, hidt⟩ := hm2
  exact ⟨id, shape, kid, base, rfl, hf, g2.form? hkf, (g1.trans g2).steady.passed hs.passed, hidt, hn⟩

def Shaped (g : Region) (fid shape : NodeId) (x : Name) (s : Session) : Prop :=
  HasShape s fid shape x ∧ g.Has s shape

theorem Grows.shaped (h : Grows g s t) (hs : Shaped g fid shape x s) : Shaped g fid shape x t :=
  ⟨hs.1.mono h.form? h.type?, hs.2.mono h.size_le⟩

theorem Extends.shaped (h : Extends g s t) (hs : Shaped g fid shape x s) : Shaped g fid shape x t :=
  ⟨hs.1.mono h.form? h.keeps.type?, hs.2.mono h.size_le⟩

theorem IsExtent.isPointer {ty : CType} (h : IsExtent x d s (.node id))
    (hty : s.type? id = some ty) : ty.isPointer = false := by
  obtain ⟨_, _, _, ty', hid, -, -, -, hty', hn⟩ := h
  cases hid
  rw [hty] at hty'
  cases hty'
  exact hn

theorem wholeShape_ok (step : Operand) :
    BoundsOk g (Shaped g fid shape x) { Layout.wholeShape (.node fid) with step } d
      (fun _ o => o = .absent) (IsExtent x d) where
  lower := by
    intro s o t _ _ h
    obtain ⟨rfl, rfl⟩ := runs_pure.1 h
    exact ⟨.refl, Region.hasAll_datum _, rfl⟩
  upper hs hg h := shapeIndex_spec h hs.1 hg hs.2
  lower_node h := .inl (by rw [h]; rfl)
  upper_type h hty := h.isPointer hty
  lower_steady _ h := h
  upper_steady hst h := hst.extent h

theorem value_extent {m : Machine} {τ : Temporaries}
    (h : IsExtent x d m.store o) : HasValue m τ o (m.inputs.item x d) := by
  obtain ⟨id, shape, k, ty, rfl, hf, hk, ⟨v, hv, hr, rfl⟩, -, -⟩ := h
  exact .item hf hv hr (.constant hk)

/-! ## Parallel loops -/

theorem runs_currentFunction {r : Operand} (hσ : s.specializers[sp]? = some σ)
    (hf : σ.function = some fid) (h : Runs (Layout.currentFunction sp) s r t) : r = .node fid ∧ t = s := by
  simp only [Layout.currentFunction, runs_bind, runs_specializer, runs_required, runs_pure] at h
  obtain ⟨σ', _, ⟨hσ', rfl⟩, f, _, ⟨hf', rfl⟩, rfl, rfl⟩ := h
  rw [hσ] at hσ'
  cases hσ'
  rw [hf] at hf'
  cases hf'
  exact ⟨rfl, rfl⟩

theorem parallelAboveThreshold_spec {F : Function} {c : Counter}
    {body : Operand} (h : Runs (Layout.parallelAboveThreshold sp (.node c.loop)) s o t)
    (hσ : s.specializers[sp]? = some σ) (hf : σ.function = some fid)
    (hF : s.form? fid = some (.function F)) (hg : g.start ≤ s.nodes.size)
    (htg : ∀ o, F.totalShape = some o → g.HasAll s o) (hog : g.HasAll s F.ompSize) (hlg : g.Has s c.loop)
    (hc : c.In first s) (hctemp : g.Has s c.temp) (hst : Stands 0 c s body) :
    Grows g s t ∧ g.HasAll t o ∧ ∃ r cond vs ps, o = .node r ∧ s.nodes.size ≤ r.index ∧
      t.form? r = some (.parallelLoop (.node c.loop) cond vs ps) := by
  simp only [Layout.parallelAboveThreshold, runs_bind, runs_functionOf, runs_required] at h
  obtain ⟨_, _, hcur, F', _, ⟨_, hid, hF', rfl⟩, total, _, ⟨ht, rfl⟩, cond, s1, hcond, h⟩ := h
  obtain ⟨rfl, rfl⟩ := runs_currentFunction hσ hf hcur
  cases hid
  rw [hF] at hF'
  cases hF'
  obtain ⟨g1, hm1⟩ := binop_spec hcond (htg _ ht) hog
  obtain ⟨l, hl, hd, -, -⟩ := g1.keeps.stands hst
  obtain ⟨d, hs⟩ := (g1.steady.counter hc).start_form
  simp only [Build.parallel, runs_bind, runs_formOf?, Operand.id?, Option.bind_some, hl] at h
  obtain ⟨_, _, ⟨rfl, rfl⟩, l', _, hl', start, _, hstart, h⟩ := h
  obtain ⟨_, hid, hlf, rfl⟩ := runs_loopOf.1 hl'
  cases hid
  rw [hl] at hlf
  cases hlf
  rw [hd.1] at hstart
  obtain ⟨rfl, rfl⟩ := runs_leftOf_assign hs hstart
  obtain ⟨g2, hm2⟩ := create_spec h (g.passive _ rfl) (by
    intro j hj
    simp only [Form.ids, Form.children, List.flatMap_cons, List.flatMap_nil, List.append_nil,
      List.mem_append] at hj
    rcases hj with hj | hj | hj | hj
    · exact Region.hasAll_node.2 (hlg.mono g1.size_le) j hj
    · exact hm1.hasAll hg j hj
    · refine Region.hasAll_group (fun o ho => ?_) j hj
      obtain rfl := List.mem_singleton.1 ho
      exact Region.hasAll_node.2 (hctemp.mono g1.size_le)
    · simp [Operand.ids, Operand.idsAll] at hj)
  refine ⟨g1.trans g2, hm2.hasAll (Nat.le_trans hg g1.size_le), ?_⟩
  obtain ⟨r, rfl, hr, hf, -⟩ := hm2
  exact ⟨r, _, _, _, rfl, Nat.le_trans g1.size_le hr, hf⟩

/-! ## Where loops are made -/

structure Site (g : Region) (fid shape : NodeId) (x : Name) (s : Session) : Prop where
  start_le : g.start ≤ s.nodes.size
  assigns : ∀ temp r d, s.nodes.size ≤ temp.index → g.allows (.assign (.node temp) r d)
  shaped : Shaped g fid shape x s

theorem Extends.site (h : Extends g s t) (hs : Site g fid shape x s) : Site g fid shape x t where
  start_le := Nat.le_trans hs.start_le h.size_le
  assigns temp r d hle := hs.assigns temp r d (Nat.le_trans h.size_le hle)
  shaped := h.shaped hs.shaped

/-- A kernel that a specializer works on, with a region around all that is below it. -/
structure Kernel (g : Region) (sp : Nat) (fid shape : NodeId) (x : Name) (F : Function) (σ : Specializer)
    (s : Session) : Prop where
  site : Site g fid shape x s
  closed : g.Closed s
  specializer : s.specializers[sp]? = some σ
  at_work : σ.function = some fid
  function : s.form? fid = some (.function F)
  outside : ¬ g.base fid ∧ fid.index < g.start
  total : ∀ o, F.totalShape = some o → g.HasAll s o
  threshold : g.HasAll s F.ompSize

end ArrayKernel.Ast
