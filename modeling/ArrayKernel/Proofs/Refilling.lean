import ArrayKernel.Proofs.Keeping

/-!
# Forms that are filled anew

A pass puts what it made into the child positions of a form and leaves the rest of it.
-/

namespace ArrayKernel.Ast

variable {name : String} {o : Operand} {news : List (String × Operand)} {f : Form} {c : NodeId}

/-! ## Positions -/

theorem children_setChild (f : Form) (name : String) (o : Operand) :
    (f.setChild name o).children = f.children.map fun c => if name = c.1 then (c.1, o) else c := by
  cases f with
  | var v =>
    obtain ⟨role, n, e, d, st⟩ := v
    cases role
    all_goals
      simp only [Form.setChild]
      try split
      all_goals simp_all [Form.children]
  | _ =>
    simp only [Form.setChild]
    try split
    all_goals simp_all [Form.children]

theorem kindName_setChild (f : Form) (name : String) (o : Operand) : (f.setChild name o).kindName = f.kindName := by
  cases f with
  | var v =>
    obtain ⟨role, n, e, d, st⟩ := v
    cases role
    all_goals
      simp only [Form.setChild]
      try split
      all_goals simp_all [Form.kindName]
  | _ =>
    simp only [Form.setChild]
    try split
    all_goals rfl

theorem names_setChild (f : Form) (name : String) (o : Operand) :
    (f.setChild name o).children.map (·.1) = f.children.map (·.1) := by
  rw [children_setChild, List.map_map]
  refine List.map_congr_left fun c _ => ?_
  simp only [Function.comp_apply]
  split <;> rfl

theorem names_setChildren (f : Form) (news : List (String × Operand)) :
    (setChildren news f).children.map (·.1) = f.children.map (·.1) := by
  induction news generalizing f with
  | nil => rfl
  | cons new news ih => exact (ih _).trans (names_setChild f new.1 new.2)

theorem kindName_setChildren (f : Form) (news : List (String × Operand)) : (setChildren news f).kindName = f.kindName := by
  induction news generalizing f with
  | nil => rfl
  | cons new news ih => exact (ih _).trans (kindName_setChild f new.1 new.2)

/-- Forms with the same positions have an operand in the same ones. -/
theorem exists_lookup_of_names {f' : Form} (hnames : f.children.map (·.1) = f'.children.map (·.1))
    (ho : f.children.lookup name = some o) : ∃ r, f'.children.lookup name = some r := by
  have hmem : name ∈ f'.children.map (·.1) := hnames ▸ List.mem_map_of_mem (mem_of_lookup ho)
  obtain ⟨⟨_, r⟩, hr, rfl⟩ := List.mem_map.1 hmem
  exact ⟨r, lookup_of_mem_children hr⟩

theorem lookup_setChild {name' : String} {o' : Operand}
    (h : (f.setChild name o).children.lookup name' = some o') :
    name' = name ∧ o' = o ∨ name' ≠ name ∧ f.children.lookup name' = some o' := by
  have hmem := mem_of_lookup h
  rw [children_setChild, List.mem_map] at hmem
  obtain ⟨⟨x, y⟩, hc, heq⟩ := hmem
  split at heq
  · rename_i hx
    cases heq
    exact .inl ⟨hx.symm, rfl⟩
  · rename_i hx
    cases heq
    exact .inr ⟨fun h => hx h.symm, lookup_of_mem_children hc⟩

theorem lookup_setChildren (h : (setChildren news f).children.lookup name = some o) :
    (name, o) ∈ news ∨ name ∉ news.map (·.1) ∧ f.children.lookup name = some o := by
  induction news generalizing f with
  | nil => exact .inr ⟨by simp, h⟩
  | cons new news ih =>
    rcases ih h with h | ⟨hnews, h⟩
    · exact .inl (.tail _ h)
    · rcases lookup_setChild h with ⟨rfl, rfl⟩ | ⟨hne, h⟩
      · exact .inl (.head _)
      · refine .inr ⟨?_, h⟩
        rw [List.map_cons, List.mem_cons]
        rintro (h | h)
        · exact hne h
        · exact hnews h

theorem exists_lookup_of_mem_ids (h : c ∈ f.ids) : ∃ name o, f.children.lookup name = some o ∧ c ∈ o.ids := by
  obtain ⟨⟨name, o⟩, hmem, hc⟩ := List.mem_flatMap.1 h
  exact ⟨name, o, lookup_of_mem_children hmem, hc⟩

/-! ## Forms that are filled anew -/

/-- A form with operands from a set in some of its positions, and what was there in the others. -/
structure Refilled (D : NodeId → Prop) (f f' : Form) : Prop where
  kind : f'.kindName = f.kindName
  names : f'.children.map (·.1) = f.children.map (·.1)
  position : ∀ name o, f'.children.lookup name = some o → f.children.lookup name = some o ∨ ∀ c ∈ o.ids, D c

namespace Refilled

variable {D D' : NodeId → Prop} {f f' f'' : Form}

theorem refl (f : Form) : Refilled D f f := ⟨rfl, rfl, fun _ _ h => .inl h⟩

theorem trans (h : Refilled D f f') (h' : Refilled D f' f'') : Refilled D f f'' where
  kind := h'.kind.trans h.kind
  names := h'.names.trans h.names
  position name o ho := by
    rcases h'.position name o ho with ho | hc
    · exact h.position name o ho
    · exact .inr hc

theorem setChild (f : Form) (name : String) (ho : ∀ c ∈ o.ids, D c) : Refilled D f (f.setChild name o) where
  kind := kindName_setChild f name o
  names := names_setChild f name o
  position name' o' h := by
    rcases lookup_setChild h with ⟨-, rfl⟩ | ⟨-, h⟩
    · exact .inr ho
    · exact .inl h

theorem setChildren (f : Form) (hnews : ∀ new ∈ news, ∀ c ∈ new.2.ids, D c) :
    Refilled D f (setChildren news f) := by
  induction news generalizing f with
  | nil => exact .refl f
  | cons new news ih =>
    exact (setChild f new.1 (hnews new (.head _))).trans (ih _ fun n hn => hnews n (.tail _ hn))

theorem ids (h : Refilled D f f') (hf : ∀ c ∈ f.ids, D c) : ∀ c ∈ f'.ids, D c := by
  intro c hc
  obtain ⟨name, o, ho, hc⟩ := exists_lookup_of_mem_ids hc
  rcases h.position name o ho with ho | hin
  · exact hf c (ids_of_lookup ho hc)
  · exact hin c hc

end Refilled

theorem ids_flattened {os : List Operand} (h : c ∈ (Operand.group (flattened os)).ids) :
    ∃ o ∈ os, c ∈ o.ids := by
  rw [Operand.ids, mem_idsAll] at h
  obtain ⟨o, ho, hc⟩ := h
  obtain ⟨x, hx, ho⟩ := List.mem_flatMap.1 ho
  refine ⟨x, hx, ?_⟩
  cases x with
  | group items => exact mem_idsAll.2 ⟨o, ho, hc⟩
  | node i =>
    cases List.mem_singleton.1 ho
    exact hc
  | datum d =>
    split at ho
    all_goals simp_all

end ArrayKernel.Ast
