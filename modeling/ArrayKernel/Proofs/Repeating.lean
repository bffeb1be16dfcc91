import ArrayKernel.Proofs.Promoted

/-!
# Promotion of what is promoted

A second promotion finds every operand of the type it is to have, and leaves the session as it is.
-/

namespace ArrayKernel.Ast

variable {s t : Session} {k : NodeId} {o l r : Operand} {n : Node} {f : Form} {target : CType}
variable {visit : Operand → Action Operand}

/-! ## Children that a visit leaves alone -/

/-- A visit gives the operand back and changes nothing. -/
def Spared (visit : Operand → Action Operand) (t : Session) : Operand → Prop
  | .node k => Runs (visit (.node k)) t (.node k) t
  | .datum d => d = .null
  | .group os => ∀ o ∈ os, ∃ k, o = .node k ∧ Runs (visit o) t o t

theorem visitOne_stays {name : String} {place : Option Nat} (h : Runs (visit (.node k)) t (.node k) t) :
    Runs (visitOne visit name place (.node k)) t (.node k) t := by
  refine runs_bind.2 ⟨_, _, h, ?_⟩
  cases place <;> exact runs_pure.2 ⟨rfl, rfl⟩

theorem mapM_stays {name : String} {os : List Operand} (h : ∀ o ∈ os, ∃ k, o = .node k ∧ Runs (visit o) t o t)
    (start : Nat) : Runs ((os.zipIdx start).mapM fun (o, i) => visitOne visit name (some i) o) t os t := by
  induction os generalizing start with
  | nil => exact runs_mapM_nil.2 ⟨rfl, rfl⟩
  | cons o os ih =>
    obtain ⟨k, rfl, hk⟩ := h o (by simp)
    rw [List.zipIdx_cons, List.mapM_cons]
    refine runs_bind.2 ⟨_, _, visitOne_stays hk, runs_bind.2 ⟨_, _, ih (fun o ho => h o (by simp [ho])) _, ?_⟩⟩
    exact runs_pure.2 ⟨rfl, rfl⟩

theorem visitPosition_stays (hn : t.node? k = some n)
    (hs : ∀ name o, n.form.children.lookup name = some o → Spared visit t o) (name : String) :
    ∃ v, Runs (visitPosition (visitOne visit) k name) t v t ∧
      ∀ p ∈ v, n.form.children.lookup p.1 = some p.2.operand := by
  have hnode : Runs (node k) t n t := runs_node.2 ⟨hn, rfl⟩
  unfold visitPosition
  cases ho : n.form.children.lookup name with
  | none => exact ⟨none, runs_bind.2 ⟨_, _, hnode, by rw [ho]; exact runs_pure.2 ⟨rfl, rfl⟩⟩, by simp⟩
  | some o =>
    have hspared := hs name o ho
    cases o with
    | datum d =>
      obtain rfl : d = .null := hspared
      exact ⟨none, runs_bind.2 ⟨_, _, hnode, by rw [ho]; exact runs_pure.2 ⟨rfl, rfl⟩⟩, by simp⟩
    | node c =>
      refine ⟨some (name, .one (.node c)), runs_bind.2 ⟨_, _, hnode, ?_⟩, by simpa [Visited.operand] using ho⟩
      rw [ho]
      exact runs_bind.2 ⟨_, _, visitOne_stays hspared, runs_pure.2 ⟨rfl, rfl⟩⟩
    | group os =>
      have hflat : flattened os = os := flattened_nodes fun o ho => (hspared o ho).imp fun _ h => h.1
      refine ⟨some (name, .many os), runs_bind.2 ⟨_, _, hnode, ?_⟩, by simpa [Visited.operand, hflat] using ho⟩
      rw [ho]
      exact runs_bind.2 ⟨_, _, mapM_stays hspared 0, runs_pure.2 ⟨rfl, rfl⟩⟩

theorem filterMapM_stays (hn : t.node? k = some n)
    (hs : ∀ name o, n.form.children.lookup name = some o → Spared visit t o) (names : List String) :
    ∃ rs, Runs (names.filterMapM (visitPosition (visitOne visit) k)) t rs t ∧
      ∀ p ∈ rs, n.form.children.lookup p.1 = some p.2.operand := by
  induction names with
  | nil => exact ⟨[], runs_pure.2 ⟨rfl, rfl⟩, by simp⟩
  | cons name names ih =>
    obtain ⟨v, hv, hlook⟩ := visitPosition_stays hn hs name
    obtain ⟨rs, hrs, hlooks⟩ := ih
    rw [List.filterMapM_cons]
    cases v with
    | none => exact ⟨rs, runs_bind.2 ⟨_, _, hv, hrs⟩, hlooks⟩
    | some p =>
      refine ⟨p :: rs, runs_bind.2 ⟨_, _, hv, runs_bind.2 ⟨_, _, hrs, runs_pure.2 ⟨rfl, rfl⟩⟩⟩, ?_⟩
      intro q hq
      rcases List.mem_cons.1 hq with rfl | hq
      · exact hlook _ rfl
      · exact hlooks q hq

theorem updateForm_stays {name : String} (hn : t.node? k = some n) (ho : n.form.children.lookup name = some o) :
    Runs (updateForm k (·.setChild name o)) t () t := by
  refine runs_updateForm.2 (alter_same fun n' hn' => ?_).symm
  cases hn.symm.trans hn'
  rw [Node.reform, setChild_self ho]

theorem transformChildren_stays (hn : t.node? k = some n)
    (hs : ∀ name o, n.form.children.lookup name = some o → Spared visit t o) :
    Runs (transformChildren visit k) t () t := by
  obtain ⟨rs, hrs, hlook⟩ := filterMapM_stays hn hs (n.form.children.map (·.1))
  rw [transformChildren_eq]
  refine runs_bind.2 ⟨rs, t, runs_bind.2 ⟨n, t, runs_node.2 ⟨hn, rfl⟩, hrs⟩, ?_⟩
  clear hrs
  induction rs with
  | nil => exact runs_pure.2 ⟨rfl, rfl⟩
  | cons p rs ih =>
    exact runs_bind.2 ⟨_, _, updateForm_stays hn (hlook p (by simp)), ih fun q hq => hlook q (by simp [hq])⟩

/-! ## Operands of the right type -/

theorem runs_resolveType {type : CType} (ht : t.type? k = some type) (he : type.IsElement) :
    Runs (Layout.resolveType k) t type t := by
  have hknown : Runs (knownType (.node k)) t type t := by
    refine runs_bind.2 ⟨type, t, runs_typeOf.2 ⟨k, rfl, ht, rfl⟩, ?_⟩
    rw [known, if_neg (by simp [he.2])]
    exact runs_pure.2 ⟨rfl, rfl⟩
  refine runs_bind.2 ⟨type, t, hknown, ?_⟩
  rw [if_neg (by simp [he.1]), CType.resolved_of_not_array he.1]
  exact runs_pure.2 ⟨rfl, rfl⟩

theorem promote_stays (h : t.HasType o target) : Runs (Build.promote target o) t o t := by
  obtain ⟨a, ⟨k, rfl, hk⟩, hsame⟩ := h
  obtain ⟨n, hn, -⟩ := Option.bind_eq_some_iff.1 hk
  refine runs_bind.2 ⟨k, t, runs_identity.2 ⟨rfl, rfl⟩, runs_bind.2 ⟨n, t, runs_node.2 ⟨hn, rfl⟩, ?_⟩⟩
  refine runs_bind.2 ⟨a, t, runs_typeOf.2 ⟨k, rfl, hk, rfl⟩, ?_⟩
  rw [if_pos hsame]
  exact runs_pure.2 ⟨rfl, rfl⟩

theorem runs_sides (hn : t.node? k = some n) (hf : n.form.children = [("lhs", l), ("rhs", r)]) :
    Runs (leftOf (.node k)) t l t ∧ Runs (rightOf (.node k)) t r t := by
  unfold leftOf rightOf
  rw [runs_nodeOf_bind hn, runs_nodeOf_bind hn]
  generalize n.form = f at hf
  cases f with
  | var v =>
    obtain ⟨role, x, e, d, st⟩ := v
    cases role <;> simp [Form.children] at hf
  | _ =>
    simp [Form.children] at hf
    try
      obtain ⟨rfl, rfl⟩ := hf
      exact ⟨runs_pure.2 ⟨rfl, rfl⟩, runs_pure.2 ⟨rfl, rfl⟩⟩

theorem promoteOperands_stays (hn : t.node? k = some n) (hf : n.form.children = [("lhs", l), ("rhs", r)])
    (hl : t.HasType l target) (hr : t.HasType r target) : Runs (Layout.promoteOperands target k) t () t := by
  obtain ⟨hleft, hright⟩ := runs_sides hn hf
  refine runs_bind.2 ⟨l, t, hleft, runs_bind.2 ⟨l, t, promote_stays hl, ?_⟩⟩
  refine runs_bind.2 ⟨_, t, updateForm_stays hn (by rw [hf]; rfl), ?_⟩
  refine runs_bind.2 ⟨r, t, hright, runs_bind.2 ⟨r, t, promote_stays hr, ?_⟩⟩
  exact updateForm_stays hn (by rw [hf]; rfl)

/-! ## The second pass -/

theorem runs_joinTypes {t' : Session} : Runs (Build.joinTypes l r) t target t' ↔
    ∃ a b, t.TypeOf l a ∧ t.TypeOf r b ∧ a.join b = .ok target ∧ t' = t := by
  simp only [Build.joinTypes, runs_bind, runs_typeOf, runs_ofExcept]
  constructor
  · rintro ⟨a, _, ⟨i, rfl, ha, rfl⟩, b, _, ⟨j, rfl, hb, rfl⟩, hjoin, rfl⟩
    exact ⟨a, b, ⟨i, rfl, ha⟩, ⟨j, rfl, hb⟩, hjoin, rfl⟩
  · rintro ⟨a, b, ⟨i, rfl, ha⟩, ⟨j, rfl, hb⟩, hjoin, rfl⟩
    exact ⟨a, _, ⟨i, rfl, ha, rfl⟩, b, _, ⟨j, rfl, hb, rfl⟩, hjoin, rfl⟩

/-- Compared operands that agree have a common type, and it asks nothing more of them. -/
theorem Target.again {operator : String} {type : CType} (h : Target s t k operator l r type target)
    (habsent : target.isAbsent = false) (hagree : target.isPointer = true ∨ t.HasType l target ∧ t.HasType r target)
    (hcomparison : Layout.isComparison operator = true) :
    ∃ common, Runs (Build.joinTypes l r) t common t ∧ common.isAbsent = false ∧
      (common.isPointer = true ∨ t.HasType l common ∧ t.HasType r common) := by
  rw [Target, if_pos hcomparison] at h
  obtain ⟨-, -, -, a, b, -, -, -, -, hjoin, hpointer⟩ := h
  rcases hagree with hp | ⟨⟨a', ha', hl⟩, ⟨b', hb', hr⟩⟩
  · obtain ⟨hl, hr⟩ := hpointer hp
    exact ⟨target, runs_joinTypes.2 ⟨a, b, hl, hr, hjoin, rfl⟩, habsent, .inl hp⟩
  · have hsame : (a' == b') = true := (CType.same_congr hl b').trans (CType.beq_symm hr)
    have hjoin' : a'.join b' = .ok a' := if_pos hsame
    refine ⟨a', runs_joinTypes.2 ⟨a', b', ha', hb', hjoin', rfl⟩, (CType.isAbsent_of_same hl).trans habsent, .inr ⟨?_, ?_⟩⟩
    · exact ⟨a', ha', CType.beq_refl a'⟩
    · exact ⟨b', hb', CType.beq_symm hsame⟩

theorem promoteUnlessPointer_stays (hn : t.node? k = some n) (hf : n.form.children = [("lhs", l), ("rhs", r)])
    (habsent : target.isAbsent = false) (hagree : target.isPointer = true ∨ t.HasType l target ∧ t.HasType r target) :
    Runs (do
      if !(← known target).isPointer then Layout.promoteOperands target k
      return Operand.node k) t (.node k) t := by
  have hknown : Runs (known target) t target t := by
    rw [known, if_neg (by simp [habsent])]
    exact runs_pure.2 ⟨rfl, rfl⟩
  refine runs_bind.2 ⟨target, t, hknown, ?_⟩
  split
  · rename_i hp
    obtain ⟨hl, hr⟩ := hagree.resolve_left (by simpa using hp)
    exact runs_bind.2 ⟨_, t, promoteOperands_stays hn hf hl hr, runs_pure.2 ⟨rfl, rfl⟩⟩
  · exact runs_pure.2 ⟨rfl, rfl⟩

theorem promoteNode_stays (hn : t.node? k = some n) (he : n.form.kindName ≠ "ResolvedVariable") (ha : Agrees s t k n)
    (hs : ∀ name o, n.form.children.lookup name = some o → Spared visit t o) :
    Runs (Layout.promoteNode visit k) t (.node k) t := by
  have hchildren := transformChildren_stays hn hs
  have hresolve {type : CType} (h : n.type = some type) (he : type.IsElement) : Runs (Layout.resolveType k) t type t :=
    runs_resolveType ((type?_of_node? hn).trans h) he
  refine runs_bind.2 ⟨n, t, runs_node.2 ⟨hn, rfl⟩, ?_⟩
  unfold Agrees at ha
  split
  · rename_i operator x hform
    rw [hform] at ha
    obtain ⟨type, htype, helement, hx⟩ := ha
    have hspared := hs "operand" x (by rw [hform]; rfl)
    have hset : Runs (updateForm k (·.setChild "operand" x)) t () t := updateForm_stays hn (by rw [hform]; rfl)
    obtain ⟨a, ⟨c, rfl, hc⟩, hsame⟩ := hx
    refine runs_bind.2 ⟨type, t, hresolve htype helement, runs_bind.2 ⟨_, t, hspared, ?_⟩⟩
    refine runs_bind.2 ⟨_, t, promote_stays ⟨a, ⟨c, rfl, hc⟩, hsame⟩, runs_bind.2 ⟨_, t, hset, ?_⟩⟩
    exact runs_pure.2 ⟨rfl, rfl⟩
  case h_2 operator l r hform | h_3 operator l r hform =>
    rw [hform] at ha
    obtain ⟨type, htype, helement, target, htarget, habsent, hagree⟩ := ha
    have hf : n.form.children = [("lhs", l), ("rhs", r)] := by rw [hform]; rfl
    obtain ⟨hleft, hright⟩ := runs_sides hn hf
    refine runs_bind.2 ⟨_, t, hchildren, runs_bind.2 ⟨type, t, hresolve htype helement, ?_⟩⟩
    split
    · rename_i hcomparison
      obtain ⟨common, hjoin, habsent', hagree'⟩ := htarget.again habsent hagree hcomparison
      refine runs_bind.2 ⟨l, t, hleft, runs_bind.2 ⟨r, t, hright, runs_bind.2 ⟨common, t, hjoin, ?_⟩⟩⟩
      exact promoteUnlessPointer_stays hn hf habsent' hagree'
    · rename_i hcomparison
      rw [Target, if_neg hcomparison] at htarget
      subst htarget
      refine runs_bind.2 ⟨target, t, runs_pure.2 ⟨rfl, rfl⟩, ?_⟩
      exact promoteUnlessPointer_stays hn hf habsent hagree
  · rename_i l r mayReorder hform
    rw [hform] at ha
    obtain ⟨type, left, htype, helement, hl, hr⟩ := ha
    have hf : n.form.children = [("lhs", l), ("rhs", r)] := by rw [hform]; rfl
    have htypeOf : Runs (typeOf l) t left t := by
      obtain ⟨c, rfl, hc⟩ := hl
      exact runs_typeOf.2 ⟨c, rfl, hc, rfl⟩
    refine runs_bind.2 ⟨_, t, hchildren, runs_bind.2 ⟨type, t, hresolve htype helement, ?_⟩⟩
    refine runs_bind.2 ⟨l, t, (runs_sides hn hf).1, runs_bind.2 ⟨left, t, htypeOf, ?_⟩⟩
    refine runs_bind.2 ⟨_, t, promoteOperands_stays hn hf ⟨left, hl, CType.beq_refl left⟩ hr, ?_⟩
    exact runs_pure.2 ⟨rfl, rfl⟩
  · rename_i hform
    rw [hform] at he
    exact absurd rfl he
  · exact runs_bind.2 ⟨_, t, hchildren, runs_pure.2 ⟨rfl, rfl⟩⟩

/-- A promoted operand is left alone by every promotion that goes deep enough. -/
theorem Promoted.again {h depth : Nat} (hp : Promoted s t h o r) (hdepth : h ≤ depth) :
    Spared (Layout.promoteWithin depth) t r := by
  induction hp generalizing depth with
  | absent => rfl
  | nil => simp [Spared]
  | cons _ _ ihd itl =>
    intro x hx
    rcases List.mem_cons.1 hx with rfl | hx
    · exact ⟨_, rfl, ihd hdepth⟩
    · exact itl hdepth x hx
  | element _ _ _ ih => exact ih hdepth
  | @wrapped h i j k n hn hf _ _ ih =>
    obtain ⟨d, rfl⟩ : ∃ d, depth = d + 1 := ⟨depth - 1, by omega⟩
    refine promoteNode_stays (s := s) hn (by simp [hf, Form.kindName]) (by simp [Agrees, hf]) fun name x hx => ?_
    rw [hf] at hx
    obtain ⟨-, rfl⟩ : name = "operand" ∧ x = .node j := by simpa [Form.children] using mem_of_lookup hx
    exact ih (by omega)
  | @node h i n n' kids _ he hn' hr ha hl _ ih =>
    obtain ⟨d, rfl⟩ : ∃ d, depth = d + 1 := ⟨depth - 1, by omega⟩
    refine promoteNode_stays hn' (by rw [hr.kindName]; exact he) ha fun name x hx => ?_
    obtain ⟨o, ho⟩ := hr.lookup hx
    cases hx.symm.trans (hl name o ho)
    exact ih name o ho (by omega)

/-! ## More depth -/

/-- Every run of one action is a run of the other. -/
def Broadens {α : Type} (a b : Action α) : Prop := ∀ s r t, Runs a s r t → Runs b s r t

namespace Broadens

variable {α β : Type} {a b : Action α} {visit' : Operand → Action Operand}

theorem refl (a : Action α) : Broadens a a := fun _ _ _ h => h

theorem bind {g g' : α → Action β} (ha : Broadens a b) (hg : ∀ x, Broadens (g x) (g' x)) : Broadens (a >>= g) (b >>= g') := by
  intro s r t h
  obtain ⟨x, u, hx, h⟩ := runs_bind.1 h
  exact runs_bind.2 ⟨x, u, ha s x u hx, hg x u r t h⟩

theorem mapM {g g' : α → Action β} (hg : ∀ x, Broadens (g x) (g' x)) (xs : List α) : Broadens (xs.mapM g) (xs.mapM g') := by
  induction xs with
  | nil => exact .refl _
  | cons x xs ih =>
    rw [List.mapM_cons, List.mapM_cons]
    exact (hg x).bind fun _ => ih.bind fun _ => .refl _

theorem filterMapM {g g' : α → Action (Option β)} (hg : ∀ x, Broadens (g x) (g' x)) (xs : List α) :
    Broadens (xs.filterMapM g) (xs.filterMapM g') := by
  induction xs with
  | nil => exact .refl _
  | cons x xs ih =>
    rw [List.filterMapM_cons, List.filterMapM_cons]
    refine (hg x).bind fun y => ?_
    cases y with
    | none => exact ih
    | some y => exact ih.bind fun _ => .refl _

theorem visitPosition (hv : ∀ o, Broadens (visit o) (visit' o)) (name : String) :
    Broadens (Ast.visitPosition (visitOne visit) k name) (Ast.visitPosition (visitOne visit') k name) := by
  have hone (place : Option Nat) (o : Operand) : Broadens (visitOne visit name place o) (visitOne visit' name place o) :=
    (hv o).bind fun _ => .refl _
  refine (refl _).bind fun n => ?_
  split
  · exact .refl _
  · exact .refl _
  · exact (mapM (fun x => hone _ _) _).bind fun _ => .refl _
  · exact (hone _ _).bind fun _ => .refl _

theorem transformChildren (hv : ∀ o, Broadens (visit o) (visit' o)) :
    Broadens (Ast.transformChildren visit k) (Ast.transformChildren visit' k) := by
  rw [transformChildren_eq, transformChildren_eq]
  exact ((refl _).bind fun _ => filterMapM (visitPosition hv) _).bind fun _ => .refl _

theorem promoteNode (hv : ∀ o, Broadens (visit o) (visit' o)) :
    Broadens (Layout.promoteNode visit k) (Layout.promoteNode visit' k) := by
  refine (refl _).bind fun n => ?_
  split
  · exact (refl _).bind fun _ => (hv _).bind fun _ => .refl _
  · exact (transformChildren hv).bind fun _ => .refl _
  · exact (transformChildren hv).bind fun _ => .refl _
  · exact (transformChildren hv).bind fun _ => .refl _
  · exact hv _
  · exact (transformChildren hv).bind fun _ => .refl _

/-- A promotion that ends gives the same when it may go deeper. -/
theorem promoteWithin (depth more : Nat) (o : Operand) :
    Broadens (Layout.promoteWithin depth o) (Layout.promoteWithin (depth + more) o) := by
  induction depth generalizing o with
  | zero =>
    intro s r t h
    cases runs_throw.1 h
  | succ depth ih =>
    rw [Nat.add_right_comm]
    cases o with
    | node i => exact promoteNode ih
    | datum d => exact .refl _
    | group os => exact .refl _

end Broadens

end ArrayKernel.Ast
