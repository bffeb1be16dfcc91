import ArrayKernel.Proofs.PromotedVisits

/-!
# Operands of one type

The promotion of types goes over a tree from its leaves up: when the children of a node are done, its operands are
brought to one type. After the pass all operands have the types they are to have.
-/

namespace ArrayKernel.Ast

variable {s t u v : Session} {i k : NodeId} {o o' l l₀ r r₀ x y : Operand} {n m : Node} {f : Form} {h : Nat}
variable {name name' : String} {target : CType} {visit : Operand → Action Operand}

/-! ## Positions of a tree -/

theorem IsTree.not_under (htree : IsTree s i) (hf : s.form? i = some f) (ho : f.children.lookup name = some o) :
    ¬ Under s o.ids i := by
  rintro ⟨c, hc, hj⟩
  exact htree.not_below ⟨f, hf, ids_of_lookup ho hc⟩ hj

theorem IsTree.positions_apart (htree : IsTree s i) (hf : s.form? i = some f) (ho : f.children.lookup name = some o)
    (ho' : f.children.lookup name' = some o') (hne : name ≠ name') {j : NodeId} (hj : Under s o.ids j) :
    ¬ Under s o'.ids j := by
  obtain ⟨c, hc, hj⟩ := hj
  rintro ⟨c', hc', hj'⟩
  refine htree.apart ⟨f, hf, ids_of_lookup ho hc⟩ ⟨f, hf, ids_of_lookup ho' hc'⟩ ?_ hj hj'
  rintro rfl
  obtain ⟨f', hf', hnodup, -⟩ := htree.stored i .refl
  cases hf.symm.trans hf'
  have hsymm : Std.Symm (Function.onFun List.Disjoint fun c : String × Operand => c.2.ids) :=
    ⟨fun _ _ h _ hb ha => h ha hb⟩
  have hdisjoint := (List.nodup_flatMap.1 hnodup).2.forall (mem_of_lookup ho) (mem_of_lookup ho') fun heq =>
    hne (Prod.mk.inj heq).1
  exact hdisjoint hc hc'

theorem lookup_setChild_self (ho : f.children.lookup name = some o) :
    (f.setChild name y).children.lookup name = some y := by
  obtain ⟨r, hr⟩ := exists_lookup_of_names (names_setChild f name y).symm ho
  rcases lookup_setChild hr with ⟨-, rfl⟩ | ⟨hne, -⟩
  · exact hr
  · exact absurd rfl hne

theorem lookup_setChild_of_ne (hne : name' ≠ name) (ho : f.children.lookup name' = some o) :
    (f.setChild name y).children.lookup name' = some o := by
  obtain ⟨r, hr⟩ := exists_lookup_of_names (names_setChild f name y).symm ho
  rcases lookup_setChild hr with ⟨rfl, -⟩ | ⟨-, hold⟩
  · exact absurd rfl hne
  · rw [hr, hold.symm.trans ho]

/-- What stands for an operand does not hold the node itself. -/
theorem StandsFor.apart (hs : StandsFor s u h o x) (htree : IsTree s i) (hn : s.node? i = some n)
    (ho : n.form.children.lookup name = some o) : ∀ c ∈ x.ids, c ≠ i := by
  rintro c hc rfl
  rcases hs.reach c (under_self hc) with hj | hnone
  · exact htree.not_under (form?_of_node? hn) ho hj
  · rw [hn] at hnone
    cases hnone

/-! ## Bringing an operand to a type -/

theorem runs_promote (h : Runs (Build.promote target x) u y v) : ∃ k n a, x = .node k ∧ u.node? k = some n ∧
    n.type = some a ∧ ((a == target) = true ∧ y = x ∧ v = u ∨
      n.form.isConstant = true ∧ a.kind = target.kind ∧ y = x ∧ v = u.alter k (fun n => { n with type := some target }) ∨
      ∃ p, y = .node u.next ∧ v = u.add { form := .promotion x, type := some target, position := p }) := by
  simp only [Build.promote, runs_bind, runs_identity, runs_node, runs_typeOf] at h
  obtain ⟨k, _, ⟨rfl, rfl⟩, n, _, ⟨hn, rfl⟩, a, _, ⟨_, hk, ha, rfl⟩, h⟩ := h
  cases hk
  rw [type?_of_node? hn] at ha
  refine ⟨k, n, a, rfl, hn, ha, ?_⟩
  split at h
  · obtain ⟨rfl, rfl⟩ := runs_pure.1 h
    exact .inl ⟨‹_›, rfl, rfl⟩
  · split at h
    · simp only [runs_bind] at h
      obtain ⟨a', _, hknown, target', _, hknown', h⟩ := h
      obtain ⟨rfl, rfl⟩ := runs_known hknown
      obtain ⟨rfl, rfl⟩ := runs_known hknown'
      split at h
      · obtain ⟨_, _, hset, h⟩ := runs_bind.1 h
        obtain ⟨rfl, rfl⟩ := runs_pure.1 h
        exact .inr (.inl ⟨‹_›, eq_of_beq ‹_›, rfl, runs_updateNode.1 hset⟩)
      · obtain ⟨p, rfl, rfl⟩ := runs_create h
        exact .inr (.inr ⟨p, rfl, rfl⟩)
    · obtain ⟨p, rfl, rfl⟩ := runs_create h
      exact .inr (.inr ⟨p, rfl, rfl⟩)

theorem form?_retype {type : Option CType} {j : NodeId} : (u.alter k fun n => { n with type }).form? j = u.form? j := by
  rw [form?_alter_of]
  split
  · rw [Option.map_map]
    rfl
  · rfl

theorem eq_constant_of_kindName (h : f.kindName = "ConstantNode") : ∃ d, f = .constant d := by
  cases f with
  | constant d => exact ⟨d, rfl⟩
  | var v =>
    obtain ⟨role, name, emitted, data, strides⟩ := v
    cases role <;> simp [Form.kindName] at h
  | _ => simp [Form.kindName] at h

theorem eq_constant_of_isConstant (h : f.isConstant = true) : ∃ d, f = .constant d := by
  cases f with
  | constant d => exact ⟨d, rfl⟩
  | _ => cases h

/-- A constant may take another type of its kind. -/
theorem Promoted.retype {d : Datum} {a : CType} (hp : Promoted s u h o (.node k)) (hn : u.node? k = some n)
    (hf : n.form = .constant d) (ha : n.type = some a) (hkind : a.kind = target.kind) :
    Promoted s (u.alter k fun n => { n with type := some target }) h o (.node k) := by
  have hk : (u.alter k fun n => { n with type := some target }).node? k = some { n with type := some target } := by
    rw [node?_alter, if_pos rfl, hn]
    rfl
  generalize hr : Operand.node k = r at hp
  induction hp with
  | absent | nil | cons => cases hr
  | element hv hrole _ ih =>
    cases hr
    exact .element hv hrole (ih rfl)
  | wrapped hn' hf' =>
    cases hr
    cases hn.symm.trans hn'
    rw [hf] at hf'
    cases hf'
  | @node h i m n' kids hm he hn' hrew ha' hl _ =>
    cases hr
    cases hn.symm.trans hn'
    have hkindName : m.form.kindName = "ConstantNode" := by
      rw [← hrew.kindName, hf]
      rfl
    obtain ⟨d', hd'⟩ := eq_constant_of_kindName hkindName
    have hold : n.type.map CType.kind = m.type.map CType.kind := by
      rcases hrew.type with htype | ⟨-, htype⟩
      · rw [htype, if_neg (by simp [Form.isOperation, hkindName])]
      · exact htype
    refine .node hm he hk ⟨hrew.form, .inr ⟨by rw [hd']; rfl, ?_⟩, hrew.position, hrew.marks⟩ ?_ hl ?_
    · rw [← hold, ha]
      exact congrArg some hkind.symm
    · simp [Agrees, hf]
    · intro name o ho
      rw [hd'] at ho
      cases ho

theorem Promoted.eq_node (hp : Promoted s u h o (.node k)) : ∃ i, o = .node i := by
  cases hp with
  | element | wrapped | node => exact ⟨_, rfl⟩

/-! ## A node at work -/

/-- A node that the pass works on: of the node at most operands and the type have changed. -/
structure Handled (s u : Session) (i : NodeId) (n m : Node) : Prop where
  rewrites : Rewrites (Below s i) s u
  now : u.node? i = some m
  form : ∃ news, m.form = setChildren news n.form
  position : m.position = n.position
  marks : m.marks = n.marks

/-- A node whose children are promoted, while the pass brings them to their types. The numbers bound the heights of
the trees in the positions. -/
structure Working (s u : Session) (height : String → Nat) (i : NodeId) (n m : Node) : Prop extends Handled s u i n m where
  filled : ∀ name o, n.form.children.lookup name = some o →
    ∃ r, m.form.children.lookup name = some r ∧ StandsFor s u (height name) o r

section

variable {height : String → Nat} (htree : IsTree s i) (hn : s.node? i = some n)

include htree hn

namespace Handled

/-- A change of the node itself leaves what stands for its operands. -/
theorem alter {g : Node → Node} (hw : Handled s u i n m) (hform : ∃ news, (g m).form = setChildren news m.form)
    (hposition : (g m).position = m.position) (hmarks : (g m).marks = m.marks)
    (hfilled : ∀ name o, n.form.children.lookup name = some o →
      ∃ r, (g m).form.children.lookup name = some r ∧ StandsFor s u (height name) o r) :
    Working s (u.alter i g) height i n (g m) := by
  obtain ⟨news', hform⟩ := hform
  obtain ⟨news, hold⟩ := hw.form
  have hkinds : ∀ m', u.node? i = some m' → (g m').form.kindName = m'.form.kindName := by
    intro m' hm'
    cases hw.now.symm.trans hm'
    rw [hform, kindName_setChildren]
  have hchange : Rewrites (· = i) u (u.alter i g) := .alter i hkinds
  refine ⟨⟨hw.rewrites.trans (hchange.mono ?_), ?_, ⟨news ++ news', ?_⟩, hposition.trans hw.position,
    hmarks.trans hw.marks⟩, fun name o ho => ?_⟩
  · rintro j rfl
    exact .refl
  · rw [node?_alter, if_pos rfl, hw.now]
    rfl
  · rw [hform, hold, setChildren, setChildren, setChildren, List.foldl_append]
  · obtain ⟨r, hr, hs⟩ := hfilled name o ho
    refine ⟨r, hr, hs.later (hs.same hchange fun j hj => ?_)⟩
    subst hj
    exact ⟨htree.not_under (form?_of_node? hn) ho, by simp [hn]⟩

/-- An operand is brought to a type. The others keep their nodes. -/
theorem promote (hheld : Handled s u i n m) (ho : n.form.children.lookup name = some o) (hs : StandsFor s u h o x)
    (hrun : Runs (Build.promote target x) u y v) :
    Handled s v i n m ∧ StandsFor s v (h + 1) o y ∧ v.HasType y target ∧
      ∀ {name' o' x' h'}, name' ≠ name → n.form.children.lookup name' = some o' → StandsFor s u h' o' x' →
        ∀ j, Under u x'.ids j → v.node? j = u.node? j := by
  have hf := form?_of_node? hn
  have hmoved (hrewrites : Rewrites (Below s i) s v) (hnow : v.node? i = some m) : Handled s v i n m :=
    ⟨hrewrites, hnow, hheld.form, hheld.position, hheld.marks⟩
  obtain ⟨k, p, a, rfl, hk, ha, hcases⟩ := runs_promote hrun
  have htype : u.type? k = some a := (type?_of_node? hk).trans ha
  rcases hcases with ⟨hsame, rfl, rfl⟩ | ⟨hconstant, hkind, rfl, rfl⟩ | ⟨q, rfl, rfl⟩
  · exact ⟨hheld, hs.mono (Nat.le_succ _), ⟨a, ⟨k, rfl, htype⟩, hsame⟩, fun _ _ _ _ _ => rfl⟩
  · obtain ⟨d, hd⟩ := eq_constant_of_isConstant hconstant
    -- a constant is no wrapper, so it was there before, in the tree of its position only
    have hold : s.node? k ≠ none := by
      intro hnone
      have hkind := hheld.rewrites.added k _ (form?_of_node? hk) (form?_eq_none.2 hnone)
      rw [hd] at hkind
      simp [Form.kindName] at hkind
    have hunder : Under s o.ids k := (hs.reach k (under_node.2 .refl)).resolve_right hold
    have hchange : Rewrites (· = k) u (u.alter k fun n => { n with type := some target }) := .alter k fun _ _ => rfl
    have hik : i ≠ k := by
      rintro rfl
      exact htree.not_under hf ho hunder
    refine ⟨hmoved (hheld.rewrites.trans (hchange.mono ?_)) (hchange.spared i m hheld.now hik),
      ⟨?_, fun j hj => ?_⟩, ?_, ?_⟩
    · rintro j rfl
      exact hunder.child hf ho
    · exact (hs.promoted.retype hk hd ha hkind).mono (Nat.le_succ _)
    · exact hs.reach j ((under_congr fun j _ => form?_retype).1 hj)
    · refine ⟨target, ⟨k, rfl, ?_⟩, CType.beq_refl target⟩
      rw [Session.type?, node?_alter, if_pos rfl, hk]
      rfl
    · intro name' o' x' h' hne ho' hs'
      refine hs'.same hchange fun j hj => ?_
      subst hj
      exact ⟨htree.positions_apart hf ho ho' hne.symm hunder, hold⟩
  · have hchange : Rewrites (fun _ => False) u (u.add { form := .promotion (.node k), type := some target, position := q }) :=
      .add rfl
    have hnew : (u.add { form := .promotion (.node k), type := some target, position := q }).node? u.next = some
        { form := .promotion (.node k), type := some target, position := q } := by
      rw [node?_add, if_pos rfl]
    have hfresh : s.node? u.next = none := hheld.rewrites.none_before _ (form?_eq_none.1 form?_next)
    have hstill := hs.later (hs.same hchange fun _ hj => hj.elim)
    obtain ⟨j, rfl⟩ := hs.promoted.eq_node
    refine ⟨hmoved (hheld.rewrites.trans (hchange.mono fun _ hj => hj.elim)) (hchange.spared i m hheld.now id),
      ⟨.wrapped hnew rfl hfresh hstill.promoted, fun j hj => ?_⟩, ?_, ?_⟩
    · rcases (under_node.1 hj).cases_head with rfl | ⟨c, ⟨f, hf, hc⟩, hj⟩
      · exact .inr hfresh
      · cases (form?_of_node? hnew).symm.trans hf
        exact hstill.reach j ⟨c, by simpa [Form.ids, Form.children] using hc, hj⟩
    · exact ⟨target, ⟨u.next, rfl, type?_of_node? hnew⟩, CType.beq_refl target⟩
    · intro name' o' x' h' _ _ hs'
      exact hs'.same hchange fun _ hj => hj.elim

end Handled

namespace Working

theorem retype (hw : Working s u height i n m) (type : Option CType) :
    Working s (u.alter i fun n => { n with type }) height i n { m with type } :=
  hw.toHandled.alter htree hn (g := fun n => { n with type }) ⟨[], rfl⟩ rfl rfl hw.filled

/-- One of the operands is brought to a type and put back into its position. -/
theorem bring (hw : Working s u height i n m) (ho : n.form.children.lookup name = some o)
    (hx : m.form.children.lookup name = some x) (hrun : Runs (Build.promote target x) u y v)
    (hset : t = v.alter i (Node.reform (·.setChild name y))) :
    Working s t (fun x => if x = name then height x + 1 else height x) i n (m.reform (·.setChild name y)) ∧
      t.HasType y target ∧ ∀ name' o' x', name' ≠ name → n.form.children.lookup name' = some o' →
        m.form.children.lookup name' = some x' → ∀ c ∈ x'.ids, t.node? c = u.node? c := by
  subst hset
  have hs : StandsFor s u (height name) o x := by
    obtain ⟨r, hr, hs⟩ := hw.filled name o ho
    cases hr.symm.trans hx
    exact hs
  obtain ⟨hheld, hy, htype, hothers⟩ := hw.toHandled.promote htree hn ho hs hrun
  have hwork : Working s (v.alter i (Node.reform (·.setChild name y)))
      (fun x => if x = name then height x + 1 else height x) i n (m.reform (·.setChild name y)) := by
    refine hheld.alter htree hn ⟨[(name, y)], rfl⟩ rfl rfl fun name' o' ho' => ?_
    by_cases hne : name' = name
    · subst hne
      cases ho.symm.trans ho'
      exact ⟨y, lookup_setChild_self hx, by simpa using hy⟩
    · obtain ⟨x', hx', hs'⟩ := hw.filled name' o' ho'
      refine ⟨x', lookup_setChild_of_ne hne hx', ?_⟩
      rw [if_neg hne]
      exact hs'.later (hothers hne ho' hs')
  refine ⟨hwork, htype.congr fun c hc => ?_, fun name' o' x' hne ho' hx' c hc => ?_⟩
  · rw [node?_alter, if_neg (hy.apart htree hn ho c hc)]
  · obtain ⟨r, hr, hs⟩ := hw.filled name' o' ho'
    cases hr.symm.trans hx'
    rw [node?_alter, if_neg (hs.apart htree hn ho' c hc)]
    exact hothers hne ho' hs c (under_self hc)

end Working

end

/-! ## The pass -/

theorem IsTree.forest (htree : IsTree s i) (hflat : Flat s i) (hn : s.node? i = some n) : Forest s n.form.ids where
  tree _ hc := htree.child ⟨n.form, form?_of_node? hn, hc⟩
  flat _ hc j hj := hflat j (hj.head ⟨n.form, form?_of_node? hn, hc⟩)
  apart := htree.children_apart (form?_of_node? hn)

/-- After a visit of the children the node holds what was given for them. -/
theorem transformChildren_working {w : Unit} (hv : Promotes visit h) (htree : IsTree s i) (hflat : Flat s i)
    (hn : s.node? i = some n) (hrun : Runs (transformChildren visit i) s w u) :
    ∃ m, Working s u (fun _ => h) i n m ∧ m.type = n.type ∧ ∀ name o x, n.form.children.lookup name = some o →
      m.form.children.lookup name = some x → Seen s u o x := by
  have hf := form?_of_node? hn
  obtain ⟨f, news, v, hf', hvisits, rfl⟩ := transformChildren_visits (m := Action) hrun
  cases hf.symm.trans hf'
  have hforest := htree.forest hflat hn
  have hself : ¬ Under s n.form.ids i := by
    rintro ⟨c, hc, hj⟩
    exact htree.not_below ⟨n.form, hf, hc⟩ hj
  have hfill : Supplied s v h n.form.children news :=
    hv.visits hvisits rfl names_nodup hf (fun c hc => lookup_of_mem_children hc) hforest hself
  have hnow : v.node? i = some n := hfill.rewrites.spared i n hn hself
  have hheld : Handled s v i n n := by
    refine ⟨hfill.rewrites.mono ?_, hnow, ⟨[], rfl⟩, rfl, rfl⟩
    rintro j ⟨c, hc, hj⟩
    exact hj.head ⟨n.form, hf, hc⟩
  have hpositions : ∀ name o x, n.form.children.lookup name = some o →
      (setChildren news n.form).children.lookup name = some x → StandsFor s v h o x ∧ Seen s v o x := by
    intro name o x ho hx
    rcases lookup_setChildren hx with hnew | ⟨hnot, hsame⟩
    · exact hfill.given _ (mem_of_lookup ho) x hnew
    · cases ho.symm.trans hsame
      obtain rfl := hfill.skipped _ (mem_of_lookup ho) hnot
      exact ⟨.absent, fun _ _ hnode => by cases hnode⟩
  refine ⟨n.reform (setChildren news), hheld.alter htree hn ⟨news, rfl⟩ rfl rfl fun name o ho => ?_, rfl,
    fun name o x ho hx => ?_⟩
  · obtain ⟨x, hx⟩ := exists_lookup_of_names (names_setChildren n.form news).symm ho
    exact ⟨x, hx, (hpositions name o x ho hx).1⟩
  · obtain ⟨hs, hseen⟩ := hpositions name o x ho hx
    exact hseen.later fun c hc => node?_alter.trans (if_neg (hs.apart htree hn ho c hc))

theorem Working.finish {height : String → Nat} (hw : Working s u height i n m) (hn : s.node? i = some n)
    (hle : ∀ name, height name ≤ h) (he : n.form.kindName ≠ "ResolvedVariable")
    (htype : m.type = if n.form.isOperation then n.type.map CType.resolved else n.type) (ha : Agrees s u i m) :
    Outcome s u (h + 1) (.node i) (.node i) := by
  have hr : Rewritten n m := ⟨hw.form, .inl htype, hw.position, hw.marks⟩
  have hlook : ∀ name o, n.form.children.lookup name = some o →
      m.form.children.lookup name = some ((m.form.children.lookup name).getD .absent) := by
    intro name o ho
    obtain ⟨r, hr, -⟩ := hw.filled name o ho
    rw [hr]
    rfl
  refine ⟨hw.rewrites.mono fun j hj => under_node.2 hj, ⟨.node hn he hw.now hr ha hlook fun name o ho => ?_, fun j hj => ?_⟩,
    fun i' k' hi' hk' => ?_⟩
  · obtain ⟨r, hr, hs⟩ := hw.filled name o ho
    rw [hr]
    exact hs.promoted.mono (hle name)
  · rcases (under_node.1 hj).cases_head with rfl | ⟨c, ⟨f, hf, hc⟩, hj⟩
    · exact .inl (under_node.2 .refl)
    · cases (form?_of_node? hw.now).symm.trans hf
      obtain ⟨name, x, hx, hcx⟩ := exists_lookup_of_mem_ids hc
      obtain ⟨o, ho⟩ := hr.lookup hx
      obtain ⟨r, hr, hs⟩ := hw.filled name o ho
      cases hr.symm.trans hx
      refine (hs.reach j ⟨c, hcx, hj⟩).imp_left fun hunder => ?_
      exact under_node.2 (hunder.child (form?_of_node? hn) ho)
  · cases hi'
    cases hk'
    rw [type?_of_node? hw.now, htype]
    exact .node hn he

/-! ### Types of operations -/

theorem known_of_runs {type a : CType} (h : Runs (known type) u a v) : type.isAbsent = false := by
  unfold known at h
  split at h
  · cases runs_throw.1 h
  · exact eq_false_of_ne_true ‹_›

theorem resolveType_spec {type : CType} (h : Runs (Layout.resolveType i) u type v) :
    ∃ a, u.type? i = some a ∧ a.isAbsent = false ∧ type = a.resolved ∧
      v = u.alter i fun n => { n with type := some a.resolved } := by
  simp only [Layout.resolveType, knownType, runs_bind, runs_typeOf] at h
  obtain ⟨a, _, ⟨a', _, ⟨_, hi, ha, rfl⟩, hknown⟩, h⟩ := h
  cases hi
  have habsent := known_of_runs hknown
  obtain ⟨rfl, rfl⟩ := runs_known hknown
  refine ⟨a, ha, habsent, ?_⟩
  split at h
  · obtain ⟨_, _, hset, h⟩ := runs_bind.1 h
    obtain ⟨rfl, rfl⟩ := runs_pure.1 h
    exact ⟨rfl, runs_updateNode.1 hset⟩
  · rename_i harray
    obtain ⟨rfl, rfl⟩ := runs_pure.1 h
    refine ⟨rfl, (alter_same fun n hn => ?_).symm⟩
    rw [type?_of_node? hn] at ha
    rw [CType.resolved_of_not_array (eq_false_of_ne_true harray), ← ha]

theorem Flat.element {a : CType} (hflat : Flat s i) (ha : s.type? i = some a) (habsent : a.isAbsent = false) :
    a.resolved.IsElement := by
  cases harray : a.isArray with
  | true => exact hflat i .refl a ha harray
  | false =>
    rw [CType.resolved_of_not_array harray]
    exact ⟨harray, habsent⟩

/-! ### Operations on two operands -/

/-- Forms whose operands are the two sides. -/
structure TwoSided (C : Operand → Operand → Form) : Prop where
  children : ∀ l r, (C l r).children = [("lhs", l), ("rhs", r)]
  closed : ∀ l r name o, ∃ l' r', (C l r).setChild name o = C l' r'

theorem twoSided_binop (operator : String) : TwoSided (.binop operator) := by
  refine ⟨fun _ _ => rfl, fun l r name o => ?_⟩
  simp only [Form.setChild]
  split <;> exact ⟨_, _, rfl⟩

theorem twoSided_vectorBinop (operator : String) : TwoSided (.vectorBinop operator) := by
  refine ⟨fun _ _ => rfl, fun l r name o => ?_⟩
  simp only [Form.setChild]
  split <;> exact ⟨_, _, rfl⟩

theorem twoSided_assign (mayReorder : Datum) : TwoSided (.assign · · mayReorder) := by
  refine ⟨fun _ _ => rfl, fun l r name o => ?_⟩
  simp only [Form.setChild]
  split <;> exact ⟨_, _, rfl⟩

theorem TwoSided.setChildren {C : Operand → Operand → Form} (hC : TwoSided C) (news : List (String × Operand))
    (l r : Operand) : ∃ l' r', Ast.setChildren news (C l r) = C l' r' := by
  induction news generalizing l r with
  | nil => exact ⟨l, r, rfl⟩
  | cons new news ih =>
    obtain ⟨l', r', hstep⟩ := hC.closed l r new.1 new.2
    obtain ⟨l'', r'', hrest⟩ := ih l' r'
    refine ⟨l'', r'', ?_⟩
    rw [← hrest, ← hstep]
    rfl

theorem Handled.form_eq {C : Operand → Operand → Form} (hw : Handled s u i n m) (hC : TwoSided C) (hform : n.form = C l₀ r₀)
    (hsides : m.form.children = [("lhs", l), ("rhs", r)]) : m.form = C l r := by
  obtain ⟨news, hnews⟩ := hw.form
  obtain ⟨l', r', hC'⟩ := hC.setChildren news l₀ r₀
  rw [hform, hC'] at hnews
  rw [hnews, hC.children] at hsides
  simp only [List.cons.injEq, Prod.mk.injEq, true_and, and_true] at hsides
  rw [hnews, hsides.1, hsides.2]

theorem Handled.sides (hw : Handled s u i n m) (hold : n.form.children = [("lhs", l₀), ("rhs", r₀)]) :
    ∃ l r, m.form.children = [("lhs", l), ("rhs", r)] := by
  obtain ⟨news, hform⟩ := hw.form
  have hnames : m.form.children.map (·.1) = ["lhs", "rhs"] := by
    rw [hform, names_setChildren, hold]
    rfl
  obtain ⟨⟨_, l⟩, _, hchildren, rfl, hrest⟩ := List.map_eq_cons_iff.1 hnames
  obtain ⟨⟨_, r⟩, _, rfl, rfl, hnil⟩ := List.map_eq_cons_iff.1 hrest
  obtain rfl := List.map_eq_nil_iff.1 hnil
  exact ⟨l, r, hchildren⟩

theorem eq_of_sides {y y' : Operand} (hsides : f.children = [("lhs", l), ("rhs", r)])
    (hl : f.children.lookup "lhs" = some y) (hr : f.children.lookup "rhs" = some y') : y = l ∧ y' = r := by
  rw [hsides] at hl hr
  cases hl
  cases hr
  exact ⟨rfl, rfl⟩

/-- Both operands are brought to the type. -/
theorem Working.bringSides {w : Unit} (hw : Working s u (fun _ => h) i n m) (htree : IsTree s i) (hn : s.node? i = some n)
    (hold : n.form.children = [("lhs", l₀), ("rhs", r₀)]) (hrun : Runs (Layout.promoteOperands target i) u w t) :
    ∃ m' l r, Working s t (fun _ => h + 1) i n m' ∧ m'.type = m.type ∧ m'.form.children = [("lhs", l), ("rhs", r)] ∧
      t.HasType l target ∧ t.HasType r target := by
  have hl₀ : n.form.children.lookup "lhs" = some l₀ := by rw [hold]; rfl
  have hr₀ : n.form.children.lookup "rhs" = some r₀ := by rw [hold]; rfl
  have hne : "lhs" ≠ "rhs" := by decide
  simp only [Layout.promoteOperands, runs_bind, runs_updateForm] at hrun
  obtain ⟨l, _, hleft, l', u₁, hl, _, u₂, hset, r, _, hright, r', u₃, hr, hset'⟩ := hrun
  obtain ⟨l₁, r₁, hsides⟩ := hw.sides hold
  obtain ⟨rfl, rfl⟩ := runs_unique hleft (runs_sides hw.now hsides).1
  have hleftNow : m.form.children.lookup "lhs" = some l := by rw [hsides]; rfl
  have hrightNow : m.form.children.lookup "rhs" = some r₁ := by rw [hsides]; rfl
  obtain ⟨hw₁, hltype, -⟩ := hw.bring htree hn hl₀ hleftNow hl hset
  have hleftNow' : (m.reform (·.setChild "lhs" l')).form.children.lookup "lhs" = some l' := lookup_setChild_self hleftNow
  have hrightNow' : (m.reform (·.setChild "lhs" l')).form.children.lookup "rhs" = some r₁ :=
    lookup_setChild_of_ne hne.symm hrightNow
  obtain ⟨l₂, r₂, hsides'⟩ := hw₁.sides hold
  obtain ⟨rfl, rfl⟩ := eq_of_sides hsides' hleftNow' hrightNow'
  obtain ⟨rfl, rfl⟩ := runs_unique hright (runs_sides hw₁.now hsides').2
  obtain ⟨hw₂, hrtype, hothers⟩ := hw₁.bring htree hn hr₀ hrightNow' hr hset'
  obtain ⟨l₃, r₃, hsides''⟩ := hw₂.sides hold
  obtain ⟨rfl, rfl⟩ := eq_of_sides hsides'' (lookup_setChild_of_ne hne hleftNow') (lookup_setChild_self hrightNow')
  refine ⟨_, l', r', ⟨hw₂.toHandled, fun name o ho => ?_⟩, rfl, hsides'', ?_, hrtype⟩
  · obtain ⟨x, hx, hs⟩ := hw₂.filled name o ho
    refine ⟨x, hx, hs.mono ?_⟩
    split
    · rename_i hname
      rw [if_neg (by simp [hname])]
    · split
      · exact Nat.le_refl _
      · exact Nat.le_succ _
  · exact hltype.congr (hothers "lhs" l₀ l' hne hl₀ hleftNow')

/-- The children are promoted, and the type is that of the elements. -/
theorem resolved_working {w : Unit} {type : CType} (hv : Promotes visit h) (htree : IsTree s i) (hflat : Flat s i)
    (hn : s.node? i = some n) (hchildren : Runs (transformChildren visit i) s w u)
    (hresolve : Runs (Layout.resolveType i) u type v) :
    ∃ m, Working s v (fun _ => h) i n m ∧ m.type = some type ∧ n.type.map CType.resolved = some type ∧ type.IsElement ∧
      ∀ name o x, n.form.children.lookup name = some o → m.form.children.lookup name = some x → Seen s v o x := by
  obtain ⟨m, hw, htype, hseen⟩ := transformChildren_working hv htree hflat hn hchildren
  obtain ⟨a, ha, habsent, rfl, rfl⟩ := resolveType_spec hresolve
  rw [type?_of_node? hw.now, htype] at ha
  have helement := hflat.element ((type?_of_node? hn).trans ha) habsent
  refine ⟨_, hw.retype htree hn (some a.resolved), rfl, by rw [ha]; rfl, helement, fun name o x ho hx => ?_⟩
  obtain ⟨y, hy, hs⟩ := hw.filled name o ho
  cases hy.symm.trans hx
  exact (hseen name o x ho hx).later fun c hc => node?_alter.trans (if_neg (hs.apart htree hn ho c hc))

theorem Working.sees {height : String → Nat} {a : CType} (hw : Working s u height i n m)
    (ho : n.form.children.lookup name = some o) (hx : m.form.children.lookup name = some x) (hseen : Seen s u o x)
    (ha : u.TypeOf x a) : Sees s o (some a) := by
  obtain ⟨k, rfl, hk⟩ := ha
  obtain ⟨y, hy, hs⟩ := hw.filled name o ho
  cases hy.symm.trans hx
  obtain ⟨j, rfl⟩ := hs.promoted.eq_node
  rw [← hk]
  exact hseen j k rfl rfl

theorem Working.unlessPointer {operator : String} {type : CType} (hw : Working s u (fun _ => h) i n m)
    (htree : IsTree s i) (hn : s.node? i = some n) (hold : n.form.children = [("lhs", l₀), ("rhs", r₀)])
    (hsides : m.form.children = [("lhs", l), ("rhs", r)])
    (htarget : ∀ t l' r', (target.isPointer = true → t = u ∧ l' = l ∧ r' = r) → Target s t i operator l' r' type target)
    (hrun : Runs (do
      if !(← known target).isPointer then Layout.promoteOperands target i
      return Operand.node i) u o t) :
    o = .node i ∧ ∃ m' l' r', Working s t (fun _ => h + 1) i n m' ∧ m'.type = m.type ∧
      m'.form.children = [("lhs", l'), ("rhs", r')] ∧ SidesAgree s t i operator l' r' type := by
  obtain ⟨target', _, hknown, hrest⟩ := runs_bind.1 hrun
  have habsent := known_of_runs hknown
  obtain ⟨rfl, rfl⟩ := runs_known hknown
  split at hrest
  · rename_i hpointer
    obtain ⟨_, _, hoperands, hdone⟩ := runs_bind.1 hrest
    obtain ⟨rfl, rfl⟩ := runs_pure.1 hdone
    obtain ⟨m', l', r', hw', htype, hsides', hl, hr⟩ := hw.bringSides htree hn hold hoperands
    refine ⟨rfl, m', l', r', hw', htype, hsides', _, htarget _ l' r' fun hp => ?_, habsent, .inr ⟨hl, hr⟩⟩
    rw [hp] at hpointer
    cases hpointer
  · rename_i hpointer
    obtain ⟨rfl, rfl⟩ := runs_pure.1 hrest
    refine ⟨rfl, m, l, r, ⟨hw.toHandled, fun name o ho => ?_⟩, rfl, hsides, _,
      htarget _ l r fun _ => ⟨rfl, rfl, rfl⟩, habsent, .inl (by simpa using hpointer)⟩
    obtain ⟨x, hx, hs⟩ := hw.filled name o ho
    exact ⟨x, hx, hs.mono (Nat.le_succ h)⟩

theorem binary_working {operator : String} (hv : Promotes visit h) (htree : IsTree s i) (hflat : Flat s i)
    (hn : s.node? i = some n) (hold : n.form.children = [("lhs", l₀), ("rhs", r₀)])
    (hrun : Runs (do
      transformChildren visit i
      let type ← Layout.resolveType i
      let target ←
        if Layout.isComparison operator then Build.joinTypes (← leftOf (.node i)) (← rightOf (.node i)) else pure type
      if !(← known target).isPointer then Layout.promoteOperands target i
      return Operand.node i) s o t) :
    o = .node i ∧ ∃ m l r type, Working s t (fun _ => h + 1) i n m ∧ m.type = some type ∧
      n.type.map CType.resolved = some type ∧ type.IsElement ∧ m.form.children = [("lhs", l), ("rhs", r)] ∧
      SidesAgree s t i operator l r type := by
  obtain ⟨_, u, hchildren, hafter⟩ := runs_bind.1 hrun
  obtain ⟨type, v, hresolve, hrest⟩ := runs_bind.1 hafter
  obtain ⟨m, hw, htype, hresolved, helement, hseen⟩ := resolved_working hv htree hflat hn hchildren hresolve
  obtain ⟨l, r, hsides⟩ := hw.sides hold
  suffices hagree : o = .node i ∧ ∃ m' l' r', Working s t (fun _ => h + 1) i n m' ∧ m'.type = m.type ∧
      m'.form.children = [("lhs", l'), ("rhs", r')] ∧ SidesAgree s t i operator l' r' type by
    obtain ⟨rfl, m', l', r', hw', htype', hsides', hagree⟩ := hagree
    exact ⟨rfl, m', l', r', type, hw', htype'.trans htype, hresolved, helement, hsides', hagree⟩
  split at hrest
  · rename_i hcomparison
    obtain ⟨_, _, hleft, hnext⟩ := runs_bind.1 hrest
    obtain ⟨rfl, rfl⟩ := runs_unique (runs_sides hw.now hsides).1 hleft
    obtain ⟨_, _, hright, hcommon⟩ := runs_bind.1 hnext
    obtain ⟨rfl, rfl⟩ := runs_unique (runs_sides hw.now hsides).2 hright
    obtain ⟨target, _, hjoin, hsame⟩ := runs_bind.1 hcommon
    obtain ⟨a, b, ha, hb, hab, rfl⟩ := runs_joinTypes.1 hjoin
    have hl₀ : n.form.children.lookup "lhs" = some l₀ := by rw [hold]; rfl
    have hr₀ : n.form.children.lookup "rhs" = some r₀ := by rw [hold]; rfl
    have hl := congrArg (List.lookup "lhs") hsides
    have hr := congrArg (List.lookup "rhs") hsides
    refine hw.unlessPointer htree hn hold hsides (fun t l' r' hpointer => ?_) hsame
    rw [Target, if_pos hcomparison]
    refine ⟨n.form, l₀, r₀, a, b, form?_of_node? hn, hold, hw.sees hl₀ hl (hseen _ _ _ hl₀ hl) ha,
      hw.sees hr₀ hr (hseen _ _ _ hr₀ hr) hb, hab, fun hp => ?_⟩
    obtain ⟨rfl, rfl, rfl⟩ := hpointer hp
    exact ⟨ha, hb⟩
  · rename_i hcomparison
    obtain ⟨_, _, htarget, hsame⟩ := runs_bind.1 hrest
    obtain ⟨rfl, rfl⟩ := runs_pure.1 htarget
    exact hw.unlessPointer htree hn hold hsides (fun _ _ _ _ => by rw [Target, if_neg hcomparison]) hsame

/-! ### The nodes -/

theorem unop_promotes {operator : String} (hv : Promotes visit h) (htree : IsTree s i) (hflat : Flat s i)
    (hn : s.node? i = some n) (hform : n.form = .unop operator x)
    (hrun : Runs (do
      let type ← Layout.resolveType i
      let operand ← Build.promote type (← visit x)
      updateForm i (·.setChild "operand" operand)
      return Operand.node i) s o t) : o = .node i ∧ Outcome s t (h + 2) (.node i) (.node i) := by
  have hx : n.form.children.lookup "operand" = some x := by rw [hform]; rfl
  simp only [runs_bind, runs_updateForm, runs_pure] at hrun
  obtain ⟨type, u, hresolve, r, v, hvisit, y, w, hpromote, _, _, rfl, rfl, rfl⟩ := hrun
  obtain ⟨a, ha, habsent, rfl, rfl⟩ := resolveType_spec hresolve
  rw [type?_of_node? hn] at ha
  have helement := hflat.element ((type?_of_node? hn).trans ha) habsent
  have hchange : Rewrites (· = i) s (s.alter i fun n => { n with type := some a.resolved }) := .alter i fun _ _ => rfl
  have hsame : ∀ j, Under s x.ids j → (s.alter i fun n => { n with type := some a.resolved }).node? j = s.node? j := by
    intro j hj
    refine node?_alter.trans (if_neg ?_)
    rintro rfl
    exact htree.not_under (form?_of_node? hn) hx hj
  have hunder {j : NodeId} : Under (s.alter i fun n => { n with type := some a.resolved }) x.ids j ↔ Under s x.ids j :=
    under_congr fun j hj => form?_congr (hsame j hj)
  have hforest : Forest s x.ids := by
    refine ⟨fun c hc => ?_, fun c hc => ?_, ?_⟩
    · exact (htree.forest hflat hn).tree c (ids_of_lookup hx hc)
    · exact (htree.forest hflat hn).flat c (ids_of_lookup hx hc)
    · have hapart := (htree.forest hflat hn).apart
      rw [hform] at hapart
      simpa [Form.ids, Form.children] using hapart
  obtain ⟨-, hout⟩ := (hv hvisit).2 (hforest.congr hsame)
  have hstands : StandsFor s v h x r := hout.stands.earlier (fun j hj => (hsame j (hunder.1 hj)).symm) hchange.none_before
  have hheld : Handled s v i n { n with type := some a.resolved } := by
    refine ⟨(hchange.mono ?_).trans (hout.rewrites.mono ?_), ?_, ⟨[], rfl⟩, rfl, rfl⟩
    · rintro j rfl
      exact .refl
    · intro j hj
      exact (hunder.1 hj).child (form?_of_node? hn) hx
    · refine hout.rewrites.spared i _ ?_ fun hj => htree.not_under (form?_of_node? hn) hx (hunder.1 hj)
      rw [node?_alter, if_pos rfl, hn]
      rfl
  obtain ⟨hheld', hstands', htype, -⟩ := hheld.promote htree hn hx hstands hpromote
  have hw : Working s (w.alter i (Node.reform (·.setChild "operand" y))) (fun _ => h + 1) i n
      { n with form := n.form.setChild "operand" y, type := some a.resolved } := by
    refine hheld'.alter htree hn (g := Node.reform (·.setChild "operand" y)) ⟨[("operand", y)], rfl⟩ rfl rfl fun name o ho => ?_
    rw [hform] at ho
    obtain ⟨rfl, rfl⟩ : name = "operand" ∧ o = x := by simpa [Form.children] using mem_of_lookup ho
    exact ⟨y, lookup_setChild_self hx, hstands'⟩
  refine ⟨rfl, hw.finish hn (fun _ => Nat.le_refl _) (by simp [hform, Form.kindName]) ?_ ?_⟩
  · rw [if_pos (by rw [hform]; rfl), ha]
    rfl
  · simp only [Agrees, hform, Form.setChild, beq_self_eq_true, if_true]
    refine ⟨a.resolved, rfl, helement, htype.congr fun c hc => ?_⟩
    exact node?_alter.trans (if_neg (hstands'.apart htree hn hx c hc))

theorem binary_promotes {C : Operand → Operand → Form} {operator : String} (hC : TwoSided C) (hform : n.form = C l₀ r₀)
    (hoperation : n.form.isOperation = true)
    (hagrees : ∀ {t m l r type}, m.form = C l r → m.type = some type → type.IsElement →
      SidesAgree s t i operator l r type → Agrees s t i m)
    (hv : Promotes visit h) (htree : IsTree s i) (hflat : Flat s i) (hn : s.node? i = some n)
    (hrun : Runs (do
      transformChildren visit i
      let type ← Layout.resolveType i
      let target ←
        if Layout.isComparison operator then Build.joinTypes (← leftOf (.node i)) (← rightOf (.node i)) else pure type
      if !(← known target).isPointer then Layout.promoteOperands target i
      return Operand.node i) s o t) : o = .node i ∧ Outcome s t (h + 2) (.node i) (.node i) := by
  obtain ⟨rfl, m, l, r, type, hw, htype, hresolved, helement, hsides, hagree⟩ :=
    binary_working hv htree hflat hn (by rw [hform, hC.children]) hrun
  refine ⟨rfl, hw.finish hn (fun _ => Nat.le_refl _) ?_ ?_ ?_⟩
  · intro hkind
    rw [Form.isOperation, hkind] at hoperation
    simp at hoperation
  · rw [if_pos hoperation, hresolved, htype]
  · exact hagrees (hw.form_eq hC hform hsides) htype helement hagree

theorem assign_promotes {mayReorder : Datum} (hv : Promotes visit h) (htree : IsTree s i) (hflat : Flat s i)
    (hn : s.node? i = some n) (hform : n.form = .assign l₀ r₀ mayReorder)
    (hrun : Runs (do
      transformChildren visit i
      let _ ← Layout.resolveType i
      Layout.promoteOperands (← typeOf (← leftOf (.node i))) i
      return Operand.node i) s o t) : o = .node i ∧ Outcome s t (h + 2) (.node i) (.node i) := by
  have hold : n.form.children = [("lhs", l₀), ("rhs", r₀)] := by rw [hform]; rfl
  simp only [runs_bind, runs_pure] at hrun
  obtain ⟨_, u, hchildren, type, v, hresolve, x, _, hleft, target, _, htarget, _, _, hoperands, rfl, rfl⟩ := hrun
  obtain ⟨m, hw, htype, hresolved, helement, -⟩ := resolved_working hv htree hflat hn hchildren hresolve
  obtain ⟨l', r', hsides'⟩ := hw.sides hold
  obtain ⟨rfl, rfl⟩ := runs_unique (runs_sides hw.now hsides').1 hleft
  obtain ⟨_, -, -, rfl⟩ := runs_typeOf.1 htarget
  obtain ⟨m', l, r, hw', htype', hsides, ⟨left, hl, hleftSame⟩, ⟨right, hr, hrightSame⟩⟩ := hw.bringSides htree hn hold hoperands
  refine ⟨rfl, hw'.finish hn (fun _ => Nat.le_refl _) (by simp [hform, Form.kindName]) ?_ ?_⟩
  · rw [if_pos (by rw [hform]; rfl), hresolved, htype', htype]
  · rw [Agrees, hw'.form_eq (twoSided_assign mayReorder) hform hsides]
    refine ⟨type, left, htype'.trans htype, helement, hl, right, hr, ?_⟩
    exact (CType.same_congr hrightSame left).trans (CType.beq_symm hleftSame)

theorem agrees_of_not_operation (h : n.form.isOperation = false) : Agrees s t i n := by
  unfold Agrees
  split
  case h_5 => trivial
  all_goals
    rename_i hform
    rw [hform] at h
    cases h

theorem promoteNode_promotes (hv : Promotes visit h) (htree : IsTree s i) (hflat : Flat s i)
    (hrun : Runs (Layout.promoteNode visit i) s o t) : (∃ k, o = .node k) ∧ Outcome s t (h + 2) (.node i) o := by
  obtain ⟨n, s', hnode, hmatch⟩ := runs_bind.1 hrun
  obtain ⟨hn, rfl⟩ := runs_node.1 hnode
  split at hmatch
  · rename_i operator x hform
    obtain ⟨rfl, hout⟩ := unop_promotes hv htree hflat hn hform hmatch
    exact ⟨⟨i, rfl⟩, hout⟩
  · rename_i operator l₀ r₀ hform
    obtain ⟨rfl, hout⟩ := binary_promotes (twoSided_binop operator) hform (by rw [hform]; rfl)
      (fun hm htype helement hagree => by rw [Agrees, hm]; exact ⟨_, htype, helement, hagree⟩) hv htree hflat hn hmatch
    exact ⟨⟨i, rfl⟩, hout⟩
  · rename_i operator l₀ r₀ hform
    obtain ⟨rfl, hout⟩ := binary_promotes (twoSided_vectorBinop operator) hform (by rw [hform]; rfl)
      (fun hm htype helement hagree => by rw [Agrees, hm]; exact ⟨_, htype, helement, hagree⟩) hv htree hflat hn hmatch
    exact ⟨⟨i, rfl⟩, hout⟩
  · rename_i l₀ r₀ mayReorder hform
    obtain ⟨rfl, hout⟩ := assign_promotes hv htree hflat hn hform hmatch
    exact ⟨⟨i, rfl⟩, hout⟩
  · rename_i e name emitted data strides hform
    have hf := form?_of_node? hn
    have he : n.form.children.lookup "element" = some e := by rw [hform]; rfl
    have hforest := htree.forest hflat hn
    rw [hform] at hf hforest
    obtain ⟨⟨j, rfl⟩, hout⟩ := hv hmatch
    obtain ⟨⟨k, rfl⟩, hout⟩ := hout (by simpa [Form.ids, Form.children] using hforest)
    have hunder : ∀ c, Under s' (Operand.node j).ids c → Under s' (Operand.node i).ids c := fun c hc =>
      under_node.2 (hc.child (form?_of_node? hn) he)
    refine ⟨⟨k, rfl⟩, hout.rewrites.mono hunder, ⟨.element hf rfl (hout.stands.promoted.mono (by omega)), fun c hc => ?_⟩, ?_⟩
    · exact (hout.stands.reach c hc).imp_left (hunder c)
    · intro i' k' hi' hk'
      cases hi'
      exact .element hf rfl (hout.seen j k' rfl hk')
  · rename_i hunop hbinop hvectorBinop hassign helement
    have hplain : n.form.isOperation = false ∧ n.form.kindName ≠ "ResolvedVariable" := by
      generalize n.form = f at *
      cases f with
      | unop operator x => exact absurd rfl (hunop operator x)
      | binop operator l r => exact absurd rfl (hbinop operator l r)
      | vectorBinop operator l r => exact absurd rfl (hvectorBinop operator l r)
      | assign l r mayReorder => exact absurd rfl (hassign l r mayReorder)
      | var v =>
        obtain ⟨role, name, emitted, data, strides⟩ := v
        cases role with
        | element e => exact absurd rfl (helement e name emitted data strides)
        | _ => simp [Form.isOperation, Form.kindName]
      | _ => simp [Form.isOperation, Form.kindName]
    obtain ⟨_, _, hchildren, hdone⟩ := runs_bind.1 hmatch
    obtain ⟨rfl, rfl⟩ := runs_pure.1 hdone
    obtain ⟨m, hw, htype, -⟩ := transformChildren_working hv htree hflat hn hchildren
    obtain ⟨news, hnews⟩ := hw.form
    refine ⟨⟨i, rfl⟩, hw.finish hn (fun _ => Nat.le_succ h) hplain.2 ?_ ?_⟩
    · simpa [hplain.1] using htype
    · refine agrees_of_not_operation ?_
      rw [Form.isOperation, hnews, kindName_setChildren]
      exact hplain.1

theorem promoteWithin_promotes (depth : Nat) : Promotes (Layout.promoteWithin depth) (2 * depth) := by
  induction depth with
  | zero =>
    intro s o r t hrun
    cases runs_throw.1 hrun
  | succ depth ih =>
    intro s o r t hrun
    cases o with
    | node i =>
      refine ⟨⟨i, rfl⟩, fun hforest => ?_⟩
      exact promoteNode_promotes ih (hforest.tree i (.head _)) (hforest.flat i (.head _)) hrun
    | datum d => cases runs_throw.1 hrun
    | group os => cases runs_throw.1 hrun

/-- Every node of a promoted tree has operands of the types it asks for. -/
theorem Promoted.agrees (hp : Promoted s t h o r) {j : NodeId} (hj : Under t r.ids j) (hm : t.node? j = some m) :
    Agrees s t j m := by
  induction hp with
  | absent => exact absurd hj not_under_absent
  | nil => simp [under_group] at hj
  | cons _ _ ihd itl =>
    obtain ⟨x, hx, hj⟩ := under_group.1 hj
    rcases List.mem_cons.1 hx with rfl | hx
    · exact ihd hj
    · exact itl (under_group.2 ⟨x, hx, hj⟩)
  | element _ _ _ ih => exact ih hj
  | @wrapped h i j' k n hn hf hnew _ ih =>
    rcases (under_node.1 hj).cases_head with rfl | ⟨c, ⟨f, hf', hc⟩, hj⟩
    · cases hn.symm.trans hm
      exact agrees_of_not_operation (by rw [hf]; rfl)
    · rw [form?_of_node? hn, hf] at hf'
      cases hf'
      obtain rfl : c = j' := by simpa [Form.ids, Form.children, Operand.ids] using hc
      exact ih (under_node.2 hj)
  | node _ _ hn' hr ha hl _ ih =>
    rcases (under_node.1 hj).cases_head with rfl | ⟨c, ⟨f, hf', hc⟩, hj⟩
    · cases hn'.symm.trans hm
      exact ha
    · cases (form?_of_node? hn').symm.trans hf'
      obtain ⟨name, x, hx, hcx⟩ := exists_lookup_of_mem_ids hc
      obtain ⟨o, ho⟩ := hr.lookup hx
      cases hx.symm.trans (hl name o ho)
      exact ih name o ho ⟨c, hcx, hj⟩

/-- Promotion brings the operands of every operation to the types that they are to have and changes nothing else. A
second promotion changes nothing at all, and it ends if it may go deep enough. -/
theorem promotion_agrees {depth : Nat} (htree : IsTree s i) (hflat : Flat s i)
    (hrun : Runs (Layout.promoteWithin depth (.node i)) s o t) :
    ∃ k, o = .node k ∧ Promoted s t (2 * depth) (.node i) (.node k) ∧
      (∀ j m, Below t k j → t.node? j = some m → Agrees s t j m) ∧
      (∀ limit, 2 * depth ≤ limit → Runs (Layout.promoteWithin limit (.node k)) t (.node k) t) ∧
      ∀ limit o' t', Runs (Layout.promoteWithin limit (.node k)) t o' t' → o' = .node k ∧ t' = t := by
  have hforest : Forest s (Operand.node i).ids := by
    refine ⟨fun c hc => ?_, fun c hc => ?_, List.pairwise_singleton _ _⟩
    · obtain rfl := List.mem_singleton.1 hc
      exact htree
    · obtain rfl := List.mem_singleton.1 hc
      exact hflat
  obtain ⟨⟨k, rfl⟩, hout⟩ := (promoteWithin_promotes depth hrun).2 hforest
  have hpromoted := hout.stands.promoted
  refine ⟨k, rfl, hpromoted, fun j m hj hm => hpromoted.agrees (under_node.2 hj) hm, fun limit hlimit => ?_,
    fun limit o' t' hagain => ?_⟩
  · exact hpromoted.again hlimit
  · have hmore := Broadens.promoteWithin limit (2 * depth) (.node k) t o' t' hagain
    have hstays : Runs (Layout.promoteWithin (limit + 2 * depth) (.node k)) t (.node k) t :=
      hpromoted.again (Nat.le_add_left _ limit)
    exact runs_unique hmore hstays

theorem flat_of_nodes (h : ∀ n ∈ s.nodes.toList, ∀ type ∈ n.type, type.isArray = true → type.resolved.IsElement) :
    Flat s i := by
  intro j _ type htype
  obtain ⟨n, hn, hnt⟩ := Option.bind_eq_some_iff.1 htype
  exact h n (Array.mem_toList_iff.2 (Array.mem_of_getElem? hn)) type hnt

/-- The assignment `out = x + 1 < y`, where `x` is an element of an array of floats and `y` a double. -/
def comparing : Session where
  nodes :=
    let floats := CType.array CType.float32 1 false false false none
    #[{ form := .assign (.node ⟨1⟩) (.node ⟨2⟩) (.bool true), type := some .int32, position := .unknown },
      { form := .var { role := .plain, name := .ofString "out" }, type := some .int32, position := .unknown },
      { form := .binop "<" (.node ⟨3⟩) (.node ⟨4⟩), type := some .bool, position := .unknown },
      { form := .binop "+" (.node ⟨5⟩) (.node ⟨7⟩), type := some floats, position := .unknown },
      { form := .var { role := .plain, name := .ofString "y" }, type := some .float64, position := .unknown },
      { form := .var { role := .element (.node ⟨6⟩), name := .ofString "x" }, type := some floats, position := .unknown },
      { form := .var { role := .plain, name := .ofString "item" }, type := some .float32, position := .unknown },
      { form := .constant (.int 1), type := some .int32, position := .unknown }]

theorem comparison_agrees : IsTree comparing ⟨0⟩ ∧ Flat comparing ⟨0⟩ ∧
    ∃ o t, Runs (Layout.promoteWithin 5 (.node ⟨0⟩)) comparing o t ∧
      ∃ k, o = .node k ∧ Promoted comparing t 10 (.node ⟨0⟩) (.node k) ∧
        (∀ j m, Below t k j → t.node? j = some m → Agrees comparing t j m) ∧
        (∀ limit, 10 ≤ limit → Runs (Layout.promoteWithin limit (.node k)) t (.node k) t) ∧
        ∀ limit o' t', Runs (Layout.promoteWithin limit (.node k)) t o' t' → o' = .node k ∧ t' = t := by
  have htree : IsTree comparing ⟨0⟩ := isTree_of_nodup (by decide +kernel) (by decide +kernel) (by decide +kernel) (by decide)
  have hflat : Flat comparing ⟨0⟩ := flat_of_nodes (by decide +kernel)
  obtain ⟨o, t, hrun⟩ := exists_runs (a := Layout.promoteWithin 5 (.node ⟨0⟩)) (s := comparing) (by decide +kernel)
  exact ⟨htree, hflat, o, t, hrun, promotion_agrees htree hflat hrun⟩

end ArrayKernel.Ast
