import ArrayKernel.Proofs.RelocatedCopy

/-! # A kernel on its own -/

namespace ArrayKernel.Ast

/-! ## What a search finds -/

/-- Each node that was found is among the nodes once, and has its mark. -/
structure Found.Listed (g : Found) : Prop where
  nodup : g.ids.toList.Nodup
  seen : ∀ id : NodeId, g.seen[id.index]? = some true ↔ id ∈ g.ids

section

variable {nodes : Array Node} {g : Found} {o : Operand} {id : NodeId} {start rounds : Nat}

theorem Found.Listed.add (h : g.Listed) (id : NodeId) : (g.add id).Listed := by
  unfold Found.add
  split
  · next hfalse =>
    have hlt : id.index < g.seen.size := (Array.getElem?_eq_some_iff.1 hfalse).1
    have hnew : id ∉ g.ids := by
      rw [← h.seen, hfalse]
      simp
    refine ⟨?_, fun j => ?_⟩
    · rw [Array.toList_push, List.nodup_append]
      refine ⟨h.nodup, List.nodup_singleton id, ?_⟩
      rintro a ha b hb rfl
      rw [List.mem_singleton] at hb
      exact hnew (hb ▸ Array.mem_toList_iff.1 ha)
    · rw [Array.set!_eq_setIfInBounds, Array.getElem?_setIfInBounds, Array.mem_push, ← h.seen]
      by_cases hj : id.index = j.index
      · have heq : j = id := by
          cases j
          cases id
          exact congrArg NodeId.mk hj.symm
        simp [heq, hlt]
      · have hne : j ≠ id := fun heq => hj (heq ▸ rfl)
        simp [hj, hne]
  · exact h

theorem Found.Listed.addAll (h : g.Listed) (ids : List NodeId) : (ids.foldl Found.add g).Listed := by
  induction ids generalizing g with
  | nil => exact h
  | cons id ids ih => exact ih (h.add id)

theorem Found.prefix_add (g : Found) (id : NodeId) : g.ids.toList <+: (g.add id).ids.toList := by
  unfold Found.add
  split
  · simp
  · exact List.prefix_rfl

theorem Found.prefix_addAll (g : Found) (ids : List NodeId) : g.ids.toList <+: (ids.foldl Found.add g).ids.toList := by
  induction ids generalizing g with
  | nil => exact List.prefix_rfl
  | cons id ids ih => exact (g.prefix_add id).trans (ih (g.add id))

theorem Found.Listed.mem_add (h : g.Listed) (hid : id.index < g.seen.size) : id ∈ (g.add id).ids := by
  unfold Found.add
  split
  · exact Array.mem_push_self
  · next hne =>
    rw [← h.seen, Array.getElem?_eq_getElem hid]
    rw [Array.getElem?_eq_getElem hid] at hne
    cases hs : g.seen[id.index] with
    | true => rfl
    | false => exact absurd (congrArg some hs) hne

theorem Found.size_seen_add (g : Found) (id : NodeId) : (g.add id).seen.size = g.seen.size := by
  unfold Found.add
  split <;> simp

theorem Found.Listed.mem_addAll (h : g.Listed) {ids : List NodeId} (hid : id ∈ ids)
    (hlt : id.index < g.seen.size) : id ∈ (ids.foldl Found.add g).ids := by
  induction ids generalizing g with
  | nil => cases hid
  | cons j ids ih =>
    rcases List.mem_cons.1 hid with rfl | hid
    · exact Array.mem_toList_iff.1
        (((g.add id).prefix_addAll ids).subset (Array.mem_toList_iff.2 (h.mem_add hlt)))
    · exact ih (h.add j) hid (by rw [Found.size_seen_add]; exact hlt)

theorem Found.size_seen_addAll (g : Found) (ids : List NodeId) : (ids.foldl Found.add g).seen.size = g.seen.size := by
  induction ids generalizing g with
  | nil => rfl
  | cons id ids ih => exact (ih (g.add id)).trans (g.size_seen_add id)

def Found.ClosedTo (nodes : Array Node) (g : Found) (start : Nat) : Prop :=
  ∀ i < start, ∀ id, g.ids[i]? = some id → ∀ r ∈ refs nodes id, r.index < g.seen.size → r ∈ g.ids

theorem Found.getElem?_next {i : Nat} (hi : i < g.ids.size) : (g.next nodes start).ids[i]? = g.ids[i]? := by
  obtain ⟨more, hmore⟩ := g.prefix_addAll ((g.ids.extract start g.ids.size).toList.flatMap (refs nodes))
  rw [← Array.getElem?_toList, ← Array.getElem?_toList, Found.next, ← hmore]
  exact List.getElem?_append_left hi

theorem Found.ClosedTo.next (hlisted : g.Listed) (h : g.ClosedTo nodes start) :
    (g.next nodes start).ClosedTo nodes g.ids.size := by
  intro i hi id hid r hr hlt
  rw [Found.getElem?_next hi] at hid
  rw [Found.next, Found.size_seen_addAll] at hlt
  by_cases hstart : i < start
  · exact Array.mem_toList_iff.1
      ((g.prefix_addAll _).subset (Array.mem_toList_iff.2 (h i hstart id hid r hr hlt)))
  · refine hlisted.mem_addAll (List.mem_flatMap.2 ⟨id, ?_, hr⟩) hlt
    rw [Array.mem_toList_iff, Array.mem_iff_getElem?]
    refine ⟨i - start, ?_⟩
    rw [Array.getElem?_extract, if_pos (by omega), Nat.add_sub_cancel' (Nat.le_of_not_lt hstart)]
    exact hid

theorem Found.closedTo_close (hlisted : g.Listed) (h : g.ClosedTo nodes start) (hrounds : g.unseen ≤ rounds) :
    (Found.close nodes rounds start g).ClosedTo nodes (Found.close nodes rounds start g).ids.size := by
  induction rounds generalizing start g with
  | zero =>
    intro i _ id _ r _ hlt
    have hnone : false ∉ g.seen := Array.count_eq_zero.1 (Nat.le_zero.1 hrounds)
    have hlt : r.index < g.seen.size := hlt
    refine (hlisted.seen r).1 ?_
    rw [Array.getElem?_eq_getElem hlt]
    cases hs : g.seen[r.index] with
    | true => rfl
    | false => exact absurd (hs ▸ Array.getElem_mem hlt) hnone
  | succ rounds ih =>
    have hnext := h.next hlisted
    have hunseen := g.unseen_next nodes start
    have hle := g.size_next_le nodes start
    rw [Found.close_succ]
    split
    · next hsame =>
      have hids : (g.next nodes start).ids = g.ids := by
        refine Array.toList_inj.1 ((g.prefix_addAll _).eq_of_length ?_).symm
        exact (beq_iff_eq.1 hsame).symm
      intro i hi id hid r hr hlt
      rw [← hids] at hid ⊢
      refine hnext i hi id hid r hr ?_
      rw [Found.next, Found.size_seen_addAll]
      exact hlt
    · next hne =>
      rw [beq_iff_eq] at hne
      exact ih (hlisted.addAll _) hnext (by omega)

theorem Found.listed_close (h : g.Listed) : (Found.close nodes rounds start g).Listed := by
  induction rounds generalizing start g with
  | zero => exact h
  | succ rounds ih =>
    rw [Found.close_succ]
    split
    · exact h
    · exact ih (h.addAll _)

theorem Found.prefix_close : g.ids.toList <+: (Found.close nodes rounds start g).ids.toList := by
  induction rounds generalizing start g with
  | zero => exact List.prefix_rfl
  | succ rounds ih =>
    rw [Found.close_succ]
    split
    · exact List.prefix_rfl
    · exact (g.prefix_addAll _).trans ih

theorem Found.size_seen_close : (Found.close nodes rounds start g).seen.size = g.seen.size := by
  induction rounds generalizing start g with
  | zero => rfl
  | succ rounds ih =>
    rw [Found.close_succ]
    split
    · rfl
    · rw [ih, Found.next, Found.size_seen_addAll]

theorem Found.listed_start : (Found.start nodes o).Listed := by
  refine Found.Listed.addAll ⟨List.nodup_nil, fun id => ?_⟩ o.ids
  simp [Array.getElem?_replicate]

theorem nodup_reachable : (reachable nodes o).toList.Nodup := (Found.listed_close Found.listed_start).nodup

theorem Found.size_seen_start : (Found.start nodes o).seen.size = nodes.size := by
  rw [Found.start, Found.size_seen_addAll, Array.size_replicate]

theorem mem_reachable_of_mem (hid : id ∈ o.ids) (hlt : id.index < nodes.size) : id ∈ reachable nodes o := by
  have hempty : Found.Listed { ids := #[], seen := Array.replicate nodes.size false } :=
    Found.listed_start (o := .group [])
  have hstart : id ∈ (Found.start nodes o).ids := hempty.mem_addAll hid (by simpa using hlt)
  exact Array.mem_toList_iff.1 (Found.prefix_close.subset (Array.mem_toList_iff.2 hstart))

theorem mem_reachable_of_refs {r : NodeId} (hid : id ∈ reachable nodes o) (hr : r ∈ refs nodes id)
    (hlt : r.index < nodes.size) : r ∈ reachable nodes o := by
  obtain ⟨i, hi⟩ := Array.mem_iff_getElem?.1 hid
  have hclosed : (Found.close nodes nodes.size 0 (Found.start nodes o)).ClosedTo nodes (reachable nodes o).size :=
    Found.closedTo_close Found.listed_start (fun i hi => absurd hi (Nat.not_lt_zero i)) (Found.unseen_start nodes o)
  refine hclosed i (Array.getElem?_eq_some_iff.1 hi).1 id hi r hr ?_
  rw [Found.size_seen_close, Found.size_seen_start]
  exact hlt

end

/-! ## Names of copies -/

def placeIn (ids : Array NodeId) (id : NodeId) : NodeId := ⟨ids.toList.idxOf id⟩

theorem copyName_of_mem {size : Nat} {ids : Array NodeId} {id : NodeId} (hnodup : ids.toList.Nodup)
    (hin : ∀ id ∈ ids, id.index < size) (hid : id ∈ ids) :
    copyName size ids id = ⟨size + (placeIn ids id).index⟩ := by
  have hfold : ∀ (l : List (NodeId × Nat)) (places : Array Nat), places.size = size →
      (l.foldl (fun places p => places.set! p.1.index (size + p.2)) places).size = size ∧
      ∀ k, (∃ p ∈ l, p.1.index = k) ∨ (∃ x, places[k]? = some x ∧ size ≤ x) → k < size →
        ∃ x, (l.foldl (fun places p => places.set! p.1.index (size + p.2)) places)[k]? = some x ∧
          size ≤ x := by
    intro l
    induction l with
    | nil =>
      intro places hsize
      refine ⟨hsize, ?_⟩
      rintro k (⟨p, hp, -⟩ | hx) _
      · cases hp
      · exact hx
    | cons p l ih =>
      intro places hsize
      obtain ⟨hsize', hrest⟩ := ih (places.set! p.1.index (size + p.2)) (by simp [hsize])
      refine ⟨hsize', fun k hk hlt => hrest k ?_ hlt⟩
      by_cases hpk : p.1.index = k
      · refine .inr ⟨size + p.2, ?_, Nat.le_add_right _ _⟩
        simp [hpk, hsize, hlt]
      · rcases hk with ⟨q, hq, hqk⟩ | hx
        · rcases List.mem_cons.1 hq with rfl | hq
          · exact absurd hqk hpk
          · exact .inl ⟨q, hq, hqk⟩
        · exact .inr (by simpa [hpk] using hx)
  obtain ⟨i, hi⟩ := Array.mem_iff_getElem?.1 hid
  have hpair : (id, i) ∈ ids.zipIdx.toList :=
    Array.mem_toList_iff.2 (Array.mk_mem_zipIdx_iff_getElem?.2 hi)
  obtain ⟨x, hx, hle⟩ := (hfold ids.zipIdx.toList (Array.range size) Array.size_range).2 id.index
    (.inl ⟨_, hpair, rfl⟩) (hin id hid)
  rw [Array.foldl_toList] at hx
  have hplace : (copyPlaces size ids)[id.index]? = some x := hx
  have hlt := hin id hid
  rcases copyPlaces_spec hplace with rfl | ⟨j, other, hj, hindex, rfl⟩
  · omega
  · have heq : other = id := by
      cases other
      cases id
      exact congrArg NodeId.mk hindex
    subst heq
    have hget : ids.toList[j]? = some other := by rw [Array.getElem?_toList, hj]
    obtain ⟨hjlt, hjget⟩ := List.getElem?_eq_some_iff.1 hget
    rw [copyName, Array.getD_eq_getD_getElem?, hplace, placeIn, ← hjget, hnodup.idxOf_getElem]
    rfl

/-! ## The session of a kernel -/

/-- No node of the session refers to a node that is not there, nor does the kernel. -/
structure Session.Whole (s : Session) (kernel : Operand) : Prop where
  kernel : ∀ id ∈ kernel.ids, id.index < s.nodes.size
  nodes : ∀ id n, s.node? id = some n → ∀ r ∈ n.references, r.index < s.nodes.size

theorem Session.whole_iff {s : Session} {kernel : Operand} : s.Whole kernel ↔
    (∀ id ∈ kernel.ids, id.index < s.nodes.size) ∧ ∀ n ∈ s.nodes, ∀ r ∈ n.references, r.index < s.nodes.size := by
  constructor
  · rintro ⟨hkernel, hnodes⟩
    refine ⟨hkernel, fun n hn => ?_⟩
    obtain ⟨i, hi⟩ := Array.mem_iff_getElem?.1 hn
    exact hnodes ⟨i⟩ n hi
  · rintro ⟨hkernel, hnodes⟩
    exact ⟨hkernel, fun id n hn => hnodes n (Array.mem_of_getElem? hn)⟩

instance (s : Session) (kernel : Operand) : Decidable (s.Whole kernel) := decidable_of_iff' _ Session.whole_iff

structure Session.Grown (s u : Session) : Prop where
  size : s.nodes.size ≤ u.nodes.size
  nodes : ∀ i < s.nodes.size, u.nodes[i]? = s.nodes[i]?
  settings : u.settings = s.settings

def Session.Calls (s : Session) (name : String) : Prop :=
  ∃ id n f, s.node? id = some n ∧ n.form = .function f ∧ f.name.display = name

variable {s u : Session} {kernel : Operand} {scheme : Layout.Scheme}

theorem Session.Whole.corresponds (hw : s.Whole kernel) (hg : s.Grown u) :
    Corresponds s.nodes u.nodes (fun id => id.index < s.nodes.size) id where
  inj _ _ _ _ h := h
  step id hid r hr := by
    unfold refs at hr
    split at hr
    · next n hn => exact hw.nodes id n hn r hr
    · cases hr
  refs i hi := by
    rw [List.map_id, id, refs, refs, hg.nodes i.index hi]

theorem Session.Grown.reachable (hg : s.Grown u) (hw : s.Whole kernel) :
    reachable u.nodes kernel = reachable s.nodes kernel := by
  have hmap := reachable_map (hw.corresponds hg) hg.size
    (fun id hid => ⟨fun _ => hid, fun _ => Nat.lt_of_lt_of_le hid hg.size⟩) hw.kernel (List.map_id _).symm
  rw [hmap, Array.map_id]

def firstSpecializer (scheme : Layout.Scheme) (builder : Nat) : Specializer :=
  { scheme, name := scheme.name, builder, indices := if scheme.isContiguous then none else some [] }

def excerpt (s : Session) (kernel : Operand) (scheme : Layout.Scheme) : Session :=
  { nodes := copies s.nodes (reachable s.nodes kernel) (placeIn (reachable s.nodes kernel))
    settings := s.settings
    specializers := #[firstSpecializer scheme 0] }

def excerptKernel (s : Session) (kernel : Operand) : Operand :=
  kernel.rename (placeIn (reachable s.nodes kernel))

def prepared (u : Session) (kernel : Operand) (scheme : Layout.Scheme) : Session :=
  withCopy { u with
    builders := u.builders.push {}
    builder := u.builders.size
    specializers := u.specializers.push (firstSpecializer scheme u.builders.size) } kernel

theorem Frame.Node.of_moved {E : Frame} {n : Ast.Node}
    (h : ∀ f, n.form = .function f → E.called f.name.display) : E.Node n (n.moved E.name) := by
  obtain ⟨form, type, x, k⟩ := n
  refine ⟨form.moved E.name, ?_, rfl⟩
  cases form
  case constant d => exact .constant (.same d)
  case function f => exact .function (.moved (.refl f.emitted) rfl (h f rfl))
  all_goals exact .other _ rfl

theorem Session.Grown.copyName {id : NodeId} (hg : s.Grown u) (hid : id ∈ Ast.reachable s.nodes kernel) :
    copyName u.nodes.size (Ast.reachable s.nodes kernel) id =
      ⟨u.nodes.size + (placeIn (Ast.reachable s.nodes kernel) id).index⟩ :=
  copyName_of_mem nodup_reachable (fun _ h => Nat.lt_of_lt_of_le (reachable_lt h) hg.size) hid

theorem prepared_holds (hw : s.Whole kernel) (hg : s.Grown u) :
    Frame.Holds ⟨u, s.Calls⟩ (excerpt s kernel scheme) (prepared u kernel scheme) := by
  have hids : Ast.reachable u.nodes kernel = Ast.reachable s.nodes kernel := hg.reachable hw
  have hin : ∀ id ∈ Ast.reachable s.nodes kernel, id.index < s.nodes.size := fun _ h => reachable_lt h
  have hin' : ∀ id ∈ Ast.reachable s.nodes kernel, id.index < u.nodes.size :=
    fun id h => Nat.lt_of_lt_of_le (hin id h) hg.size
  have hnodes : (prepared u kernel scheme).nodes = u.nodes ++ copies u.nodes (Ast.reachable s.nodes kernel)
      (Ast.copyName u.nodes.size (Ast.reachable s.nodes kernel)) := by
    unfold prepared withCopy copyOf
    rw [hids]
  refine ⟨?_, ?_, ?_, hg.settings, rfl, ?_, rfl, ?_, rfl⟩
  · rw [hnodes, Array.size_append, size_copies hin', excerpt, size_copies hin]
  · intro i hi
    rw [hnodes, Array.getElem?_append_left hi]
  · intro i n hn
    rw [Session.node?, excerpt, copies, copies_getElem? hin] at hn
    obtain ⟨id, hid, hn⟩ := Option.bind_eq_some_iff.1 hn
    obtain ⟨m, hm, rfl⟩ := Option.map_eq_some_iff.1 hn
    have hmem := Array.mem_of_getElem? hid
    have hm' : u.nodes[id.index]? = some m := by rw [hg.nodes _ (hin id hmem), hm]
    refine ⟨m.rename (Ast.copyName u.nodes.size (Ast.reachable s.nodes kernel)), ?_, ?_⟩
    · rw [Session.node?, hnodes]
      show (u.nodes ++ _)[u.nodes.size + i.index]? = _
      rw [getElem?_append_size, copies, copies_getElem? hin', hid, Option.bind_some, hm', Option.map_some]
    · rw [Node.rename_eq_moved, Node.rename_eq_moved]
      have hcopy : m.moved (Ast.copyName u.nodes.size (Ast.reachable s.nodes kernel)) =
          (m.moved (placeIn (Ast.reachable s.nodes kernel))).moved (Frame.name ⟨u, s.Calls⟩) := by
        rw [Node.moved_moved]
        refine Node.moved_congr fun r hr => hg.copyName ?_
        refine mem_reachable_of_refs hmem ?_ (hw.nodes id m hm r hr)
        rw [refs, hm]
        exact hr
      rw [hcopy]
      refine .of_moved fun f hf => ?_
      obtain ⟨g, hg, rfl⟩ := Form.function_of_moved hf
      exact ⟨id, m, g, hm, hg, rfl⟩
  · exact Array.push_eq_append
  · refine Array.push_eq_append.trans (congrArg (u.specializers ++ ·) ?_)
    cases hc : scheme.isContiguous <;> simp [excerpt, firstSpecializer, Frame.specializer, hc]

theorem excerptKernel_moved (hw : s.Whole kernel) (hg : s.Grown u) :
    kernel.rename (copyOf u kernel) = Frame.operand ⟨u, s.Calls⟩ (excerptKernel s kernel) := by
  rw [copyOf, hg.reachable hw, Frame.operand, excerptKernel, Operand.rename_rename]
  exact Operand.rename_congr fun id hid => hg.copyName (mem_reachable_of_mem hid (hw.kernel id hid))

end ArrayKernel.Ast
