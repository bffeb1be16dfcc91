import ArrayKernel.Ast.Clone
import ArrayKernel.Proofs.Heap

/-! # What a copy holds -/

namespace ArrayKernel.Ast

variable {s t : Session}
variable {n : Node} {ρ : NodeId → NodeId} {o : Operand} {size : Nat} {g : Found} {ids : Array NodeId}
variable {nodes : Array Node} {r : Operand}

/-! ## Renamed nodes -/

theorem rename_form (ρ : NodeId → NodeId) (n : Node) :
    (n.rename ρ).form = Id.run (n.form.traverse fun o => return o.rename ρ) := rfl

theorem constant_rename (ρ : NodeId → NodeId) {d : Datum} (h : n.form = .constant d) :
    (n.rename ρ).form = .constant d := by
  rw [rename_form, h]
  rfl

theorem yield_rename (h : (n.rename ρ).form = .yield o) : ∃ o', n.form = .yield o' ∧ o = o'.rename ρ := by
  rw [rename_form] at h
  cases hf : n.form with
  | yield o' =>
    rw [hf] at h
    cases h
    exact ⟨o', rfl, rfl⟩
  | _ =>
    rw [hf] at h
    cases h

theorem function_rename {f : Function} (h : (n.rename ρ).form = .function f) :
    ∃ g, n.form = .function g ∧ f.successValue = g.successValue.rename ρ := by
  rw [rename_form] at h
  cases hf : n.form with
  | function g =>
    rw [hf] at h
    cases h
    exact ⟨g, rfl, rfl⟩
  | _ =>
    rw [hf] at h
    cases h

theorem foreign_rename {text : String} {type : CType}
    (h : (n.rename ρ).form = .foreign text type) : n.form = .foreign text type := by
  rw [rename_form] at h
  cases hf : n.form with
  | foreign x y =>
    rw [hf] at h
    exact h
  | _ =>
    rw [hf] at h
    cases h

/-! ## Nodes that can be reached -/

def Found.Inside (size : Nat) (g : Found) : Prop := g.seen.size = size ∧ ∀ id ∈ g.ids, id.index < size

theorem Found.Inside.add (h : g.Inside size) (id : NodeId) : (g.add id).Inside size := by
  unfold Found.add
  split
  · rename_i hfalse
    have hlt := (Array.getElem?_eq_some_iff.1 hfalse).1
    refine ⟨by simpa using h.1, ?_⟩
    intro j hj
    rcases Array.mem_push.1 hj with hj | rfl
    · exact h.2 j hj
    · rw [← h.1]
      exact hlt
  · exact h

theorem Found.Inside.addAll (h : g.Inside size) (ids : List NodeId) : (ids.foldl Found.add g).Inside size := by
  induction ids generalizing g with
  | nil => exact h
  | cons id ids ih => exact ih (h.add id)

theorem Found.Inside.close (rounds start : Nat)
    (h : g.Inside size) : (Found.close nodes rounds start g).Inside size := by
  induction rounds generalizing start g with
  | zero => exact h
  | succ rounds ih =>
    unfold Found.close
    dsimp only
    split
    · exact h
    · exact ih _ (h.addAll _)

theorem reachable_lt {id : NodeId} (h : id ∈ reachable nodes o) : id.index < nodes.size := by
  have hstart : Found.Inside nodes.size { ids := #[], seen := Array.replicate nodes.size false } :=
    ⟨Array.size_replicate, by simp⟩
  exact ((hstart.addAll o.ids).close nodes.size 0).2 id h

/-! ## Copies -/

def copyPlaces (size : Nat) (ids : Array NodeId) : Array Nat :=
  ids.zipIdx.foldl (fun places (id, i) => places.set! id.index (size + i)) (Array.range size)

theorem copyPlaces_spec {k x : Nat} (h : (copyPlaces size ids)[k]? = some x) :
    x = k ∨ ∃ i id, ids[i]? = some id ∧ id.index = k ∧ x = size + i := by
  have hfold : ∀ (l : List (NodeId × Nat)) (places : Array Nat),
      (∀ k x, places[k]? = some x → x = k ∨ ∃ i id, ids[i]? = some id ∧ id.index = k ∧ x = size + i) →
      (∀ p ∈ l, ids[p.2]? = some p.1) →
      ∀ k x, (l.foldl (fun places p => places.set! p.1.index (size + p.2)) places)[k]? = some x →
        x = k ∨ ∃ i id, ids[i]? = some id ∧ id.index = k ∧ x = size + i := by
    intro l
    induction l with
    | nil => exact fun places hp _ => hp
    | cons p l ih =>
      intro places hp hl
      refine ih (places.set! p.1.index (size + p.2)) ?_ fun q hq => hl q (List.mem_cons_of_mem p hq)
      intro k x hx
      rw [Array.set!_eq_setIfInBounds, Array.getElem?_setIfInBounds] at hx
      split at hx
      · rename_i hk
        split at hx
        · cases hx
          exact .inr ⟨p.2, p.1, hl p (List.mem_cons_self ..), hk, rfl⟩
        · cases hx
      · exact hp k x hx
  have hstart : ∀ k x, (Array.range size)[k]? = some x →
      x = k ∨ ∃ i id, ids[i]? = some id ∧ id.index = k ∧ x = size + i := by
    intro k x hx
    obtain ⟨hk, rfl⟩ := Array.getElem?_eq_some_iff.1 hx
    exact .inl (by simp)
  have hmem : ∀ p ∈ ids.zipIdx.toList, ids[p.2]? = some p.1 := by
    intro p hp
    exact Array.mk_mem_zipIdx_iff_getElem?.1 (Array.mem_toList_iff.1 hp)
  unfold copyPlaces at h
  rw [← Array.foldl_toList] at h
  exact hfold _ _ hstart hmem k x h

def copyName (size : Nat) (ids : Array NodeId) (id : NodeId) : NodeId :=
  ⟨(copyPlaces size ids).getD id.index id.index⟩

theorem runs_clone (h : Runs (clone o) s r t) : ∃ ids : Array NodeId, (∀ id ∈ ids, id.index < s.nodes.size) ∧
      r = o.rename (copyName s.nodes.size ids) ∧
      t = { s with nodes := s.nodes ++ ids.filterMap fun id =>
        (s.nodes[id.index]?).map (·.rename (copyName s.nodes.size ids)) } := by
  obtain ⟨rfl, rfl⟩ := h
  exact ⟨reachable _ o, fun id hid => reachable_lt hid, rfl, rfl⟩

theorem copies_getElem? (hin : ∀ id ∈ ids, id.index < s.nodes.size) (ρ : NodeId → NodeId) (i : Nat) :
    (ids.filterMap fun id => (s.nodes[id.index]?).map (·.rename ρ))[i]?
      = (ids[i]?).bind fun id => (s.nodes[id.index]?).map (·.rename ρ) := by
  have hall : ∀ l : List NodeId, (∀ id ∈ l, id.index < s.nodes.size) → ∀ i : Nat,
      (l.filterMap fun id => (s.nodes[id.index]?).map (Node.rename ρ))[i]?
        = (l[i]?).bind fun id => (s.nodes[id.index]?).map (Node.rename ρ) := by
    intro l
    induction l with
    | nil =>
      intro _ i
      rfl
    | cons id l ih =>
      intro hl i
      have hid : id.index < s.nodes.size := hl id (List.mem_cons_self ..)
      have hsome : (s.nodes[id.index]?).map (Node.rename ρ) = some (s.nodes[id.index].rename ρ) := by
        rw [Array.getElem?_eq_getElem hid]
        rfl
      rw [List.filterMap_cons, hsome]
      cases i with
      | zero =>
        exact hsome.symm
      | succ i =>
        exact ih (fun j hj => hl j (List.mem_cons_of_mem id hj)) i
  have hlist := hall ids.toList (fun id hid => hin id (Array.mem_toList_iff.1 hid)) i
  rw [← Array.getElem?_toList, Array.toList_filterMap, hlist, Array.getElem?_toList]

structure Copied (s t : Session) (ρ : NodeId → NodeId) : Prop where
  old : ∀ id f, s.form? id = some f → t.form? id = some f
  new : ∀ id f, t.form? id = some f → s.form? id = some f ∨
    ∃ j n, s.node? j = some n ∧ f = (n.rename ρ).form
  name : ∀ id n, s.node? id = some n → ∃ f, t.form? (ρ id) = some f ∧ (f = n.form ∨ f = (n.rename ρ).form)
  settings : t.settings = s.settings

theorem copied_of_nodes (hin : ∀ id ∈ ids, id.index < s.nodes.size)
    (ht : t = { s with nodes := s.nodes ++ ids.filterMap fun id =>
      (s.nodes[id.index]?).map (·.rename (copyName s.nodes.size ids)) }) :
    Copied s t (copyName s.nodes.size ids) := by
  generalize hρ : copyName s.nodes.size ids = ρ at ht ⊢
  have hcopies := copies_getElem? hin ρ
  have hold : ∀ id n, s.node? id = some n → t.node? id = some n := by
    intro id n hn
    have hlt := node?_lt hn
    unfold Session.node? at hn ⊢
    rw [ht, Array.getElem?_append_left hlt]
    exact hn
  have hnew : ∀ i id n, ids[i]? = some id → s.node? id = some n →
      t.node? ⟨s.nodes.size + i⟩ = some (n.rename ρ) := by
    intro i id n hi hn
    unfold Session.node? at hn ⊢
    rw [ht, Array.getElem?_append_right (by simp), Nat.add_sub_cancel_left, hcopies, hi, Option.bind_some, hn]
    rfl
  refine ⟨?_, ?_, ?_, by rw [ht]⟩
  · intro id f hf
    obtain ⟨n, hn, rfl⟩ := node?_of_form? hf
    exact form?_of_node? (hold id n hn)
  · intro id f hf
    obtain ⟨n, hn, rfl⟩ := node?_of_form? hf
    by_cases hlt : id.index < s.nodes.size
    · obtain ⟨n', hn'⟩ := node?_of_lt hlt
      have hsame := hold id n' hn'
      rw [hn] at hsame
      cases hsame
      exact .inl (form?_of_node? hn')
    · unfold Session.node? at hn
      rw [ht, Array.getElem?_append_right (by omega), hcopies] at hn
      obtain ⟨j, -, hj⟩ := Option.bind_eq_some_iff.1 hn
      obtain ⟨n', hn', rfl⟩ := Option.map_eq_some_iff.1 hj
      exact .inr ⟨j, n', hn', rfl⟩
  · intro id n hn
    have hname : ρ id = ⟨(copyPlaces s.nodes.size ids).getD id.index id.index⟩ := by rw [← hρ]; rfl
    rw [hname, Array.getD_eq_getD_getElem?]
    cases hp : (copyPlaces s.nodes.size ids)[id.index]? with
    | none => exact ⟨n.form, form?_of_node? (hold id n hn), .inl rfl⟩
    | some x =>
      rcases copyPlaces_spec hp with rfl | ⟨i, j, hj, hji, rfl⟩
      · exact ⟨n.form, form?_of_node? (hold id n hn), .inl rfl⟩
      · have hid : j = id := by
          cases j
          cases id
          cases hji
          rfl
        subst hid
        exact ⟨_, form?_of_node? (hnew i j n hj hn), .inr rfl⟩

theorem clone_copies (h : Runs (clone o) s r t) : ∃ ρ, r = o.rename ρ ∧ Copied s t ρ := by
  obtain ⟨ids, hin, hr, ht⟩ := runs_clone h
  exact ⟨_, hr, copied_of_nodes hin ht⟩

theorem copyName_cases (size : Nat) (ids : Array NodeId) (id : NodeId) :
    copyName size ids id = id ∨ size ≤ (copyName size ids id).index := by
  unfold copyName
  rw [Array.getD_eq_getD_getElem?]
  cases hp : (copyPlaces size ids)[id.index]? with
  | none => exact .inl rfl
  | some x =>
    rcases copyPlaces_spec hp with rfl | ⟨i, j, -, -, rfl⟩
    · exact .inl rfl
    · exact .inr (Nat.le_add_right size i)

end ArrayKernel.Ast
