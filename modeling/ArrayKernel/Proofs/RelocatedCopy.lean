import ArrayKernel.Proofs.References
import ArrayKernel.Proofs.RelocatedGraph

/-! # Copies inside another session -/

namespace ArrayKernel.Ast

variable {E : Frame} {s t w v : Session}
variable {ids : Array NodeId} {n n' : Ast.Node} {ρ ρ' : NodeId → NodeId}

/-! ## Where copies go -/

def copies (nodes : Array Node) (ids : Array NodeId) (ρ : NodeId → NodeId) : Array Node :=
  ids.filterMap fun id => (nodes[id.index]?).map (·.rename ρ)

def copyOf (s : Session) (o : Operand) : NodeId → NodeId := copyName s.nodes.size (reachable s.nodes o)

def withCopy (s : Session) (o : Operand) : Session :=
  { s with nodes := s.nodes ++ copies s.nodes (reachable s.nodes o) (copyOf s o) }

theorem runs_clone_iff {o r : Operand} : Runs (clone o) s r t ↔ r = o.rename (copyOf s o) ∧ t = withCopy s o := by
  rw [clone, runs_get_bind, runs_set_bind, runs_pure]
  rfl

theorem size_copies (hin : ∀ id ∈ ids, id.index < s.nodes.size) (ρ : NodeId → NodeId) :
    (copies s.nodes ids ρ).size = ids.size := by
  have hget := copies_getElem? hin ρ
  have hsome : ∀ i : Nat, (copies s.nodes ids ρ)[i]? = none ↔ ids[i]? = none := by
    intro i
    rw [copies, hget]
    cases hi : ids[i]? with
    | none => simp
    | some id =>
      have hlt := hin id (Array.mem_of_getElem? hi)
      simp [Array.getElem?_eq_getElem hlt]
  simp only [Array.getElem?_eq_none_iff] at hsome
  exact Nat.le_antisymm ((hsome ids.size).2 (Nat.le_refl _)) ((hsome _).1 (Nat.le_refl _))

theorem copyName_map (ids : Array NodeId) (d size : Nat) (ρ : NodeId → NodeId) (hρ : ∀ id, (ρ id).index = d + id.index)
    (id : NodeId) : copyName (d + size) (ids.map ρ) (ρ id) = ⟨d + (copyName size ids id).index⟩ := by
  have hfold : ∀ (l : List (NodeId × Nat)) (places places' : Array Nat),
      (∀ k, places'[d + k]? = (places[k]?).map (d + ·)) →
      ∀ k, ((l.map fun p => (ρ p.1, p.2)).foldl
          (fun places p => places.set! p.1.index (d + size + p.2)) places')[d + k]? =
        ((l.foldl (fun places p => places.set! p.1.index (size + p.2)) places)[k]?).map (d + ·) := by
    intro l
    induction l with
    | nil => exact fun _ _ h => h
    | cons p l ih =>
      intro places places' h
      refine ih _ _ fun k => ?_
      simp only [Array.set!_eq_setIfInBounds, Array.getElem?_setIfInBounds, hρ, Nat.add_left_cancel_iff]
      split
      · next hk =>
        have hlt : (d + p.1.index < places'.size) ↔ p.1.index < places.size := by
          have hp := h p.1.index
          by_cases hx : p.1.index < places.size
          · rw [Array.getElem?_eq_getElem hx] at hp
            exact ⟨fun _ => hx, fun _ => (Array.getElem?_eq_some_iff.1 hp).1⟩
          · rw [Array.getElem?_eq_none (Nat.le_of_not_lt hx)] at hp
            exact ⟨fun hlt => absurd (Array.getElem?_eq_none_iff.1 hp) (Nat.not_le_of_lt hlt), fun h => absurd h hx⟩
        simp only [hlt]
        split
        · simp [Nat.add_assoc]
        · rfl
      · exact h k
  have hstart : ∀ k, (Array.range (d + size))[d + k]? = ((Array.range size)[k]?).map (d + ·) := by
    intro k
    by_cases hk : k < size
    · simp [hk]
    · simp [hk]
  have hplaces : (copyPlaces (d + size) (ids.map ρ))[d + id.index]? = ((copyPlaces size ids)[id.index]?).map (d + ·) := by
    unfold copyPlaces
    rw [← Array.foldl_toList, ← Array.foldl_toList, Array.zipIdx_map, Array.toList_map]
    exact hfold ids.zipIdx.toList _ _ hstart id.index
  unfold copyName
  rw [hρ, Array.getD_eq_getD_getElem?, Array.getD_eq_getD_getElem?, hplaces]
  cases (copyPlaces size ids)[id.index]? <;> rfl

/-! ## Copies of moved nodes -/

theorem Frame.Node.rename (h : E.Node n n')
    (hρ : ∀ id, ρ' (E.name id) = E.name (ρ id)) : E.Node (n.rename ρ) (n'.rename ρ') := by
  have hcomp : (fun id => ρ' (E.name id)) = fun id => E.name (ρ id) := funext hρ
  obtain ⟨form, type, x, k⟩ := n
  obtain ⟨f, hf, rfl⟩ := h
  rw [Node.rename_eq_moved, Node.rename_eq_moved]
  have hmarks : (k.moved E.name).moved ρ' = (k.moved ρ).moved E.name := by
    rw [Marks.moved_moved, Marks.moved_moved, hcomp]
  refine ⟨f.moved ρ', ?_, by simp only [Node.moved, hmarks]⟩
  cases hf with
  | constant h => exact .constant h
  | function h =>
    obtain ⟨he, hs, hcalled⟩ := h
    rename_i g emitted specializer
    have hmoved : ((Ast.Form.function g).moved ρ).moved E.name = ((Ast.Form.function g).moved E.name).moved ρ' := by
      rw [Ast.Form.moved_moved, Ast.Form.moved_moved, hcomp]
    have hfun : ({ g.moved E.name with emitted, specializer } : Ast.Function).moved ρ' =
        { (g.moved ρ).moved E.name with emitted, specializer } := by
      rw [Ast.Form.function.inj hmoved]
      rfl
    refine .function ?_
    rw [hfun]
    exact .moved he hs hcalled
  | other f h =>
    rw [Ast.Form.moved_moved, hcomp, ← Ast.Form.moved_moved]
    refine .other _ ?_
    cases form
    case constant => cases h
    case function => cases h
    all_goals rfl

theorem Frame.Node.references (h : E.Node n n') : n'.references = n.references.map E.name := by
  obtain ⟨form, type, x, k⟩ := n
  obtain ⟨f, hf, rfl⟩ := h
  rw [← Node.references_moved]
  cases hf with
  | constant h => rfl
  | function h =>
    cases h
    rw [Node.references_eq, Node.references_eq]
    rfl
  | other f h => rfl

theorem refs_nodes (s : Session) (i : NodeId) : refs s.nodes i = match s.node? i with
    | some n => n.references
    | none => [] := rfl

theorem Frame.Holds.corresponds (h : E.Holds w v) : Corresponds w.nodes v.nodes (fun _ => True) E.name where
  inj _ _ _ _ := Frame.name_inj
  step _ _ _ _ := trivial
  refs id _ := by
    rw [refs_nodes, refs_nodes]
    cases hn : w.node? id with
    | none => rw [h.node?_none hn]; rfl
    | some n =>
      obtain ⟨n', hn', hrel⟩ := h.node id n hn
      rw [hn']
      exact hrel.references

theorem Frame.Holds.reachable (h : E.Holds w v) (o : Operand) :
    reachable v.nodes (E.operand o) = (reachable w.nodes o).map E.name := by
  refine reachable_map h.corresponds ?_ ?_ (fun _ _ => trivial) o.ids_rename
  · rw [h.size]
    exact Nat.le_add_left _ _
  · intro id _
    rw [h.size, Frame.name, Nat.add_lt_add_iff_left]

theorem Frame.Holds.copyName (h : E.Holds w v) (ids : Array NodeId) (id : NodeId) :
    copyName v.nodes.size (ids.map E.name) (E.name id) = E.name (copyName w.nodes.size ids id) := by
  rw [h.size]
  exact copyName_map ids _ _ E.name (fun _ => rfl) id

theorem Frame.Holds.extend (h : E.Holds w v) {new new' : Array Ast.Node} (hsize : new'.size = new.size)
    (hnew : ∀ (i : Nat) n, new[i]? = some n → ∃ n', new'[i]? = some n' ∧ E.Node n n') :
    E.Holds { w with nodes := w.nodes ++ new } { v with nodes := v.nodes ++ new' } where
  size := by rw [Array.size_append, Array.size_append, h.size, hsize, Nat.add_assoc]
  before i hi := by
    rw [← h.before i hi]
    exact Array.getElem?_append_left (by rw [h.size]; omega)
  node id n hn := by
    unfold Session.node? at hn ⊢
    by_cases hlt : id.index < w.nodes.size
    · have hlt' : (E.name id).index < v.nodes.size := by
        rw [h.size]
        exact Nat.add_lt_add_left hlt _
      rw [Array.getElem?_append_left hlt] at hn
      rw [Array.getElem?_append_left hlt']
      exact h.node id n hn
    · obtain ⟨i, hi⟩ := Nat.exists_eq_add_of_le (Nat.le_of_not_lt hlt)
      have hi' : (E.name id).index = v.nodes.size + i := by rw [h.size, Frame.name, hi, Nat.add_assoc]
      rw [hi, getElem?_append_size] at hn
      rw [hi', getElem?_append_size]
      exact hnew i n hn
  settings := h.settings
  kept := h.kept
  builders := h.builders
  builder := h.builder
  specializers := h.specializers
  functions := h.functions

theorem Frame.Holds.copies (h : E.Holds w v) (hin : ∀ id ∈ ids, id.index < w.nodes.size) (hρ : ∀ id, ρ' (E.name id) = E.name (ρ id)) :
    E.Holds { w with nodes := w.nodes ++ copies w.nodes ids ρ }
      { v with nodes := v.nodes ++ copies v.nodes (ids.map E.name) ρ' } := by
  have hin' : ∀ id ∈ ids.map E.name, id.index < v.nodes.size := by
    intro id hid
    obtain ⟨j, hj, rfl⟩ := Array.mem_map.1 hid
    rw [h.size, Frame.name]
    exact Nat.add_lt_add_left (hin j hj) _
  refine h.extend ?_ fun i n hi => ?_
  · rw [size_copies hin', size_copies hin, Array.size_map]
  · rw [Ast.copies, copies_getElem? hin] at hi
    obtain ⟨id, hid, hn⟩ := Option.bind_eq_some_iff.1 hi
    obtain ⟨m, hm, rfl⟩ := Option.map_eq_some_iff.1 hn
    obtain ⟨m', hm', hrel⟩ := h.node id m hm
    refine ⟨m'.rename ρ', ?_, hrel.rename hρ⟩
    have hm'' : v.nodes[(E.name id).index]? = some m' := hm'
    rw [Ast.copies, copies_getElem? hin', Array.getElem?_map, hid, Option.map_some, Option.bind_some, hm'']
    rfl

theorem moves_clone {E : Guard} (o : Operand) : Moves E E.operand (clone o) (clone (E.operand o)) := by
  have hstep : ∀ {w v : Session}, E.Holds w v →
      (E.operand o).rename (copyOf v (E.operand o)) = E.operand (o.rename (copyOf w o)) ∧
      E.Holds (withCopy w o) (withCopy v (E.operand o)) := by
    intro w v h
    have hname := h.copyName (reachable w.nodes o)
    unfold withCopy copyOf
    rw [h.reachable]
    refine ⟨?_, h.copies (fun id hid => reachable_lt hid) hname⟩
    rw [Frame.operand, Frame.operand, Operand.rename_rename, Operand.rename_rename]
    exact Operand.rename_congr fun id _ => hname id
  refine tracks_action (fun hg _ hr K hK => ?_) (fun hp hr => ?_) (fun hp hr => ?_)
  on_goal 1 =>
    obtain ⟨ρ, -, hc⟩ := clone_copies hr
    exact ⟨K.copied (hg K hK).holds hc, hc.stays⟩
  all_goals
    obtain ⟨rfl, rfl⟩ := runs_clone_iff.1 hr
    exact ⟨_, _, runs_clone_iff.2 ⟨rfl, rfl⟩, (hstep hp).1, (hstep hp).2⟩

end ArrayKernel.Ast
