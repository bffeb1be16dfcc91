import ArrayKernel.Ast.Traversal
import ArrayKernel.Proofs.Building
import ArrayKernel.Proofs.Stateful

/-!
# What a traversal does

`transformChildren` visits the child positions of a node one after the other and then puts the results in
place. `Visits` lists the visits of a successful run in order, so that what a pass keeps follows by
induction over them.
-/

namespace ArrayKernel.Ast

variable {s t : Session} {name : String} {f : Form} {o r : Operand}
variable {os : List Operand} {k : Nat} {news : List (String × Operand)}

/-! ## Sides -/

theorem runs_sideOf {side : Operand → Action Operand} {l : Operand} {id : NodeId} (hside : side = leftOf ∨ side = rightOf)
    (h : Runs (side (.node id)) s l t) : t = s ∧ ∃ n, s.node? id = some n ∧ ∀ c ∈ l.ids, c ∈ n.form.ids := by
  rcases hside with rfl | rfl
  all_goals
    simp only [leftOf, rightOf, runs_bind, runs_nodeOf] at h
    obtain ⟨n, _, ⟨_, hid, hn, rfl⟩, h⟩ := h
    cases hid
    split at h
    all_goals first | cases runs_throw.1 h | obtain ⟨rfl, rfl⟩ := runs_pure.1 h
    all_goals exact ⟨rfl, n, hn, fun c hc => by simp_all [Form.ids, Form.children]⟩

/-! ## Sessions that differ in positions only -/

def Node.seen (b : Bool) (n : Node) : Node := { n with marks := { n.marks with isSpecialized := b } }

/-- Sessions that differ at most in the positions of builders and in which nodes a pass has seen. -/
structure Alike (s t : Session) : Prop where
  size : t.nodes.size = s.nodes.size
  node? : ∀ {id n}, s.node? id = some n → ∃ b, t.node? id = some (n.seen b)
  settings : t.settings = s.settings
  specializers : t.specializers = s.specializers

theorem Alike.of_nodes (hn : t.nodes = s.nodes) (hs : t.settings = s.settings)
    (hp : t.specializers = s.specializers) : Alike s t where
  size := by rw [hn]
  node? {id n} h := ⟨n.marks.isSpecialized, by rw [Session.node?, hn]; exact h⟩
  settings := hs
  specializers := hp

theorem Alike.refl (s : Session) : Alike s s := .of_nodes rfl rfl rfl

theorem Alike.trans {u : Session} (h : Alike s t) (h' : Alike t u) : Alike s u where
  size := h'.size.trans h.size
  node? hn := by
    obtain ⟨b, hb⟩ := h.node? hn
    obtain ⟨b', hb'⟩ := h'.node? hb
    exact ⟨b', hb'⟩
  settings := h'.settings.trans h.settings
  specializers := h'.specializers.trans h.specializers

theorem Alike.bind_node? {β : Type} {g : Node → Option β} (h : Alike s t) (hg : ∀ n b, g (n.seen b) = g n) (id : NodeId) :
    (t.node? id).bind g = (s.node? id).bind g := by
  by_cases hlt : id.index < s.nodes.size
  · obtain ⟨n, hn⟩ := node?_of_lt hlt
    obtain ⟨b, hb⟩ := h.node? hn
    rw [hb, hn, Option.bind_some, Option.bind_some, hg]
  · have hs : s.node? id = none := Array.getElem?_eq_none (Nat.not_lt.1 hlt)
    have ht : t.node? id = none := Array.getElem?_eq_none (by rw [h.size]; exact Nat.not_lt.1 hlt)
    rw [hs, ht]

theorem Alike.form? (h : Alike s t) (id : NodeId) : t.form? id = s.form? id := by
  rw [Session.form?, Session.form?, Option.map_eq_bind, Option.map_eq_bind, h.bind_node? fun _ _ => rfl]

theorem Alike.type? (h : Alike s t) (id : NodeId) : t.type? id = s.type? id := h.bind_node? (fun _ _ => rfl) id

def Session.moveTo (s : Session) (x : Position) : Session :=
  { s with builders := s.builders.modify s.builder fun b => { b with position := x } }

def Session.see (s : Session) : Operand → Session
  | .node id => s.alter id (Node.seen true)
  | _ => s

theorem moveTo_alike (s : Session) (x : Position) : Alike s (s.moveTo x) := .of_nodes rfl rfl rfl

theorem see_alike (s : Session) (o : Operand) : Alike s (s.see o) := by
  cases o with
  | node id =>
    refine ⟨size_alter, fun {j n} hn => ?_, rfl, rfl⟩
    rw [Session.see, node?_alter, hn]
    split
    · exact ⟨true, rfl⟩
    · exact ⟨n.marks.isSpecialized, rfl⟩
  | _ => exact .refl s

section

variable {m : Type → Type} [Monad m] [MonadLiftT Action m] [MonadExceptOf Fault m]
variable {σ : Type} [S : Stateful m σ] {p q : σ} {id : NodeId} {names : List String}
variable {visit : Operand → m Operand}

open Stateful

/-! ## Visits -/

/-- Visits of operands one after the other: the operands, and what they gave. -/
inductive VisitsAll (visit : Operand → m Operand) : List Operand → σ → List Operand → σ → Prop where
  | nil (p : σ) : VisitsAll visit [] p [] p
  | cons {o r : Operand} {os rs : List Operand} {p p' q : σ} (h : Ends (visit o) p r p')
    (hs : VisitsAll visit os p' rs q) : VisitsAll visit (o :: os) p (r :: rs) q

/-- Visits of the named positions of a node: each position is read when its turn comes. Gives what is to be
put into the positions. -/
inductive Visits (visit : Operand → m Operand) (id : NodeId) :
    List String → σ → List (String × Operand) → σ → Prop where
  | nil (p : σ) : Visits visit id [] p [] p
  | none {name : String} {names : List String} {f : Form} {news : List (String × Operand)} {p q : σ}
    (hf : (S.session p).form? id = some f)
    (hl : f.children.lookup name = none ∨ f.children.lookup name = some .absent)
    (h : Visits visit id names p news q) : Visits visit id (name :: names) p news q
  | one {name : String} {names : List String} {f : Form} {news : List (String × Operand)} {o r : Operand}
    {p p' q : σ} (hf : (S.session p).form? id = some f) (hl : f.children.lookup name = some o)
    (hv : Ends (visit o) p r p') (hr : ∀ items, r ≠ .group items)
    (h : Visits visit id names p' news q) : Visits visit id (name :: names) p ((name, r) :: news) q
  | many {name : String} {names : List String} {f : Form} {news : List (String × Operand)}
    {os rs : List Operand} {p p' q : σ} (hf : (S.session p).form? id = some f)
    (hl : f.children.lookup name = some (.group os)) (hv : VisitsAll visit os p rs p')
    (h : Visits visit id names p' news q) :
    Visits visit id (name :: names) p ((name, .group (flattened rs)) :: news) q

end

theorem mem_of_lookup {α : Type} {xs : List (String × α)} {x : α}
    (h : xs.lookup name = some x) : (name, x) ∈ xs := by
  induction xs with
  | nil => simp at h
  | cons y ys ih =>
    obtain ⟨k, v⟩ := y
    rw [List.lookup_cons] at h
    split at h
    · obtain rfl : v = x := by simpa using h
      obtain rfl : name = k := by simpa using ‹(name == k) = true›
      exact List.mem_cons_self
    · exact List.mem_cons_of_mem _ (ih h)

theorem ids_of_lookup (h : f.children.lookup name = some o) {c : NodeId} (hc : c ∈ o.ids) : c ∈ f.ids :=
  List.mem_flatMap.2 ⟨_, mem_of_lookup h, hc⟩

theorem names_nodup : (f.children.map (·.1)).Nodup := by
  cases f with
  | var v =>
    obtain ⟨role, n, e, d, st⟩ := v
    cases role <;> simp [Form.children]
  | _ => simp [Form.children]

theorem lookup_of_mem_children (h : (name, o) ∈ f.children) : f.children.lookup name = some o := by
  have hnodup := names_nodup (f := f)
  generalize f.children = cs at h hnodup
  induction cs with
  | nil => cases h
  | cons c cs ih =>
    rw [List.map_cons, List.nodup_cons] at hnodup
    rcases List.mem_cons.1 h with rfl | h
    · simp
    · have hne : name ≠ c.1 := fun heq => hnodup.1 (heq ▸ List.mem_map_of_mem h)
      rw [List.lookup_cons, beq_eq_false_iff_ne.2 hne]
      exact ih h hnodup.2

theorem setChild_self (h : f.children.lookup name = some o) : f.setChild name o = f := by
  cases f with
  | var v =>
    obtain ⟨role, n, e, d, st⟩ := v
    cases role <;> simp only [Form.setChild] <;> split <;> simp_all [Form.children, List.lookup_cons]
  | _ =>
    simp only [Form.setChild]
    try split
    all_goals simp_all [Form.children, List.lookup_cons]
    all_goals exact h ▸ rfl

theorem flattened_nodes (h : ∀ o ∈ os, ∃ id, o = .node id) : flattened os = os := by
  induction os with
  | nil => rfl
  | cons o os ih =>
    obtain ⟨id, rfl⟩ := h o (by simp)
    have hos := ih fun o ho => h o (by simp [ho])
    simp only [flattened] at hos ⊢
    rw [List.flatMap_cons, hos]
    rfl

def setChildren (news : List (String × Operand)) (f : Form) : Form :=
  news.foldl (fun f new => f.setChild new.1 new.2) f

section

variable {m : Type → Type} [Monad m] [MonadLiftT Action m] [MonadExceptOf Fault m]
variable {σ : Type} [S : Stateful m σ] {p q : σ} {id : NodeId} {names : List String}
variable {visit : Operand → m Operand} {rs : List (String × Visited Operand)} {act : NodeId → m Operand}

def visitOne (visit : Operand → m Operand) (_ : String) (place : Option Nat) (o : Operand) :
    m Operand := do
  let r ← visit o
  match place, r with
  | none, .group _ => throw Fault.undefinedName
  | _, _ => return r

def Visited.operand : Visited Operand → Operand
  | .one o => o
  | .many os => .group (flattened os)

theorem transformChildren_eq (visit : Operand → m Operand) (id : NodeId) : transformChildren visit id = (do
      let results ← visitChildren (visitOne visit) id
      results.forM fun r => (updateForm id (·.setChild r.1 r.2.operand) : Action Unit)) := by
  rfl

theorem ends_node {n : Node} : S.Ends (node id : Action Node) p n q ↔ (S.session p).node? id = some n ∧ q = p := by
  rw [S.ends_lift]
  simp only [runs_node]
  constructor
  · rintro ⟨_, ⟨hn, rfl⟩, rfl⟩
    exact ⟨hn, S.put_session p⟩
  · rintro ⟨hn, rfl⟩
    exact ⟨_, ⟨hn, rfl⟩, (S.put_session q).symm⟩

theorem ends_visitOne_some :
    S.Ends (visitOne visit name (some k) o) p r q ↔ S.Ends (visit o) p r q := by
  simp only [visitOne, S.ends_bind]
  constructor
  · rintro ⟨r', p', h, h'⟩
    have h'' : S.Ends (pure r') p' r q := by cases r' <;> exact h'
    obtain ⟨rfl, rfl⟩ := S.ends_pure.1 h''
    exact h
  · intro h
    refine ⟨r, q, h, ?_⟩
    cases r <;> exact S.ends_pure.2 ⟨rfl, rfl⟩

theorem ends_visitOne_none (h : S.Ends (visitOne visit name none o) p r q) :
    S.Ends (visit o) p r q ∧ ∀ items, r ≠ .group items := by
  simp only [visitOne, S.ends_bind] at h
  obtain ⟨r', p', h, h'⟩ := h
  cases r' with
  | group items => exact absurd h' (by simp [S.ends_throw])
  | node j | datum d =>
    obtain ⟨rfl, rfl⟩ := S.ends_pure.1 h'
    exact ⟨h, by simp⟩

theorem visitsAll_of_mapM [LawfulMonad m] {rs : List Operand}
    (h : S.Ends ((os.zipIdx k).mapM fun (o, i) => visitOne visit name (some i) o) p rs q) :
    VisitsAll visit os p rs q := by
  induction os generalizing p rs k with
  | nil =>
    simp only [List.zipIdx_nil, List.mapM_nil, S.ends_pure] at h
    obtain ⟨rfl, rfl⟩ := h
    exact .nil _
  | cons o os ih =>
    simp only [List.zipIdx_cons, List.mapM_cons, S.ends_bind, S.ends_pure, ends_visitOne_some] at h
    obtain ⟨r, p', hv, rs, q', hs, rfl, rfl⟩ := h
    exact .cons hv (ih hs)

theorem visits_of_filterMapM [LawfulMonad m] {names : List String}
    (h : S.Ends (names.filterMapM (visitPosition (visitOne visit) id)) p rs q) :
    Visits visit id names p (rs.map fun r => (r.1, r.2.operand)) q := by
  induction names generalizing p rs with
  | nil =>
    simp only [List.filterMapM_nil, S.ends_pure] at h
    obtain ⟨rfl, rfl⟩ := h
    exact .nil _
  | cons name names ih =>
    simp only [List.filterMapM_cons, S.ends_bind, visitPosition, ends_node] at h
    obtain ⟨v, p', ⟨n, _, ⟨hn, rfl⟩, hv⟩, hrest⟩ := h
    have hf := form?_of_node? hn
    split at hv
    · obtain ⟨rfl, rfl⟩ := S.ends_pure.1 hv
      exact .none hf (.inl ‹_›) (ih hrest)
    · obtain ⟨rfl, rfl⟩ := S.ends_pure.1 hv
      exact .none hf (.inr ‹_›) (ih hrest)
    · simp only [S.ends_bind, S.ends_pure] at hv
      obtain ⟨rs', p2, hv, rfl, rfl⟩ := hv
      simp only [S.ends_bind, S.ends_pure] at hrest
      obtain ⟨rest, p3, hrest, rfl, rfl⟩ := hrest
      exact .many hf ‹_› (visitsAll_of_mapM hv) (ih hrest)
    · simp only [S.ends_bind, S.ends_pure] at hv
      obtain ⟨r, p2, hv, rfl, rfl⟩ := hv
      simp only [S.ends_bind, S.ends_pure] at hrest
      obtain ⟨rest, p3, hrest, rfl, rfl⟩ := hrest
      obtain ⟨hv, hr⟩ := ends_visitOne_none hv
      exact .one hf ‹_› hv hr (ih hrest)

theorem ends_setChildren {r : PUnit}
    (h : S.Ends (rs.forM fun r => (updateForm id (·.setChild r.1 r.2.operand) : Action Unit)) p r q) :
    q = S.put p ((S.session p).alter id (Node.reform (setChildren (rs.map fun r => (r.1, r.2.operand))))) := by
  induction rs generalizing p with
  | nil =>
    obtain ⟨-, rfl⟩ := S.ends_pure.1 h
    have hid : Node.reform (setChildren []) = fun n => n := rfl
    rw [List.map_nil, hid, alter_id, S.put_session]
  | cons r rs ih =>
    obtain ⟨_, p', hlift, hrest⟩ := S.ends_bind.1 h
    obtain ⟨t, hu, rfl⟩ := S.ends_lift.1 hlift
    obtain rfl := runs_updateForm.1 hu
    rw [ih hrest, S.session_put, S.put_put, alter_alter]
    rfl

/-- What a transformation of the children did: visits of the positions, and then the results put in
place. -/
theorem transformChildren_visits [LawfulMonad m] {r : Unit} (h : S.Ends (transformChildren visit id) p r q) :
    ∃ f news p', (S.session p).form? id = some f ∧ Visits visit id (f.children.map (·.1)) p news p' ∧
      q = S.put p' ((S.session p').alter id (Node.reform (setChildren news))) := by
  rw [transformChildren_eq] at h
  simp only [S.ends_bind, visitChildren, ends_node] at h
  obtain ⟨rs, p', ⟨n, _, ⟨hn, rfl⟩, hv⟩, hset⟩ := h
  exact ⟨n.form, _, p', form?_of_node? hn, visits_of_filterMapM hv, ends_setChildren hset⟩

theorem setChildren_same (h : ∀ new ∈ news, f.children.lookup new.1 = some new.2) : setChildren news f = f := by
  induction news with
  | nil => rfl
  | cons new news ih =>
    show setChildren news (f.setChild new.1 new.2) = f
    rw [setChild_self (h new (by simp))]
    exact ih fun new hnew => h new (by simp [hnew])

section

variable {I : σ → Prop} (hI : ∀ {p}, I p → (S.session p).form? id = some f)
variable (hv : ∀ {o p r q}, I p → (∀ c ∈ o.ids, c ∈ f.ids) → S.Ends (visit o) p r q → r = o ∧ (∃ j, o = .node j) ∧ I q)

include hI hv

theorem visits_same (hp : I p) (h : Visits visit id names p news q) :
    I q ∧ ∀ new ∈ news, f.children.lookup new.1 = some new.2 := by
  have hread : ∀ {p f'}, I p → (S.session p).form? id = some f' → f' = f :=
    fun hp hf => Option.some.inj (hf.symm.trans (hI hp))
  have hall : ∀ {os rs : List Operand} {p q : σ}, VisitsAll visit os p rs q → I p →
      (∀ o ∈ os, ∀ c ∈ o.ids, c ∈ f.ids) → rs = os ∧ (∀ o ∈ os, ∃ j, o = .node j) ∧ I q := by
    intro os rs p q h
    induction h with
    | nil p => exact fun hp _ => ⟨rfl, by simp, hp⟩
    | cons h _ ih =>
      intro hp hos
      obtain ⟨rfl, hj, hp'⟩ := hv hp (hos _ (by simp)) h
      obtain ⟨rfl, hjs, hq⟩ := ih hp' fun o ho => hos o (by simp [ho])
      exact ⟨rfl, by simpa using ⟨hj, hjs⟩, hq⟩
  induction h with
  | nil p => exact ⟨hp, by simp⟩
  | none _ _ _ ih => exact ih hp
  | one hf hl hvis _ _ ih =>
    obtain rfl := hread hp hf
    obtain ⟨rfl, -, hp'⟩ := hv hp (fun c => ids_of_lookup hl) hvis
    obtain ⟨hq, hnews⟩ := ih hp'
    exact ⟨hq, List.forall_mem_cons.2 ⟨hl, hnews⟩⟩
  | many hf hl hvis _ ih =>
    obtain rfl := hread hp hf
    obtain ⟨rfl, hjs, hp'⟩ := hall hvis hp fun o ho c hc => ids_of_lookup hl (mem_idsAll.2 ⟨o, ho, hc⟩)
    obtain ⟨hq, hnews⟩ := ih hp'
    rw [flattened_nodes hjs]
    exact ⟨hq, List.forall_mem_cons.2 ⟨hl, hnews⟩⟩

theorem transformChildren_same [LawfulMonad m] {r : Unit} (hp : I p) (h : S.Ends (transformChildren visit id) p r q) : I q := by
  obtain ⟨f', news, p', hf', hvis, rfl⟩ := transformChildren_visits h
  obtain ⟨hq, hnews⟩ := visits_same hI hv hp hvis
  obtain ⟨n, hn, hform⟩ := node?_of_form? (hI hq)
  have hsame : (S.session p').alter id (Node.reform (setChildren news)) = S.session p' := by
    refine alter_same fun n' hn' => ?_
    cases hn.symm.trans hn'
    rw [Node.reform, hform, setChildren_same hnews, ← hform]
  rw [hsame, S.put_session]
  exact hq

end

theorem atPosition_moves (h : S.Ends (atPosition act o) p r q) :
    ∃ id n x p', o = .node id ∧ (S.session p).node? id = some n ∧ Runs position (S.session p) x (S.session p) ∧
      S.Ends (act id) (S.put p ((S.session p).moveTo n.position)) r p' ∧
      q = S.put p' (((S.session p').moveTo x).see r) := by
  simp only [atPosition, S.ends_bind, ends_node] at h
  obtain ⟨id, p1, h1, x, p2, h2, n, _, ⟨hn, rfl⟩, _, p4, h4, r', p5, h5, _, p6, h6, h7⟩ := h
  obtain ⟨s1, k1, rfl⟩ := S.ends_lift.1 h1
  obtain ⟨rfl, rfl⟩ := runs_identity.1 k1
  rw [S.put_session] at h2
  obtain ⟨s2, k2, rfl⟩ := S.ends_lift.1 h2
  obtain ⟨-, rfl⟩ := runs_position.1 k2
  rw [S.put_session] at hn h4
  obtain ⟨s4, k4, rfl⟩ := S.ends_lift.1 h4
  obtain rfl := runs_modify.1 k4
  obtain ⟨s6, k6, rfl⟩ := S.ends_lift.1 h6
  obtain rfl := runs_modify.1 k6
  refine ⟨id, n, x, p5, rfl, hn, k2, ?_⟩
  cases r' with
  | node j =>
    simp only [S.ends_bind, S.ends_pure] at h7
    obtain ⟨_, p7, h7, rfl, rfl⟩ := h7
    obtain ⟨s7, k7, rfl⟩ := S.ends_lift.1 h7
    rw [S.session_put] at k7
    obtain rfl := runs_updateNode.1 k7
    exact ⟨h5, S.put_put ..⟩
  | datum d | group items =>
    obtain ⟨rfl, rfl⟩ := S.ends_pure.1 h7
    exact ⟨h5, rfl⟩

theorem atPosition_visit (h : S.Ends (atPosition act o) p r q) :
    ∃ id s p' t, o = .node id ∧ Alike (S.session p) s ∧ S.Ends (act id) (S.put p s) r p' ∧
      Alike (S.session p') t ∧ q = S.put p' t := by
  obtain ⟨id, n, x, p', rfl, -, -, hact, rfl⟩ := atPosition_moves h
  exact ⟨id, _, p', _, rfl, moveTo_alike _ _, hact, (moveTo_alike _ _).trans (see_alike _ _), rfl⟩

end

end ArrayKernel.Ast
