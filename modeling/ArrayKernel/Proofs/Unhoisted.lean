import ArrayKernel.Layout.Hoisting
import ArrayKernel.Proofs.Traversal

/-!
# Kernels without broadcast operands

If no operand of a kernel is broadcast, a hoisting pass that ends well gives the kernel back with all its
nodes as they were: it only leaves marks of its own on them.
-/

namespace ArrayKernel.Ast

variable {s t u : Session} {o r : Operand} {id fid : NodeId} {n : Node}
variable {g : Node → Node} {p : Position} {x : Unit}

/-! ## Sessions without the marks of hoisting -/

def Node.bare (n : Node) : Node :=
  { n with marks := { n.marks with
    isSpecialized := false, isHoistable := none, needsTemp := none, broadcasting := none } }

def Session.bare (s : Session) : Session := { s with nodes := s.nodes.map Node.bare }

theorem node?_bare : s.bare.node? id = (s.node? id).map Node.bare := by
  simp [Session.bare, Session.node?]

theorem bare_alter (h : ∀ n, (g n).bare = n.bare) : (s.alter id g).bare = s.bare := by
  simp only [Session.bare, Session.alter, Session.mk.injEq, and_true]
  refine Array.ext_getElem? fun i => ?_
  simp only [Array.getElem?_map, Array.getElem?_modify]
  split
  · cases s.nodes[i]? <;> simp [h]
  · rfl

theorem form?_of_bare (h : t.bare = s.bare) : t.form? id = s.form? id := by
  have heq := congrArg (fun s => (Session.node? s id).map (·.form)) h
  simpa [node?_bare, Function.comp_def, Node.bare, Session.form?] using heq

theorem bare_moveTo (h : t.bare = s.bare) : (t.moveTo p).bare = (s.moveTo p).bare := by
  show t.bare.moveTo p = s.bare.moveTo p
  rw [h]

theorem moveTo_moveTo {q : Position} (hq : Runs position s q u) : (s.moveTo p).moveTo q = s := by
  obtain ⟨rfl, -⟩ := runs_position.1 hq
  obtain ⟨_, _, builders, builder, _, _⟩ := s
  simp only [Session.moveTo, Session.mk.injEq, true_and, and_true]
  refine Array.ext_getElem? fun i => ?_
  simp only [Array.getElem?_modify]
  split
  · subst i
    cases builders[builder]? <;> rfl
  · rfl

/-! ## Visits that only leave marks -/

def Unset (mark : Option Datum) : Prop := (mark.getD (.bool false)).truthy = false

structure Node.Still (R : NodeId → Prop) (n : Node) : Prop where
  operands : ∀ c ∈ n.form.ids, R c
  inside : ∀ k, n.form ≠ .function k
  hoistable : Unset n.marks.isHoistable
  needsTemp : Unset n.marks.needsTemp
  pending : n.marks.prepending = none
  broadcast : ∀ v ty dims, n.form = .var v → n.type = some ty → ty.broadcasting? ≠ some (some dims)

def Still (R : NodeId → Prop) (s : Session) : Prop := ∀ id n, R id → s.node? id = some n → n.Still R

def Quiet (R : NodeId → Prop) (visit : Operand → Action Operand) : Prop :=
  ∀ {o s r t}, (∀ id ∈ o.ids, R id) → Still R s → Runs (visit o) s r t →
    r = o ∧ (∃ id, o = .node id) ∧ t.bare = s.bare ∧ Still R t

variable {R : NodeId → Prop} {visit : Operand → Action Operand} {function : Option NodeId}

theorem Still.alter (hs : Still R s)
    (hg : ∀ n, R id → s.node? id = some n → n.Still R → (g n).Still R) : Still R (s.alter id g) := by
  intro j n hj hn
  rw [node?_alter] at hn
  split at hn
  · subst j
    obtain ⟨n', hn', rfl⟩ := Option.map_eq_some_iff.1 hn
    exact hg n' hj hn' (hs _ _ hj hn')
  · exact hs _ _ hj hn

theorem transformChildren_quiet (hv : Quiet R visit) (hid : R id) (hs : Still R s)
    (h : Runs (transformChildren visit id) s x t) : t.bare = s.bare ∧ Still R t := by
  obtain ⟨f, -, -, hf, -⟩ := transformChildren_visits (m := Action) h
  obtain ⟨n, hn, rfl⟩ := node?_of_form? hf
  refine transformChildren_same (m := Action) (I := fun u => u.bare = s.bare ∧ Still R u)
    (fun hp => (form?_of_bare hp.1).trans hf) (fun {o p r q} hp ho hrun => ?_) ⟨rfl, hs⟩ h
  obtain ⟨rfl, hj, hb, hq⟩ := hv (fun c hc => (hs _ _ hid hn).operands c (ho c hc)) hp.2 hrun
  exact ⟨rfl, hj, hb.trans hp.1, hq⟩

theorem updateMarks_quiet {k : Marks → Marks} (h : Runs (updateMarks id k) s x t)
    (hk : ∀ n : Node, { n with marks := k n.marks }.bare = n.bare)
    (hset : ∀ n, s.node? id = some n → n.Still R → Unset (k n.marks).isHoistable ∧ Unset (k n.marks).needsTemp)
    (hs : Still R s) : t.bare = s.bare ∧ Still R t := by
  obtain rfl := runs_updateNode.1 h
  refine ⟨bare_alter hk, hs.alter fun n _ hn hstill => ?_⟩
  obtain ⟨hh, ht⟩ := hset n hn hstill
  have hpending : (k n.marks).prepending = n.marks.prepending := by
    simpa [Node.bare] using congrArg (·.marks.prepending) (hk n)
  exact { hstill with hoistable := hh, needsTemp := ht, pending := hpending.trans hstill.pending }

theorem expressionMark_falsy {mark : Marks → Option Datum} {d : Datum}
    (hm : ∀ id ∈ o.ids, ∀ n, s.node? id = some n → Unset (mark n.marks))
    (h : Runs (Layout.expressionMark mark o) s d t) : d.truthy = false ∧ t = s := by
  simp only [Layout.expressionMark, runs_bind, runs_nodeOf] at h
  obtain ⟨n, _, ⟨id, rfl, hn, rfl⟩, h⟩ := h
  have hmark := hm id (List.mem_singleton.2 rfl) n hn
  cases hm' : mark n.marks with
  | some x =>
    rw [hm'] at h hmark
    obtain ⟨rfl, rfl⟩ := runs_pure.1 h
    exact ⟨hmark, rfl⟩
  | none =>
    rw [hm'] at h
    dsimp only at h
    split at h
    · obtain ⟨rfl, rfl⟩ := runs_pure.1 h
      exact ⟨rfl, rfl⟩
    · cases runs_throw.1 h

section

variable {d : Datum} (hs : Still R s) (ho : ∀ id ∈ o.ids, R id)

include hs ho

theorem hoistable_falsy (h : Runs (Layout.hoistable o) s d t) : d.truthy = false ∧ t = s :=
  expressionMark_falsy (fun _ hid _ hn => (hs _ _ (ho _ hid) hn).hoistable) h

theorem needsTemp_falsy (h : Runs (Layout.needsTemp o) s d t) : d.truthy = false ∧ t = s :=
  expressionMark_falsy (fun _ hid _ hn => (hs _ _ (ho _ hid) hn).needsTemp) h

end

/-! ## Nodes -/

theorem hoistBinary_quiet (hv : Quiet R visit) (hid : R id) (hs : Still R s)
    (h : Runs (Layout.hoistBinary function visit id) s r t) :
    r = .node id ∧ t.bare = s.bare ∧ Still R t := by
  simp only [Layout.hoistBinary, runs_bind] at h
  obtain ⟨_, s1, hchildren, _, s2, hmark, lhs, _, hl, rhs, _, hr, h⟩ := h
  obtain ⟨hb1, hs1⟩ := transformChildren_quiet hv hid hs hchildren
  obtain ⟨hb2, hs2⟩ := updateMarks_quiet hmark (fun _ => rfl) (fun n _ hn => ⟨hn.hoistable, hn.needsTemp⟩) hs1
  obtain ⟨rfl, n, hn, hlhs⟩ := runs_sideOf (.inl rfl) hl
  obtain ⟨rfl, n', hn', hrhs⟩ := runs_sideOf (.inr rfl) hr
  have hlR : ∀ c ∈ lhs.ids, R c := fun c hc => (hs2 _ _ hid hn).operands c (hlhs c hc)
  have hrR : ∀ c ∈ rhs.ids, R c := fun c hc => (hs2 _ _ hid hn').operands c (hrhs c hc)
  obtain ⟨d1, _, h1, h⟩ := h
  obtain ⟨hd1, rfl⟩ := needsTemp_falsy hs2 hlR h1
  simp only [hd1, Bool.false_eq_true, if_false, runs_bind] at h
  obtain ⟨d2, _, h2, _, _, hp2, h⟩ := h
  obtain ⟨hd2, rfl⟩ := needsTemp_falsy hs2 hrR h2
  obtain ⟨rfl, rfl⟩ := runs_pure.1 hp2
  simp only [hd2, Bool.false_eq_true, if_false, runs_bind] at h
  obtain ⟨d3, _, h3, h⟩ := h
  obtain ⟨hd3, rfl⟩ := hoistable_falsy hs2 hlR h3
  simp only [hd3, Bool.false_eq_true, if_false, runs_bind] at h
  obtain ⟨d4, _, h4, _, _, hp4, h⟩ := h
  obtain ⟨hd4, rfl⟩ := hoistable_falsy hs2 hrR h4
  obtain ⟨rfl, rfl⟩ := runs_pure.1 hp4
  simp only [hd4, Bool.false_eq_true, if_false, runs_pure] at h
  obtain ⟨rfl, rfl⟩ := h
  exact ⟨rfl, hb2.trans hb1, hs2⟩

theorem hoistUnary_quiet {op : String} {a : Operand} (hv : Quiet R visit) (hid : R id) (hs : Still R s)
    (hf : s.form? id = some (.unop op a)) (h : Runs (Layout.hoistUnary visit id a) s x t) :
    t.bare = s.bare ∧ Still R t := by
  obtain ⟨n, hn, hform⟩ := node?_of_form? hf
  have ha : ∀ c ∈ a.ids, R c := fun c hc =>
    (hs _ _ hid hn).operands c (by rw [hform]; simpa [Form.ids, Form.children] using hc)
  simp only [Layout.hoistUnary, runs_bind] at h
  obtain ⟨a', s1, hvis, _, s2, hset, d1, _, h1, _, s3, hm1, d2, _, h2, _, s4, hm2, dims, _, hdims, hm3⟩ := h
  obtain ⟨rfl, -, hb1, hs1⟩ := hv ha hs hvis
  obtain rfl := updateForm_same (fun f hf' => by
    rw [form?_of_bare hb1, hf] at hf'
    cases hf'
    rfl) hset
  obtain ⟨hd1, rfl⟩ := hoistable_falsy hs1 ha h1
  obtain ⟨hb2, hs2⟩ := updateMarks_quiet hm1 (fun _ => rfl) (fun n _ hn => ⟨hd1, hn.needsTemp⟩) hs1
  obtain ⟨hd2, rfl⟩ := needsTemp_falsy hs2 ha h2
  obtain ⟨hb3, hs3⟩ := updateMarks_quiet hm2 (fun _ => rfl) (fun n _ hn => ⟨hn.hoistable, hd2⟩) hs2
  simp only [Layout.broadcastingOf, runs_bind, runs_nodeOf, runs_required] at hdims
  obtain ⟨_, _, ⟨_, -, -, rfl⟩, -, rfl⟩ := hdims
  obtain ⟨hb4, hs4⟩ := updateMarks_quiet hm3 (fun _ => rfl) (fun n _ hn => ⟨hn.hoistable, hn.needsTemp⟩) hs3
  exact ⟨hb4.trans (hb3.trans (hb2.trans hb1)), hs4⟩

theorem markVariable_quiet {v : Variable} (hid : R id) (hs : Still R s) (hf : s.form? id = some (.var v))
    (h : Runs (Layout.markVariable function id) s x t) : t = s := by
  obtain ⟨n, hn, hform⟩ := node?_of_form? hf
  unfold Layout.markVariable at h
  rw [runs_bind] at h
  obtain ⟨ty, _, hknown, h⟩ := h
  obtain ⟨hty, rfl⟩ := runs_knownType hknown
  rw [type?_of_node? hn] at hty
  split at h
  · exact absurd ‹_› ((hs _ _ hid hn).broadcast v _ _ hform hty)
  · exact (runs_pure.1 h).2

theorem hoistNode_quiet (hv : Quiet R visit) (hid : R id) (hs : Still R s)
    (h : Runs (Layout.hoistNode function visit id) s r t) : r = .node id ∧ t.bare = s.bare ∧ Still R t := by
  simp only [Layout.hoistNode, runs_bind, runs_node] at h
  obtain ⟨n, _, ⟨hn, rfl⟩, h⟩ := h
  have hstill := hs _ _ hid hn
  have hf := form?_of_node? hn
  split at h
  · -- A variable
    rename_i hform
    simp only [runs_bind, runs_pure] at h
    obtain ⟨_, _, hmark, rfl, rfl⟩ := h
    obtain rfl := markVariable_quiet hid hs (hf.trans (by rw [hform])) hmark
    exact ⟨rfl, rfl, hs⟩
  · -- An assignment
    rename_i lhs rhs d hform
    have hrhs : ∀ c ∈ rhs.ids, R c := fun c hc =>
      hstill.operands c (by rw [hform]; simp [Form.ids, Form.children, hc])
    simp only [Layout.hoistIfPossible, runs_bind, runs_pure] at h
    obtain ⟨rhs', s1, hvis, rhs'', s2, hposs, _, s3, hset, rfl, rfl⟩ := h
    obtain ⟨rfl, -, hb1, hs1⟩ := hv hrhs hs hvis
    obtain ⟨d1, _, h1, hposs⟩ := hposs
    obtain ⟨hd1, rfl⟩ := hoistable_falsy hs1 hrhs h1
    simp only [hd1, Bool.false_eq_true, if_false, runs_bind, runs_pure] at hposs
    obtain ⟨d2, _, h2, rfl, rfl⟩ := hposs
    obtain ⟨-, rfl⟩ := needsTemp_falsy hs1 hrhs h2
    obtain rfl := updateForm_same (fun f hf' => by
      rw [form?_of_bare hb1, hf, hform] at hf'
      cases hf'
      rfl) hset
    exact ⟨rfl, hb1, hs1⟩
  · exact hoistBinary_quiet hv hid hs h
  · exact hoistBinary_quiet hv hid hs h
  · exact hoistBinary_quiet hv hid hs h
  · exact hoistBinary_quiet hv hid hs h
  · -- A unary operation
    rename_i hform
    simp only [runs_bind, runs_pure] at h
    obtain ⟨_, _, hun, rfl, rfl⟩ := h
    exact ⟨rfl, hoistUnary_quiet hv hid hs (hf.trans (by rw [hform])) hun⟩
  · -- A loop has no room for pending statements, so a visit of one fails.
    simp only [runs_bind] at h
    obtain ⟨_, s1, hchildren, _, _, hplace, -⟩ := h
    obtain ⟨hb1, hs1⟩ := transformChildren_quiet hv hid hs hchildren
    simp only [Layout.placePending, Bool.false_eq_true, if_false, runs_bind, runs_node, runs_required] at hplace
    obtain ⟨n', _, ⟨hn', rfl⟩, _, _, ⟨hpre, -⟩, -⟩ := hplace
    rw [(hs1 _ _ hid hn').pending] at hpre
    cases hpre
  · obtain ⟨rfl, rfl⟩ := runs_pure.1 h
    exact ⟨rfl, rfl, hs⟩
  · rename_i hform
    exact absurd hform (hstill.inside _)
  · simp only [runs_bind, runs_pure] at h
    obtain ⟨_, _, hchildren, rfl, rfl⟩ := h
    exact ⟨rfl, transformChildren_quiet hv hid hs hchildren⟩

theorem bare_see : (s.see o).bare = s.bare := by
  cases o with
  | node id => exact bare_alter fun _ => rfl
  | _ => rfl

theorem hoistWithin_quiet (depth : Nat) : Quiet R (Layout.hoistWithin function depth) := by
  induction depth with
  | zero => exact fun {o s r t} _ _ h => absurd h (by simp [Layout.hoistWithin, runs_throw])
  | succ depth ih =>
    intro o s r t ho hs h
    obtain ⟨id, n, x, u, rfl, -, hx, hact, rfl⟩ := atPosition_moves (m := Action) h
    have hmoved : Still R (s.moveTo n.position) := hs
    obtain ⟨rfl, hb, hu⟩ := hoistNode_quiet ih (ho id (List.mem_singleton.2 rfl)) hmoved hact
    refine ⟨rfl, ⟨id, rfl⟩, ?_, ?_⟩
    · calc ((u.moveTo x).see (.node id)).bare = (u.moveTo x).bare := bare_see
        _ = ((s.moveTo n.position).moveTo x).bare := bare_moveTo hb
        _ = s.bare := congrArg Session.bare (moveTo_moveTo hx)
    · have hu' : Still R (u.moveTo x) := hu
      exact hu'.alter fun n _ _ hn => { hn with }

theorem runs_hoistBroadcasting {F : Function} {loops : List Operand} {l : NodeId}
    (h : Runs (Layout.hoistBroadcasting (.node fid)) s o t) (hF : s.form? fid = some (.function F))
    (hloops : F.loops = some loops) (hlast : loops.getLast? = some (.node l)) :
    ∃ depth p x y u, Runs position s x s ∧ Runs (transformChildren (Layout.hoistWithin (some fid) depth) l) (s.moveTo p) y u ∧
      o = .node fid ∧ t = (u.moveTo x).see (.node fid) := by
  obtain ⟨_, n, x, u, hid, -, hx, hact, rfl⟩ := atPosition_moves (m := Action) h
  cases hid
  have hact : Runs _ (s.moveTo n.position) o u := hact
  have hF' : (s.moveTo n.position).form? fid = some (.function F) := hF
  simp only [Layout.hoistNode, runs_bind, runs_node] at hact
  obtain ⟨n', _, ⟨hn', rfl⟩, hact⟩ := hact
  rw [form_of_node? hn' hF'] at hact
  simp only [hloops, runs_bind, runs_required] at hact
  obtain ⟨_, _, ⟨hrequired, rfl⟩, hact⟩ := hact
  cases hrequired
  rw [hlast] at hact
  simp only [runs_bind, runs_identity, runs_pure] at hact
  obtain ⟨_, _, ⟨hinner, rfl⟩, y, _, hchildren, rfl, rfl⟩ := hact
  cases hinner
  exact ⟨_, n.position, x, y, _, hx, hchildren, rfl, rfl⟩

/-- A kernel whose innermost loop holds nothing that is broadcast. -/
structure Unbroadcast (R : NodeId → Prop) (fid : NodeId) (s : Session) : Prop where
  still : Still R s
  inner : ∃ F loops l, s.form? fid = some (.function F) ∧ F.loops = some loops ∧ loops.getLast? = some (.node l) ∧ R l

/-- Without broadcast operands, hoisting that ends well gives back the kernel, and no node has changed but
for the marks that hoisting alone reads. -/
theorem hoistBroadcasting_quiet (h : Runs (Layout.hoistBroadcasting (.node fid)) s o t)
    (hs : Unbroadcast R fid s) : o = .node fid ∧ t.bare = s.bare := by
  obtain ⟨F, loops, l, hF, hloops, hlast, hl⟩ := hs.inner
  obtain ⟨_, p, x, _, u, hx, hchildren, rfl, rfl⟩ := runs_hoistBroadcasting h hF hloops hlast
  have hmoved : Still R (s.moveTo p) := hs.still
  obtain ⟨hb, -⟩ := transformChildren_quiet (hoistWithin_quiet _) hl hmoved hchildren
  refine ⟨rfl, ?_⟩
  calc ((u.moveTo x).see (.node fid)).bare = (u.moveTo x).bare := bare_see
    _ = ((s.moveTo p).moveTo x).bare := bare_moveTo hb
    _ = s.bare := congrArg Session.bare (moveTo_moveTo hx)

end ArrayKernel.Ast
