import ArrayKernel.Proofs.Unhoisted
import ArrayKernel.Proofs.Upkeep

/-!
# The body of the innermost loop

Hoisting visits the innermost loop and writes what it visited back when it is through. A definition that was put
into the body of this very loop in between is overwritten: the body is again the statement it was.
-/

namespace ArrayKernel.Ast

variable {s t : Session} {o r : Operand} {id fid b : NodeId} {function : Option NodeId} {depth : Nat} {f : Form}

/-! ## What hoisting keeps -/

theorem hoistWithin_stays (h : Runs (Layout.hoistWithin function depth o) s r t) : Stays s t :=
  ((Layout.visiting_hoistWithin function depth o).kept (K := unconditional) h trivial).2

theorem eq_loop_of_kept (h : f.kept = .loop) : ∃ l, f = .loop l := by
  cases f <;> first | exact ⟨_, rfl⟩ | cases h

def Form.Stating (f : Form) : Prop := f.kept = .statement ∨ f.kept = .sequence

theorem hoistWithin_stating (hb : s.form? b = some f) (hf : f.Stating)
    (h : Runs (Layout.hoistWithin function depth (.node b)) s r t) : r = .node b := by
  cases depth with
  | zero => cases runs_throw.1 h
  | succ depth =>
    obtain ⟨_, n, x, u, heq, hn, -, hact, -⟩ := atPosition_moves (m := Action) h
    cases heq
    have hact : Runs _ (s.moveTo n.position) r u := hact
    simp only [Layout.hoistNode, runs_bind, runs_node] at hact
    obtain ⟨n', _, ⟨hn', rfl⟩, hact⟩ := hact
    obtain rfl : n'.form = f := form_of_node? hn' hb
    generalize n'.form = form at hact hf
    cases form with
    | statement e | sequence e =>
      simp only [runs_bind, runs_pure] at hact
      obtain ⟨_, _, -, rfl, -⟩ := hact
      rfl
    | _ => rcases hf with hf | hf <;> cases hf

/-! ## Visits of the positions of a loop -/

section

variable {visit : Operand → Action Operand} {R : NodeId → Prop} {names names' : List String}
variable {news : List (String × Operand)}

theorem visits_append (h : Visits visit id (names ++ names') s news t) :
    ∃ u first rest, Visits visit id names s first u ∧ Visits visit id names' u rest t ∧ news = first ++ rest := by
  induction names generalizing s news with
  | nil => exact ⟨s, [], news, .nil s, h, rfl⟩
  | cons name names ih =>
    cases h with
    | none hf hl h =>
      obtain ⟨u, first, rest, h1, h2, rfl⟩ := ih h
      exact ⟨u, first, rest, .none hf hl h1, h2, rfl⟩
    | one hf hl hv hr h =>
      obtain ⟨u, first, rest, h1, h2, rfl⟩ := ih h
      exact ⟨u, _ :: first, rest, .one hf hl hv hr h1, h2, rfl⟩
    | many hf hl hv h =>
      obtain ⟨u, first, rest, h1, h2, rfl⟩ := ih h
      exact ⟨u, _ :: first, rest, .many hf hl hv h1, h2, rfl⟩

theorem visitsAll_quiet (hv : Quiet R visit) {os rs : List Operand} (h : VisitsAll visit os s rs t)
    (hos : ∀ o ∈ os, ∀ c ∈ o.ids, R c) (hs : Still R s) : t.bare = s.bare ∧ Still R t := by
  induction h with
  | nil p => exact ⟨rfl, hs⟩
  | cons h _ ih =>
    obtain ⟨-, -, hb, hs'⟩ := hv (hos _ (by simp)) hs h
    obtain ⟨hb', ht⟩ := ih (fun o ho => hos o (by simp [ho])) hs'
    exact ⟨hb'.trans hb, ht⟩

theorem visits_quiet (hv : Quiet R visit) (hf : s.form? id = some f) (hs : Still R s)
    (hnames : ∀ name ∈ names, ∀ o, f.children.lookup name = some o → ∀ c ∈ o.ids, R c)
    (h : Visits visit id names s news t) : t.bare = s.bare ∧ Still R t := by
  induction h with
  | nil p => exact ⟨rfl, hs⟩
  | none _ _ _ ih => exact ih hf hs fun name hn => hnames name (by simp [hn])
  | one hf' hl h _ _ ih =>
    cases hf'.symm.trans hf
    obtain ⟨-, -, hb, hs'⟩ := hv (hnames _ (by simp) _ hl) hs h
    obtain ⟨hb', ht⟩ := ih ((form?_of_bare hb).trans hf) hs' fun name hn => hnames name (by simp [hn])
    exact ⟨hb'.trans hb, ht⟩
  | many hf' hl h _ ih =>
    cases hf'.symm.trans hf
    have hgroup := hnames _ (by simp) _ hl
    obtain ⟨hb, hs'⟩ := visitsAll_quiet hv h (fun o ho c hc => hgroup c (mem_idsAll.2 ⟨o, ho, hc⟩)) hs
    obtain ⟨hb', ht⟩ := ih ((form?_of_bare hb).trans hf) hs' fun name hn => hnames name (by simp [hn])
    exact ⟨hb'.trans hb, ht⟩

end

theorem setChildren_loop (news : List (String × Operand)) (l : Loop) : ∃ l', setChildren news (.loop l) = .loop l' := by
  induction news generalizing l with
  | nil => exact ⟨l, rfl⟩
  | cons new news ih =>
    obtain ⟨l', hl'⟩ := eq_loop_of_kept (f := (Form.loop l).setChild new.1 new.2) (by
      simp only [Form.setChild]
      split <;> rfl)
    obtain ⟨l'', hl''⟩ := ih l'
    exact ⟨l'', by rw [← hl'', ← hl']; rfl⟩

/-! ## The innermost loop -/

/-- A kernel whose innermost loop has statements for its body, and a head where nothing is broadcast. -/
structure Innermost (R : NodeId → Prop) (fid id b : NodeId) (s : Session) : Prop where
  last : ∃ F loops, s.form? fid = some (.function F) ∧ F.loops = some loops ∧ loops.getLast? = some (.node id)
  still : Still R s
  loop : ∃ l, s.form? id = some (.loop l) ∧ l.body = .node b ∧
    ∀ c ∈ l.start.ids ++ l.condition.ids ++ l.step.ids, R c
  body : ∃ f, s.form? b = some f ∧ f.Stating

theorem transformChildren_body {R : NodeId → Prop} {x : Unit} (hs : Innermost R fid id b s)
    (h : Runs (transformChildren (Layout.hoistWithin function depth) id) s x t) :
    ∃ l, t.form? id = some (.loop l) ∧ l.body = .node b := by
  obtain ⟨l, hl, hbody, hhead⟩ := hs.loop
  obtain ⟨f, hf, hstating⟩ := hs.body
  obtain ⟨f', news, u, hf', hvisits, rfl⟩ := transformChildren_visits (m := Action) h
  cases hf'.symm.trans hl
  have hvisits : Visits _ id (["init", "condition", "step"] ++ ["body"]) s news u := hvisits
  obtain ⟨v, first, rest, hfirst, hrest, rfl⟩ := visits_append hvisits
  -- the head is as it was when the turn of the body comes
  have hquiet : v.bare = s.bare := by
    refine (visits_quiet (hoistWithin_quiet depth) hl hs.still ?_ hfirst).1
    simp only [List.mem_append] at hhead
    intro name hname o ho c hc
    simp only [List.mem_cons, List.not_mem_nil, or_false] at hname
    rcases hname with rfl | rfl | rfl
    · cases ho
      exact hhead c (.inl (.inl hc))
    · cases ho
      exact hhead c (.inl (.inr hc))
    · cases ho
      exact hhead c (.inr hc)
  have hlv : v.form? id = some (.loop l) := (form?_of_bare hquiet).trans hl
  have hfv : v.form? b = some f := (form?_of_bare hquiet).trans hf
  have hlookup : (Form.loop l).children.lookup "body" = some (.node b) := by
    rw [← hbody]
    rfl
  cases hrest with
  | none hf' hnone _ =>
    cases hf'.symm.trans hlv
    rw [hlookup] at hnone
    rcases hnone with hnone | hnone <;> cases hnone
  | many hf' hmany _ _ =>
    cases hf'.symm.trans hlv
    cases hlookup.symm.trans hmany
  | one hf' hone hvisit _ hnil =>
    cases hf'.symm.trans hlv
    cases hlookup.symm.trans hone
    cases hnil
    obtain rfl := hoistWithin_stating hfv hstating hvisit
    -- whatever was put into the loop meanwhile, it is a loop, and its body is written last
    obtain ⟨g, hg, hkept⟩ := (hoistWithin_stays hvisit).kept id _ hlv
    obtain ⟨l', rfl⟩ := eq_loop_of_kept hkept
    obtain ⟨n, hn, hform⟩ := node?_of_form? hg
    obtain ⟨l'', hl''⟩ := setChildren_loop first l'
    refine ⟨{ l'' with body := .node b }, ?_, rfl⟩
    show (Session.alter u id _).form? id = _
    rw [form?_alter_of, if_pos rfl, hn]
    simp only [Option.map_some, Node.reform, hform, setChildren, List.foldl_append]
    rw [show List.foldl _ (Form.loop l') first = Form.loop l'' from hl'']
    rfl

/-- Hoisting leaves the innermost loop with the body it had: what is hoisted into this loop is defined nowhere. -/
theorem innermost_body_restored {R : NodeId → Prop} (hs : Innermost R fid id b s)
    (h : Runs (Layout.hoistBroadcasting (.node fid)) s o t) :
    ∃ l, t.form? id = some (.loop l) ∧ l.body = .node b := by
  obtain ⟨F, loops, hF, hloops, hlast⟩ := hs.last
  obtain ⟨_, p, x, _, u, -, hchildren, -, rfl⟩ := runs_hoistBroadcasting h hF hloops hlast
  have hmoved : Innermost R fid id b (s.moveTo p) := ⟨hs.last, hs.still, hs.loop, hs.body⟩
  obtain ⟨l, hl, hbody⟩ := transformChildren_body hmoved hchildren
  exact ⟨l, (form?_of_bare bare_see).trans hl, hbody⟩

/-- A kernel that assigns to `out`, in one loop, the sum of two operands that are broadcast. -/
def summing : Session where
  nodes :=
    let type := CType.array CType.float64 1 false false false none
    let broadcast := CType.array CType.float64 1 false false false (some [true])
    #[{ form := .function {
          name := .text "f", body := .node ⟨1⟩, arguments := .group [], scalarArguments := .group [], arrays := []
          byName := [], shape := .absent, posinfo := .absent, errorValue := .absent, successValue := .absent
          ompSize := .absent, ndim := 1, loops := some [.node ⟨1⟩] }
        type := none, position := .unknown },
      { form := .loop { start := .absent, condition := .absent, step := .absent, body := .node ⟨2⟩, index := .absent }
        type := none, position := .unknown },
      { form := .statement (.node ⟨3⟩), type := none, position := .unknown },
      { form := .assign (.node ⟨4⟩) (.node ⟨5⟩) (.bool true), type := some type, position := .unknown },
      { form := .var { role := .plain, name := .ofString "out" }, type := some type, position := .unknown },
      { form := .binop "+" (.node ⟨6⟩) (.node ⟨7⟩), type := some broadcast, position := .unknown },
      { form := .var { role := .plain, name := .ofString "a" }, type := some broadcast, position := .unknown },
      { form := .var { role := .plain, name := .ofString "b" }, type := some broadcast, position := .unknown }]

theorem summing_innermost : Innermost (fun _ => False) ⟨0⟩ ⟨1⟩ ⟨2⟩ summing where
  last := ⟨_, _, rfl, rfl, rfl⟩
  still _ _ h := h.elim
  loop := ⟨_, rfl, rfl, by simp [Operand.absent, Operand.ids]⟩
  body := ⟨_, rfl, .inl rfl⟩

theorem summing_body_restored : ∃ o t, Runs (Layout.hoistBroadcasting (.node ⟨0⟩)) summing o t ∧
    ∃ l, t.form? ⟨1⟩ = some (.loop l) ∧ l.body = .node ⟨2⟩ := by
  obtain ⟨o, t, h⟩ := exists_runs (a := Layout.hoistBroadcasting (.node ⟨0⟩)) (s := summing) (by decide +kernel)
  exact ⟨o, t, h, innermost_body_restored summing_innermost h⟩

/-- The temporary for the sum is read in the only statement of the function, so it is assigned nowhere. -/
theorem hoisted_sum_undefined : ∃ o t, Runs (Layout.hoistBroadcasting (.node ⟨0⟩)) summing o t ∧
    (t.form? ⟨0⟩).map Form.ids = some [⟨1⟩] ∧ (t.form? ⟨1⟩).map Form.ids = some [⟨2⟩] ∧
    (t.form? ⟨2⟩).map Form.ids = some [⟨3⟩] ∧ (t.form? ⟨3⟩).map Form.ids = some [⟨4⟩, ⟨8⟩] ∧
    (t.form? ⟨8⟩).map Form.kindName = some "TempNode" := by
  obtain ⟨o, t, h⟩ := exists_runs (a := Layout.hoistBroadcasting (.node ⟨0⟩)) (s := summing) (by decide +kernel)
  obtain rfl : ((Layout.hoistBroadcasting (.node ⟨0⟩)).runOn summing).2 = t := by rw [h]
  exact ⟨o, _, h, by decide +kernel⟩

end ArrayKernel.Ast
