import ArrayKernel.Proofs.Writing

/-!
# Scripts

The script of a node lists the acts that writing it takes. Most nodes visit each of their children once, in
order, and put lines between the visits.
-/

namespace ArrayKernel.Emit

open Ast Stateful

variable {o : Operand} {name : String} {rest : List Act → Prop} {value : Rendered} {shown : String} {r x : Operand}
variable {v : Variable} {f' : Form} {os' : List Operand} {e : Emitter} {cs : List (String × Operand)} {w depth : Nat}
variable {as bs : List Act} {l : Operand} {s : Session} {β : Type} {f : Form}

/-! ## Places -/

/-- The operands in a position, with the ways to them. An absent operand is not there. -/
def placed (name : String) : Operand → List (Path × Operand)
  | .datum .null => []
  | .group items => items.zipIdx.map fun (o, i) => ([(name, i)], o)
  | o => [([(name, 0)], o)]

def operands (f : Form) : List (Path × Operand) := f.children.flatMap fun c => placed c.1 c.2

def nodesAmong (os : List (Path × Operand)) : List (Path × NodeId) :=
  os.filterMap fun o => o.2.id?.map fun id => (o.1, id)

def places (f : Form) : List (Path × NodeId) := nodesAmong (operands f)

@[simp] theorem nodesAmong_append (os os' : List (Path × Operand)) :
    nodesAmong (os ++ os') = nodesAmong os ++ nodesAmong os' := List.filterMap_append

/-! ## What writing does not change -/

/-- A form without the names and texts that its node gets while it is written. -/
def skeleton : Form → Form
  | .var v => .var { v with name := .ofString "", emitted := none }
  | .label n _ => .label n none
  | .function f => .function { f with emitted := none }
  | f => f

@[simp] theorem children_skeleton (f : Form) : (skeleton f).children = f.children := by
  cases f <;> rfl

theorem var_of_skeleton (h : skeleton f = skeleton (.var v)) :
    ∃ v' : Variable, f = .var v' ∧ v'.role = v.role := by
  cases f with
  | var v' =>
    injection h with h
    injection h with hrole
    exact ⟨v', rfl, hrole⟩
  | _ => cases h

structure Redrawn (s t : Session) : Prop where
  settings : t.settings = s.settings
  form? : ∀ id, (t.form? id).map skeleton = (s.form? id).map skeleton
  type? : ∀ id, t.type? id = s.type? id

namespace Redrawn

variable {s t u : Session} {id : NodeId} {f : Form}

theorem refl (s : Session) : Redrawn s s := ⟨rfl, fun _ => rfl, fun _ => rfl⟩

theorem trans (h : Redrawn s t) (h' : Redrawn t u) : Redrawn s u :=
  ⟨h'.settings.trans h.settings, fun id => (h'.form? id).trans (h.form? id), fun id => (h'.type? id).trans (h.type? id)⟩

theorem symm (h : Redrawn s t) : Redrawn t s :=
  ⟨h.settings.symm, fun id => (h.form? id).symm, fun id => (h.type? id).symm⟩

theorem exists_form (h : Redrawn s t) (hf : s.form? id = some f) :
    ∃ f', t.form? id = some f' ∧ skeleton f' = skeleton f := by
  have hid := h.form? id
  rw [hf, Option.map_some] at hid
  simpa using hid

theorem children (h : Redrawn s t) (hf : s.form? id = some f) :
    ∃ f', t.form? id = some f' ∧ f'.children = f.children := by
  obtain ⟨f', hf', hskel⟩ := h.exists_form hf
  exact ⟨f', hf', by rw [← children_skeleton f', hskel, children_skeleton]⟩

theorem of_alter {g : Node → Node} (hform : ∀ n, s.node? id = some n → skeleton (g n).form = skeleton n.form)
    (htype : ∀ n, (g n).type = n.type) : Redrawn s (s.alter id g) where
  settings := rfl
  form? j := by
    rw [Session.form?, Session.form?, node?_alter]
    split
    · subst j
      cases hn : s.node? id with
      | none => rfl
      | some n => simp [hform n hn]
    · rfl
  type? j := by
    rw [Session.type?, Session.type?, node?_alter]
    split
    · cases hn : s.node? j with
      | none => rfl
      | some n => simp [htype]
    · rfl

end Redrawn

theorem Titles.skeleton (h : Titles f f') : skeleton f' = skeleton f := by
  cases h with
  | function h =>
    subst h
    rfl
  | _ => rfl

/-! ## Disposal -/

def below {β : Type} (path : Path) (xs : List (Path × β)) : List (Path × β) :=
  xs.map fun x => (path ++ x.1, x.2)

/-- The foreign nodes that the client disposes of for a form: none in a handler. -/
def disposedIn (inner : Operand → Option (List (Path × String))) : Form → Option (List (Path × String))
  | .handler _ => some []
  | .foreign text _ => some [([], text)]
  | f => ((operands f).mapM fun o => (inner o.2).map (below o.1)).map List.flatten

/-- The foreign nodes that the client disposes of for an operand: all that are not in a handler. -/
def disposed (s : Session) : Nat → Operand → Option (List (Path × String))
  | depth + 1, .node id => (s.form? id).bind (disposedIn (disposed s depth))
  | _, _ => none

def isPassed : Form → Prop
  | .handler _ | .foreign .. => False
  | _ => True

theorem disposedIn_of_isPassed (inner : Operand → Option (List (Path × String))) (h : isPassed f) :
    disposedIn inner f = ((operands f).mapM fun o => (inner o.2).map (below o.1)).map List.flatten := by
  unfold disposedIn
  split
  · cases h
  · cases h
  · rfl

def disposal (text : String) : String := "dispose(" ++ text ++ ");"

def Page.disposed (p : Page) (w : Nat) (texts : List String) : Page :=
  (p.1, { p.2 with desk := putLines p.2.desk (if p.1.settings.disposes then texts.map fun x => (w, disposal x) else []) })

inductive VisitsEach {α : Type} (visit : Operand → Emitting α) : List Operand → Page → Page → Prop where
  | nil (p : Page) : VisitsEach visit [] p p
  | cons {o : Operand} {os : List Operand} {r : α} {p p' q : Page} (h : Ends (visit o) p r p')
    (hs : VisitsEach visit os p' q) : VisitsEach visit (o :: os) p q

section

variable {α : Type} {visit : Operand → Emitting α} {p q : Page} {id : NodeId} {f : Form} {os : List Operand}

theorem VisitsEach.append {p' : Page} (h : VisitsEach visit os p p') (h' : VisitsEach visit os' p' q) :
    VisitsEach visit (os ++ os') p q := by
  induction h with
  | nil => exact h'
  | cons hv _ ih => exact .cons hv (ih h')

theorem VisitsEach.split (h : VisitsEach visit (os ++ os') p q) :
    ∃ p', VisitsEach visit os p p' ∧ VisitsEach visit os' p' q := by
  induction os generalizing p with
  | nil => exact ⟨p, .nil p, h⟩
  | cons o os ih =>
    cases h with
    | cons hv hs =>
      obtain ⟨p', h1, h2⟩ := ih hs
      exact ⟨p', .cons hv h1, h2⟩

theorem visitsEach_nil (x : β) : (∃ r, Ends (pure x : Emitting β) p r q) ↔ VisitsEach visit [] p q := by
  simp only [ends_pure]
  constructor
  · rintro ⟨_, rfl, rfl⟩
    exact .nil _
  · rintro ⟨⟩
    exact ⟨_, rfl, rfl⟩

theorem ends_mapM_zipIdx {items : List Operand} {k : Nat} :
    (∃ r, Ends ((items.zipIdx k).mapM fun (o, _) => visit o) p r q) ↔ VisitsEach visit items p q := by
  induction items generalizing p k with
  | nil => exact visitsEach_nil []
  | cons o items ih =>
    simp only [List.zipIdx_cons, List.mapM_cons, ends_bind, ends_pure]
    constructor
    · rintro ⟨_, x, p', hx, xs, _, hxs, rfl, rfl⟩
      exact .cons hx (ih.1 ⟨xs, hxs⟩)
    · rintro (_ | ⟨hx, hs⟩)
      obtain ⟨xs, hxs⟩ := ih.2 hs
      exact ⟨_, _, _, hx, xs, q, hxs, rfl, rfl⟩

theorem visitsEach_one : VisitsEach visit [o] p q ↔ ∃ r, Ends (visit o) p r q := by
  constructor
  · rintro (_ | ⟨h, hs⟩)
    cases hs
    exact ⟨_, h⟩
  · rintro ⟨r, h⟩
    exact .cons h (.nil q)

theorem ends_bind_pure {a : Emitting β} {g : β → α} :
    (∃ r, Ends (a >>= fun x => pure (g x)) p r q) ↔ ∃ r, Ends a p r q := by
  simp only [ends_bind, ends_pure]
  constructor
  · rintro ⟨_, x, _, h, rfl, rfl⟩
    exact ⟨x, h⟩
  · rintro ⟨x, h⟩
    exact ⟨_, x, q, h, rfl, rfl⟩

theorem ends_node_bind {n : Node} (hn : s.node? id = some n)
    {b : Node → Emitting β} {r : β} : Ends (liftM (node id) >>= b) (s, e) r q ↔ Ends (b n) (s, e) r q := by
  simp only [ends_act_bind, runs_node, hn, Option.some.injEq]
  constructor
  · rintro ⟨_, _, ⟨rfl, rfl⟩, h⟩
    exact h
  · exact fun h => ⟨n, s, ⟨rfl, rfl⟩, h⟩

theorem ends_visitPosition (hf : p.1.form? id = some f) (hl : f.children.lookup name = some o) :
    (∃ r, Ends (visitPosition (fun _ _ c => visit c) id name) p r q) ↔
      VisitsEach visit ((placed name o).map (·.2)) p q := by
  obtain ⟨s, e⟩ := p
  obtain ⟨n, hn, rfl⟩ := node?_of_form? hf
  simp only [visitPosition, ends_node_bind hn, hl]
  cases o with
  | node j =>
    simp only [placed, List.map_cons, List.map_nil, visitsEach_one]
    exact ends_bind_pure
  | group items =>
    have hitems : (placed name (.group items)).map (·.2) = items := by
      simp [placed, List.map_map, Function.comp_def]
    rw [hitems, ← ends_mapM_zipIdx]
    exact ends_bind_pure
  | datum d =>
    cases d with
    | null => exact visitsEach_nil none
    | _ =>
      simp only [placed, List.map_cons, List.map_nil, visitsEach_one]
      exact ends_bind_pure

theorem ends_visitPositions (hkeep : ∀ {o p r q}, Ends (visit o) p r q → q.1 = p.1) (hf : p.1.form? id = some f) (hcs : ∀ c ∈ cs, c ∈ f.children) :
    (∃ r, Ends ((cs.map (·.1)).filterMapM (visitPosition (fun _ _ c => visit c) id)) p r q) ↔
      VisitsEach visit ((cs.flatMap fun c => placed c.1 c.2).map (·.2)) p q := by
  have hsession : ∀ {os : List Operand} {p q : Page}, VisitsEach visit os p q → q.1 = p.1 := by
    intro os p q h
    induction h with
    | nil => rfl
    | cons hv _ ih => exact ih.trans (hkeep hv)
  induction cs generalizing p with
  | nil =>
    exact visitsEach_nil []
  | cons c cs ih =>
    have hl := lookup_of_mem_children (hcs c (by simp))
    have hcs' : ∀ c ∈ cs, c ∈ f.children := fun c hc => hcs c (by simp [hc])
    simp only [List.map_cons, List.filterMapM_cons, ends_bind, List.flatMap_cons, List.map_append]
    constructor
    · rintro ⟨_, x, p', hx, hrest⟩
      have hfirst := (ends_visitPosition hf hl).1 ⟨x, hx⟩
      refine hfirst.append ((ih (by rw [hsession hfirst]; exact hf) hcs').1 ?_)
      cases x with
      | none => exact ⟨_, hrest⟩
      | some x =>
        simp only [ends_bind] at hrest
        obtain ⟨xs, _, hxs, hrest⟩ := hrest
        obtain ⟨-, rfl⟩ := ends_pure.1 hrest
        exact ⟨xs, hxs⟩
    · intro h
      obtain ⟨p', hfirst, hrest⟩ := h.split
      obtain ⟨x, hx⟩ := (ends_visitPosition hf hl).2 hfirst
      obtain ⟨xs, hxs⟩ := (ih (by rw [hsession hfirst]; exact hf) hcs').2 hrest
      cases x with
      | none => exact ⟨xs, none, p', hx, hxs⟩
      | some x => exact ⟨x :: xs, some x, p', hx, ends_bind.2 ⟨xs, q, hxs, ends_pure.2 ⟨rfl, rfl⟩⟩⟩

theorem ends_visitChildren (hkeep : ∀ {o p r q}, Ends (visit o) p r q → q.1 = p.1) (hf : p.1.form? id = some f) :
    (∃ r, Ends (visitChildren (fun _ _ c => visit c) id) p r q) ↔ VisitsEach visit ((operands f).map (·.2)) p q := by
  obtain ⟨s, e⟩ := p
  obtain ⟨n, hn, rfl⟩ := node?_of_form? hf
  rw [operands, ← ends_visitPositions hkeep hf fun c hc => hc]
  simp only [visitChildren, ends_node_bind hn]

theorem Page.disposed_nil (p : Page) (w : Nat) : p.disposed w [] = p := by
  simp [Page.disposed, putLines]

theorem Page.disposed_append (p : Page) (w : Nat) (xs ys : List String) :
    p.disposed w (xs ++ ys) = (p.disposed w xs).disposed w ys := by
  unfold Page.disposed
  split <;> simp [putLines]

theorem visitsEach_disposed {dispose : Operand → Emitting Unit} {clear : Operand → Option (List (Path × String))}
    (hdispose : ∀ {o : Operand} {p q : Page}, p.1 = s → ((∃ r, Ends (dispose o) p r q) ↔
      ∃ xs, clear o = some xs ∧ q = p.disposed w (xs.map (·.2)))) {os : List (Path × Operand)}
    {p q : Page} (hp : p.1 = s) :
    VisitsEach dispose (os.map (·.2)) p q ↔
      ∃ xss, os.mapM (fun o => (clear o.2).map (below o.1)) = some xss ∧ q = p.disposed w (xss.flatten.map (·.2)) := by
  induction os generalizing p with
  | nil =>
    simp only [List.map_nil, List.mapM_nil, Option.pure_def, Option.some.injEq]
    constructor
    · rintro ⟨⟩
      exact ⟨[], rfl, (Page.disposed_nil _ w).symm⟩
    · rintro ⟨_, rfl, rfl⟩
      rw [List.flatten_nil, List.map_nil, Page.disposed_nil]
      exact .nil p
  | cons o os ih =>
    have hsnd : ∀ xs : List (Path × String), (below o.1 xs).map (·.2) = xs.map (·.2) := by simp [below]
    simp only [List.map_cons, List.mapM_cons, Option.pure_def, Option.bind_eq_bind, Option.bind_eq_some_iff,
      Option.map_eq_some_iff, Option.some.injEq]
    constructor
    · rintro (_ | ⟨h, hs⟩)
      obtain ⟨xs, hxs, rfl⟩ := (hdispose hp).1 ⟨_, h⟩
      obtain ⟨xss, hxss, rfl⟩ := (ih (p := p.disposed w (xs.map (·.2))) hp).1 hs
      refine ⟨_, ⟨_, ⟨xs, hxs, rfl⟩, xss, hxss, rfl⟩, ?_⟩
      rw [List.flatten_cons, List.map_append, hsnd, Page.disposed_append]
    · rintro ⟨_, ⟨_, ⟨xs, hxs, rfl⟩, xss, hxss, rfl⟩, rfl⟩
      obtain ⟨r, h⟩ := (hdispose (q := p.disposed w (xs.map (·.2))) hp).2 ⟨xs, hxs, rfl⟩
      refine .cons h ((ih (p := p.disposed w (xs.map (·.2))) hp).2 ⟨xss, hxss, ?_⟩)
      rw [List.flatten_cons, List.map_append, hsnd, Page.disposed_append]

theorem ends_disposeWithin {r : Unit} : Ends (disposeWithin w depth o) p r q ↔
      ∃ xs, disposed p.1 depth o = some xs ∧ q = p.disposed w (xs.map (·.2)) := by
  induction depth generalizing o p q r with
  | zero =>
    simp only [disposeWithin, ends_throw, disposed]
    simp
  | succ depth ih =>
    obtain ⟨s, e⟩ := p
    cases o with
    | datum d | group items => simp [disposeWithin, ends_throw, disposed]
    | node id =>
      cases hn : s.node? id with
      | none =>
        have hform : s.form? id = none := by rw [Session.form?, hn]; rfl
        simp only [disposeWithin, ends_act_bind, runs_node, hn, disposed, hform]
        simp
      | some n =>
        simp only [disposeWithin, ends_node_bind hn, disposed, form?_of_node? hn, Option.bind_some]
        split
        · rename_i h heq
          simp only [heq, disposedIn, ends_pure, Option.some.injEq]
          constructor
          · rintro ⟨-, rfl⟩
            exact ⟨[], rfl, (Page.disposed_nil _ _).symm⟩
          · rintro ⟨_, rfl, rfl⟩
            exact ⟨trivial, Page.disposed_nil _ _⟩
        · rename_i text owned heq
          simp only [heq, disposedIn, ends_act_bind, runs_settings, Option.some.injEq]
          constructor
          · rintro ⟨_, _, ⟨rfl, rfl⟩, h⟩
            refine ⟨_, rfl, ?_⟩
            split at h
            · rw [ends_putLineTo.1 h]
              simp [Page.disposed, Page.putLine, disposal, *]
            · simpa [Page.disposed, putLines, *] using (ends_pure.1 h).2
          · rintro ⟨_, rfl, rfl⟩
            refine ⟨_, _, ⟨rfl, rfl⟩, ?_⟩
            split
            · exact ends_putLineTo.2 (by simp [Page.disposed, Page.putLine, disposal, *])
            · exact ends_pure.2 ⟨rfl, by simp [Page.disposed, putLines, *]⟩
        · rename_i hh hfo
          have hpassed : isPassed n.form := by
            unfold isPassed
            split
            · exact hh _ ‹_›
            · exact hfo _ _ ‹_›
            · trivial
          have hkeep : ∀ {o p r q}, Ends (disposeWithin w depth o) p r q → q.1 = p.1 := by
            intro o p r q h
            obtain ⟨xs, -, rfl⟩ := ih.1 h
            rfl
          have hinner : ∀ {o : Operand} {p q : Page}, p.1 = s → ((∃ r, Ends (disposeWithin w depth o) p r q) ↔
              ∃ xs, disposed s depth o = some xs ∧ q = p.disposed w (xs.map (·.2))) := by
            rintro o p q rfl
            constructor
            · rintro ⟨r, h⟩
              exact ih.1 h
            · exact fun h => ⟨(), ih.2 h⟩
          have hchildren := @ends_visitChildren _ (disposeWithin w depth) (s, e) q _ _ hkeep (form?_of_node? hn)
          rw [visitsEach_disposed hinner rfl] at hchildren
          rw [disposedIn_of_isPassed _ hpassed]
          simp only [Option.map_eq_some_iff, ends_bind, ends_pure]
          constructor
          · rintro ⟨x, _, h, -, rfl⟩
            obtain ⟨xss, hxss, hq⟩ := hchildren.1 ⟨x, h⟩
            exact ⟨_, ⟨xss, hxss, rfl⟩, hq⟩
          · rintro ⟨_, ⟨xss, hxss, rfl⟩, hq⟩
            obtain ⟨x, h⟩ := hchildren.2 ⟨xss, hxss, hq⟩
            exact ⟨x, q, h, trivial, rfl⟩

end

/-! ## Visits -/

theorem Does.keeps {a : Act} {p q : Page} (h : Does a p q) :
    Redrawn p.1 q.1 ∧ ∀ id ∈ p.2.declared, id ∈ q.2.declared := by
  cases h with
  | name hv hrole hid =>
    refine ⟨.of_alter (fun n _ => ?_) fun _ => rfl, fun j hj => List.mem_append_left _ hj⟩
    simp only [Node.reform]
    split
    · rename_i heq
      rw [heq]
      rfl
    · rfl
  | title hf htitle =>
    refine ⟨.of_alter (fun n hn => ?_) fun _ => rfl, fun _ hj => hj⟩
    rw [Node.reform, form_of_node? hn hf]
    exact htitle.skeleton
  | mark => exact ⟨.of_alter (fun _ _ => rfl) fun _ => rfl, fun _ hj => hj⟩
  | dispose h =>
    obtain ⟨xs, -, rfl⟩ := ends_disposeWithin.1 h
    exact ⟨.refl _, fun _ hj => hj⟩
  | _ => exact ⟨.refl _, fun _ hj => hj⟩

structure Visiting (visit : Operand → Emitting Rendered) : Prop where
  node : ∀ {o p r q}, Ends (visit o) p r q → ∃ id, o = .node id
  keeps : ∀ {o p r q}, Ends (visit o) p r q → Redrawn p.1 q.1 ∧ ∀ id ∈ p.2.declared, id ∈ q.2.declared

theorem Performs.keeps {visit : Operand → Emitting Rendered} {p q : Page} (hv : Visiting visit)
    (h : Performs (writing visit) as p q) : Redrawn p.1 q.1 ∧ ∀ id ∈ p.2.declared, id ∈ q.2.declared := by
  induction h with
  | nil => exact ⟨.refl _, fun _ hj => hj⟩
  | visit h _ ih =>
    obtain ⟨r, h⟩ := h
    exact ⟨(hv.keeps h).1.trans ih.1, fun id hid => ih.2 id ((hv.keeps h).2 id hid)⟩
  | block _ _ ihb ih => exact ⟨ihb.1.trans ih.1, fun id hid => ih.2 id (ihb.2 id hid)⟩
  | act h _ ih => exact ⟨h.keeps.1.trans ih.1, fun id hid => ih.2 id (h.keeps.2 id hid)⟩

def visits (xs : List (Path × NodeId)) : List Act := xs.map fun x => .visit x.1 x.2

def Act.visited? : Act → Option (Path × NodeId)
  | .visit path id => some (path, id)
  | _ => none

def Act.isFlat : Act → Bool
  | .visit .. | .put _ | .mark _ => true
  | _ => false

def Straight (xs : List (Path × NodeId)) (as : List Act) : Prop :=
  (∀ a ∈ as, a.isFlat = true) ∧ as.filterMap Act.visited? = xs

theorem straight_nil : Straight [] [] := ⟨by simp, rfl⟩

theorem straight_visits (xs : List (Path × NodeId)) : Straight xs (visits xs) := by
  refine ⟨fun a ha => ?_, ?_⟩
  · obtain ⟨x, -, rfl⟩ := List.mem_map.1 ha
    rfl
  · rw [visits, List.filterMap_map]
    exact List.filterMap_some

theorem Straight.append {xs ys : List (Path × NodeId)} (h : Straight xs as) (h' : Straight ys bs) :
    Straight (xs ++ ys) (as ++ bs) := by
  refine ⟨fun a ha => ?_, by rw [List.filterMap_append, h.2, h'.2]⟩
  rcases List.mem_append.1 ha with ha | ha
  · exact h.1 a ha
  · exact h'.1 a ha

def Plain {α : Type} (visit : Operand → Emitting Rendered) (a : Emitting α) (xs : List (Path × NodeId)) : Prop :=
  ∀ pre, Writes visit pre a fun _ _ as => Straight xs as

section

variable {α β : Type} {visit : Operand → Emitting Rendered} {a : Emitting α} {f : α → Emitting β}
variable {xs ys : List (Path × NodeId)} {pre : Page → Prop}

theorem plain_of_writes {Q : Page → α → Prop} (hbs : Straight xs bs)
    (h : ∀ pre, Writes visit pre a fun p r as => Q p r ∧ as = bs) : Plain visit a xs :=
  fun pre => (h pre).imp fun _ _ _ _ h => h.2 ▸ hbs

theorem plain_pure (x : α) : Plain visit (pure x) [] := plain_of_writes straight_nil fun _ => writes_pure x

theorem plain_throw (e : Fault) : Plain visit (throw e : Emitting α) xs := fun _ => writes_throw e

theorem plain_read {a : Action α} (h : Reads a) : Plain visit (liftM a) [] :=
  plain_of_writes straight_nil fun _ => writes_read h

theorem plain_putLine (line : String) : Plain visit (putLine line) [] :=
  plain_of_writes ⟨by simp [Act.isFlat], rfl⟩ fun _ => writes_putLine line

theorem plain_mark (id : NodeId) : Plain visit (liftM (updateMarks id fun k => { k with isStatement := true })) [] :=
  plain_of_writes ⟨by simp [Act.isFlat], rfl⟩ fun _ => writes_mark id

theorem Plain.bind (ha : Plain visit a xs) (hf : ∀ x, Plain visit (f x) ys) : Plain visit (a >>= f) (xs ++ ys) := by
  refine fun pre => ((ha pre).bind fun x => hf x _).imp ?_
  rintro p r as - ⟨x, p', bs, cs, hbs, -, hcs, rfl⟩
  exact hbs.append hcs

theorem Plain.after (ha : Plain visit a []) (hf : ∀ x, Plain visit (f x) ys) : Plain visit (a >>= f) ys := ha.bind hf

theorem Plain.before (ha : Plain visit a xs) (hf : ∀ x, Plain visit (f x) []) : Plain visit (a >>= f) xs := by
  simpa using ha.bind hf

theorem plain_mapM {g : Operand → Emitting α} (hg : ∀ path o, Plain visit (g o) (nodesAmong [(path, o)]))
    (path : Nat → Path) (os : List Operand) (k : Nat) :
    Plain visit (os.mapM g) (nodesAmong ((os.zipIdx k).map fun (o, i) => (path i, o))) := by
  induction os generalizing k with
  | nil => exact plain_pure []
  | cons o os ih =>
    rw [List.mapM_cons, List.zipIdx_cons, List.map_cons, ← List.singleton_append, nodesAmong_append]
    exact (hg (path k) o).bind fun x => (ih (k + 1)).before fun xs => plain_pure _

theorem plain_reads {b : α → Action β} (hb : ∀ x, Reads (b x)) (xs : List α) :
    Plain visit (xs.mapM fun x => (liftM (b x) : Emitting β)) [] := by
  induction xs with
  | nil => exact plain_pure []
  | cons x xs ih =>
    rw [List.mapM_cons]
    exact (plain_read (hb x)).after fun y => ih.after fun ys => plain_pure _

theorem nodesAmong_of_not_truthy (h : o.truthy = false) : nodesAmong (placed name o) = [] := by
  cases o with
  | node id => cases h
  | group items =>
    obtain rfl : items = [] := by simpa [Operand.truthy] using h
    rfl
  | datum d => cases d <;> rfl

theorem plain_ite {c : Prop} [Decidable c] {a b : Emitting α} (ha : c → Plain visit a xs) (hb : ¬c → Plain visit b xs) :
    Plain visit (if c then a else b) xs := by
  split
  · exact ha ‹_›
  · exact hb ‹_›

theorem plain_optional {b : Emitting α} (ha : Plain visit a (nodesAmong (placed name o) ++ xs)) (hb : Plain visit b xs) :
    Plain visit (if o.truthy then a else b) (nodesAmong (placed name o) ++ xs) := by
  refine plain_ite (fun _ => ha) fun h => ?_
  rw [nodesAmong_of_not_truthy (by simpa using h)]
  exact hb

theorem plain_constant (id : NodeId) (value : Datum) : Plain visit (emitConstant id value) [] := by
  refine (plain_read (reads_knownType _)).after fun t => plain_ite (fun _ => ?_) fun _ => plain_pure _
  split
  · refine fun pre => Writes.settings (fun _ => rfl) fun x => ?_
    cases x.stringStyle
    · exact (plain_throw _).after (fun _ => plain_pure _) pre
    · exact plain_pure _ pre
    · exact plain_pure _ pre
  · exact plain_throw _

section

variable (hv : Visiting visit)
include hv

theorem writes_visit (path : Path) (o : Operand) :
    Writes visit pre (visit o) fun _ _ as => ∃ id, o = .node id ∧ as = [.visit path id] := by
  intro p r q _ hend
  obtain ⟨id, rfl⟩ := hv.node hend
  refine ⟨[.visit path id], ⟨id, rfl, rfl⟩, .visit ⟨r, hend⟩ (.nil _), fun p' q' hagree htwice => ?_⟩
  cases htwice with
  | act h => cases h.1
  | visit h hs =>
    obtain ⟨r', h1, h2, -⟩ := h
    cases hs with
    | nil =>
      obtain ⟨rfl, -⟩ := ends_unique hend h1
      exact h2

theorem plain_visit (path : Path) (o : Operand) : Plain visit (visit o) (nodesAmong [(path, o)]) := by
  refine fun pre => (writes_visit hv path o).imp ?_
  rintro p r as - ⟨id, rfl, rfl⟩
  exact straight_visits [(path, id)]

theorem plain_child (name : String) (o : Operand) : Plain visit (visit o) (nodesAmong (placed name o)) := by
  cases o with
  | node id => exact plain_visit hv [(name, 0)] _
  | _ =>
    intro pre p r q _ hend
    obtain ⟨id, hid⟩ := hv.node hend
    cases hid

theorem plain_results (name : String) (o : Operand) :
    Plain visit (results visit o) (nodesAmong (placed name o)) := by
  cases o with
  | group items => exact plain_mapM (plain_visit hv) (fun i => [(name, i)]) items 0
  | node id | datum d => exact (plain_child hv name _).before fun _ => plain_pure _

theorem plain_single (name : String) (o : Operand) :
    Plain visit (single visit o) (nodesAmong (placed name o)) := by
  refine (plain_results hv name o).before fun rs => ?_
  split
  · exact plain_pure _
  · exact plain_throw _

theorem plain_commaList (name : String) (o : Operand) :
    Plain visit (commaList visit o) (nodesAmong (placed name o)) := by
  refine (plain_results hv name o).before fun rs => ?_
  exact (plain_reads (fun r => reads_ofExcept (Rendered.asText r)) rs).after fun _ => plain_pure _

theorem plain_branch (b : Branch) : Plain visit (emitBranch visit b) (places (.branch b)) := by
  have hplaces : places (.branch b) = nodesAmong (placed "cond" b.condition) ++
      (nodesAmong (placed "body" b.body) ++ (nodesAmong (placed "else_body" b.otherwise) ++ [])) := by
    simp [places, operands, Form.children]
  rw [hplaces]
  refine (plain_single hv "cond" b.condition).bind fun c => (plain_putLine _).after fun _ =>
    (plain_child hv "body" b.body).bind fun _ => plain_optional ?_ (plain_putLine _)
  exact (plain_putLine _).after fun _ => (plain_child hv "else_body" b.otherwise).bind fun _ => plain_putLine _

theorem plain_parallelChoice (a b : Operand) :
    Plain visit (emitParallelChoice visit a b) (places (.parallelChoice a b)) := by
  have hplaces : places (.parallelChoice a b) = nodesAmong (placed "if_body" a) ++
      (nodesAmong (placed "else_body" b) ++ []) := by
    simp [places, operands, Form.children]
  have hother (line : String) : Plain visit (do
      if b.truthy then
        putLine line
        let _ ← visit b
      putLine "#endif") (nodesAmong (placed "else_body" b) ++ []) := by
    refine plain_optional ?_ (plain_putLine _)
    exact (plain_putLine _).after fun _ => (plain_child hv "else_body" b).bind fun _ => plain_putLine _
  rw [hplaces]
  exact plain_optional ((plain_putLine _).after fun _ => (plain_child hv "if_body" a).bind fun _ => hother _) (hother _)

theorem plain_parallelLoop (l c ls ps : Operand) :
    Plain visit (emitParallelLoop visit l c ls ps) (nodesAmong (placed "if_clause" c) ++
      (nodesAmong (placed "lastprivates" ls) ++ (nodesAmong (placed "privates" ps) ++ nodesAmong (placed "for_node" l)))) := by
  have hrest {line : String} : Plain visit (do
      putLine line
      putLine "#endif"
      let _ ← visit l) (nodesAmong (placed "for_node" l)) :=
    (plain_putLine _).after fun _ => (plain_putLine _).after fun _ => (plain_child hv "for_node" l).before fun _ => plain_pure _
  refine (plain_putLine _).after fun _ => (plain_child hv "if_clause" c).bind fun _ =>
    (plain_commaList hv "lastprivates" ls).bind fun _ => plain_optional ?_ ((plain_pure _).after fun _ => hrest)
  exact (plain_commaList hv "privates" ps).bind fun _ => (plain_pure _).after fun _ => hrest

theorem plain_statement (o : Operand) : Plain visit (emitStatement visit o) (places (.statement o)) := by
  have hplaces : places (.statement o) = nodesAmong (placed "expr" o) := by
    simp [places, operands, Form.children]
  rw [hplaces]
  refine (plain_read (reads_identity o)).after fun id => (plain_mark id).after fun _ =>
    (plain_child hv "expr" o).before fun r => ?_
  split
  · exact plain_pure _
  · split
    · exact plain_putLine _
    · exact plain_pure _
  · exact plain_throw _

theorem plain_store (l r : Operand) :
    Plain visit (emitStore visit l r) (nodesAmong (placed "lhs" l) ++ nodesAmong (placed "rhs" r)) := by
  refine (plain_results hv "lhs" l).bind fun _ => (plain_results hv "rhs" r).before fun _ => ?_
  split
  · exact plain_pure _
  · exact plain_throw _

end

end

/-! ## Scripts of single actions -/

section

variable {visit : Operand → Emitting Rendered} {pre : Page → Prop} {id : NodeId} {f : Form}
variable {α β : Type} {a : Emitting α} {xs ys : List (Path × NodeId)}

theorem Writes.given {acts : Page → α → List Act → Prop} {P : Prop} (hP : ∀ {p}, pre p → P)
    (h : P → Writes visit pre a acts) : Writes visit pre a acts := fun _ _ _ hp hend => h (hP hp) hp hend

def Later (visit : Operand → Emitting Rendered) (pre : Page → Prop) (q : Page) : Prop :=
  ∃ p as, pre p ∧ Performs (writing visit) as p q

theorem Writes.seq {b : α → Emitting β} (ha : Writes visit pre a fun _ _ as => Straight xs as)
    (hb : ∀ x, Writes visit (Later visit pre) (b x) fun _ _ as => Straight ys as) :
    Writes visit pre (a >>= b) fun _ _ as => Straight (xs ++ ys) as := by
  refine (ha.bind fun x => (hb x).mono ?_ fun _ _ _ _ h => h).imp ?_
  · rintro q ⟨p, as, hp, -, hperf⟩
    exact ⟨p, as, hp, hperf⟩
  · rintro p r as - ⟨x, p', bs, cs, hbs, -, hcs, rfl⟩
    exact hbs.append hcs

def Opens (xs : List (Path × NodeId)) (rest : List Act → Prop) (as : List Act) : Prop :=
  ∃ hs cs, Straight xs hs ∧ rest cs ∧ as = hs ++ cs

theorem Plain.opens {f : α → Emitting β} (ha : Plain visit a xs)
    (hf : ∀ x, Writes visit (Later visit pre) (f x) fun _ _ as => Opens ys rest as) :
    Writes visit pre (a >>= f) fun _ _ as => Opens (xs ++ ys) rest as := by
  refine ((ha pre).bind fun x => (hf x).mono ?_ fun _ _ _ _ h => h).imp ?_
  · rintro q ⟨p, as, hp, -, hperf⟩
    exact ⟨p, as, hp, hperf⟩
  · rintro p r as - ⟨x, p', bs, _, hbs, -, ⟨hs, cs, hhs, hcs, rfl⟩, rfl⟩
    exact ⟨bs ++ hs, cs, hbs.append hhs, hcs, (List.append_assoc ..).symm⟩

theorem Plain.opensLast {f : α → Emitting β} (ha : Plain visit a xs)
    (hf : ∀ x, Writes visit (Later visit pre) (f x) fun _ _ as => Opens [] rest as) :
    Writes visit pre (a >>= f) fun _ _ as => Opens xs rest as := by
  simpa using ha.opens hf

theorem Writes.opens (h : Writes visit pre a fun _ _ as => rest as) :
    Writes visit pre a fun _ _ as => Opens [] rest as :=
  h.imp fun _ _ as _ h => ⟨[], as, straight_nil, h, rfl⟩

variable (hv : Visiting visit) {t : Session}
include hv

theorem Later.children {q : Page}
    (hpre : ∀ {p}, pre p → ∃ f', p.1.form? id = some f' ∧ f'.children = f.children) (h : Later visit pre q) :
    ∃ f', q.1.form? id = some f' ∧ f'.children = f.children := by
  obtain ⟨p, as, hp, hperf⟩ := h
  obtain ⟨f', hf', hchildren⟩ := hpre hp
  obtain ⟨f'', hf'', hchildren'⟩ := (hperf.keeps hv).1.children hf'
  exact ⟨f'', hf'', hchildren'.trans hchildren⟩

theorem writes_visitPosition
    (hpre : ∀ {p}, pre p → ∃ f, p.1.form? id = some f ∧ f.children.lookup name = some o) :
    Writes visit pre (visitPosition (fun _ _ c => visit c) id name) fun _ _ as => Straight (nodesAmong (placed name o)) as := by
  refine .reading (reads_node id) fun n => Writes.given (P := n.form.children.lookup name = some o) ?_ fun hl => ?_
  · rintro p ⟨hp, hrun⟩
    obtain ⟨f, hf, hl⟩ := hpre hp
    rw [form?_of_node? (runs_node.1 hrun).1] at hf
    rw [Option.some.inj hf, hl]
  · rw [hl]
    cases o with
    | node j => exact (plain_child hv name _).before (fun _ => plain_pure _) _
    | group items =>
      have hitems : (items.zipIdx.mapM fun (o, _) => visit o) = items.mapM visit := by
        conv_rhs => rw [← List.zipIdx_map_fst 0 items, List.mapM_map]
        rfl
      simp only [hitems]
      exact (plain_mapM (plain_visit hv) (fun i => [(name, i)]) items 0).before (fun _ => plain_pure _) _
    | datum d =>
      cases d with
      | null => exact plain_pure _ _
      | _ => exact (plain_child hv name _).before (fun _ => plain_pure _) _

/-- A position is read when its turn comes, and the children of a node do not change meanwhile. -/
theorem writes_visitPositions (hcs : ∀ c ∈ cs, c ∈ f.children)
    (hpre : ∀ {p}, pre p → ∃ f', p.1.form? id = some f' ∧ f'.children = f.children) :
    Writes visit pre ((cs.map (·.1)).filterMapM (visitPosition (fun _ _ c => visit c) id))
      fun _ _ as => Straight (nodesAmong (cs.flatMap fun c => placed c.1 c.2)) as := by
  induction cs generalizing pre with
  | nil => exact plain_pure [] pre
  | cons c cs ih =>
    have hl := lookup_of_mem_children (hcs c (by simp))
    rw [List.map_cons, List.filterMapM_cons, List.flatMap_cons, nodesAmong_append]
    refine Writes.seq (writes_visitPosition hv fun hp => ?_) fun x => ?_
    · obtain ⟨f', hf', hchildren⟩ := hpre hp
      exact ⟨f', hf', by rw [hchildren, hl]⟩
    · have hrest := ih (fun c hc => hcs c (by simp [hc])) (Later.children hv hpre)
      cases x with
      | none => exact hrest
      | some x =>
        have hall := Writes.seq hrest fun xs => plain_pure (x :: xs) _
        simpa using hall

theorem writes_visitChildren (hpre : ∀ {p}, pre p → ∃ f', p.1.form? id = some f' ∧ f'.children = f.children) :
    Writes visit pre (visitChildren (fun _ _ c => visit c) id) fun _ _ as => Straight (places f) as := by
  refine .reading (reads_node id) fun n => Writes.given (P := n.form.children = f.children) ?_ fun hn => ?_
  · rintro p ⟨hp, hrun⟩
    obtain ⟨f', hf', hchildren⟩ := hpre hp
    rw [form?_of_node? (runs_node.1 hrun).1] at hf'
    rw [Option.some.inj hf', hchildren]
  · rw [hn]
    exact writes_visitPositions hv (fun c hc => hc) fun hp => hpre hp.1

omit hv

/-! ### Temporaries, variables, labels -/

theorem writes_putDeclaration (hpre : ∀ {p}, pre p → ∃ v : Variable, p.1.form? id = some (.var v)) :
    Writes visit pre (putDeclaration id value) fun _ _ as => ∃ line, as = [.declare id line] := by
  intro p r q hp hend
  obtain ⟨v, hv⟩ := hpre hp
  obtain ⟨s, e⟩ := p
  rw [putDeclaration, ends_get_bind] at hend
  split at hend
  · rename_i w hw
    simp only [ends_act_bind, ends_putLineTo] at hend
    obtain ⟨t, _, ht, type, _, htype, name, _, hname, x, _, hx, hq⟩ := hend
    obtain ⟨rfl, ht'⟩ := reads_typeOf _ ht
    obtain ⟨rfl, htype'⟩ := reads_typeText _ htype
    obtain ⟨rfl, hname'⟩ := reads_nameOf _ hname
    obtain ⟨rfl, hx'⟩ := reads_shownName _ hx
    obtain ⟨_, hid, htid, -⟩ := runs_typeOf.1 ht
    cases hid
    obtain ⟨rfl, -⟩ := (runs_nameOf_var hv).1 hname
    have hline : DeclarationOf _ id (type ++ " " ++ x ++ value.initializer ++ ";") :=
      ⟨t, v, type, x, value, htid, (runs_typeText.1 htype).1, hv, hx, rfl⟩
    subst hq
    refine ⟨[.declare id _], ⟨_, rfl⟩, .act (.declare hw hline) (.nil _), fun p' q' hagree htwice => ?_⟩
    cases htwice with
    | @act _ _ _ P _ h hs =>
      obtain ⟨P1, P2⟩ := P
      obtain ⟨-, h, -⟩ := h
      cases hs
      obtain ⟨s', e'⟩ := p'
      cases h with
      | declare hw' =>
        obtain rfl : s' = hushed _ := hagree.session
        have hwriter : e'.desk.writer e'.main = e.desk.writer e.main := hagree.writer
        have hw'' : (e'.desk.writer e'.main).declarationLevels.getLast? = some w := by rw [hwriter, hw]
        obtain rfl := Option.some.inj (hw'.symm.trans hw'')
        rw [putDeclaration, ends_get_bind, hw'']
        simp only [ends_act_bind, ends_putLineTo]
        exact ⟨t, _, ht', type, _, htype', _, _, hname', x, _, hx', rfl⟩
  · cases ends_throw.1 hend

theorem performs_one {a : Act} {p q : Page} (h : Performs (writing visit) [a] p q) (hvisit : a.visited? = none)
    (hblock : ∀ bs, a ≠ .block bs) : Does a p q := by
  cases h with
  | visit => cases hvisit
  | block => exact absurd rfl (hblock _)
  | act h hs =>
    cases hs
    exact h

theorem writes_declareNew (hpre : ∀ {p}, pre p → Nameless id shown p) :
    Writes visit pre (declareTemporary id shown value) fun _ _ as => ∃ line, as = [.name id shown, .declare id line] := by
  refine (Writes.get (A := fun _ _ _ as => ∃ line, as = [.name id shown, .declare id line]) (fun hagree => ?_) fun e => ?_)
  · simp only [hagree.declared]
  · refine Writes.given (P := id ∉ e.declared) ?_ fun hid => ?_
    · rintro p ⟨hp, rfl⟩
      exact (hpre hp).2
    · rw [if_pos (by simpa using hid)]
      refine (Writes.cons (writes_nameTemporary fun hp => hpre hp.1) (writes_putDeclaration ?_)).imp ?_
      · rintro q ⟨p, ⟨hp, -⟩, hperf⟩
        obtain ⟨⟨v, hv, -⟩, -⟩ := hpre hp
        have hq := performs_one hperf rfl (by simp)
        cases hq
        exact ⟨_, form?_alter hv⟩
      · rintro p r as - ⟨p', _, -, ⟨line, rfl⟩, rfl⟩
        exact ⟨line, rfl⟩

theorem writes_declareNamed
    (hpre : ∀ {p}, pre p → (∃ v : Variable, p.1.form? id = some (.var v)) ∧ id ∈ p.2.declared) :
    Writes visit pre (declareTemporary id shown value) fun _ _ as => ∃ line, as = [.declare id line] := by
  refine (Writes.get (A := fun _ _ _ as => ∃ line, as = [.declare id line]) (fun hagree => ?_) fun e => ?_)
  · simp only [hagree.declared]
  · refine Writes.given (P := id ∈ e.declared) ?_ fun hid => ?_
    · rintro p ⟨hp, rfl⟩
      exact (hpre hp).2
    · rw [if_neg (by simpa using hid)]
      exact writes_putDeclaration fun hp => (hpre hp.1).1

theorem writes_temporary
    (hpre : ∀ {p}, pre p → ∃ v : Variable, p.1.form? id = some (.var v) ∧ v.role = .temporary shown) :
    Writes visit pre (emitTemporary id shown) fun p _ as => (id ∈ p.2.declared ∧ as = []) ∨
      (Nameless id shown p ∧ ∃ line, as = [.name id shown, .declare id line]) := by
  refine (Writes.get (A := fun e p _ as => (id ∈ e.declared ∧ as = []) ∨
      (Nameless id shown p ∧ ∃ line, as = [.name id shown, .declare id line])) (fun hagree => ?_) fun e => ?_)
  · simp only [hagree.declared]
  · have hread : ∀ {pre : Page → Prop}, Writes visit pre
        (do return .text (← shownName (← nameOf (.node id))) : Emitting Rendered) fun _ _ as => as = [] := by
      intro pre
      exact .afterRead (reads_nameOf _) fun n => .afterRead (reads_shownName n) fun x =>
        (writes_pure _).imp fun _ _ _ _ h => h.2
    by_cases hid : id ∈ e.declared
    · rw [if_neg (by simpa using hid)]
      exact hread.imp fun _ _ _ _ h => .inl ⟨hid, h⟩
    · rw [if_pos (by simpa using hid)]
      have hnameless : ∀ {p : Page}, pre p ∧ p.2 = e → Nameless id shown p := by
        rintro p ⟨hp, rfl⟩
        exact ⟨hpre hp, hid⟩
      refine ((writes_declareNew hnameless).bind fun _ => hread).imp ?_
      rintro p r as hp ⟨_, _, _, _, ⟨line, rfl⟩, -, rfl, rfl⟩
      exact .inr ⟨hnameless hp, line, rfl⟩

theorem writes_variable (hrole : v.role = .plain) (hpre : ∀ {p}, pre p → p.1.form? id = some (.var v)) :
    Writes visit pre (emitVariable id v) fun _ _ as => as = [] ∨ ∃ x, as = [.title id (.var { v with emitted := some x })] := by
  refine .reading (reads_shownName _) fun name => .afterRead (reads_knownType _) fun t => ?_
  have hname : ∀ {p : Page}, pre p ∧ Runs (shownName v.name) p.1 name p.1 → ∀ y, v.name = .ofString y →
      mangle name = mangle y := by
    rintro p ⟨-, hrun⟩ y hy
    rw [hy] at hrun
    rw [(runs_shownName.1 hrun).1]
    rfl
  split
  · exact (writes_pure _).imp fun _ _ _ _ h => .inl h.2
  · cases hemitted : v.emitted with
    | some x => exact (writes_pure _).imp fun _ _ _ _ h => .inl h.2
    | none =>
      have htitle := @writes_title _ visit _ (fun _ => .var { v with emitted := some (mangle name) }) _
        (fun h => hpre h.1) (fun h => .plain hrole hemitted (hname h)) fun _ => rfl
      refine (htitle.cons (f := fun _ => pure (Rendered.text (mangle name))) (writes_pure _)).imp ?_
      rintro p r as - ⟨_, _, -, ⟨-, rfl⟩, rfl⟩
      exact .inr ⟨_, rfl⟩

theorem writes_label {name : Datum} {emitted : Option String} (hpre : ∀ {p}, pre p → p.1.form? id = some (.label name emitted)) :
    Writes visit pre (emitLabel id name emitted) fun _ _ as => (emitted.isSome = true ∧ as = []) ∨
      (emitted = none ∧ ∃ x, as = [.count, .title id (.label name (some x))]) := by
  cases emitted with
  | some x => exact (writes_pure _).imp fun _ _ _ _ h => .inl ⟨rfl, h.2⟩
  | none =>
    intro p r q hp hend
    have hform := hpre hp
    obtain ⟨s, e⟩ := p
    rw [emitLabel, ends_get_bind] at hend
    simp only [ends_bind, ends_set] at hend
    obtain ⟨_, _, rfl, _, _, htitle, hend⟩ := hend
    obtain ⟨t, ht, rfl⟩ := ends_act.1 htitle
    obtain rfl := runs_updateForm.1 ht
    obtain ⟨rfl, rfl⟩ := ends_pure.1 hend
    refine ⟨[.count, .title id _], .inr ⟨rfl, _, rfl⟩, .act (.count _) (.act (.title hform .label) (.nil _)), ?_⟩
    intro p' q' hagree htwice
    cases htwice with
    | @act _ _ _ P _ h hs =>
      obtain ⟨P1, P2⟩ := P
      obtain ⟨-, h, -⟩ := h
      cases hs with
      | @act _ _ _ Q _ h' hs =>
        obtain ⟨Q1, Q2⟩ := Q
        obtain ⟨-, h', -⟩ := h'
        cases hs
        obtain ⟨s', e'⟩ := p'
        have hlabels : e'.labels = e.labels := hagree.labels
        cases h
        cases h'
        rw [emitLabel, ends_get_bind]
        simp only [ends_bind, ends_set]
        refine ⟨⟨⟩, _, rfl, (), _, ends_act.2 ⟨_, runs_updateForm.2 rfl, rfl⟩, ends_pure.2 ⟨?_, ?_⟩⟩
        · rw [hlabels]
        · rw [hlabels]

/-! ### Loops, functions, handlers -/

def LoopTail (l : Loop) (as : List Act) : Prop :=
  ∃ line g bs g', Straight (nodesAmong (placed "init" l.start) ++ nodesAmong (placed "body" l.body)) bs ∧
    as = [.put line, .block (.point :: .loops g :: bs), .loops g', .put "\x7d"]

theorem writes_dispose (o : Operand) :
    Writes visit pre (newInsertionPoint >>= fun w => disposeWithin w depthLimit o) fun _ r as => r = () ∧ as = [.dispose o] := by
  refine writes_one (fun _ h => ⟨rfl, ?_⟩) fun _ _ h => ?_
  · obtain ⟨w, _, hw, h⟩ := ends_bind.1 h
    obtain ⟨rfl, rfl⟩ := ends_newInsertionPoint.1 hw
    exact .dispose h
  · cases h with
    | dispose h => exact ends_bind.2 ⟨_, _, ends_newInsertionPoint.2 ⟨rfl, rfl⟩, h⟩

include hv

theorem writes_loop (l : Loop) : Writes visit pre (emitLoop visit l) fun _ _ as =>
      Opens (nodesAmong (placed "init" l.start) ++ (nodesAmong (placed "condition" l.condition) ++
        nodesAmong (placed "step" l.step))) (LoopTail l) as := by
  have hblock : ∀ {pre : Page → Prop}, Writes visit pre (do
      let w ← newInsertionPoint
      updateMain fun m => { m with loopLevels := m.loopLevels ++ [w] }
      let _ ← visit l.start
      let _ ← visit l.body : Emitting Unit) fun _ _ as => ∃ g bs,
        Straight (nodesAmong (placed "init" l.start) ++ nodesAmong (placed "body" l.body)) bs ∧
        as = .point :: .loops g :: bs := by
    intro pre
    refine (Writes.point fun w => (writes_loops (· ++ [w])).cons
      ((plain_child hv "init" l.start).bind (fun _ => (plain_child hv "body" l.body).before fun _ => plain_pure _) _)).imp ?_
    rintro p r as - ⟨_, ⟨_, bs, -, hbs, rfl⟩, rfl⟩
    exact ⟨_, bs, hbs, rfl⟩
  have htail : ∀ {pre : Page → Prop} line, Writes visit pre (do
      putLine line
      inBlock do
        let w ← newInsertionPoint
        updateMain fun m => { m with loopLevels := m.loopLevels ++ [w] }
        let _ ← visit l.start
        let _ ← visit l.body
      updateMain fun m => { m with loopLevels := m.loopLevels.dropLast }
      putLine "\x7d" : Emitting Unit) fun _ _ as => LoopTail l as := by
    intro pre line
    refine ((writes_putLine line).cons ((writes_inBlock hblock).bind fun _ => (writes_loops List.dropLast).cons
      (writes_putLine _))).imp ?_
    rintro p r as - ⟨_, _, -, ⟨_, _, _, _, ⟨_, ⟨g, bs, hbs, rfl⟩, rfl⟩, -, ⟨_, _, -, ⟨-, rfl⟩, rfl⟩, rfl⟩, rfl⟩
    exact ⟨line, g, bs, _, hbs, rfl⟩
  refine (plain_results hv "init" l.start).opens fun _ => (plain_results hv "condition" l.condition).opens fun _ =>
    (plain_results hv "step" l.step).opensLast fun _ => (plain_reads (fun r => reads_ofExcept (strippedResult r)) _).opensLast
    fun parts => ?_
  split
  · exact (plain_throw _).opensLast fun _ => (htail _).opens
  · exact (htail _).opens

/-- What a handler visits before its cascade. The labels are not among its children. -/
def handled (h : Handler) : List (Path × NodeId) :=
  nodesAmong (placed "error_label" h.errorLabel ++ placed "cleanup_label" h.cleanupLabel ++
    placed "error_var_init" h.errorStart ++ placed "body" h.body ++ placed "cleanup_jump" h.cleanupJump ++
    placed "error_target_label" h.errorTarget ++ placed "error_set" h.errorSet ++
    placed "cleanup_target_label" h.cleanupTarget)

theorem writes_handler (h : Handler) :
    Writes visit pre (emitHandler visit h) fun _ _ as => Opens (handled h) (fun cs => ∃ ds,
      Straight (nodesAmong (placed "cascade" h.cascade)) ds ∧ cs = .dispose h.body :: ds) as := by
  have hrest : ∀ {pre : Page → Prop}, Writes visit pre (do
      let w ← newInsertionPoint
      disposeWithin w depthLimit h.body
      let _ ← visit h.cascade : Emitting Unit) fun _ _ cs => ∃ ds,
        Straight (nodesAmong (placed "cascade" h.cascade)) ds ∧ cs = .dispose h.body :: ds := by
    intro pre
    rw [← bind_assoc]
    refine ((writes_dispose h.body).cons ((plain_child hv "cascade" h.cascade).before (fun _ => plain_pure _) _)).imp ?_
    rintro p r as - ⟨_, ds, -, hds, rfl⟩
    exact ⟨ds, hds, rfl⟩
  simp only [emitHandler, handled, List.forIn_cons, List.forIn_nil, nodesAmong_append, List.append_assoc, bind_assoc, pure_bind]
  exact (plain_child hv _ h.errorLabel).opens fun _ => (plain_child hv _ h.cleanupLabel).opens fun _ =>
    (plain_child hv _ h.errorStart).opens fun _ => (plain_child hv _ h.body).opens fun _ =>
    (plain_child hv _ h.cleanupJump).opens fun _ => (plain_child hv _ h.errorTarget).opens fun _ =>
    (plain_child hv _ h.errorSet).opens fun _ => (plain_child hv _ h.cleanupTarget).opensLast fun _ => hrest.opens

omit hv

def FunctionTail (f : Function) (as : List Act) : Prop :=
  ∃ proto line bs, Straight (places (.function f)) bs ∧
    as = [.prototype proto, .put line, .block (.point :: .point :: bs), .put "\x7d"]

def parameters (f : Function) : List (Path × NodeId) :=
  nodesAmong ((f.arguments.items ++ f.scalarArguments.items).zipIdx.map fun (o, i) => ([("arguments", i)], o))

theorem writes_entitle {f : Function} (x : String) (hpre : ∀ {p}, pre p → p.1.form? id = some (.function f)) :
    Writes visit pre (liftM (updateFunction id fun f => { f with emitted := some x }))
      fun _ r as => r = () ∧ as = [.title id (.function { f with emitted := some x })] := by
  refine writes_title hpre (fun _ => .function rfl) fun h => ?_
  cases h with
  | function h =>
    have hsame := congrArg (fun g : Function => Form.function { g with emitted := some x }) h.symm
    exact hsame

def functionBlock (visit : Operand → Emitting Rendered) (id : NodeId) : Emitting Unit := do
  let _ ← newInsertionPoint
  let _ ← newInsertionPoint
  let _ ← visitChildren (fun _ _ child => visit child) id

theorem emitFunction_eq (f : Function) : emitFunction visit id f = (do
      let _ ← (required f.specializer : Action _)
      let name := mangle (f.emitted.getD "" ++ f.specialization.getD "")
      (updateFunction id fun f => { f with emitted := some name } : Action Unit)
      let args ← (f.arguments.items ++ f.scalarArguments.items).mapM visit
      let texts ← (args.filter fun r => !(r matches .nothing)).mapM fun r =>
        (Action.ofExcept r.asText : Action String)
      let proto := "static int " ++ name ++ "(" ++ ", ".intercalate texts ++ ")"
      putPrototype (proto ++ ";")
      putLine (proto ++ " \x7b")
      inBlock (functionBlock visit id)
      putLine "\x7d") := by
  unfold emitFunction putPrototype functionBlock
  simp only [bind_assoc]
  refine bind_congr fun _ => bind_congr fun _ => bind_congr fun _ => bind_congr fun _ => bind_congr fun e => ?_
  cases (e.desk.writer e.main).proto <;> rfl

include hv

theorem writes_functionBlock (hpre : ∀ {p}, pre p → ∃ f', p.1.form? id = some f' ∧ f'.children = f.children) :
    Writes visit pre (functionBlock visit id) fun _ _ as => ∃ bs, Straight (places f) bs ∧ as = .point :: .point :: bs := by
  refine (Writes.point fun _ => Writes.point fun _ => Writes.seq (writes_visitChildren (f := f) hv ?_) fun _ =>
    plain_pure _ _).imp ?_
  · rintro _ ⟨_, ⟨p, hp, rfl, -⟩, rfl, -⟩
    exact hpre (p := p) hp
  · rintro p r as - ⟨_, ⟨bs, hbs, rfl⟩, rfl⟩
    exact ⟨bs, by simpa using hbs, rfl⟩

theorem writes_function (f : Function) (hpre : ∀ {p}, pre p → p.1.form? id = some (.function f)) :
    Writes visit pre (emitFunction visit id f) fun _ _ as => ∃ name bs, Opens (parameters f) (FunctionTail f) bs ∧
      as = .title id (.function { f with emitted := some name }) :: bs := by
  have htail : ∀ {pre : Page → Prop} (proto line),
      (∀ {p}, pre p → ∃ f', p.1.form? id = some f' ∧ f'.children = (Form.function f).children) →
      Writes visit pre (do
        putPrototype proto
        putLine line
        inBlock (functionBlock visit id)
        putLine "\x7d") fun _ _ as => FunctionTail f as := by
    intro pre proto line hpre
    refine ((writes_putPrototype proto).cons ((writes_putLine line).cons ((writes_inBlock
      (writes_functionBlock hv (f := .function f) ?_)).bind fun _ => writes_putLine _))).imp ?_
    · rintro _ ⟨_, ⟨p1, ⟨p, hp, hperf⟩, hperf1⟩, rfl⟩
      obtain ⟨f', hf', hchildren⟩ := Later.children hv hpre ⟨p, _, hp, hperf.append hperf1⟩
      exact ⟨f', hf', hchildren⟩
    · rintro p r as - ⟨_, _, -, ⟨_, _, -, ⟨_, _, _, _, ⟨_, ⟨bs, hbs, rfl⟩, rfl⟩, -, ⟨-, rfl⟩, rfl⟩, rfl⟩, rfl⟩
      exact ⟨proto, line, bs, hbs, rfl⟩
  rw [emitFunction_eq]
  refine Writes.afterRead (reads_required _) fun _ => ((writes_entitle _ hpre).cons
    (B := fun _ _ as => Opens (parameters f) (FunctionTail f) as) ?_).imp ?_
  · refine (plain_mapM (plain_visit hv) (fun i => [("arguments", i)]) _ 0).opensLast fun args =>
      (plain_reads (fun r => reads_ofExcept (Rendered.asText r)) _).opensLast fun texts => (htail _ _ fun hp => ?_).opens
    refine Later.children hv (Later.children hv ?_) hp
    rintro q ⟨p, hp, hperf⟩
    exact Later.children hv (fun hp => ⟨_, hpre hp, rfl⟩) ⟨p, _, hp, hperf⟩
  · rintro p r as - ⟨_, bs, -, hbs, rfl⟩
    exact ⟨_, bs, hbs, rfl⟩

theorem plain_parameters (vars : List Operand) :
    Plain visit (emitParameters visit vars) (nodesAmong ((vars.filter (!·.isAbsent)).zipIdx.map fun (o, i) => ([("variables", i)], o))) := by
  refine (plain_mapM (fun path o => ?_) (fun i => [("variables", i)]) _ 0).before fun _ => plain_pure _
  exact (plain_read (reads_typeOf o)).after fun t => (plain_visit hv path o).before fun x =>
    (plain_read (reads_typeText t)).after fun y => plain_pure _

omit hv

/-! ### Assignments -/

inductive Operates : Form → Operand → Operand → Prop where
  | scalars {op : String} {l r : Operand} : Operates (.binop op l r) l r
  | store {op : String} {l r : Operand} : Operates (.vectorStore op l r) l r
  | vectors {op : String} {l r : Operand} : Operates (.vectorBinop op l r) l r

theorem Operates.of_isBinop (h : f.isBinop = true) : ∃ l r, Operates f l r := by
  cases f <;> cases h
  · exact ⟨_, _, .scalars⟩
  · exact ⟨_, _, .store⟩
  · exact ⟨_, _, .vectors⟩

theorem Operates.unique (h : Operates f l r) (hf : skeleton f' = skeleton f) : f' = f := by
  cases h <;> cases f' <;> cases hf <;> rfl

theorem runs_isIncrement (h : Runs (isIncrement f) s (some o) t) :
    ∃ k v, Operates f o (.node k) ∧ s.form? k = some (.constant v) := by
  unfold isIncrement at h
  split at h
  · cases (runs_pure.1 h).1
  · split at h
    all_goals try cases (runs_pure.1 h).1
    all_goals
      obtain ⟨n, _, hr, hn⟩ := runs_bind.1 h
      obtain ⟨k, rfl, hk, rfl⟩ := runs_nodeOf.1 hr
      split at hn
      · rename_i v hv
        have ho := (runs_pure.1 hn).1
        split at ho
        · obtain rfl := Option.some.inj ho
          have hconstant := hv ▸ form?_of_node? hk
          first | exact ⟨k, v, .scalars, hconstant⟩ | exact ⟨k, v, .store, hconstant⟩ | exact ⟨k, v, .vectors, hconstant⟩
        · cases ho
      · cases (runs_pure.1 hn).1

theorem runs_sides {j : NodeId} (hf : s.form? j = some f) (h : Operates f l r) :
    (Runs (leftOf (.node j)) s x t → x = l ∧ t = s) ∧ (Runs (rightOf (.node j)) s x t → x = r ∧ t = s) := by
  obtain ⟨n, hn, rfl⟩ := node?_of_form? hf
  simp only [leftOf, rightOf, runs_bind, runs_nodeOf]
  constructor
  all_goals
    rintro ⟨_, _, ⟨_, ⟨⟩, hn', rfl⟩, hx⟩
    obtain rfl := Option.some.inj (hn.symm.trans hn')
    cases hform : n.form <;> rw [hform] at h hx <;> cases h
    all_goals exact runs_pure.1 hx

def stored (l r : Operand) : List (Path × NodeId) := nodesAmong (placed "lhs" l) ++ nodesAmong (placed "rhs" r)

structure FirstStore (p : Page) (id : NodeId) (l r : Operand) (as : List Act) : Prop where
  acts : ∃ t shown hs line, l = .node t ∧ Nameless t shown p ∧ Straight (nodesAmong (placed "rhs" r)) hs ∧
    as = .name t shown :: (hs ++ [.declare t line])
  isStatement : ∃ n, p.1.node? id = some n ∧ n.marks.isStatement = true

include hv

theorem writes_naming {t : NodeId} (hid : t ∉ e.declared)
    (hpre : ∀ {p}, pre p → (∃ v : Variable, p.1.form? t = some (.var v) ∧ v.role = .temporary shown) ∧ p.2 = e) :
    Writes visit pre (do
      nameTemporary t shown
      let value ← visit r
      declareTemporary t shown value
      return Rendered.nothing) fun _ _ as => ∃ hs line, Straight (nodesAmong (placed "rhs" r)) hs ∧
        as = .name t shown :: (hs ++ [.declare t line]) := by
  have hnameless : ∀ {p : Page}, pre p → Nameless t shown p := by
    intro p hp
    obtain ⟨hvar, rfl⟩ := hpre hp
    exact ⟨hvar, hid⟩
  have hnamed : ∀ {q : Page}, Later visit (fun q => ∃ p, pre p ∧ Performs (writing visit) [.name t shown] p q) q →
      (∃ v : Variable, q.1.form? t = some (.var v)) ∧ t ∈ q.2.declared := by
    rintro q ⟨p', as, ⟨p, hp, hname⟩, hperf⟩
    cases performs_one hname rfl (by simp) with
    | name hvar hrole hid =>
      obtain ⟨hredrawn, hdeclared⟩ := hperf.keeps hv
      obtain ⟨f, hf, hskel⟩ := hredrawn.exists_form (form?_alter hvar)
      refine ⟨?_, hdeclared t (by simp [Page.name])⟩
      obtain ⟨v', rfl, -⟩ := var_of_skeleton hskel
      exact ⟨_, hf⟩
  have hline : ∀ value : Rendered, Writes visit (After visit (fun q => ∃ p, pre p ∧ Performs (writing visit) [.name t shown] p q)
      (fun _ _ as => Straight (nodesAmong (placed "rhs" r)) as) value) (declareTemporary t shown value)
      fun _ _ as => ∃ line, as = [.declare t line] := by
    refine fun value => writes_declareNamed ?_
    rintro q ⟨p', as, hp', -, hperf⟩
    exact hnamed ⟨p', as, hp', hperf⟩
  have hdeclare := (plain_child hv "rhs" r (fun q => ∃ p, pre p ∧ Performs (writing visit) [.name t shown] p q)).bind
    (f := fun value => do declareTemporary t shown value; return Rendered.nothing) fun value =>
      (hline value).bind fun _ => writes_pure _
  refine ((writes_nameTemporary hnameless).cons hdeclare).imp ?_
  rintro p r' as - ⟨_, _, -, ⟨_, _, hs, _, hhs, -, ⟨_, _, _, _, ⟨line, rfl⟩, -, ⟨-, rfl⟩, rfl⟩, rfl⟩, rfl⟩
  exact ⟨hs, line, hhs, rfl⟩

theorem writes_firstStore (l r : Operand) (m : Datum) :
    Writes visit pre (emitFirstStore visit id l r m) fun p _ as => FirstStore p id l r as ∨ Straight (stored l r) as := by
  have hstore : ∀ {pre : Page → Prop}, Writes visit pre (emitStore visit l r)
      fun p _ as => FirstStore p id l r as ∨ Straight (stored l r) as := fun {pre} =>
    (plain_store hv l r pre).imp fun _ _ _ _ h => .inr h
  refine Writes.reading (reads_node id) fun n => ?_
  split
  · refine Writes.reading (reads_nodeOf l) fun target => ?_
    split
    · rename_i shown _ _ _ _ t hform
      refine (Writes.get (A := fun _ p _ as => FirstStore p id _ r as ∨ Straight (stored _ r) as) (fun hagree => ?_) fun e => ?_)
      · simp only [hagree.declared]
      · split
        · rename_i hcond
          have hid : t ∉ e.declared := by simpa using (Bool.and_eq_true_iff.1 hcond).1
          refine (writes_naming hv hid ?_).imp ?_
          · rintro p ⟨⟨⟨-, -⟩, hrun⟩, rfl⟩
            obtain ⟨_, ⟨⟩, htarget, -⟩ := runs_nodeOf.1 hrun
            exact ⟨⟨_, (form?_of_node? htarget).trans (congrArg some hform), rfl⟩, rfl⟩
          · rintro p r' as ⟨⟨⟨-, hrun⟩, hrun'⟩, rfl⟩ ⟨hs, line, hhs, rfl⟩
            obtain ⟨_, ⟨⟩, htarget, -⟩ := runs_nodeOf.1 hrun'
            have hvar : p.1.form? t = _ := (form?_of_node? htarget).trans (congrArg some hform)
            exact .inl ⟨⟨t, shown, hs, line, rfl, ⟨⟨_, hvar, rfl⟩, hid⟩, hhs, rfl⟩, n, (runs_node.1 hrun).1, ‹_›⟩
        · exact hstore
    · exact hstore
  · exact hstore

def Increment (p : Page) (r : Operand) (as : List Act) : Prop :=
  ∃ j f k b v, r = .node j ∧ p.1.form? j = some f ∧ Operates f (.node k) (.node b) ∧ p.1.form? b = some (.constant v) ∧
    as = [.visit [("rhs", 0), ("lhs", 0)] k]

/-- The acts of an operation in place, which does not visit the left side of its value. -/
def InPlace (p : Page) (l r : Operand) (as : List Act) : Prop :=
  ∃ i j f a k, l = .node i ∧ r = .node j ∧ p.1.form? j = some f ∧ Operates f a (.node k) ∧ Runs (same l a) p.1 true p.1 ∧
    as = [.visit [("lhs", 0)] i, .visit [("rhs", 0), ("rhs", 0)] k]

theorem writes_assignment (l r : Operand) (m : Datum) :
    Writes visit pre (emitAssignment visit id l r m) fun p _ as =>
      Increment p r as ∨ InPlace p l r as ∨ FirstStore p id l r as ∨ Straight (stored l r) as := by
  have hfirst : ∀ {pre : Page → Prop}, Writes visit pre (emitFirstStore visit id l r m) fun p _ as =>
      Increment p r as ∨ InPlace p l r as ∨ FirstStore p id l r as ∨ Straight (stored l r) as := fun {pre} =>
    (writes_firstStore hv l r m).imp fun _ _ _ _ h => .inr (.inr h)
  refine Writes.reading (reads_nodeOf r) fun n => Writes.reading (reads_isIncrement _) fun counted => ?_
  cases counted with
  | some a =>
    refine ((writes_visit hv [("rhs", 0), ("lhs", 0)] a).bind fun _ => writes_pure _).imp ?_
    rintro p r' as ⟨⟨-, hrun⟩, hcounted⟩ ⟨_, _, _, _, ⟨k, rfl, rfl⟩, -, ⟨-, rfl⟩, rfl⟩
    obtain ⟨j, rfl, hn, -⟩ := runs_nodeOf.1 hrun
    obtain ⟨b, v, hop, hb⟩ := runs_isIncrement hcounted
    exact .inl ⟨j, n.form, k, b, v, rfl, form?_of_node? hn, hop, hb, rfl⟩
  | none =>
    dsimp only
    split
    · rename_i hbinop
      obtain ⟨a, b, hop⟩ := Operates.of_isBinop hbinop
      refine Writes.reading (reads_leftOf r) fun left => Writes.reading (reads_same l left) fun eq => ?_
      cases eq with
      | true =>
        refine ((writes_visit hv [("lhs", 0)] l).bind (B := fun _ _ _ as => ∃ k, b = .node k ∧
          as = [.visit [("rhs", 0), ("rhs", 0)] k]) fun _ => .reading (reads_rightOf r) fun right =>
            .given (P := right = b) ?_ fun hright => ?_).imp ?_
        · rintro q ⟨⟨p, as, ⟨⟨⟨⟨-, hrun⟩, -⟩, -⟩, -⟩, -, hperf⟩, hright⟩
          obtain ⟨j, rfl, hn, -⟩ := runs_nodeOf.1 hrun
          obtain ⟨f', hf', hskel⟩ := (hperf.keeps hv).1.exists_form (form?_of_node? hn)
          obtain rfl := hop.unique hskel
          exact ((runs_sides hf' hop).2 hright).1
        · rw [hright]
          refine ((writes_visit hv [("rhs", 0), ("rhs", 0)] b).bind fun _ => writes_pure _).imp ?_
          rintro p r' as - ⟨_, _, _, _, ⟨k, hk, rfl⟩, -, ⟨-, rfl⟩, rfl⟩
          exact ⟨k, hk, rfl⟩
        · rintro p r' as ⟨⟨⟨⟨-, hrun⟩, -⟩, hleft⟩, hsame⟩ ⟨_, _, _, _, ⟨i, rfl, rfl⟩, -, ⟨k, rfl, rfl⟩, rfl⟩
          obtain ⟨j, rfl, hn, -⟩ := runs_nodeOf.1 hrun
          obtain ⟨rfl, -⟩ := (runs_sides (form?_of_node? hn) hop).1 hleft
          exact .inr (.inl ⟨i, j, n.form, left, k, rfl, rfl, form?_of_node? hn, hop, hsame, rfl⟩)
      | false => exact hfirst
    · exact hfirst

end

/-! ## The script of a node -/

/-- The forms whose nodes visit each child once, in order, unless they are assignments of a shorter form. -/
def isStraight : Form → Bool
  | .function _ | .argument .. | .arrayArgument .. | .parallelLoop .. | .loop _ | .handler _ | .label .. => false
  | .var v =>
    match v.role with
    | .plain | .temporary _ => false
    | _ => true
  | _ => true

def unpacked : Form → List Operand
  | .argument _ vars _ _ => vars.items
  | .arrayArgument _ _ data strides _ _ => [data, strides]
  | _ => []

def isArgument : Form → Bool
  | .argument .. | .arrayArgument .. => true
  | _ => false

inductive Script (p : Page) (id : NodeId) : Form → List Act → Prop where
  | straight {f : Form} {as : List Act} (hf : isStraight f = true) (has : Straight (places f) as) : Script p id f as
  | parallelLoop {l c ls ps : Operand} {as : List Act} (has : Straight (nodesAmong (placed "if_clause" c) ++
      (nodesAmong (placed "lastprivates" ls) ++ (nodesAmong (placed "privates" ps) ++
        nodesAmong (placed "for_node" l)))) as) : Script p id (.parallelLoop l c ls ps) as
  | loop {l : Loop} {as : List Act} (has : Opens (nodesAmong (placed "init" l.start) ++
      (nodesAmong (placed "condition" l.condition) ++ nodesAmong (placed "step" l.step))) (LoopTail l) as) :
    Script p id (.loop l) as
  | function {f : Function} {name : String} {as : List Act} (has : Opens (parameters f) (FunctionTail f) as) :
    Script p id (.function f) (.title id (.function { f with emitted := some name }) :: as)
  | unused {f : Form} (hf : isArgument f = true) : Script p id f []
  | argument {f : Form} {as : List Act} (hf : isArgument f = true) (has : Straight (nodesAmong
      (((unpacked f).filter (!·.isAbsent)).zipIdx.map fun (o, i) => ([("variables", i)], o))) as) : Script p id f as
  | handler {h : Handler} {as : List Act} (has : Opens (handled h) (fun cs => ∃ ds,
      Straight (nodesAmong (placed "cascade" h.cascade)) ds ∧ cs = .dispose h.body :: ds) as) :
    Script p id (.handler h) as
  | increment {l r : Operand} {m : Datum} {as : List Act} (has : Increment p r as) : Script p id (.assign l r m) as
  | inPlace {l r : Operand} {m : Datum} {as : List Act} (has : InPlace p l r as) : Script p id (.assign l r m) as
  | firstStore {l r : Operand} {m : Datum} {as : List Act} (has : FirstStore p id l r as) :
    Script p id (.assign l r m) as
  | declared {v : Variable} {shown : String} (hrole : v.role = .temporary shown) (hid : id ∈ p.2.declared) :
    Script p id (.var v) []
  | temporary {v : Variable} {shown line : String} (hrole : v.role = .temporary shown) (hid : Nameless id shown p) :
    Script p id (.var v) [.name id shown, .declare id line]
  | known {v : Variable} (hrole : v.role = .plain) : Script p id (.var v) []
  | titled {v : Variable} {x : String} (hrole : v.role = .plain) :
    Script p id (.var v) [.title id (.var { v with emitted := some x })]
  | label {n : Datum} {x : String} : Script p id (.label n (some x)) []
  | newLabel {n : Datum} {x : String} : Script p id (.label n none) [.count, .title id (.label n (some x))]

section

variable {visit : Operand → Emitting Rendered} {pre : Page → Prop} {id : NodeId} {f : Form} {α : Type} {a : Emitting α}

theorem Plain.script {xs : List (Path × NodeId)} (h : Plain visit a xs) (hf : isStraight f = true)
    (hxs : places f = xs) : Writes visit pre a fun p _ as => Script p id f as :=
  (h pre).imp fun _ _ _ _ h => .straight hf (hxs ▸ h)

theorem Writes.giving {acts : Page → List Act → Prop} {x : β} (h : Writes visit pre a fun p _ as => acts p as) :
    Writes visit pre (do let _ ← a; return x) fun p _ as => acts p as := by
  refine (h.bind fun _ => writes_pure x).imp ?_
  rintro p r as - ⟨_, _, bs, _, hbs, -, ⟨-, rfl⟩, rfl⟩
  rwa [List.append_nil]

theorem places_nil (h : f.children = []) : places f = [] := by simp [places, operands, h, nodesAmong]

theorem places_one {a : String} (h : f.children = [(a, x)]) : places f = nodesAmong (placed a x) := by
  simp [places, operands, h]

theorem places_two {a b : String} {y : Operand} (h : f.children = [(a, x), (b, y)]) :
    places f = nodesAmong (placed a x) ++ nodesAmong (placed b y) := by
  simp [places, operands, h]

theorem emitNode_writes {P : Page → Prop} (hv : Visiting visit) :
    Writes visit P (emitNode visit id) fun p _ as => ∃ f, p.1.form? id = some f ∧ Script p id f as := by
  refine .reading (reads_node id) fun n => Writes.mono (A := fun p _ as => Script p id n.form as) ?_ (fun h => h) ?_
  · obtain ⟨form, type, position, marks⟩ := n
    have hform : ∀ {p : Page}, P p ∧ Runs (node id) p.1 ⟨form, type, position, marks⟩ p.1 → p.1.form? id = some form :=
      fun h => form?_of_node? (runs_node.1 h.2).1
    cases form with
    | function f => exact .giving ((writes_function hv f hform).imp fun _ _ _ _ ⟨_, _, h, has⟩ => has ▸ .function h)
    | call c args inline =>
      exact ((plain_child hv "func_or_pointer" c).bind fun _ => (plain_commaList hv "args" args).before fun _ =>
        plain_pure _).script rfl (places_two rfl)
    | functionName | noop => exact (plain_pure _).script rfl (places_nil rfl)
    | yield o =>
      exact ((plain_single hv "operand" o).before fun _ => (plain_putLine _).after fun _ => plain_pure _).script rfl (places_one rfl)
    | raise p e m a | positionInfo p => exact writes_throw _
    | argument v vs n u | arrayArgument v n d st vs u =>
      dsimp only
      split
      · exact (plain_parameters hv _ _).imp fun _ _ _ _ h => .argument rfl h
      · exact (writes_pure _).imp fun _ _ _ _ h => h.2 ▸ .unused rfl
    | print a | iterate b => exact writes_throw _
    | loop l => exact .giving ((writes_loop hv l).imp fun _ _ _ _ h => .loop h)
    | branch b => exact .giving ((plain_branch hv b).script rfl rfl)
    | sequence stats =>
      exact .giving ((writes_visitChildren hv fun hp => ⟨_, hform hp, rfl⟩).imp fun _ _ _ _ h => .straight rfl h)
    | statement e => exact .giving ((plain_statement hv e).script rfl rfl)
    | prepared st e =>
      exact ((plain_child hv "stat" st).bind fun _ => plain_child hv "expr" e).script rfl (places_two rfl)
    | foreign text owned =>
      refine .settings (fun _ => rfl) fun x => ?_
      split
      · exact (plain_pure _).script rfl (places_nil rfl)
      · exact writes_throw _
    | assign l r m =>
      refine (writes_assignment hv l r m).imp ?_
      rintro p r' as - (h | h | h | h)
      · exact .increment h
      · exact .inPlace h
      · exact .firstStore h
      · exact .straight rfl (by rwa [places_two rfl])
    | binop op l r =>
      exact ((plain_child hv "lhs" l).bind fun _ => (plain_child hv "rhs" r).before fun _ => plain_pure _).script rfl (places_two rfl)
    | index l r =>
      refine ((plain_results hv "lhs" l).bind fun _ => (plain_results hv "rhs" r).before fun _ => ?_).script rfl (places_two rfl)
      split
      · exact plain_pure _
      · exact plain_throw _
    | vectorStore op l r =>
      exact ((plain_read (reads_typeOf r)).after fun _ => (plain_read (reads_ofExcept _)).after fun _ =>
        (plain_child hv "lhs" l).bind fun _ => (plain_child hv "rhs" r).before fun _ => plain_pure _).script rfl (places_two rfl)
    | vectorBinop op l r =>
      dsimp only
      split
      · exact ((plain_read (reads_typeOf l)).after fun _ => (plain_read (reads_ofExcept _)).after fun _ =>
          (plain_child hv "lhs" l).bind fun _ => (plain_child hv "rhs" r).before fun _ => plain_pure _).script rfl (places_two rfl)
      · exact writes_throw _
    | promotion o => exact (plain_child hv "operand" o).script rfl (places_one rfl)
    | unop _ o | dereference o =>
      exact ((plain_child hv "operand" o).before fun _ => plain_pure _).script rfl (places_one rfl)
    | cast o =>
      exact ((plain_read (reads_typeOf _)).after fun t => (plain_child hv "operand" o).before fun _ =>
        (plain_read (reads_typeText t)).after fun _ => plain_pure _).script rfl (places_one rfl)
    | vectorLoad o n =>
      exact ((plain_read (reads_typeOf _)).after fun _ => (plain_read (reads_ofExcept _)).after fun _ =>
        (plain_child hv "operand" o).before fun _ => plain_pure _).script rfl (places_one rfl)
    | conditional c l r =>
      refine ((plain_results hv "cond" c).bind fun _ => (plain_results hv "lhs" l).bind fun _ =>
        (plain_results hv "rhs" r).before fun _ => ?_).script rfl (by simp [places, operands, Form.children])
      split
      · exact plain_pure _
      · exact plain_throw _
    | constant v => exact (plain_constant id v).script rfl (places_nil rfl)
    | sizeof t => exact ((plain_read (reads_typeText t)).before fun _ => plain_pure _).script rfl (places_nil rfl)
    | var v =>
      obtain ⟨role, name, emitted, data, strides⟩ := v
      cases role with
      | plain =>
        refine (writes_variable rfl hform).imp ?_
        rintro p r as - (rfl | ⟨x, rfl⟩)
        · exact .known rfl
        · exact .titled rfl
      | element e => exact (plain_child hv "element" e).script rfl (places_one rfl)
      | dataPointer a | stridePointer a =>
        exact ((plain_read (reads_shownName name)).before fun _ => plain_pure _).script rfl (places_nil rfl)
      | temporary shown =>
        refine (writes_temporary fun hp => ⟨_, hform hp, rfl⟩).imp ?_
        rintro p r as - (⟨hid, rfl⟩ | ⟨hid, line, rfl⟩)
        · exact .declared rfl hid
        · exact .temporary rfl hid
      | register o => exact (plain_child hv "variable" o).script rfl (places_one rfl)
    | parallelLoop l c ls ps => exact .giving ((plain_parallelLoop hv l c ls ps _).imp fun _ _ _ _ h => .parallelLoop h)
    | parallelChoice a b => exact .giving ((plain_parallelChoice hv a b).script rfl rfl)
    | pragmaLoop l =>
      exact ((plain_putLine _).after fun _ => (plain_putLine _).after fun _ => (plain_putLine _).after fun _ =>
        (plain_child hv "for_node" l).before fun _ => plain_pure _).script rfl (places_one rfl)
    | handler h => exact .giving ((writes_handler hv h).imp fun _ _ _ _ h => .handler h)
    | jump l | jumpTarget l =>
      exact ((plain_single hv "label" l).before fun _ => (plain_putLine _).after fun _ => plain_pure _).script rfl (places_one rfl)
    | label n e =>
      refine (writes_label hform).imp ?_
      rintro p r as - (⟨he, rfl⟩ | ⟨rfl, x, rfl⟩)
      · obtain ⟨x, rfl⟩ := Option.isSome_iff_exists.1 he
        exact .label
      · exact .newLabel
    | vectorConstant v =>
      refine ((plain_read (reads_typeOf _)).after fun t => plain_ite (fun _ => ?_) fun _ => ?_).script rfl (places_nil rfl)
      · exact (plain_read (reads_ofExcept _)).before fun _ => plain_pure _
      · exact (plain_read (reads_ofExcept _)).before fun _ => plain_pure _
  · rintro p r as ⟨-, hrun⟩ h
    exact ⟨n.form, form?_of_node? (runs_node.1 hrun).1, h⟩

end

/-! ## The code generator -/

theorem visiting_emitWithin (depth : Nat) : Visiting (emitWithin depth) := by
  induction depth with
  | zero => exact ⟨fun h => (ends_throw.1 h).elim, fun h => (ends_throw.1 h).elim⟩
  | succ depth ih =>
    have hnode : ∀ {o p r q}, Ends (emitWithin (depth + 1) o) p r q → ∃ id, o = .node id ∧
        Ends (emitNode (emitWithin depth) id) p r q := by
      intro o p r q h
      cases o with
      | node id => exact ⟨id, rfl, h⟩
      | datum d | group items => cases ends_throw.1 h
    refine ⟨fun h => ?_, fun h => ?_⟩
    · obtain ⟨id, rfl, -⟩ := hnode h
      exact ⟨id, rfl⟩
    · obtain ⟨id, rfl, h⟩ := hnode h
      obtain ⟨as, -, hperf, -⟩ := emitNode_writes (P := fun _ => True) ih trivial h
      exact hperf.keeps ih

theorem emitWithin_script {p q : Page} {r : Rendered} (h : Ends (emitWithin depth o) p r q) :
    ∃ d id f as, depth = d + 1 ∧ o = .node id ∧ p.1.form? id = some f ∧ Script p id f as ∧
      Performs (writing (emitWithin d)) as p q ∧ ∀ ⦃p' q'⦄, Agree p p' →
        Performs (writingTwice (emitWithin d)) as (p, p') (q, q') → Ends (emitWithin depth o) p' r q' := by
  obtain ⟨id, rfl⟩ := (visiting_emitWithin depth).node h
  cases depth with
  | zero => cases ends_throw.1 h
  | succ d =>
    obtain ⟨as, ⟨f, hf, hscript⟩, hperf, htwin⟩ := emitNode_writes (P := fun _ => True) (visiting_emitWithin d) trivial h
    exact ⟨d, id, f, as, rfl, rfl, hf, hscript, hperf, htwin⟩

end ArrayKernel.Emit
