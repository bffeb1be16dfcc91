import ArrayKernel.Pipeline
import ArrayKernel.Proofs.Occurrences
import ArrayKernel.Proofs.Twins

/-!
# Disposal of foreign nodes

Each handler has a section of its own where the client disposes of foreign nodes. The sections of the handlers
of an orderly function share its foreign nodes: each that is in the body of a handler is disposed of once, in
the section of the innermost of them, and those outside of all handlers are not.
-/

namespace ArrayKernel.Emit

open Ast Stateful

variable {x : Path × NodeId} {a b l : Operand} {m : Datum} {r : Operand}
variable {h : Handler} {name : String} {o : Operand} {k : NodeId} {visit : Operand → Emitting Rendered} {s : Session}

/-! ## Entries -/

/-- A handler, the section of its disposals, and the foreign nodes that are disposed of there. -/
structure Entry where
  handler : Path
  sectionId : Nat
  items : List (Path × String)

namespace Entry

def under (path : Path) (e : Entry) : Entry := ⟨path ++ e.handler, e.sectionId, below path e.items⟩

theorem under_comp (path path' : Path) : Entry.under path ∘ Entry.under path' = Entry.under (path ++ path') := by
  funext e
  simp [Entry.under, below]

def Records (s : Session) (id : NodeId) (e : Entry) : Prop :=
  ∃ j h xs, Leads s id e.handler j ∧ s.form? j = some (.handler h) ∧ disposed s depthLimit h.body = some xs ∧
    e.items = below (e.handler ++ [("body", 0)]) xs

theorem Records.under {id c : NodeId} {e : Entry} {f : Form} {place : Place} (hf : s.form? id = some f)
    (hc : ([place], c) ∈ places f) (h : e.Records s c) : (e.under [place]).Records s id := by
  obtain ⟨j, h, xs, hl, hh, hxs, hitems⟩ := h
  refine ⟨j, h, xs, .step hf hc hl, hh, hxs, ?_⟩
  simp [Entry.under, hitems, below]

end Entry

structure Lists (s : Session) (id : NodeId) (es : List Entry) : Prop where
  records : ∀ e ∈ es, e.Records s id
  all : ∀ path, HandlerAt s id path → ∃ e ∈ es, e.handler = path
  nodup : (es.map (·.handler)).Nodup

inductive Gathers (s : Session) : List (Path × NodeId) → List Entry → Prop where
  | nil : Gathers s [] []
  | cons {x : Path × NodeId} {xs : List (Path × NodeId)} {es es' : List Entry} (h : Lists s x.2 es) (hs : Gathers s xs es') :
    Gathers s (x :: xs) (es.map (Entry.under x.1) ++ es')

section

variable {s : Session} {id : NodeId} {f : Form} {xs ys : List (Path × NodeId)} {es es' : List Entry}

theorem Lists.perm (h : Lists s id es) (hp : es.Perm es') : Lists s id es' where
  records e he := h.records e (hp.mem_iff.2 he)
  all path hat := by
    obtain ⟨e, he, hpath⟩ := h.all path hat
    exact ⟨e, hp.mem_iff.1 he, hpath⟩
  nodup := (hp.map _).nodup_iff.1 h.nodup

theorem Clear.lists (h : Clear s id) : Lists s id [] where
  records := by simp
  all path hat := absurd hat (h path)
  nodup := .nil

theorem Lists.eq_nil (h : Lists s id es) (hc : Clear s id) : es = [] := by
  rw [List.eq_nil_iff_forall_not_mem]
  intro e he
  obtain ⟨j, h, xs, hl, hf, -⟩ := h.records e he
  exact hc e.handler ⟨j, _, hl, hf, h, rfl⟩

theorem Gathers.append (h : Gathers s xs es) (h' : Gathers s ys es') : Gathers s (xs ++ ys) (es ++ es') := by
  induction h with
  | nil => exact h'
  | cons hl _ ih =>
    rw [List.cons_append, List.append_assoc]
    exact .cons hl ih

theorem Gathers.split (h : Gathers s (xs ++ ys) es) : ∃ es1 es2, Gathers s xs es1 ∧ Gathers s ys es2 ∧ es = es1 ++ es2 := by
  induction xs generalizing es with
  | nil => exact ⟨[], es, .nil, h, rfl⟩
  | cons x xs ih =>
    cases h with
    | cons hl hs =>
      obtain ⟨es1, es2, h1, h2, rfl⟩ := ih hs
      exact ⟨_, es2, .cons hl h1, h2, (List.append_assoc ..).symm⟩

theorem gathers_clear (h : AllClear s xs) : Gathers s xs es ↔ es = [] := by
  constructor
  · intro hg
    induction hg with
    | nil => rfl
    | cons hl _ ih =>
      rw [hl.eq_nil (h _ (.head _)), ih fun x hx => h x (.tail _ hx)]
      rfl
  · rintro rfl
    induction xs with
    | nil => exact .nil
    | cons x xs ih => exact .cons (h x (.head _)).lists (ih fun y hy => h y (.tail _ hy))

theorem Gathers.dropLeft (h : Gathers s (xs ++ ys) es) (hx : AllClear s xs) : Gathers s ys es := by
  obtain ⟨es1, es2, h1, h2, rfl⟩ := h.split
  rw [(gathers_clear hx).1 h1]
  exact h2

theorem Gathers.addLeft (h : Gathers s ys es) (hx : AllClear s xs) : Gathers s (xs ++ ys) es :=
  ((gathers_clear hx).2 rfl).append h

theorem Gathers.perm (h : Gathers s xs es) (hp : xs.Perm ys) : ∃ es', Gathers s ys es' ∧ es.Perm es' := by
  induction hp generalizing es with
  | nil => exact ⟨es, h, .refl _⟩
  | cons x _ ih =>
    cases h with
    | cons hl hs =>
      obtain ⟨es', h', hp⟩ := ih hs
      exact ⟨_, .cons hl h', hp.append_left _⟩
  | swap x y xs =>
    cases h with
    | cons hl hs =>
      cases hs with
      | cons hl' hs =>
        refine ⟨_, .cons hl' (.cons hl hs), ?_⟩
        rw [← List.append_assoc, ← List.append_assoc]
        exact List.perm_append_comm.append_right _
  | trans _ _ ih1 ih2 =>
    obtain ⟨es1, h1, hp1⟩ := ih1 h
    obtain ⟨es2, h2, hp2⟩ := ih2 h1
    exact ⟨es2, h2, hp1.trans hp2⟩

theorem Gathers.mem (h : Gathers s xs es) {e : Entry} (he : e ∈ es) :
    ∃ x ∈ xs, ∃ es' e', Lists s x.2 es' ∧ e' ∈ es' ∧ e = e'.under x.1 := by
  induction h with
  | nil => cases he
  | cons hl _ ih =>
    rcases List.mem_append.1 he with he | he
    · obtain ⟨e', he', rfl⟩ := List.mem_map.1 he
      exact ⟨_, .head _, _, e', hl, he', rfl⟩
    · obtain ⟨x, hx, h⟩ := ih he
      exact ⟨x, .tail _ hx, h⟩

theorem Gathers.all (h : Gathers s xs es) (hx : x ∈ xs) {path : Path} (hat : HandlerAt s x.2 path) :
    ∃ e ∈ es, e.handler = x.1 ++ path := by
  induction h with
  | nil => cases hx
  | cons hl _ ih =>
    rcases List.mem_cons.1 hx with rfl | hx
    · obtain ⟨e, he, rfl⟩ := hl.all path hat
      exact ⟨_, List.mem_append_left _ (List.mem_map_of_mem he), rfl⟩
    · obtain ⟨e, he, hpath⟩ := ih hx
      exact ⟨e, List.mem_append_right _ he, hpath⟩

theorem Gathers.nodup (h : Gathers s xs es) (hn : (xs.map (·.1)).Nodup) (hplace : ∀ x ∈ xs, ∃ place, x.1 = [place]) :
    (es.map (·.handler)).Nodup := by
  induction h with
  | nil => exact .nil
  | @cons x xs es es' hl hs ih =>
    rw [List.map_cons, List.nodup_cons] at hn
    rw [List.map_append]
    refine List.Nodup.append ?_ (ih hn.2 fun y hy => hplace y (.tail _ hy)) ?_
    · have hunder : (es.map (Entry.under x.1)).map (·.handler) = (es.map (·.handler)).map (x.1 ++ ·) := by
        simp [Entry.under]
      rw [hunder]
      exact hl.nodup.map fun _ _ => List.append_cancel_left
    · intro path hpath hpath'
      obtain ⟨_, he, rfl⟩ := List.mem_map.1 hpath
      obtain ⟨e, -, rfl⟩ := List.mem_map.1 he
      obtain ⟨e', he', heq⟩ := List.mem_map.1 hpath'
      obtain ⟨y, hy, -, e'', -, -, rfl⟩ := hs.mem he'
      obtain ⟨place, hx⟩ := hplace x (.head _)
      obtain ⟨place', hy'⟩ := hplace y (.tail _ hy)
      refine hn.1 (List.mem_map.2 ⟨y, hy, ?_⟩)
      simp only [Entry.under, hx, hy', List.cons_append, List.cons.injEq] at heq
      rw [hx, hy', heq.1]

theorem mem_places_singleton (h : x ∈ places f) : ∃ place, x.1 = [place] := by
  obtain ⟨name, i, -, hpath, -⟩ := mem_places h
  exact ⟨_, hpath⟩

theorem Gathers.records (h : Gathers s (places f) es) (hf : s.form? id = some f) : ∀ e ∈ es, e.Records s id := by
  intro e he
  obtain ⟨⟨path, c⟩, hx, es', e', hl, he', rfl⟩ := h.mem he
  obtain ⟨place, rfl⟩ := mem_places_singleton hx
  exact (hl.records e' he').under hf hx

theorem Gathers.lists (h : Gathers s (places f) es) (hf : s.form? id = some f) (hh : ∀ h, f ≠ .handler h) : Lists s id es where
  records := h.records hf
  all path hat := by
    cases path with
    | nil =>
      obtain ⟨h', rfl⟩ := (occurs_nil hf).1 hat
      exact absurd rfl (hh h')
    | cons place path =>
      obtain ⟨c, hc, hat⟩ := (occurs_cons hf).1 hat
      exact h.all hc hat
  nodup := h.nodup (nodup_places f) fun _ => mem_places_singleton

theorem Gathers.listsHandler {items : List (Path × String)} (hg : Gathers s (places (.handler h)) es)
    (hf : s.form? id = some (.handler h)) (hitems : disposed s depthLimit h.body = some items) (i : Nat) :
    Lists s id (⟨[], i, Emit.below [("body", 0)] items⟩ :: es) where
  records := List.forall_mem_cons.2 ⟨⟨id, h, items, .here id, hf, hitems, rfl⟩, hg.records hf⟩
  all path hat := by
    cases path with
    | nil => exact ⟨_, .head _, rfl⟩
    | cons place path =>
      obtain ⟨c, hc, hat⟩ := (occurs_cons hf).1 hat
      obtain ⟨e, he, hpath⟩ := hg.all hc hat
      exact ⟨e, .tail _ he, hpath⟩
  nodup := by
    rw [List.map_cons, List.nodup_cons]
    refine ⟨fun hmem => ?_, hg.nodup (nodup_places _) fun _ => mem_places_singleton⟩
    obtain ⟨e, he, hnil⟩ := List.mem_map.1 hmem
    obtain ⟨x, hx, es', e', -, -, rfl⟩ := hg.mem he
    obtain ⟨place, hplace⟩ := mem_places_singleton hx
    simp [Entry.under, hplace] at hnil

end

/-! ## What scripts visit -/

mutual

def Act.visited : Act → List (Path × NodeId)
  | .visit path id => [(path, id)]
  | .block as => visitedIn as
  | _ => []

def visitedIn : List Act → List (Path × NodeId)
  | [] => []
  | a :: as => a.visited ++ visitedIn as

end

mutual

def Act.disposals : Act → List Operand
  | .dispose o => [o]
  | .block as => disposalsIn as
  | _ => []

def disposalsIn : List Act → List Operand
  | [] => []
  | a :: as => a.disposals ++ disposalsIn as

end

section

variable {s : Session} {p : Page} {id : NodeId} {f : Form} {xs ys : List (Path × NodeId)} {as bs : List Act} {es : List Entry}

attribute [local simp] visitedIn Act.visited disposalsIn Act.disposals

@[simp] theorem visitedIn_append (as bs : List Act) : visitedIn (as ++ bs) = visitedIn as ++ visitedIn bs := by
  induction as with
  | nil => rfl
  | cons a as ih => rw [List.cons_append, visitedIn, visitedIn, ih, List.append_assoc]

@[simp] theorem disposalsIn_append (as bs : List Act) : disposalsIn (as ++ bs) = disposalsIn as ++ disposalsIn bs := by
  induction as with
  | nil => rfl
  | cons a as ih => rw [List.cons_append, disposalsIn, disposalsIn, ih, List.append_assoc]

theorem Straight.visitedIn (h : Straight xs as) : visitedIn as = xs ∧ disposalsIn as = [] := by
  obtain ⟨hflat, rfl⟩ := h
  induction as with
  | nil => exact ⟨rfl, rfl⟩
  | cons a as ih =>
    obtain ⟨ha, has⟩ := List.forall_mem_cons.1 hflat
    obtain ⟨hv, hd⟩ := ih has
    rw [Emit.visitedIn, disposalsIn, hv, hd, List.filterMap_cons]
    cases a <;> simp_all [Act.isFlat, Act.visited?]

def Covers (s : Session) (f : Form) (xs : List (Path × NodeId)) : Prop :=
  ∀ ⦃es⦄, Gathers s xs es → ∃ es', Gathers s (places f) es' ∧ es.Perm es'

theorem Covers.of_perm (h : xs.Perm (places f)) : Covers s f xs := fun _ hg => hg.perm h

theorem Covers.dropLeft (h : Covers s f ys) (hx : AllClear s xs) : Covers s f (xs ++ ys) := fun _ hg => h (hg.dropLeft hx)

theorem Covers.dropMid (h : Covers s f (xs ++ ys)) {zs : List (Path × NodeId)} (hz : AllClear s zs) :
    Covers s f (xs ++ (zs ++ ys)) := by
  intro es hg
  obtain ⟨es1, es2, h1, h2, rfl⟩ := hg.split
  exact h (h1.append (h2.dropLeft hz))

theorem Covers.addLeft (h : places f = xs ++ ys) (hx : AllClear s xs) : Covers s f ys := fun es hg =>
  ⟨es, h ▸ hg.addLeft hx, .refl es⟩

theorem covers_clear (hf : AllClear s (places f)) (hx : AllClear s xs) : Covers s f xs := by
  intro es hg
  obtain rfl := (gathers_clear hx).1 hg
  exact ⟨[], (gathers_clear hf).2 rfl, .refl _⟩

def bodies : Form → List Operand
  | .handler h => [h.body]
  | _ => []

theorem tidy_skeleton (f : Form) : Tidy s (skeleton f) ↔ Tidy s f := by cases f <;> exact Iff.rfl

theorem bodies_skeleton (f : Form) : bodies (skeleton f) = bodies f := by cases f <;> rfl

theorem orderly_leaf (hf : s.form? id = some f) (hplaces : places f = []) (ht : Tidy s f) : Orderly s id := by
  intro path j g hl hg
  cases hl with
  | here =>
    cases hf.symm.trans hg
    exact ht
  | step hf' hc _ =>
    cases hf.symm.trans hf'
    rw [hplaces] at hc
    cases hc

structure Script.Reads (s : Session) (f : Form) (as : List Act) : Prop where
  covers : Covers s f (visitedIn as)
  bodies : disposalsIn as = bodies f
  orderly : ∀ x ∈ visitedIn as, Orderly s x.2

theorem Script.Reads.of (xs : List (Path × NodeId)) (hv : visitedIn as = xs) (hd : disposalsIn as = Emit.bodies f)
    (hc : Covers s f xs) (ho : ∀ x ∈ xs, Orderly s x.2) : Script.Reads s f as := by
  subst hv
  exact ⟨hc, hd, ho⟩

theorem Straight.reads (h : Straight xs as) (hperm : xs.Perm (places f)) (hf : Emit.bodies f = [])
    (ho : ∀ x ∈ places f, Orderly s x.2) : Script.Reads s f as := by
  obtain ⟨hv, hd⟩ := h.visitedIn
  exact .of _ hv (hd.trans hf.symm) (.of_perm hperm) fun x hx => ho x (hperm.mem_iff.1 hx)

theorem Script.Reads.ofClear (hf : AllClear s (places f)) (hb : Emit.bodies f = []) (ho : ∀ x ∈ places f, Orderly s x.2)
    (hd : disposalsIn as = []) (hv : ∀ x ∈ visitedIn as, ∃ y ∈ places f, y.2 = x.2) : Script.Reads s f as := by
  refine ⟨covers_clear hf fun x hx => ?_, by rw [hd, hb], fun x hx => ?_⟩
  · obtain ⟨y, hy, heq⟩ := hv x hx
    exact heq ▸ hf y hy
  · obtain ⟨y, hy, heq⟩ := hv x hx
    exact heq ▸ ho y hy

theorem operand_orderly (hf : s.form? id = some f) (ho : Orderly s id)
    (hc : (name, o) ∈ f.children) : ∀ k ∈ heads o, Orderly s k := by
  intro k hk
  obtain ⟨x, hx, rfl⟩ := mem_heads name hc hk
  exact ho.child hf hx

theorem mem_nodesAmong_zipIdx {os : List Operand} (path : Nat → Path)
    (hx : x ∈ nodesAmong (os.zipIdx.map fun y => (path y.2, y.1))) : .node x.2 ∈ os := by
  obtain ⟨⟨o, i⟩, ho, heq⟩ := List.mem_map.1 (mem_nodesAmong.1 hx)
  rw [← (Prod.mk.inj heq).2]
  exact List.mem_of_getElem? (List.mem_zipIdx_iff_getElem?.1 ho)

theorem mem_heads_of_items (h : .node k ∈ o.items) : k ∈ heads o := by
  cases o with
  | group items => exact List.mem_filterMap.2 ⟨_, h, rfl⟩
  | _ => cases h

theorem mem_parameters {g : Function} (hx : x ∈ parameters g) :
    x.2 ∈ heads g.arguments ∨ x.2 ∈ heads g.scalarArguments :=
  (List.mem_append.1 (mem_nodesAmong_zipIdx (fun i => [("arguments", i)]) hx)).imp mem_heads_of_items mem_heads_of_items

theorem mem_unpacked (hf : isArgument f = true) (hk : .node k ∈ unpacked f) : ∃ y ∈ places f, y.2 = k := by
  cases f <;> cases hf
  case argument v vs n u => exact mem_heads "variables" (.head _) (mem_heads_of_items hk)
  case arrayArgument v n d st vs u =>
    simp only [unpacked, List.mem_cons, List.not_mem_nil, or_false] at hk
    rcases hk with rfl | rfl
    · exact mem_heads "data_pointer" (.head _) (.head _)
    · exact mem_heads "strides_pointer" (.tail _ (.head _)) (.head _)

theorem allClear_argument (hf : isArgument f = true) (ht : Tidy s f) : AllClear s (places f) := by
  refine allClear_places fun c hc => ?_
  cases f <;> cases hf
  case argument v vs n u =>
    rw [List.mem_singleton.1 hc]
    exact ht
  case arrayArgument v n d st vs u =>
    simp only [Form.children, List.mem_cons, List.not_mem_nil, or_false] at hc
    rcases hc with rfl | rfl
    · exact ht.1
    · exact ht.2

theorem Operates.places (h : Operates f a b) :
    Emit.places f = nodesAmong (placed "lhs" a) ++ nodesAmong (placed "rhs" b) := by
  cases h <;> exact places_two rfl

theorem Operates.mem_left (h : Operates f a b) : ("lhs", a) ∈ f.children := by cases h <;> exact .head _

theorem Operates.mem_right (h : Operates f a b) : ("rhs", b) ∈ f.children := by
  cases h <;> exact .tail _ (.head _)

theorem gathers_assign {j : NodeId} (hj : s.form? j = some f) (hop : Operates f a b)
    (hl : Bare s l) (hg : Gathers s (places f) es) :
    Gathers s (places (.assign l (.node j) m)) (es.map (Entry.under [("rhs", 0)])) := by
  have hlists := hg.lists hj (by cases hop <;> simp)
  have hplaces : places (.assign l (.node j) m) = nodesAmong (placed "lhs" l) ++ nodesAmong (placed "rhs" (.node j)) :=
    places_two rfl
  rw [hplaces, ← List.append_nil (es.map _)]
  exact (Gathers.cons hlists .nil).addLeft (hl.allClear "lhs")

theorem reads_leaf (hf : places f = []) (hb : Emit.bodies f = []) (hv : visitedIn as = []) (hd : disposalsIn as = []) :
    Script.Reads s f as :=
  .of _ hv (hd.trans hb.symm) (.of_perm (by rw [hf])) (by simp)

theorem reads_loop {l : Loop} (has : Opens (nodesAmong (placed "init" l.start) ++ (nodesAmong (placed "condition" l.condition) ++
    nodesAmong (placed "step" l.step))) (LoopTail l) as) (ht : Tidy s (.loop l))
    (ho : ∀ x ∈ places (.loop l), Orderly s x.2) : Script.Reads s (.loop l) as := by
  obtain ⟨hs, cs, hhs, ⟨line, g, bs, g', hbs, rfl⟩, rfl⟩ := has
  obtain ⟨hv, hd⟩ := hhs.visitedIn
  obtain ⟨hv', hd'⟩ := hbs.visitedIn
  have hplaces : places (.loop l) = nodesAmong (placed "init" l.start) ++ (nodesAmong (placed "condition" l.condition) ++
      nodesAmong (placed "step" l.step)) ++ nodesAmong (placed "body" l.body) := by simp [places, operands, Form.children]
  refine .of (visitedIn hs ++ visitedIn bs) (by simp) (by simp [hd, hd', Emit.bodies]) ?_ fun x hx => ho x ?_
  · rw [hv, hv']
    refine .dropMid (.of_perm ?_) (Bare.allClear ht "init")
    rw [hplaces]
  · rw [hv, hv'] at hx
    rw [hplaces]
    simp only [List.mem_append] at hx ⊢
    tauto

theorem reads_function {f : Function} (has : Opens (parameters f) (FunctionTail f) as)
    (ht : Tidy s (.function f)) (ho : ∀ x ∈ places (.function f), Orderly s x.2) :
    Script.Reads s (.function f) (.title id (.function { f with emitted := some name }) :: as) := by
  obtain ⟨hs, cs, hhs, ⟨proto, line, bs, hbs, rfl⟩, rfl⟩ := has
  obtain ⟨hv, hd⟩ := hhs.visitedIn
  obtain ⟨hv', hd'⟩ := hbs.visitedIn
  refine .of (parameters f ++ places (.function f)) (by simp [hv, hv']) (by simp [hd, hd', Emit.bodies]) ?_
    fun x hx => ?_
  · exact .dropLeft (.of_perm (.refl _)) fun x hx => (mem_parameters hx).elim (ht.1 x.2) (ht.2 x.2)
  · rcases List.mem_append.1 hx with hx | hx
    · have hchild : ∃ y ∈ places (.function f), y.2 = x.2 := (mem_parameters hx).elim
        (mem_heads "arguments" (.tail _ (.head _)))
        (mem_heads "scalar_arguments" (.tail _ (.tail _ (.head _))))
      obtain ⟨y, hy, heq⟩ := hchild
      exact heq ▸ ho y hy
    · exact ho x hx

theorem reads_handler (has : Opens (handled h) (fun cs => ∃ ds,
    Straight (nodesAmong (placed "cascade" h.cascade)) ds ∧ cs = .dispose h.body :: ds) as) (ht : Tidy s (.handler h))
    (ho : ∀ x ∈ places (.handler h), Orderly s x.2) : Script.Reads s (.handler h) as := by
  obtain ⟨hs, cs, hhs, ⟨ds, hds, rfl⟩, rfl⟩ := has
  obtain ⟨hv, hd⟩ := hhs.visitedIn
  obtain ⟨hv', hd'⟩ := hds.visitedIn
  have hvisited : visitedIn (hs ++ .dispose h.body :: ds) = (nodesAmong (placed "error_label" h.errorLabel) ++
      nodesAmong (placed "cleanup_label" h.cleanupLabel)) ++ places (.handler h) := by
    simp [hv, hv', handled, places, operands, Form.children]
  have hlabel : ∀ x ∈ nodesAmong (placed "error_label" h.errorLabel) ++ nodesAmong (placed "cleanup_label" h.cleanupLabel),
      ∃ n text, s.form? x.2 = some (.label n text) := by
    intro x hx
    refine ht.1 x.2 ?_
    rw [← map_nodesAmong_placed "error_label", ← map_nodesAmong_placed "cleanup_label", ← List.map_append]
    exact List.mem_map_of_mem hx
  refine .of _ hvisited (by simp [hd, hd', Emit.bodies]) ?_ fun x hx => ?_
  · refine .dropLeft (.of_perm (.refl _)) fun x hx => ?_
    obtain ⟨n, text, hform⟩ := hlabel x hx
    exact clear_of_places hform (by simp) (by simp [AllClear, places_nil (f := .label n text) rfl])
  · rcases List.mem_append.1 hx with hx | hx
    · obtain ⟨n, text, hform⟩ := hlabel x hx
      exact orderly_leaf hform (places_nil rfl) trivial
    · exact ho x hx

theorem reads_increment (has : Increment p r as) (hr : Redrawn s p.1) (ht : Tidy s (.assign l r m))
    (ho : ∀ x ∈ places (.assign l r m), Orderly s x.2) : Script.Reads s (.assign l r m) as := by
  obtain ⟨j, g, k, b, v, rfl, hg, hop, hb, rfl⟩ := has
  obtain ⟨g', hj, hskel, -⟩ := hr.places hg
  obtain rfl := hop.unique hskel
  have hbare : Bare s (.node b) := by
    obtain ⟨c, hc, hskel', -⟩ := hr.places hb
    cases c <;> cases hskel'
    exact List.forall_mem_singleton.2 (clear_of_places hc (by simp) (by simp [AllClear, places_nil (f := .constant v) rfl]))
  have hvalue : ([("rhs", 0)], j) ∈ places (.assign l (.node j) m) := by
    rw [places_two rfl]
    exact List.mem_append_right _ (.head _)
  refine ⟨fun es hes => ?_, rfl, ?_⟩
  · cases hes with
    | cons hl hs =>
      cases hs
      have hg' := (Gathers.cons (x := ([("lhs", 0)], k)) hl .nil).append ((gathers_clear (hbare.allClear "rhs")).2 rfl)
      refine ⟨_, gathers_assign hj hop ht (hop.places ▸ hg'), ?_⟩
      simp [Entry.under_comp]
  · simp only [visitedIn, Act.visited, List.append_nil, List.forall_mem_singleton]
    exact operand_orderly hj (ho _ hvalue) hop.mem_left k (.head _)

theorem reads_inPlace (has : InPlace p l r as) (hr : Redrawn s p.1) (ht : Tidy s (.assign l r m))
    (ho : ∀ x ∈ places (.assign l r m), Orderly s x.2) : Script.Reads s (.assign l r m) as := by
  obtain ⟨i, j, g, a, k, rfl, rfl, hg, hop, hsame, rfl⟩ := has
  obtain ⟨g', hj, hskel, -⟩ := hr.places hg
  obtain rfl := hop.unique hskel
  have hvalue : ([("rhs", 0)], j) ∈ places (.assign (.node i) (.node j) m) := .tail _ (.head _)
  have hbare : Bare s a := bare_of_sameWithin hr (runs_same.1 hsame).1 (operand_orderly hj (ho _ hvalue) hop.mem_left) ht
  refine ⟨fun es hes => ?_, rfl, ?_⟩
  · cases hes with
    | cons hl hs =>
      obtain rfl := hl.eq_nil (ht i (.head _))
      cases hs with
      | cons hl' hs =>
        cases hs
        have hg' := (Gathers.cons (x := ([("rhs", 0)], k)) hl' .nil).addLeft (hbare.allClear "lhs")
        refine ⟨_, gathers_assign hj hop ht (hop.places ▸ hg'), ?_⟩
        simp [Entry.under_comp]
  · simp only [visitedIn, Act.visited, List.append_nil, List.cons_append, List.nil_append, List.forall_mem_cons,
      List.not_mem_nil, false_imp_iff, implies_true, and_true]
    exact ⟨ho _ (.head _), operand_orderly hj (ho _ hvalue) hop.mem_right k (.head _)⟩

theorem reads_firstStore (has : FirstStore p id l r as) (ht : Tidy s (.assign l r m))
    (ho : ∀ x ∈ places (.assign l r m), Orderly s x.2) : Script.Reads s (.assign l r m) as := by
  obtain ⟨t, shown, hs, line, rfl, -, hhs, rfl⟩ := has.acts
  obtain ⟨hv, hd⟩ := hhs.visitedIn
  have hplaces : places (.assign (.node t) r m) = nodesAmong (placed "lhs" (.node t)) ++ nodesAmong (placed "rhs" r) :=
    places_two rfl
  refine .of (nodesAmong (placed "rhs" r)) (by simp [hv]) (by simp [hd, Emit.bodies])
    (.addLeft hplaces (Bare.allClear ht "lhs")) fun x hx => ho x ?_
  rw [hplaces]
  exact List.mem_append_right _ hx

theorem Script.reads (h : Script p id f as) (hr : Redrawn s p.1) (ht : Tidy s f)
    (ho : ∀ x ∈ places f, Orderly s x.2) : Script.Reads s f as := by
  cases h with
  | straight hf has =>
    refine has.reads (.refl _) ?_ ho
    cases f <;> first | rfl | cases hf
  | parallelLoop has =>
    refine has.reads ?_ rfl ho
    simp only [places, operands, Form.children, List.flatMap_cons, List.flatMap_nil, nodesAmong_append, List.append_nil]
    rw [← List.append_assoc, ← List.append_assoc, List.append_assoc (nodesAmong _)]
    exact List.perm_append_comm
  | loop has => exact reads_loop has ht ho
  | function has => exact reads_function has ht ho
  | unused hf =>
    refine .ofClear (allClear_argument hf ht) ?_ ho rfl (by simp [visitedIn])
    cases f <;> first | rfl | cases hf
  | argument hf has =>
    obtain ⟨hv, hd⟩ := has.visitedIn
    refine .ofClear (allClear_argument hf ht) ?_ ho hd fun x hx => ?_
    · cases f <;> first | rfl | cases hf
    · rw [hv] at hx
      exact mem_unpacked hf (List.mem_filter.1 (mem_nodesAmong_zipIdx (fun i => [("variables", i)]) hx)).1
  | handler has => exact reads_handler has ht ho
  | increment has => exact reads_increment has hr ht ho
  | inPlace has => exact reads_inPlace has hr ht ho
  | firstStore has => exact reads_firstStore has ht ho
  | declared hrole | temporary hrole | known hrole | titled hrole =>
    exact reads_leaf (places_nil (by simp [Form.children, hrole])) rfl rfl rfl
  | label | newLabel => exact reads_leaf (places_nil rfl) rfl rfl rfl

end

/-! ## Writing with disposal -/

def sectionsOf (es : List Entry) : List Nat := es.map (·.sectionId)

/-- The section of an entry holds the lines that dispose of its nodes, and nothing else. -/
def Entry.Filled (e : Entry) (q : Page) : Prop :=
  ∃ indent, q.2.desk.section? e.sectionId = some (typeset indent (e.items.map fun x => disposal x.2)).toArray

/-- Pages that were written in step. The first has new sections with the disposals of some entries; they are empty on
the second. -/
structure Tells (spare : List Nat) (p q q' : Page) (es : List Entry) : Prop where
  twin : Twin (sectionsOf es ++ spare) q q'
  fresh : ∀ e ∈ es, p.size ≤ e.sectionId
  nodup : (sectionsOf es).Nodup
  filled : ∀ e ∈ es, e.Filled q
  unwritten : Unwritten spare p q
  grows : p.size ≤ q.size

namespace Tells

variable {spare : List Nat} {p p₁ q q' : Page} {es es' : List Entry}

theorem nil (ht : Twin spare q q') (hu : Unwritten spare p q) (hg : p.size ≤ q.size) : Tells spare p q q' [] :=
  ⟨ht, by simp, .nil, by simp, hu, hg⟩

theorem under (h : Tells spare p q q' es) (path : Path) : Tells spare p q q' (es.map (Entry.under path)) := by
  have hsections : sectionsOf (es.map (Entry.under path)) = sectionsOf es := by simp [sectionsOf, Entry.under]
  refine ⟨hsections ▸ h.twin, fun e he => ?_, hsections ▸ h.nodup, fun e he => ?_, h.unwritten, h.grows⟩
  · obtain ⟨e', he', rfl⟩ := List.mem_map.1 he
    exact h.fresh e' he'
  · obtain ⟨e', he', rfl⟩ := List.mem_map.1 he
    obtain ⟨indent, hfilled⟩ := h.filled e' he'
    exact ⟨indent, by simpa [Entry.under, below, Function.comp_def] using hfilled⟩

theorem append {p1' : Page} (h : Tells spare p p₁ p1' es) (h' : Tells (sectionsOf es ++ spare) p₁ q q' es') :
    Tells spare p q q' (es ++ es') where
  twin := h'.twin.congr fun i => by simp [sectionsOf, or_left_comm]
  fresh e he := by
    rcases List.mem_append.1 he with he | he
    · exact h.fresh e he
    · exact h.grows.trans (h'.fresh e he)
  nodup := by
    rw [sectionsOf, List.map_append]
    refine h.nodup.append h'.nodup fun i hi hi' => ?_
    obtain ⟨e, he, rfl⟩ := List.mem_map.1 hi'
    have hlt := h.twin.desk.spare_lt e.sectionId (List.mem_append_left _ hi)
    exact absurd (h'.fresh e he) (Nat.not_le_of_lt hlt)
  filled e he := by
    rcases List.mem_append.1 he with he | he
    · obtain ⟨indent, hfilled⟩ := h.filled e he
      exact ⟨indent, (h'.unwritten _ (List.mem_append_left _ (List.mem_map_of_mem he))).trans hfilled⟩
    · exact h'.filled e he
  unwritten i hi := (h'.unwritten i (List.mem_append_right _ hi)).trans (h.unwritten i hi)
  grows := h.grows.trans h'.grows

end Tells

section

variable {s : Session} {spare : List Nat} {p p' q : Page} {as : List Act} {depth : Nat} {id : NodeId}

def Disposes (s : Session) (o : Operand) (e : Entry) : Prop :=
  e.handler = [] ∧ ∃ xs, disposed s depthLimit o = some xs ∧ e.items = below [("body", 0)] xs

/-- A page for a client that disposes of foreign nodes, on which nodes of a session have been written so far. -/
structure Disposing (s : Session) (p : Page) : Prop where
  disposes : p.1.settings.disposes = true
  redrawn : Redrawn s p.1

def InStep (s : Session) (visit : Operand → Emitting Rendered) : Prop :=
  ∀ ⦃id p p' q r spare⦄, Orderly s id → Disposing s p → Twin spare p p' → Ends (visit (.node id)) p r q →
    ∃ q' es, Ends (visit (.node id)) p' r q' ∧ Lists s id es ∧ Tells spare p q q' es

theorem Disposing.performs (hv : Visiting visit) (h : Disposing s p)
    (hperf : Performs (writing visit) as p q) : Disposing s q := by
  have hkeeps := (hperf.keeps hv).1
  exact ⟨by rw [hkeeps.settings]; exact h.disposes, h.redrawn.trans hkeeps⟩

theorem Does.tells {a : Act} (h : Does a p q) (hd : Disposing s p) (ht : Twin spare p p') :
    ∃ q' es, Does a p' q' ∧ List.Forall₂ (Disposes s) a.disposals es ∧ Tells spare p q q' es := by
  by_cases ha : ∃ o, a = .dispose o
  · obtain ⟨o, rfl⟩ := ha
    obtain ⟨q', xs, hxs, hq', htwin, hsection, hun, hlt⟩ := twin_dispose h ht hd.disposes
    refine ⟨q', [⟨[], p.size, below [("body", 0)] xs⟩], hq', ?_, htwin, ?_, List.nodup_singleton _, ?_, hun, hlt.le⟩
    · refine .cons ⟨rfl, xs, ?_, rfl⟩ .nil
      rw [← hxs, disposed_congr hd.redrawn.form?]
    · simp
    · refine List.forall_mem_singleton.2 ⟨p.writer.indent, ?_⟩
      simpa [below, Function.comp_def] using hsection
  · obtain ⟨q', hq', htwin, hun, hle⟩ := h.twin ht fun o ho => ha ⟨o, ho⟩
    refine ⟨q', [], hq', ?_, .nil htwin hun hle⟩
    cases a <;> first | exact .nil | exact absurd ⟨_, rfl⟩ ha | cases h

theorem perm_regroup {α : Type} (a b c d : List α) : ((a ++ b) ++ (c ++ d)).Perm ((a ++ c) ++ (b ++ d)) := by
  simp only [List.append_assoc]
  refine List.Perm.append_left a ?_
  rw [← List.append_assoc, ← List.append_assoc]
  exact List.perm_append_comm.append_right d

theorem Performs.tells (hv : Visiting visit) (hstep : InStep s visit)
    (h : Performs (writing visit) as p q) (hd : Disposing s p) (ht : Twin spare p p') (ho : ∀ x ∈ visitedIn as, Orderly s x.2) :
    ∃ q' es ds all, Performs (writingTwice visit) as (p, p') (q, q') ∧ Gathers s (visitedIn as) es ∧
      List.Forall₂ (Disposes s) (disposalsIn as) ds ∧ all.Perm (es ++ ds) ∧ Tells spare p q q' all := by
  induction h generalizing p' spare with
  | nil p => exact ⟨p', [], [], [], .nil _, .nil, .nil, .refl _, .nil ht (fun _ _ => rfl) (le_refl _)⟩
  | @visit path id as p p₁ q hvisit hs ih =>
    obtain ⟨r, hr⟩ := hvisit
    obtain ⟨p1', es1, hr', hlists, htells⟩ := hstep (ho (path, id) (.head _)) hd ht hr
    have hvisit : Performs (writing visit) [.visit path id] p p₁ := .visit ⟨r, hr⟩ (.nil _)
    have hd1 := hd.performs hv hvisit
    obtain ⟨q', es, ds, all, hperf, hgathers, hdisposes, hperm, htells'⟩ :=
      ih hd1 (htells.under path).twin fun x hx => ho x (List.mem_append_right _ hx)
    refine ⟨q', _, ds, _, .visit ⟨r, hr, hr', htells.twin.agree⟩ hperf, .cons hlists hgathers, hdisposes, ?_,
      (htells.under path).append htells'⟩
    rw [List.append_assoc]
    exact hperm.append_left _
  | @block as bs p p₁ q hb hs ihb ih =>
    obtain ⟨p1', es1, ds1, all1, hperf1, hgathers1, hdisposes1, hperm1, htells1⟩ :=
      ihb ⟨hd.disposes, hd.redrawn⟩ ht.enter fun x hx => ho x (List.mem_append_left _ hx)
    have hd1 : Disposing s p₁.leave := by
      obtain ⟨hdisposes, hredrawn⟩ := Disposing.performs (p := p.enter) hv ⟨hd.disposes, hd.redrawn⟩ hb
      exact ⟨hdisposes, hredrawn⟩
    have hblock : Tells spare p p₁.leave p1'.leave all1 := by
      have henter := Tells.nil ht.enter ht.unwritten_enter p.size_enter
      have hleave := Tells.nil (p := p₁) htells1.twin.leave (fun _ _ => rfl) (le_refl _)
      simpa using (henter.append htells1).append hleave
    obtain ⟨q', es, ds, all, hperf, hgathers, hdisposes, hperm, htells⟩ :=
      ih hd1 hblock.twin fun x hx => ho x (List.mem_append_right _ hx)
    refine ⟨q', es1 ++ es, ds1 ++ ds, all1 ++ all, .block hperf1 hperf, hgathers1.append hgathers,
      List.rel_append hdisposes1 hdisposes, ?_, hblock.append htells⟩
    exact (hperm1.append hperm).trans (perm_regroup es1 ds1 es ds)
  | @act a as p p₁ q ha hs ih =>
    obtain ⟨p1', es1, ha', hdisposes1, htells⟩ := ha.tells hd ht
    have hd1 := hd.performs hv (.act ha (.nil _))
    have hvisited : a.visited = [] := by cases a <;> first | rfl | cases ha
    obtain ⟨q', es, ds, all, hperf, hgathers, hdisposes, hperm, htells'⟩ :=
      ih hd1 htells.twin fun x hx => ho x (List.mem_append_right _ hx)
    have hact : (writingTwice visit).does a (p, p') (p₁, p1') := ⟨ha, ha', htells.twin.agree⟩
    refine ⟨q', es, es1 ++ ds, es1 ++ all, .act hact hperf, ?_, ?_, ?_, htells.append htells'⟩
    · rw [visitedIn, hvisited]
      exact hgathers
    · rw [disposalsIn]
      exact List.rel_append hdisposes1 hdisposes
    · exact (hperm.append_left es1).trans (perm_regroup [] es1 es ds)

theorem Gathers.listsAll {f : Form} {es ds : List Entry} (hg : Gathers s (places f) es) (hf : s.form? id = some f)
    (hd : List.Forall₂ (Disposes s) (bodies f) ds) : Lists s id (es ++ ds) := by
  by_cases hh : ∃ h, f = .handler h
  · obtain ⟨h, rfl⟩ := hh
    obtain ⟨⟨path, i, items⟩, _, ⟨rfl, xs, hxs, rfl⟩, hnil, rfl⟩ := List.forall₂_cons_left_iff.1 hd
    cases hnil
    exact (hg.listsHandler hf hxs i).perm (List.perm_append_singleton _ _).symm
  · have hbodies : bodies f = [] := by cases f <;> first | rfl | exact absurd ⟨_, rfl⟩ hh
    rw [hbodies] at hd
    cases hd
    rw [List.append_nil]
    exact hg.lists hf fun h hf => hh ⟨h, hf⟩

theorem inStep_emitWithin (s : Session) (depth : Nat) : InStep s (emitWithin depth) := by
  induction depth with
  | zero => exact fun _ _ _ _ _ _ _ _ _ h => (ends_throw.1 h).elim
  | succ depth ih =>
    intro id p p' q r spare ho hd ht h
    obtain ⟨_, _, f, as, heq, hid, hf, hscript, hperf, hreplay⟩ := emitWithin_script h
    cases heq
    cases hid
    obtain ⟨f', hf', hskel, hplaces⟩ := hd.redrawn.places hf
    have htidy : Tidy s f := by
      rw [← tidy_skeleton, ← hskel, tidy_skeleton]
      exact ho.tidy hf'
    have hreads := hscript.reads hd.redrawn htidy fun x hx => ho.child hf' (hplaces ▸ hx)
    obtain ⟨q', es, ds, all, htwice, hgathers, hdisposes, hperm, htells⟩ :=
      hperf.tells (visiting_emitWithin depth) ih hd ht hreads.orderly
    obtain ⟨es', hgathers', hperm'⟩ := hreads.covers hgathers
    have hbodies : bodies f' = disposalsIn as := by
      rw [hreads.bodies, ← bodies_skeleton, hskel, bodies_skeleton]
    have hlists : Lists s id (es' ++ ds) := Gathers.listsAll (hplaces ▸ hgathers') hf' (hbodies ▸ hdisposes)
    exact ⟨q', all, hreplay ht.agree htwice, hlists.perm ((hperm.trans (hperm'.append_right ds)).symm), htells⟩

theorem twin_start (s : Session) : Twin [] (s, Emitter.start) (hushed s, Emitter.start) where
  session := rfl
  main := rfl
  declared := rfl
  names := rfl
  labels := rfl
  desk := by
    refine ⟨rfl, rfl, fun _ _ => rfl, ?_, ?_, by simp, by simp, fun _ _ => rfl, by simp⟩
    · show ∀ w ∈ [1, 0], w < 2
      simp
    · show ∀ w ∈ [1, 0], (Emitter.start.desk.writer w).sectionId < 2
      decide

end

/-! ## The foreign nodes of a function -/

/-- The handlers below a node share the foreign nodes below it: each handler has one entry, and each foreign node in the
body of a handler is in the entry of the innermost of these handlers, and nowhere else. -/
structure Shares (s : Session) (root : NodeId) (es : List Entry) : Prop where
  handlers : ∀ path, (∃ e ∈ es, e.handler = path) ↔ HandlerAt s root path
  nodup : (es.map (·.handler)).Nodup
  items : ∀ e ∈ es, ∀ path text, (path, text) ∈ e.items ↔ ForeignAt s root path text ∧ Innermost s root e.handler path
  once : ((es.flatMap (·.items)).map (·.1)).Nodup

theorem Lists.shares {root : NodeId} {es : List Entry} (h : Lists s root es) (ho : Orderly s root) :
    Shares s root es := by
  have hitems : ∀ e ∈ es, ∀ path text, (path, text) ∈ e.items ↔ ForeignAt s root path text ∧ Innermost s root e.handler path := by
    intro e he path text
    obtain ⟨j, hh, xs, hl, hf, hxs, heq⟩ := h.records e he
    rw [heq]
    exact mem_items ho hl hf hxs
  refine ⟨fun path => ⟨?_, h.all path⟩, h.nodup, hitems, ?_⟩
  · rintro ⟨e, he, rfl⟩
    obtain ⟨j, hh, xs, hl, hf, -⟩ := h.records e he
    exact ⟨j, _, hl, hf, hh, rfl⟩
  · rw [List.map_flatMap, List.nodup_flatMap]
    refine ⟨fun e he => ?_, ?_⟩
    · obtain ⟨j, hh, xs, hl, hf, hxs, heq⟩ := h.records e he
      obtain ⟨b, hb⟩ := node_of_disposed hxs
      have hbelow : (below (e.handler ++ [("body", 0)]) xs).map (·.1) = (xs.map (·.1)).map (e.handler ++ [("body", 0)] ++ ·) := by
        simp [below]
      rw [heq, hbelow]
      exact (mem_disposed (hb ▸ hxs)).2.map fun _ _ => List.append_cancel_left
    · -- Two handlers cannot both be the innermost one.
      refine (List.pairwise_map.1 h.nodup).imp_of_mem fun {e e'} he he' hne path hpath hpath' => ?_
      obtain ⟨⟨_, text⟩, hx, rfl⟩ := List.mem_map.1 hpath
      obtain ⟨⟨_, text'⟩, hx', heq⟩ := List.mem_map.1 hpath'
      obtain rfl := heq
      exact hne (((hitems e he _ _).1 hx).2.unique ((hitems e' he' _ _).1 hx').2)

/-- Foreign nodes are disposed of once. The sections of the handlers hold the disposals of the foreign nodes they share.
Apart from them, the code is that of a client that disposes of nothing. -/
theorem foreign_disposed_once {s : Session} {root : NodeId} {r : Rendered} {q : Page} (hd : s.settings.disposes = true)
    (ho : Orderly s root) (h : Ends (emit (.node root)) (s, Emitter.start) r q) :
    ∃ es q', Shares s root es ∧ (sectionsOf es).Nodup ∧ (∀ e ∈ es, e.Filled q) ∧
      Ends (emit (.node root)) (hushed s, Emitter.start) r q' ∧
      ∀ i, q'.2.desk.section? i = if i ∈ sectionsOf es then some #[] else q.2.desk.section? i := by
  obtain ⟨q', es, h', hlists, htells⟩ := inStep_emitWithin s depthLimit ho ⟨hd, .refl s⟩ (twin_start s) h
  refine ⟨es, q', hlists.shares ho, htells.nodup, htells.filled, h', fun i => ?_⟩
  have hdesk := htells.twin.desk
  rw [List.append_nil] at hdesk
  split
  · exact hdesk.empty i ‹_›
  · exact hdesk.same i ‹_›

/-! ### Examples -/

def cleanClient : Session := { settings := { disposes := true, hoistBroadcasting := false } }

def foreignStatement (text : String) : Action Operand := do
  Build.statement (← Build.foreign text CType.float64 .unknown)

/-- A function with a body of its own, with its handlers wired. -/
def functionWith (body : Action Operand) : Action Operand := do
  let out ← Build.variableOf (CType.array CType.float64 1 false false false none) (.text "out")
  let f ← Build.functionOver [out] (← Build.noop) (.text "f")
  let sp ← addSpecializer ⟨.strided, .rowMajor, none⟩
  let body ← body
  updateFunction (← identity f) fun f => { f with body, specializer := some sp, loops := some [] }
  Layout.address sp f

def nestedHandlers : Action Operand := do
  let w ← foreignStatement "w"
  Build.handler (← Build.sequence [w, ← Build.handler (← foreignStatement "v")])

def handlerInStart : Action Operand := do
  let t ← Build.temporary CType.float64 "t"
  let zero ← Build.prepared [← Build.handler (← foreignStatement "w")] (← Build.constant (.int 0))
  let condition ← Build.binop CType.bool "<" t (← Build.constant (.int 3))
  let step ← Build.assignment t (← Build.add t (← Build.constant (.int 1)))
  Build.loop (← Build.sequence []) (← Build.assignment t zero) condition step

def writtenWith (body : Action Operand) (test : Session → NodeId → Emitter → Bool) : Bool :=
  match (functionWith body).runOn cleanClient with
  | (.ok (.node root), s) =>
    match ((emit (.node root)).run Emitter.start).runOn s with
    | (.ok (_, e), _) => test s root e
    | _ => false
  | _ => false

theorem exists_of_writtenWith {body : Action Operand} {test : Session → NodeId → Emitter → Bool}
    (h : writtenWith body test = true) : ∃ root s r t e, Runs (functionWith body) cleanClient (.node root) s ∧
      Ends (emit (.node root)) (s, Emitter.start) r (t, e) ∧ test s root e = true := by
  unfold writtenWith at h
  split at h
  · rename_i root s hbuild
    split at h
    · rename_i r e t hemit
      exact ⟨root, s, r, t, e, hbuild, hemit, h⟩
    · cases h
  · cases h

theorem nested_handlers_dispose_once : ∃ root s r q, Runs (functionWith nestedHandlers) cleanClient (.node root) s ∧
    s.settings.disposes = true ∧ Orderly s root ∧ Ends (emit (.node root)) (s, Emitter.start) r q ∧
    ∃ es q', Shares s root es ∧ (sectionsOf es).Nodup ∧ (∀ e ∈ es, e.Filled q) ∧
      Ends (emit (.node root)) (hushed s, Emitter.start) r q' ∧
      ∀ i, q'.2.desk.section? i = if i ∈ sectionsOf es then some #[] else q.2.desk.section? i := by
  have h : writtenWith nestedHandlers (fun s root _ => s.settings.disposes && isOrderly s 12 root) = true := by
    decide +kernel
  obtain ⟨root, s, r, t, e, hbuild, hemit, htest⟩ := exists_of_writtenWith h
  obtain ⟨hd, hcheck⟩ := Bool.and_eq_true_iff.1 htest
  have ho := orderly_of_isOrderly hcheck
  exact ⟨root, s, r, (t, e), hbuild, hd, ho, hemit, foreign_disposed_once hd ho hemit⟩

def isDisposal (e : Emitter) (i : Nat) (indent : Int) (text : String) : Bool :=
  match (e.desk.section? i).map Array.toList with
  | some [.item line] => line == (indented indent (disposal text)).1
  | _ => false

theorem section?_of_isDisposal {e : Emitter} {i : Nat} {indent : Int} {text : String} (h : isDisposal e i indent text = true) :
    e.desk.section? i = some (typeset indent [disposal text]).toArray := by
  unfold isDisposal at h
  split at h
  · rename_i hsection
    obtain ⟨pieces, hpieces, hlist⟩ := Option.map_eq_some_iff.1 hsection
    have hback : pieces.toList.toArray = pieces := Array.toArray_toList
    rw [hpieces, ← hback, hlist, eq_of_beq h]
    rfl
  · cases h

/-- The start of a loop is written before the loop and in it, and so are its disposals: a foreign node that occurs once,
in the body of a handler, is disposed of twice. -/
theorem handler_in_start_disposes_twice : ∃ root s r q handler path i j,
    Runs (functionWith handlerInStart) cleanClient (.node root) s ∧ Ends (emit (.node root)) (s, Emitter.start) r q ∧
    HandlerAt s root handler ∧ InBody handler path ∧ (∀ path' text, ForeignAt s root path' text ↔ path' = path ∧ text = "w") ∧
    i ≠ j ∧ (∃ indent, q.2.desk.section? i = some (typeset indent [disposal "w"]).toArray) ∧
    ∃ indent, q.2.desk.section? j = some (typeset indent [disposal "w"]).toArray := by
  let handler : Path := [("body", 0), ("stats", 0), ("init", 0), ("rhs", 0), ("stat", 0), ("stats", 0)]
  let path : Path := handler ++ [("body", 0), ("expr", 0)]
  have h : writtenWith handlerInStart (fun s root e =>
      found s (fun f => (handler? f).map fun _ => ()) 12 (.node root) == some [(handler, ())] &&
      (found s foreign? 12 (.node root) == some [(path, "w")] && (isDisposal e 8 1 "w" && isDisposal e 14 2 "w"))) = true := by
    decide +kernel
  obtain ⟨root, s, r, t, e, hbuild, hemit, htest⟩ := exists_of_writtenWith h
  simp only [Bool.and_eq_true] at htest
  obtain ⟨hhandler, hforeign, hfirst, hsecond⟩ := htest
  refine ⟨root, s, r, (t, e), handler, path, 8, 14, hbuild, hemit, ?_, ⟨0, [("expr", 0)], rfl⟩, fun path' text => ?_, by decide,
    ⟨1, section?_of_isDisposal hfirst⟩, 2, section?_of_isDisposal hsecond⟩
  · obtain ⟨j, f, hl, hf, hpick⟩ := (mem_found (eq_of_beq hhandler) handler ()).1 (.head _)
    cases f <;> cases hpick
    exact ⟨j, _, hl, hf, _, rfl⟩
  · have hmem := mem_found (eq_of_beq hforeign) path' text
    rw [List.mem_singleton, Prod.mk.injEq] at hmem
    rw [hmem]
    constructor
    · rintro ⟨j, f, hl, hf, owned, rfl⟩
      exact ⟨j, _, hl, hf, rfl⟩
    · rintro ⟨j, f, hl, hf, hpick⟩
      cases f <;> cases hpick
      exact ⟨j, _, hl, hf, _, rfl⟩

end ArrayKernel.Emit
