import ArrayKernel.Proofs.Emission
import ArrayKernel.Proofs.Traversal

/-!
# What is done to write a node

Writing a node is a row of acts: lines are put down, children are visited, blocks are opened and closed,
temporaries are named and declared. `Writes` says which acts an emitting action performs.
-/

namespace ArrayKernel.Emit

open Ast Stateful

variable {g : Writer → Writer} {id : NodeId} {visit : Operand → Emitting Rendered} {as : List Act}

/-! ## Acts -/

abbrev Place := String × Nat

abbrev Path := List Place

inductive Act where
  | visit (path : Path) (id : NodeId)
  | block (acts : List Act)
  | put (line : String)
  | prototype (line : String)
  | declare (id : NodeId) (line : String)
  | point
  | loops (f : List Nat → List Nat)
  | name (id : NodeId) (shown : String)
  | title (id : NodeId) (f : Form)
  | count
  | mark (id : NodeId)
  | dispose (body : Operand)

/-- Where the acts lead from and to: pages, or pairs of pages. -/
structure Stage (σ : Type) where
  visits : NodeId → σ → σ → Prop
  does : Act → σ → σ → Prop
  enter : σ → σ
  leave : σ → σ

inductive Performs {σ : Type} (S : Stage σ) : List Act → σ → σ → Prop where
  | nil (p : σ) : Performs S [] p p
  | visit {path : Path} {id : NodeId} {as : List Act} {p p' q : σ} (h : S.visits id p p')
    (hs : Performs S as p' q) : Performs S (.visit path id :: as) p q
  | block {as bs : List Act} {p p' q : σ} (h : Performs S as (S.enter p) p')
    (hs : Performs S bs (S.leave p') q) : Performs S (.block as :: bs) p q
  | act {a : Act} {as : List Act} {p p' q : σ} (h : S.does a p p') (hs : Performs S as p' q) :
    Performs S (a :: as) p q

section

variable {σ : Type} {S : Stage σ} {as bs : List Act} {p p' q : σ}

theorem Performs.append (h : Performs S as p p') (h' : Performs S bs p' q) : Performs S (as ++ bs) p q := by
  induction h with
  | nil => exact h'
  | visit hv _ ih => exact .visit hv (ih h')
  | block hb _ _ ih => exact .block hb (ih h')
  | act ha _ ih => exact .act ha (ih h')

theorem Performs.split (h : Performs S (as ++ bs) p q) : ∃ p', Performs S as p p' ∧ Performs S bs p' q := by
  induction as generalizing p with
  | nil => exact ⟨p, .nil p, h⟩
  | cons a as ih =>
    cases h with
    | visit hv hs =>
      obtain ⟨p', h1, h2⟩ := ih hs
      exact ⟨p', .visit hv h1, h2⟩
    | block hb hs =>
      obtain ⟨p', h1, h2⟩ := ih hs
      exact ⟨p', .block hb h1, h2⟩
    | act ha hs =>
      obtain ⟨p', h1, h2⟩ := ih hs
      exact ⟨p', .act ha h1, h2⟩

end

/-! ## Pages -/

namespace Page

def point (p : Page) : Page := (p.1, { p.2 with desk := (p.2.desk.insertionPoint p.2.main).1 })

def newWriter (p : Page) : Nat := (p.2.desk.insertionPoint p.2.main).2

def tune (p : Page) (g : Writer → Writer) : Page :=
  (p.1, { p.2 with desk := p.2.desk.update p.2.main g })

def enter (p : Page) : Page :=
  p.point.tune fun m => { m with declarationLevels := m.declarationLevels ++ [p.newWriter] }

def leave (p : Page) : Page :=
  p.tune fun m => { m with declarationLevels := m.declarationLevels.dropLast }

def writer (p : Page) : Writer := p.2.desk.writer p.2.main

def reform (p : Page) (id : NodeId) (g : Form → Form) : Page := (p.1.alter id (Node.reform g), p.2)

def freshName (p : Page) (shown : String) : String :=
  distinctName (mangle shown) p.2.names p.2.declared.length

def name (p : Page) (id : NodeId) (shown : String) : Page :=
  (p.1.alter id (Node.reform fun
    | .var v => .var { v with name := .ofString (p.freshName shown) }
    | other => other),
   { p.2 with names := p.freshName shown :: p.2.names, declared := p.2.declared ++ [id] })

end Page

inductive Titles : Form → Form → Prop where
  | plain {v : Variable} {x : String} (hrole : v.role = .plain) (hnone : v.emitted = none)
    (hx : ∀ y, v.name = .ofString y → x = mangle y) : Titles (.var v) (.var { v with emitted := some x })
  | label {n : Datum} {x : String} : Titles (.label n none) (.label n (some x))
  | function {f f' : Function} {x : String} (h : f' = { f with emitted := some x }) : Titles (.function f) (.function f')

def DeclarationOf (s : Session) (id : NodeId) (line : String) : Prop :=
  ∃ (t : CType) (v : Variable) (type x : String) (value : Rendered), s.type? id = some t ∧
    t.text s.settings.declare = .ok type ∧ s.form? id = some (.var v) ∧ Runs (shownName v.name) s x s ∧
    line = type ++ " " ++ x ++ value.initializer ++ ";"

def isStatementMark (n : Node) : Node := { n with marks := { n.marks with isStatement := true } }

/-- What an act other than a visit or a block does to a page. -/
inductive Does : Act → Page → Page → Prop where
  | put (line : String) (p : Page) : Does (.put line) p (p.putLine p.2.main line)
  | prototype {line : String} {p : Page} {w : Nat} (h : p.writer.proto = some w) :
    Does (.prototype line) p (p.putLine w line)
  | declare {id : NodeId} {line : String} {p : Page} {w : Nat}
    (h : p.writer.declarationLevels.getLast? = some w) (hline : DeclarationOf p.1 id line) :
    Does (.declare id line) p (p.putLine w line)
  | point (p : Page) : Does .point p p.point
  | loops (f : List Nat → List Nat) (p : Page) :
    Does (.loops f) p (p.tune fun m => { m with loopLevels := f m.loopLevels })
  | name {id : NodeId} {shown : String} {p : Page} {v : Variable} (hv : p.1.form? id = some (.var v))
    (hrole : v.role = .temporary shown) (hid : id ∉ p.2.declared) : Does (.name id shown) p (p.name id shown)
  | title {id : NodeId} {f f' : Form} {p : Page} (hf : p.1.form? id = some f) (h : Titles f f') :
    Does (.title id f') p (p.reform id fun _ => f')
  | count (p : Page) : Does .count p (p.1, { p.2 with labels := p.2.labels + 1 })
  | mark (id : NodeId) (p : Page) : Does (.mark id) p (p.1.alter id isStatementMark, p.2)
  | dispose {o : Operand} {p q : Page} (h : Ends (disposeWithin p.newWriter depthLimit o) p.point () q) :
    Does (.dispose o) p q

def writing (visit : Operand → Emitting Rendered) : Stage Page where
  visits id p q := ∃ r, Ends (visit (.node id)) p r q
  does := Does
  enter := Page.enter
  leave := Page.leave

theorem ends_unique {τ α : Type} {a : StateT τ Action α} {p q q' : Session × τ} {r r' : α} (h : Ends a p r q)
    (h' : Ends a p r' q') : r = r' ∧ q = q' := by
  obtain ⟨heq, ht⟩ := runs_unique h h'
  obtain ⟨hr, hq⟩ := Prod.mk.inj heq
  exact ⟨hr, Prod.ext ht hq⟩

theorem Does.unique {a : Act} {p q q' : Page} (h : Does a p q) (h' : Does a p q') : q = q' := by
  cases h <;> cases h'
  case dispose.dispose h h' => exact (ends_unique h h').2
  case prototype.prototype h _ h' => rw [Option.some.inj (h.symm.trans h')]
  case declare.declare h _ _ h' _ => rw [Option.some.inj (h.symm.trans h')]
  all_goals rfl

theorem Performs.unique {p q q' : Page}
    (h : Performs (writing visit) as p q) (h' : Performs (writing visit) as p q') : q = q' := by
  induction h generalizing q' with
  | nil =>
    cases h'
    rfl
  | visit hv _ ih =>
    cases h' with
    | visit hv' hs' =>
      obtain ⟨r, hr⟩ := hv
      obtain ⟨r', hr'⟩ := hv'
      obtain rfl := (ends_unique hr hr').2
      exact ih hs'
    | act ha => cases ha
  | block _ _ ihb ih =>
    cases h' with
    | block hb' hs' =>
      obtain rfl := ihb hb'
      exact ih hs'
    | act ha => cases ha
  | act ha _ ih =>
    cases h' with
    | visit | block => cases ha
    | act ha' hs' =>
      obtain rfl := ha.unique ha'
      exact ih hs'

/-! ## Agreeing pages -/

def hushed (s : Session) : Session := { s with settings := { s.settings with disposes := false } }

/-- Pages that emission cannot tell apart, except by the disposal of foreign nodes: the second one is that of
a client that disposes of nothing. -/
structure Agree (p q : Page) : Prop where
  session : q.1 = hushed p.1
  main : q.2.main = p.2.main
  declared : q.2.declared = p.2.declared
  names : q.2.names = p.2.names
  labels : q.2.labels = p.2.labels
  writer : q.writer = p.writer
  writers : q.2.desk.writers.size = p.2.desk.writers.size
  sections : q.2.desk.document.sections.size = p.2.desk.document.sections.size
  valid : p.2.main < p.2.desk.writers.size

/-- The acts are performed on two agreeing pages at once, with the same results. -/
def writingTwice (visit : Operand → Emitting Rendered) : Stage (Page × Page) where
  visits id P Q := ∃ r, Ends (visit (.node id)) P.1 r Q.1 ∧ Ends (visit (.node id)) P.2 r Q.2 ∧ Agree Q.1 Q.2
  does a P Q := Does a P.1 Q.1 ∧ Does a P.2 Q.2 ∧ Agree Q.1 Q.2
  enter P := (P.1.enter, P.2.enter)
  leave P := (P.1.leave, P.2.leave)

theorem Performs.first {P Q : Page × Page}
    (h : Performs (writingTwice visit) as P Q) : Performs (writing visit) as P.1 Q.1 := by
  induction h with
  | nil => exact .nil _
  | visit hv _ ih =>
    obtain ⟨r, hr, -⟩ := hv
    exact .visit ⟨r, hr⟩ ih
  | block _ _ ihb ih => exact .block ihb ih
  | act ha _ ih => exact .act ha.1 ih

section

variable {α : Type} {d d' : Desk α} {v w : Nat}

/-- How many writers and sections an insertion point takes: it has a writer of prototypes of its own if the writer
it stands in has one. -/
def Writer.width (w : Writer) : Nat := if w.proto.isSome then 2 else 1

@[simp] theorem size_insertionPoint (d : Desk α) (w : Nat) :
    (d.insertionPoint w).1.writers.size = d.writers.size + (d.writer w).width := by
  unfold Desk.insertionPoint Writer.width
  dsimp only
  split <;> simp_all [Desk.addWriter, Desk.openPlain]

@[simp] theorem sections_insertionPoint (d : Desk α) (w : Nat) :
    (d.insertionPoint w).1.document.sections.size = d.document.sections.size + (d.writer w).width := by
  unfold Desk.insertionPoint Writer.width
  dsimp only
  split <;> simp_all [Desk.addWriter, Desk.openPlain, Document.insertionPoint, Document.update, Document.addSection]

theorem newWriter_insertionPoint (d : Desk α) (w : Nat) :
    (d.insertionPoint w).2 = d.writers.size + (d.writer w).width - 1 := by
  unfold Desk.insertionPoint Writer.width
  dsimp only
  split <;> simp_all [Desk.addWriter, Desk.openPlain]

theorem writer_insertionPoint (h : v < d.writers.size) : (d.insertionPoint w).1.writer v = d.writer v := by
  unfold Desk.insertionPoint
  dsimp only
  split <;> simp [Desk.addWriter, Desk.openPlain, Desk.writer, Array.getElem?_push] <;> grind

@[simp] theorem size_update (d : Desk α) (w : Nat) (g : Writer → Writer) :
    (d.update w g).writers.size = d.writers.size := by simp [Desk.update]

@[simp] theorem document_update (d : Desk α) (w : Nat) (g : Writer → Writer) :
    (d.update w g).document = d.document := rfl

theorem writer_update (h : w < d.writers.size) : (d.update w g).writer w = g (d.writer w) := by
  simp [Desk.update, Desk.writer, h, Array.getElem_modify]

theorem writer_update_ne (h : v ≠ w) : (d.update w g).writer v = d.writer v := by
  simp [Desk.update, Desk.writer, Array.getElem?_modify, h.symm]

end

namespace Agree

variable {p q : Page}

theorem newWriter (h : Agree p q) : q.newWriter = p.newWriter := by
  have hw : q.2.desk.writer q.2.main = p.2.desk.writer p.2.main := h.writer
  rw [Page.newWriter, Page.newWriter, newWriter_insertionPoint, newWriter_insertionPoint, hw, h.writers]

theorem point (h : Agree p q) : Agree p.point q.point where
  session := h.session
  main := h.main
  declared := h.declared
  names := h.names
  labels := h.labels
  writer := by
    have hp : p.2.main < p.2.desk.writers.size := h.valid
    have hq : q.2.main < q.2.desk.writers.size := by rw [h.main, h.writers]; exact hp
    exact (writer_insertionPoint hq).trans (h.writer.trans (writer_insertionPoint hp).symm)
  writers := by
    have hw : q.2.desk.writer q.2.main = p.2.desk.writer p.2.main := h.writer
    simp [Page.point, hw, h.writers]
  sections := by
    have hw : q.2.desk.writer q.2.main = p.2.desk.writer p.2.main := h.writer
    simp [Page.point, hw, h.sections]
  valid := by
    have hp := h.valid
    simp only [Page.point, size_insertionPoint]
    omega

theorem tune (h : Agree p q) : Agree (p.tune g) (q.tune g) where
  session := h.session
  main := h.main
  declared := h.declared
  names := h.names
  labels := h.labels
  writer := by
    have hp : p.2.main < p.2.desk.writers.size := h.valid
    have hq : q.2.main < q.2.desk.writers.size := by rw [h.main, h.writers]; exact hp
    exact (writer_update hq).trans ((congrArg g h.writer).trans (writer_update hp).symm)
  writers := by simp [Page.tune, h.writers]
  sections := h.sections
  valid := by simpa [Page.tune] using h.valid

theorem enter (h : Agree p q) : Agree p.enter q.enter := by
  rw [Page.enter, Page.enter, h.newWriter]
  exact h.point.tune

theorem leave (h : Agree p q) : Agree p.leave q.leave := h.tune

end Agree

theorem Performs.agree {P Q : Page × Page}
    (h : Performs (writingTwice visit) as P Q) (hP : Agree P.1 P.2) : Agree Q.1 Q.2 := by
  induction h with
  | nil => exact hP
  | visit hv _ ih =>
    obtain ⟨r, -, -, hagree⟩ := hv
    exact ih hagree
  | block _ _ ihb ih => exact ih (ihb hP.enter).leave
  | act ha _ ih => exact ih ha.2.2

/-! ## Actions as acts -/

/-- From some pages, an emitting action ends well only by performing acts as described, and it ends in the same way
on a page that agrees with its own when they are performed there. -/
def Writes {α : Type} (visit : Operand → Emitting Rendered) (pre : Page → Prop) (a : Emitting α)
    (acts : Page → α → List Act → Prop) : Prop :=
  ∀ ⦃p r q⦄, pre p → Ends a p r q → ∃ as, acts p r as ∧ Performs (writing visit) as p q ∧
    ∀ ⦃p' q'⦄, Agree p p' → Performs (writingTwice visit) as (p, p') (q, q') → Ends a p' r q'

section

variable {α β : Type} {visit : Operand → Emitting Rendered} {pre : Page → Prop} {a : Emitting α}
variable {f : α → Emitting β} {acts : Page → α → List Act → Prop}

theorem Writes.mono {pre' : Page → Prop} {A B : Page → α → List Act → Prop} (h : Writes visit pre' a A)
    (hpre : ∀ {p}, pre p → pre' p) (hacts : ∀ p r as, pre p → A p r as → B p r as) :
    Writes visit pre a B := by
  intro p r q hp hend
  obtain ⟨as, has, hperf, htwin⟩ := h (hpre hp) hend
  exact ⟨as, hacts p r as hp has, hperf, htwin⟩

theorem Writes.imp {A B : Page → α → List Act → Prop} (h : Writes visit pre a A)
    (hacts : ∀ p r as, pre p → A p r as → B p r as) : Writes visit pre a B := h.mono (fun hp => hp) hacts

def After (visit : Operand → Emitting Rendered) (pre : Page → Prop) (acts : Page → α → List Act → Prop) (x : α)
    (q : Page) : Prop :=
  ∃ p as, pre p ∧ acts p x as ∧ Performs (writing visit) as p q

theorem Writes.bind {B : α → Page → β → List Act → Prop} (ha : Writes visit pre a acts)
    (hf : ∀ x, Writes visit (After visit pre acts x) (f x) (B x)) :
    Writes visit pre (a >>= f) fun p r as => ∃ x p' bs cs, acts p x bs ∧ Performs (writing visit) bs p p' ∧
      B x p' r cs ∧ as = bs ++ cs := by
  intro p r q hp hend
  obtain ⟨x, p1, hx, hr⟩ := ends_bind.1 hend
  obtain ⟨bs, hbs, hperf, htwin⟩ := ha hp hx
  obtain ⟨cs, hcs, hperf', htwin'⟩ := hf x ⟨p, bs, hp, hbs, hperf⟩ hr
  refine ⟨bs ++ cs, ⟨x, p1, bs, cs, hbs, hperf, hcs, rfl⟩, hperf.append hperf', fun p' q' hagree htwice => ?_⟩
  obtain ⟨⟨p2, p2'⟩, h1, h2⟩ := htwice.split
  obtain rfl := h1.first.unique hperf
  exact ends_bind.2 ⟨x, p2', htwin hagree h1, htwin' (h1.agree hagree) h2⟩

theorem writes_pure (x : α) : Writes visit pre (pure x) fun _ r as => r = x ∧ as = [] := by
  intro p r q _ hend
  obtain ⟨rfl, rfl⟩ := ends_pure.1 hend
  refine ⟨[], ⟨rfl, rfl⟩, .nil _, fun p' q' _ htwice => ?_⟩
  cases htwice with
  | nil => exact ends_pure.2 ⟨rfl, rfl⟩

theorem writes_throw (e : Fault) : Writes visit pre (throw e : Emitting α) acts := by
  intro p r q _ hend
  cases ends_throw.1 hend

theorem Writes.get {f : Emitter → Emitting β} {A : Emitter → Page → β → List Act → Prop}
    (hf : ∀ {p p'}, Agree p p' → f p'.2 = f p.2)
    (h : ∀ e, Writes visit (fun p => pre p ∧ p.2 = e) (f e) (A e)) :
    Writes visit pre (get >>= f) fun p r as => A p.2 p r as := by
  intro p r q hp hend
  obtain ⟨s, e⟩ := p
  rw [ends_get_bind] at hend
  obtain ⟨as, has, hperf, htwin⟩ := h e ⟨hp, rfl⟩ hend
  refine ⟨as, has, hperf, fun p' q' hagree htwice => ?_⟩
  obtain ⟨s', e'⟩ := p'
  rw [ends_get_bind, hf hagree]
  exact htwin hagree htwice

/-- An action that changes nothing and does not ask whether the client disposes of foreign nodes. -/
def Reads {α : Type} (a : Action α) : Prop := ∀ ⦃s r t⦄, Runs a s r t → t = s ∧ Runs a (hushed s) r (hushed s)

theorem writes_read {a : Action α} (h : Reads a) :
    Writes visit pre (liftM a) fun p r as => Runs a p.1 r p.1 ∧ as = [] := by
  intro p r q _ hend
  obtain ⟨t, hrun, rfl⟩ := ends_lift.1 hend
  obtain ⟨rfl, hrun'⟩ := h hrun
  refine ⟨[], ⟨hrun, rfl⟩, .nil _, fun p' q' hagree htwice => ?_⟩
  cases htwice with
  | nil =>
    refine ends_lift.2 ⟨hushed p.1, ?_, Prod.ext hagree.session rfl⟩
    have hsession := hagree.session
    show Runs a p'.1 r (hushed p.1)
    rw [hsession]
    exact hrun'

theorem Writes.read {a : Action α} {A : α → Page → β → List Act → Prop} (ha : Reads a)
    (hf : ∀ x, Writes visit (fun p => pre p ∧ Runs a p.1 x p.1) (f x) (A x)) :
    Writes visit pre (liftM a >>= f) fun p r as => ∃ x, Runs a p.1 x p.1 ∧ A x p r as := by
  have hpost : ∀ x, Writes visit (After visit pre (fun p r as => Runs a p.1 r p.1 ∧ as = []) x) (f x) (A x) := by
    refine fun x => (hf x).mono ?_ fun _ _ _ _ h => h
    rintro q ⟨p, as, hp, ⟨hrun, rfl⟩, hperf⟩
    cases hperf with
    | nil => exact ⟨hp, hrun⟩
  refine ((writes_read ha).bind hpost).imp ?_
  rintro p r as - ⟨x, p', bs, cs, ⟨hrun, rfl⟩, hperf, hcs, rfl⟩
  cases hperf with
  | nil => exact ⟨x, hrun, hcs⟩

theorem Writes.reading {a : Action α} {acts : Page → β → List Act → Prop} (ha : Reads a)
    (hf : ∀ x, Writes visit (fun p => pre p ∧ Runs a p.1 x p.1) (f x) acts) : Writes visit pre (liftM a >>= f) acts := by
  refine (Writes.read ha hf).imp ?_
  rintro p r as - ⟨x, -, h⟩
  exact h

theorem Writes.afterRead {a : Action α} {acts : Page → β → List Act → Prop} (ha : Reads a)
    (hf : ∀ x, Writes visit pre (f x) acts) : Writes visit pre (liftM a >>= f) acts :=
  .reading ha fun x => (hf x).mono (fun h => h.1) fun _ _ _ _ h => h

theorem writes_one {x : α} {b : Act} (hend : ∀ {p r q}, pre p → Ends a p r q → r = x ∧ Does b p q)
    (hback : ∀ {p p' q}, pre p → Agree p p' → Does b p' q → Ends a p' x q) :
    Writes visit pre a fun _ r as => r = x ∧ as = [b] := by
  intro p r q hp h
  obtain ⟨rfl, hdoes⟩ := hend hp h
  refine ⟨[b], ⟨rfl, rfl⟩, .act hdoes (.nil _), fun p' q' hagree htwice => ?_⟩
  cases htwice with
  | visit | block => cases hdoes
  | act h hs =>
    cases hs with
    | nil => exact hback hp hagree h.2.1

theorem Writes.cons {x : α} {b : Act} {B : Page → β → List Act → Prop}
    (ha : Writes visit pre a fun _ r as => r = x ∧ as = [b])
    (hf : Writes visit (fun q => ∃ p, pre p ∧ Performs (writing visit) [b] p q) (f x) B) :
    Writes visit pre (a >>= f) fun p r as => ∃ p' cs, Performs (writing visit) [b] p p' ∧ B p' r cs ∧ as = b :: cs := by
  have hpost : ∀ y, Writes visit (After visit pre (fun _ r as => r = x ∧ as = [b]) y) (f y)
      fun p r as => y = x ∧ B p r as := by
    intro y p r q hp hend
    obtain ⟨p0, _, hp0, ⟨rfl, rfl⟩, hperf⟩ := hp
    obtain ⟨as, has, hrest⟩ := hf ⟨p0, hp0, hperf⟩ hend
    exact ⟨as, ⟨rfl, has⟩, hrest⟩
  refine (ha.bind hpost).imp ?_
  rintro p r as - ⟨y, p', bs, cs, ⟨-, rfl⟩, hperf, ⟨rfl, hcs⟩, rfl⟩
  exact ⟨p', cs, hperf, hcs, rfl⟩

end

/-! ### Lines -/

section

variable {visit : Operand → Emitting Rendered} {pre : Page → Prop} {α : Type} {p q : Page} {a : Emitting α}
variable {acts : Page → α → List Act → Prop} {r : Unit} {shown : String}

theorem ends_putLine {line : String} : Ends (putLine line) p r q ↔ q = p.putLine p.2.main line := by
  obtain ⟨s, e⟩ := p
  rw [putLine, ends_get_bind, ends_putLineTo]

theorem writes_putLine (line : String) :
    Writes visit pre (putLine line) fun _ r as => r = () ∧ as = [.put line] := by
  refine writes_one (fun _ h => ⟨rfl, ?_⟩) fun _ _ h => ?_
  · rw [ends_putLine.1 h]
    exact .put ..
  · cases h
    exact ends_putLine.2 rfl

def putPrototype (line : String) : Emitting Unit := do
  let e ← get
  match (e.desk.writer e.main).proto with
  | some w => putLineTo w line
  | none => throw .noSuchField

theorem writes_putPrototype (line : String) :
    Writes visit pre (putPrototype line) fun _ r as => r = () ∧ as = [.prototype line] := by
  refine writes_one (fun {p r q} _ h => ⟨rfl, ?_⟩) fun {_ p q} _ _ h => ?_
  · obtain ⟨s, e⟩ := p
    rw [putPrototype, ends_get_bind] at h
    split at h
    · rw [ends_putLineTo.1 h]
      exact .prototype ‹_›
    · cases ends_throw.1 h
  · obtain ⟨s, e⟩ := p
    cases h with
    | prototype hw =>
      have hw' : (e.desk.writer e.main).proto = _ := hw
      rw [putPrototype, ends_get_bind, hw']
      exact ends_putLineTo.2 rfl

theorem ends_newInsertionPoint {w : Nat} : Ends newInsertionPoint p w q ↔ w = p.newWriter ∧ q = p.point := by
  obtain ⟨s, e⟩ := p
  rw [newInsertionPoint, ends_get_bind]
  simp only [ends_bind, ends_set, ends_pure]
  constructor
  · rintro ⟨_, _, rfl, rfl, rfl⟩
    exact ⟨rfl, rfl⟩
  · rintro ⟨rfl, rfl⟩
    exact ⟨⟨⟩, _, rfl, rfl, rfl⟩

theorem ends_updateMain :
    Ends (updateMain g) p r q ↔ q = p.tune g := by
  rw [updateMain, ends_modify]
  rfl

theorem Writes.point {f : Nat → Emitting α} {acts : Nat → Page → α → List Act → Prop}
    (hf : ∀ w, Writes visit (fun q => ∃ p, pre p ∧ q = p.point ∧ w = p.newWriter) (f w) (acts w)) :
    Writes visit pre (newInsertionPoint >>= f) fun p r as => ∃ cs, acts p.newWriter p.point r cs ∧ as = .point :: cs := by
  intro p r q hp hend
  obtain ⟨w, p1, hw, hend⟩ := ends_bind.1 hend
  obtain ⟨rfl, rfl⟩ := ends_newInsertionPoint.1 hw
  obtain ⟨cs, hcs, hperf, htwin⟩ := hf _ ⟨p, hp, rfl, rfl⟩ hend
  refine ⟨.point :: cs, ⟨cs, hcs, rfl⟩, .act (.point p) hperf, fun p' q' hagree htwice => ?_⟩
  cases htwice with
  | @act _ _ _ P _ h hs =>
    obtain ⟨P1, P2⟩ := P
    obtain ⟨h1, h2, h3⟩ := h
    cases h1
    cases h2
    refine ends_bind.2 ⟨p'.newWriter, _, ends_newInsertionPoint.2 ⟨rfl, rfl⟩, ?_⟩
    rw [hagree.newWriter]
    exact htwin h3 hs

theorem ends_inBlock {r : α} : Ends (inBlock a) p r q ↔ ∃ p', Ends a p.enter r p' ∧ q = p'.leave := by
  simp only [inBlock, ends_bind, ends_newInsertionPoint, ends_updateMain, ends_pure]
  constructor
  · rintro ⟨_, _, ⟨rfl, rfl⟩, _, _, rfl, _, p', h, _, _, rfl, rfl, rfl⟩
    exact ⟨p', h, rfl⟩
  · rintro ⟨p', h, rfl⟩
    exact ⟨_, _, ⟨rfl, rfl⟩, ⟨⟩, _, rfl, r, p', h, ⟨⟩, _, rfl, rfl, rfl⟩

theorem writes_inBlock (h : Writes visit (fun q => ∃ p, pre p ∧ q = p.enter) a acts) :
    Writes visit pre (inBlock a) fun p r as => ∃ bs, acts p.enter r bs ∧ as = [.block bs] := by
  intro p r q hp hend
  obtain ⟨p1, ha, rfl⟩ := ends_inBlock.1 hend
  obtain ⟨bs, hbs, hperf, htwin⟩ := h ⟨p, hp, rfl⟩ ha
  refine ⟨[.block bs], ⟨bs, hbs, rfl⟩, .block hperf (.nil _), fun p' q' hagree htwice => ?_⟩
  cases htwice with
  | act ha => cases ha.1
  | @block _ _ _ P _ hb hs =>
    obtain ⟨P1, P2⟩ := P
    obtain rfl := hb.first.unique hperf
    cases hs with
    | nil => exact ends_inBlock.2 ⟨P2, htwin hagree.enter hb, rfl⟩

theorem writes_loops (g : List Nat → List Nat) :
    Writes visit pre (updateMain fun m => { m with loopLevels := g m.loopLevels })
      fun _ r as => r = () ∧ as = [.loops g] := by
  refine writes_one (fun _ h => ⟨rfl, ?_⟩) fun _ _ h => ?_
  · rw [ends_updateMain.1 h]
    exact .loops ..
  · cases h
    exact ends_updateMain.2 rfl

/-! ### Names and marks -/

theorem ends_nameTemporary (hid : id ∉ p.2.declared) :
    Ends (nameTemporary id shown) p r q ↔ q = p.name id shown := by
  obtain ⟨s, e⟩ := p
  have hcontains : e.declared.contains id = false := by simpa using hid
  rw [nameTemporary, ends_get_bind, ends_act_bind]
  simp only [runs_updateForm, ends_set, hcontains, Bool.false_eq_true, if_false]
  constructor
  · rintro ⟨_, _, rfl, rfl⟩
    rfl
  · rintro rfl
    exact ⟨(), _, rfl, rfl⟩

def Nameless (id : NodeId) (shown : String) (p : Page) : Prop :=
  (∃ v : Variable, p.1.form? id = some (.var v) ∧ v.role = .temporary shown) ∧ id ∉ p.2.declared

theorem writes_nameTemporary (hpre : ∀ {p}, pre p → Nameless id shown p) :
    Writes visit pre (nameTemporary id shown) fun _ r as => r = () ∧ as = [.name id shown] := by
  refine writes_one (fun hp h => ⟨rfl, ?_⟩) fun _ _ h => ?_
  · obtain ⟨⟨v, hv, hrole⟩, hid⟩ := hpre hp
    rw [(ends_nameTemporary hid).1 h]
    exact .name hv hrole hid
  · cases h with
    | name hv hrole hid => exact (ends_nameTemporary hid).2 rfl

theorem writes_mark (id : NodeId) :
    Writes visit pre (liftM (updateMarks id fun k => { k with isStatement := true }))
      fun _ r as => r = () ∧ as = [.mark id] := by
  refine writes_one (fun _ h => ⟨rfl, ?_⟩) fun {_ p q} _ _ h => ?_
  · obtain ⟨t, ht, rfl⟩ := ends_lift.1 h
    rw [runs_updateNode.1 ht]
    exact .mark ..
  · cases h
    exact ends_lift.2 ⟨_, runs_updateNode.2 rfl, rfl⟩

theorem writes_title {g : Form → Form} {f : Form} (hpre : ∀ {p}, pre p → p.1.form? id = some f)
    (hg : ∀ {p}, pre p → Titles f (g f)) (hback : ∀ {f'}, Titles f' (g f) → g f' = g f) :
    Writes visit pre (liftM (updateForm id g)) fun _ r as => r = () ∧ as = [.title id (g f)] := by
  have hcongr : ∀ {s : Session} {f' : Form}, s.form? id = some f' → g f' = g f →
      s.alter id (Node.reform g) = s.alter id (Node.reform fun _ => g f) := by
    intro s f' hf' heq
    refine alter_congr fun n hn => ?_
    rw [Node.reform, Node.reform, form_of_node? hn hf', heq]
  refine writes_one (fun {p r q} hp h => ⟨rfl, ?_⟩) fun {_ p q} _ _ h => ?_
  all_goals obtain ⟨s, e⟩ := p
  · obtain ⟨t, ht, rfl⟩ := ends_act.1 h
    rw [runs_updateForm.1 ht, hcongr (hpre hp) rfl]
    exact .title (hpre hp) (hg hp)
  · cases h with
    | title hf h => exact ends_act.2 ⟨_, runs_updateForm.2 rfl, by rw [hcongr hf (hback h)]; rfl⟩

/-! ### Reading -/

theorem reads_pure (x : α) : Reads (pure x : Action α) := by
  intro s r t h
  obtain ⟨rfl, rfl⟩ := runs_pure.1 h
  exact ⟨rfl, runs_pure.2 ⟨rfl, rfl⟩⟩

theorem reads_throw (e : Fault) : Reads (throw e : Action α) := fun _ _ _ h => (runs_throw.1 h).elim

theorem Reads.bind {β : Type} {a : Action α} {f : α → Action β} (ha : Reads a) (hf : ∀ x, Reads (f x)) :
    Reads (a >>= f) := by
  intro s r t h
  obtain ⟨x, u, hx, hr⟩ := runs_bind.1 h
  obtain ⟨rfl, hx'⟩ := ha hx
  obtain ⟨rfl, hr'⟩ := hf x hr
  exact ⟨rfl, runs_bind.2 ⟨x, _, hx', hr'⟩⟩

theorem reads_ofExcept (e : Except Fault α) : Reads (Action.ofExcept e) := by
  cases e with
  | ok x => exact reads_pure x
  | error e => exact reads_throw e

theorem reads_required (x : Option α) : Reads (required x) := by
  cases x with
  | none => exact reads_throw _
  | some x => exact reads_pure x

theorem reads_node (id : NodeId) : Reads (node id) := by
  intro s r t h
  obtain ⟨hn, rfl⟩ := runs_node.1 h
  exact ⟨rfl, runs_node.2 ⟨hn, rfl⟩⟩

theorem reads_identity (o : Operand) : Reads (identity o) := by
  cases o with
  | node id => exact reads_pure id
  | _ => exact reads_throw _

theorem reads_nodeOf (o : Operand) : Reads (nodeOf o) := (reads_identity o).bind reads_node

theorem reads_typeOf (o : Operand) : Reads (typeOf o) := by
  refine (reads_nodeOf o).bind fun n => ?_
  split
  · exact reads_pure _
  · exact reads_throw _

theorem reads_knownType (o : Operand) : Reads (knownType o) := by
  refine (reads_typeOf o).bind fun t => ?_
  unfold known
  split
  · exact reads_throw _
  · exact reads_pure _

theorem reads_typeText (t : CType) : Reads (typeText t) := by
  intro s r u h
  obtain ⟨ht, rfl⟩ := runs_typeText.1 h
  exact ⟨rfl, runs_typeText.2 ⟨ht, rfl⟩⟩

theorem reads_shownName (n : Name) : Reads (shownName n) := by
  cases n with
  | datum d => exact reads_pure _
  | type t => exact reads_typeText t

theorem reads_nameOf (o : Operand) : Reads (nameOf o) := by
  refine (reads_nodeOf o).bind fun n => ?_
  split
  all_goals first | exact reads_pure _ | exact reads_throw _

theorem reads_leftOf (o : Operand) : Reads (leftOf o) := by
  refine (reads_nodeOf o).bind fun n => ?_
  split
  all_goals first | exact reads_pure _ | exact reads_throw _

theorem reads_rightOf (o : Operand) : Reads (rightOf o) := by
  refine (reads_nodeOf o).bind fun n => ?_
  split
  all_goals first | exact reads_pure _ | exact reads_throw _

theorem reads_same (a b : Operand) : Reads (same a b) := by
  intro s r t h
  obtain ⟨hsame, rfl⟩ := runs_same.1 h
  exact ⟨rfl, runs_same.2 ⟨hsame, rfl⟩⟩

theorem reads_isIncrement (f : Form) : Reads (isIncrement f) := by
  unfold isIncrement
  split
  · exact reads_pure _
  · split
    all_goals try exact reads_pure _
    all_goals
      refine (reads_nodeOf _).bind fun n => ?_
      split
      all_goals exact reads_pure _

theorem Writes.settings {b : Settings → Emitting α}
    (hb : ∀ x, b { x with disposes := false } = b x) (h : ∀ x, Writes visit pre (b x) acts) :
    Writes visit pre (liftM Ast.settings >>= b) acts := by
  intro p r q hp hend
  obtain ⟨s, e⟩ := p
  obtain ⟨_, _, hrun, hend'⟩ := ends_act_bind.1 hend
  obtain ⟨rfl, rfl⟩ := runs_settings.1 hrun
  obtain ⟨as, has, hperf, htwin⟩ := h _ hp hend'
  refine ⟨as, has, hperf, fun p' q' hagree htwice => ?_⟩
  have hend'' := htwin hagree htwice
  obtain ⟨s', e'⟩ := p'
  obtain rfl : s' = hushed _ := hagree.session
  rw [← hb] at hend''
  exact ends_act_bind.2 ⟨_, _, runs_settings.2 ⟨rfl, rfl⟩, hend''⟩

end

end ArrayKernel.Emit
