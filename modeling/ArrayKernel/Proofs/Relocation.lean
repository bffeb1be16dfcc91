import ArrayKernel.Proofs.Moved
import ArrayKernel.Proofs.Recount

/-!
# Sessions inside sessions

A session can be put behind the contents of another one: its nodes get other names, its builders and
specializers other numbers, and its functions are counted on. An action that knows nodes only by what it is
given does the same in both places, with everything it names moved.
-/

namespace ArrayKernel.Ast

/-- What stands before a session that was put into another one, and the names of its functions. -/
structure Frame where
  before : Session
  called : String → Prop

namespace Frame

variable (E : Frame)

def name (id : NodeId) : NodeId := ⟨E.before.nodes.size + id.index⟩

abbrev operand (o : Operand) : Operand := o.rename E.name

def slot (sp : Nat) : Nat := E.before.specializers.size + sp

abbrev Text (a b : String) : Prop := Emit.Recounted E.called 0 E.before.functions a b

inductive Value : Datum → Datum → Prop where
  | same (d : Datum) : Value d d
  | text {a b : String} (h : E.Text a b) : Value (.text a) (.text b)

def Label (a b : String) : Prop := ∀ word ∈ Emit.Part.words, E.Text (word ++ a) (word ++ b)

inductive Labels : Option String → Option String → Prop where
  | none : Labels none none
  | some {a b : String} (h : E.Label a b) : Labels (some a) (some b)

/-- A function in the larger session. Nothing is read of its specializer but that there is one. -/
inductive Function (f : Ast.Function) : Ast.Function → Prop where
  | moved {emitted : Option String} {specializer : Option Nat} (h : E.Labels f.emitted emitted)
    (hs : specializer.isSome = f.specializer.isSome) (hcalled : E.called f.name.display) :
    Function f { f.moved E.name with emitted, specializer }

def counts : Ast.Form → Bool
  | .constant _ | .function _ => true
  | _ => false

inductive Form : Ast.Form → Ast.Form → Prop where
  | constant {a b : Datum} (h : E.Value a b) : Form (.constant a) (.constant b)
  | function {f g : Ast.Function} (h : E.Function f g) : Form (.function f) (.function g)
  | other (f : Ast.Form) (h : counts f = false) : Form f (f.moved E.name)

def Node (n n' : Ast.Node) : Prop :=
  ∃ f, E.Form n.form f ∧ n' = { n with form := f, marks := n.marks.moved E.name }

def specializer (sp : Specializer) : Specializer :=
  { sp with
    builder := E.before.builders.size + sp.builder
    function := sp.function.map E.name
    indices := sp.indices.map (·.map E.operand)
    tiledIndices := sp.tiledIndices.map (·.map E.operand)
    target := sp.target.map E.operand
    innerLoop := sp.innerLoop.map E.operand
    pointers := sp.pointers.map (·.map fun p => (E.operand p.1, E.operand p.2)) }

structure Holds (w v : Session) : Prop where
  size : v.nodes.size = E.before.nodes.size + w.nodes.size
  before : ∀ i < E.before.nodes.size, v.nodes[i]? = E.before.nodes[i]?
  node : ∀ id n, w.node? id = some n → ∃ n', v.node? (E.name id) = some n' ∧ E.Node n n'
  settings : v.settings = w.settings
  kept : v.settings = E.before.settings
  builders : v.builders = E.before.builders ++ w.builders
  builder : v.builder = E.before.builders.size + w.builder
  specializers : v.specializers = E.before.specializers ++ w.specializers.map E.specializer
  functions : v.functions = E.before.functions + w.functions

variable {E}

theorem name_inj {a b : NodeId} (h : E.name a = E.name b) : a = b := by
  rcases a with ⟨a⟩
  rcases b with ⟨b⟩
  have := congrArg NodeId.index h
  simp only [name] at this
  rw [Nat.add_left_cancel this]

@[simp] theorem name_eq_iff {a b : NodeId} : E.name a = E.name b ↔ a = b := ⟨name_inj, fun h => h ▸ rfl⟩

@[simp] theorem scheme_specializer (sp : Specializer) : (E.specializer sp).scheme = sp.scheme := rfl

@[simp] theorem ndim_moved (f : Ast.Function) (ρ : NodeId → NodeId) : (f.moved ρ).ndim = f.ndim := rfl

theorem Label.refl (a : String) : E.Label a a := fun _ _ => .refl _

theorem Labels.refl (a : Option String) : E.Labels a a := by
  cases a with
  | none => exact .none
  | some a => exact .some (.refl a)

/-! ### The node store -/

section

variable {w v : Session} {id : NodeId}

theorem Holds.back (h : E.Holds w v) {n' : Ast.Node} (hn : v.node? (E.name id) = some n') :
    ∃ n, w.node? id = some n ∧ E.Node n n' := by
  have hlt := node?_lt hn
  rw [h.size, name, Nat.add_lt_add_iff_left] at hlt
  obtain ⟨n, hw⟩ := node?_of_lt hlt
  obtain ⟨n'', hv, hrel⟩ := h.node id n hw
  rw [hv] at hn
  exact ⟨n, hw, Option.some.inj hn ▸ hrel⟩

theorem Holds.next (h : E.Holds w v) : v.next = E.name w.next := by
  rw [Session.next, Session.next, name, h.size]

theorem Holds.add (h : E.Holds w v) {n n' : Ast.Node} (hn : E.Node n n') : E.Holds (w.add n) (v.add n') where
  size := by rw [size_add, size_add, h.size, Nat.add_assoc]
  before i hi := by
    have hlt : i < v.nodes.size := by rw [h.size]; omega
    rw [← h.before i hi]
    exact Array.getElem?_push_lt hlt ▸ (Array.getElem?_eq_getElem hlt).symm
  node j m hm := by
    rw [node?_add] at hm
    split at hm
    · next hj =>
      subst hj
      refine ⟨n', ?_, Option.some.inj hm ▸ hn⟩
      rw [node?_add, if_pos h.next.symm]
    · next hj =>
      obtain ⟨m', hv, hrel⟩ := h.node j m hm
      refine ⟨m', ?_, hrel⟩
      rw [node?_add, if_neg]
      · exact hv
      · rw [h.next]
        exact fun heq => hj (name_inj heq)
  settings := h.settings
  kept := h.kept
  builders := h.builders
  builder := h.builder
  specializers := h.specializers
  functions := h.functions

theorem Holds.alter (h : E.Holds w v) {g g' : Ast.Node → Ast.Node}
    (hg : ∀ n n', w.node? id = some n → E.Node n n' → E.Node (g n) (g' n')) :
    E.Holds (w.alter id g) (v.alter (E.name id) g') where
  size := by rw [size_alter, size_alter, h.size]
  before i hi := by
    rw [← h.before i hi]
    show (v.nodes.modify _ g')[i]? = _
    rw [Array.getElem?_modify, if_neg]
    show E.before.nodes.size + id.index ≠ i
    omega
  node j m hm := by
    rw [node?_alter] at hm
    split at hm
    · next hj =>
      subst hj
      obtain ⟨n, hn, rfl⟩ := Option.map_eq_some_iff.1 hm
      obtain ⟨n', hv, hrel⟩ := h.node j n hn
      refine ⟨g' n', ?_, hg n n' hn hrel⟩
      rw [node?_alter, if_pos rfl, hv]
      rfl
    · next hj =>
      obtain ⟨m', hv, hrel⟩ := h.node j m hm
      refine ⟨m', ?_, hrel⟩
      rw [node?_alter, if_neg (fun heq => hj (name_inj heq)), hv]
  settings := h.settings
  kept := h.kept
  builders := h.builders
  builder := h.builder
  specializers := h.specializers
  functions := h.functions

end

end Frame

/-! ## What is kept in both places -/

/-- A frame, the properties that the moved session keeps, and the states that it was in. -/
structure Guard extends Frame where
  keeps : Keeping → Prop
  past : Session → Prop

instance : Coe Guard Frame := ⟨Guard.toFrame⟩

abbrev Frame.loose (E : Frame) : Guard := { E with keeps := fun _ => False, past := fun _ => False }

namespace Guard

variable (E : Guard)

structure At (K : Keeping) (s : Session) : Prop where
  kept : E.keeps K
  holds : K.Holds s
  stays : ∀ u, E.past u → Stays u s

def Good (s : Session) : Prop := ∀ K, E.keeps K → E.At K s

def Keeps (s t : Session) : Prop := ∀ K, E.keeps K → K.Holds t ∧ Stays s t

abbrev since (s : Session) : Guard := { E with past := fun u => E.past u ∨ u = s }

/-- The forms of nodes that may be added. -/
def Admits (f : Ast.Form) : Prop := ∀ K s, E.At K s → K.Admits s f

def Knows (i : NodeId) (k : Kept) : Prop := ∀ K s, E.At K s → ∃ f, s.form? i = some f ∧ f.kept = k

def Reports : Prop := ∀ K s, E.At K s → K.reports

variable {E} {s t u : Session}

theorem Good.keeps (h : E.Good s) : E.Keeps s s := fun K hK => ⟨(h K hK).holds, .refl s⟩

theorem Good.same (h : E.Good s) (hf : ∀ id, t.form? id = s.form? id) (hs : t.settings = s.settings) : E.Keeps s t :=
  fun K hK => ⟨K.same (h K hK).holds hf hs, .of_forms hf hs⟩

theorem Good.next (h : E.Good s) (hst : E.Keeps s t) : E.Good t := fun K hK =>
  ⟨hK, (hst K hK).1, fun u hu => ((h K hK).stays u hu).trans (hst K hK).2⟩

theorem Keeps.trans (hst : E.Keeps s t) (htu : E.Keeps t u) : E.Keeps s u := fun K hK =>
  ⟨(htu K hK).1, (hst K hK).2.trans (htu K hK).2⟩

theorem Good.since (h : E.Good s) : (E.since s).Good s := fun K hK =>
  ⟨hK, (h K hK).holds, fun u hu => hu.elim ((h K hK).stays u) fun hu => hu ▸ .refl s⟩

theorem At.since {K : Keeping} (h : (E.since s).At K t) : E.At K t ∧ Stays s t :=
  ⟨⟨h.kept, h.holds, fun u hu => h.stays u (.inl hu)⟩, h.stays s (.inr rfl)⟩

theorem Good.before (h : (E.since u).Good s) : E.Good s := fun K hK => (h K hK).since.1

theorem knows_since {i : NodeId} {f : Ast.Form} (h : s.form? i = some f) : (E.since s).Knows i f.kept :=
  fun _ _ ht => ht.since.2.kept i f h

theorem Reports.admits {f : Ast.Form} (h : E.Reports) (hf : f.isFailing = true) : E.Admits f :=
  fun K s hs => K.failing (h K s hs) hf

end Guard

/-! ## Actions -/

class Framed (m : Type → Type) [Monad m] [MonadLiftT Action m] [MonadExceptOf Fault m] {σ : outParam Type}
    [S : Stateful m σ] where
  Holds : Frame → σ → σ → Prop
  session {E : Frame} {p q : σ} : Holds E p q → E.Holds (S.session p) (S.session q)
  put {E : Frame} {p q : σ} {s t : Session} : Holds E p q → E.Holds s t → Holds E (S.put p s) (S.put q t)

instance : Framed Action where
  Holds E := E.Holds
  session h := h
  put _ h := h

class Carried (τ : Type) where
  Rel : Frame → τ → τ → Prop

instance {τ : Type} [C : Carried τ] : Framed (StateT τ Action) where
  Holds E p q := E.Holds p.1 q.1 ∧ C.Rel E p.2 q.2
  session h := h.1
  put h h' := ⟨h', h.2⟩

section

variable {m : Type → Type} [Monad m] [MonadLiftT Action m] [MonadExceptOf Fault m]
variable {σ : Type} [S : Stateful m σ] [F : Framed m]
variable {α β γ δ : Type} {E : Guard}

/-- Two actions do the same in two places: if one of them ends well so does the other, with a result that
corresponds, and the states still hold each other. What is kept in the first place is kept on. -/
structure Tracks (E : Guard) (Q : α → β → Prop) (a : m α) (b : m β) : Prop where
  forth {p q p' : σ} {x : α} : E.Good (S.session p) → F.Holds E p q → S.Ends a p x p' →
    ∃ y q', S.Ends b q y q' ∧ Q x y ∧ F.Holds E p' q'
  back {p q q' : σ} {y : β} : E.Good (S.session p) → F.Holds E p q → S.Ends b q y q' →
    ∃ x p', S.Ends a p x p' ∧ Q x y ∧ F.Holds E p' q'
  keeps {p q p' : σ} {x : α} : E.Good (S.session p) → F.Holds E p q → S.Ends a p x p' →
    E.Keeps (S.session p) (S.session p')

abbrev Moves (E : Guard) (g : α → β) (a : m α) (b : m β) : Prop := Tracks E (fun x y => y = g x) a b

/-- Values without operands are the same in both places. -/
class Unmoved (α : Type)

instance : Unmoved Unit := ⟨⟩
instance : Unmoved Bool := ⟨⟩
instance : Unmoved Nat := ⟨⟩
instance : Unmoved Int := ⟨⟩
instance : Unmoved Float := ⟨⟩
instance : Unmoved String := ⟨⟩
instance : Unmoved Datum := ⟨⟩
instance : Unmoved CType := ⟨⟩
instance : Unmoved Name := ⟨⟩
instance [Unmoved α] : Unmoved (Option α) := ⟨⟩
instance [Unmoved α] : Unmoved (List α) := ⟨⟩

/-- Functions into actions that do the same in two places, given what is the same there. -/
class Mirrored (τ : Type) where
  Mirrors : Guard → τ → τ → Prop

export Mirrored (Mirrors)

instance [Unmoved α] : Mirrored (m α) := ⟨fun E => Moves E id⟩
instance : Mirrored (m NodeId) := ⟨fun E => Moves E E.name⟩
instance : Mirrored (m Operand) := ⟨fun E => Moves E E.operand⟩
instance : Mirrored (m (Operand × Operand)) := ⟨fun E => Moves E fun r => (E.operand r.1, E.operand r.2)⟩
instance : Mirrored (m (List Operand)) := ⟨fun E => Moves E (List.map E.operand)⟩
instance : Mirrored (m (Option Operand)) := ⟨fun E => Moves E (Option.map E.operand)⟩
instance : Mirrored (m Loop) := ⟨fun E => Moves E (Loop.moved E.name)⟩
instance : Mirrored (m Node) := ⟨fun E => Tracks E E.Node⟩
instance : Mirrored (m Function) := ⟨fun E => Tracks E E.Function⟩

instance {τ : Type} [Unmoved α] [Mirrored τ] : Mirrored (α → τ) := ⟨fun E f g => ∀ x, Mirrors E (f x) (g x)⟩
instance {τ : Type} [Mirrored τ] : Mirrored (NodeId → τ) := ⟨fun E f g => ∀ i, Mirrors E (f i) (g (E.name i))⟩
instance {τ : Type} [Mirrored τ] : Mirrored (Operand → τ) := ⟨fun E f g => ∀ o, Mirrors E (f o) (g (E.operand o))⟩
instance {τ : Type} [Mirrored τ] : Mirrored (List Operand → τ) :=
  ⟨fun E f g => ∀ os, Mirrors E (f os) (g (os.map E.operand))⟩

variable {Q : α → β → Prop} {P : γ → δ → Prop} {k : γ → δ} {f : γ → m α} {g : δ → m β} {l : α → β} {xs : List γ}
variable {c : Prop}

theorem tracks_pure {x : α} {y : β} (h : Q x y) : Tracks E Q (pure x : m α) (pure y : m β) where
  forth _ hp ha := by
    obtain ⟨rfl, rfl⟩ := S.ends_pure.1 ha
    exact ⟨y, _, S.ends_pure.2 ⟨rfl, rfl⟩, h, hp⟩
  back _ hp hb := by
    obtain ⟨rfl, rfl⟩ := S.ends_pure.1 hb
    exact ⟨x, _, S.ends_pure.2 ⟨rfl, rfl⟩, h, hp⟩
  keeps hg _ ha := by
    obtain ⟨-, rfl⟩ := S.ends_pure.1 ha
    exact hg.keeps

theorem moves_pure {g : α → β} (x : α) : Moves E g (pure x : m α) (pure (g x) : m β) := tracks_pure rfl

theorem tracks_throw (e e' : Fault) : Tracks E Q (throw e : m α) (throw e' : m β) where
  forth _ _ ha := (S.ends_throw.1 ha).elim
  back _ _ hb := (S.ends_throw.1 hb).elim
  keeps _ _ ha := (S.ends_throw.1 ha).elim

/-- What follows an action may use the state that it ended in. -/
theorem Tracks.follow {a : m γ} {b : m δ} (h : Tracks E P a b)
    (hf : ∀ x y p q, P x y → S.Ends a p x q → Tracks (E.since (S.session q)) Q (f x) (g y)) :
    Tracks E Q (a >>= f) (b >>= g) where
  forth hg hp ha := by
    obtain ⟨x, p1, h1, h2⟩ := S.ends_bind.1 ha
    obtain ⟨y, q1, h1', hxy, hp1⟩ := h.forth hg hp h1
    obtain ⟨z, q2, h2', hz, hp2⟩ := (hf x y _ _ hxy h1).forth (hg.next (h.keeps hg hp h1)).since hp1 h2
    exact ⟨z, q2, S.ends_bind.2 ⟨y, q1, h1', h2'⟩, hz, hp2⟩
  back hg hp hb := by
    obtain ⟨y, q1, h1, h2⟩ := S.ends_bind.1 hb
    obtain ⟨x, p1, h1', hxy, hp1⟩ := h.back hg hp h1
    obtain ⟨z, p2, h2', hz, hp2⟩ := (hf x y _ _ hxy h1').back (hg.next (h.keeps hg hp h1')).since hp1 h2
    exact ⟨z, p2, S.ends_bind.2 ⟨x, p1, h1', h2'⟩, hz, hp2⟩
  keeps hg hp ha := by
    obtain ⟨x, p1, h1, h2⟩ := S.ends_bind.1 ha
    obtain ⟨y, q1, -, hxy, hp1⟩ := h.forth hg hp h1
    have hfirst := h.keeps hg hp h1
    exact hfirst.trans ((hf x y _ _ hxy h1).keeps (hg.next hfirst).since hp1 h2)

theorem Tracks.since {a : m α} {b : m β} (h : Tracks E Q a b) (s : Session) : Tracks (E.since s) Q a b where
  forth hg := h.forth hg.before
  back hg := h.back hg.before
  keeps hg := h.keeps hg.before

theorem Tracks.bind {a : m γ} {b : m δ} (h : Tracks E P a b)
    (hf : ∀ x y, P x y → Tracks E Q (f x) (g y)) : Tracks E Q (a >>= f) (b >>= g) :=
  h.follow fun x y _ _ hxy _ => (hf x y hxy).since _

theorem Moves.bind {a : m γ} {b : m δ} (h : Moves E k a b)
    (hf : ∀ x, Tracks E Q (f x) (g (k x))) : Tracks E Q (a >>= f) (b >>= g) :=
  Tracks.bind h fun x _ hy => hy ▸ hf x

theorem tracks_then {a b : m PUnit} {f : PUnit → m α} {g : PUnit → m β} (h : Moves E id a b)
    (hf : Tracks E Q (f ⟨⟩) (g ⟨⟩)) : Tracks E Q (a >>= f) (b >>= g) := h.bind fun _ => hf

theorem tracks_throw_bind (e e' : Fault) : Tracks E Q ((throw e : m γ) >>= f) ((throw e' : m δ) >>= g) :=
  (tracks_throw (Q := fun _ _ => False) e e').bind fun _ _ h => h.elim

theorem Tracks.lift {a : Action α} {b : Action β} (h : Tracks E Q a b) :
    Tracks E Q (liftM a : m α) (liftM b : m β) where
  forth hg hp ha := by
    obtain ⟨t, ht, rfl⟩ := S.ends_lift.1 ha
    obtain ⟨y, u, hu, hxy, hframe⟩ := h.forth hg (F.session hp) ht
    exact ⟨y, _, S.ends_lift.2 ⟨u, hu, rfl⟩, hxy, F.put hp hframe⟩
  back hg hp hb := by
    obtain ⟨u, hu, rfl⟩ := S.ends_lift.1 hb
    obtain ⟨x, t, ht, hxy, hframe⟩ := h.back hg (F.session hp) hu
    exact ⟨x, _, S.ends_lift.2 ⟨t, ht, rfl⟩, hxy, F.put hp hframe⟩
  keeps hg hp ha := by
    obtain ⟨t, ht, rfl⟩ := S.ends_lift.1 ha
    rw [S.session_put]
    exact h.keeps hg (F.session hp) ht

theorem Moves.lift {k : α → β} {a : Action α} {b : Action β} (h : Moves E k a b) :
    Moves E k (liftM a : m α) (liftM b : m β) := Tracks.lift h

theorem Tracks.imp {Q' : α → β → Prop} {a : m α} {b : m β} (h : Tracks E Q a b)
    (hQ : ∀ {p q x y}, E.Good (S.session p) → S.Ends a p x q → Q x y → Q' x y) : Tracks E Q' a b where
  forth hg hp ha := by
    obtain ⟨y, q, hb, hxy, hq⟩ := h.forth hg hp ha
    exact ⟨y, q, hb, hQ hg ha hxy, hq⟩
  back hg hp hb := by
    obtain ⟨x, p, ha, hxy, hq⟩ := h.back hg hp hb
    exact ⟨x, p, ha, hQ hg ha hxy, hq⟩
  keeps := h.keeps

theorem Tracks.mono {Q' : α → β → Prop} {a : m α} {b : m β} (h : Tracks E Q a b)
    (hQ : ∀ x y, Q x y → Q' x y) : Tracks E Q' a b := h.imp fun _ _ => hQ _ _

theorem Tracks.since_bind {a : Action γ} {b : Action δ} (h : Tracks E P a b)
    (hf : ∀ x y s t, P x y → Runs a s x t → Tracks (E.since t) Q (f x) (g y)) :
    Tracks E Q (liftM a >>= f) (liftM b >>= g) :=
  h.lift.follow fun x y _ _ hxy hr => by
    obtain ⟨t, ht, rfl⟩ := S.ends_lift.1 hr
    rw [S.session_put]
    exact hf x y _ t hxy ht

theorem Tracks.fact {R : α → Prop} {a : m α} {b : m β} (h : Tracks E Q a b)
    (hR : ∀ {p q x}, E.Good (S.session p) → S.Ends a p x q → R x) : Tracks E (fun x y => Q x y ∧ R x) a b :=
  h.imp fun hg ha hxy => ⟨hxy, hR hg ha⟩

theorem tracks_ite [Decidable c] {a a' : m α} {b b' : m β} (ha : c → Tracks E Q a b)
    (hb : ¬ c → Tracks E Q a' b') : Tracks E Q (if c then a else a') (if c then b else b') := by
  split
  · exact ha ‹_›
  · exact hb ‹_›

theorem tracks_when [Decidable c] {a b : m PUnit} {f : PUnit → m α} {g : PUnit → m β}
    (ha : c → Moves E id a b) (hf : Tracks E Q (f ⟨⟩) (g ⟨⟩)) :
    Tracks E Q (if c then a >>= f else f ⟨⟩) (if c then b >>= g else g ⟨⟩) :=
  tracks_ite (fun hc => (ha hc).bind fun _ => hf) fun _ => hf

theorem moves_choose [Decidable c] {a b : m γ} {a' b' : m δ}
    (ha : c → Moves E k a a') (hb : ¬ c → Moves E k b b') (hf : ∀ x, Tracks E Q (f x) (g (k x))) :
    Tracks E Q (if c then a >>= f else b >>= f) (if c then a' >>= g else b' >>= g) :=
  tracks_ite (fun hc => (ha hc).bind hf) fun hc => (hb hc).bind hf

/-! ### Lists -/

theorem forall₂_graph {k : α → β} {xs : List α} {ys : List β} :
    List.Forall₂ (fun x y => y = k x) xs ys ↔ ys = xs.map k := by
  constructor
  · intro h
    induction h with
    | nil => rfl
    | cons hx _ ih => rw [hx, ih, List.map_cons]
  · rintro rfl
    induction xs with
    | nil => exact .nil
    | cons x xs ih => exact .cons rfl ih

section

variable [LawfulMonad m]

theorem tracks_mapM (hf : ∀ x y, P x y → Tracks E Q (f x) (g y))
    {ys : List δ} (h : List.Forall₂ P xs ys) : Tracks E (List.Forall₂ Q) (xs.mapM f) (ys.mapM g) := by
  induction h with
  | nil =>
    exact tracks_pure .nil
  | cons hx _ ih =>
    rw [List.mapM_cons, List.mapM_cons]
    exact (hf _ _ hx).bind fun x y hxy => ih.bind fun xs ys hxs => tracks_pure (.cons hxy hxs)

theorem moves_mapM (hf : ∀ x, Moves E l (f x) (g (k x)))
    (xs : List γ) : Moves E (List.map l) (xs.mapM f) ((xs.map k).mapM g) := by
  refine (tracks_mapM (fun x _ hy => hy ▸ hf x) (forall₂_graph.2 rfl)).mono ?_
  exact fun _ _ h => forall₂_graph.1 h

theorem moves_filterMapM {f : γ → m (Option α)} {g : δ → m (Option β)}
    (hf : ∀ x, Moves E (Option.map l) (f x) (g (k x))) (xs : List γ) :
    Moves E (List.map l) (xs.filterMapM f) ((xs.map k).filterMapM g) := by
  induction xs with
  | nil =>
    exact moves_pure []
  | cons x xs ih =>
    rw [List.map_cons, List.filterMapM_cons, List.filterMapM_cons]
    refine (hf x).bind fun y => ?_
    cases y with
    | none => exact ih
    | some y => exact ih.bind fun ys => moves_pure (y :: ys)

theorem moves_flatMapM {f : γ → m (List α)} {g : δ → m (List β)}
    (hf : ∀ x, Moves E (List.map l) (f x) (g (k x))) (xs : List γ) :
    Moves E (List.map l) (xs.flatMapM f) ((xs.map k).flatMapM g) := by
  induction xs with
  | nil =>
    exact moves_pure []
  | cons x xs ih =>
    rw [List.map_cons, List.flatMapM_cons, List.flatMapM_cons]
    refine (hf x).bind fun y => ih.bind fun ys => ?_
    rw [← List.map_append]
    exact moves_pure _

end

theorem tracks_foldlM {R : α → β → Prop} {f : α → γ → m α} {g : β → δ → m β}
    (hf : ∀ x y, R x y → ∀ z z', P z z' → Tracks E R (f x z) (g y z')) {ys : List δ}
    (h : List.Forall₂ P xs ys) {x : α} {y : β} (hxy : R x y) : Tracks E R (xs.foldlM f x) (ys.foldlM g y) := by
  induction h generalizing x y with
  | nil => exact tracks_pure hxy
  | cons hz _ ih =>
    exact (hf x y hxy _ _ hz).bind fun x y hxy => ih hxy

theorem moves_foldlM {f : α → γ → m α} {g : β → δ → m β}
    (hf : ∀ x z, Moves E l (f x z) (g (l x) (k z))) (xs : List γ) (x : α) :
    Moves E l (xs.foldlM f x) ((xs.map k).foldlM g (l x)) := by
  refine tracks_foldlM ?_ (forall₂_graph.2 rfl) rfl
  rintro x _ rfl z _ rfl
  exact hf x z

theorem tracks_forM {f : γ → m PUnit} {g : δ → m PUnit} (hf : ∀ x y, P x y → Moves E id (f x) (g y))
    {ys : List δ} (h : List.Forall₂ P xs ys) : Moves E id (xs.forM f) (ys.forM g) := by
  induction h with
  | nil => exact moves_pure _
  | cons hx _ ih => exact (hf _ _ hx).bind fun _ => ih

theorem moves_forM {f : γ → m PUnit} {g : δ → m PUnit} (hf : ∀ x, Moves E id (f x) (g (k x)))
    (xs : List γ) : Moves E id (xs.forM f) ((xs.map k).forM g) :=
  tracks_forM (fun x _ hy => hy ▸ hf x) (forall₂_graph.2 rfl)

theorem moves_forIn {f : γ → PUnit → m (ForInStep PUnit)} {g : δ → PUnit → m (ForInStep PUnit)}
    (hf : ∀ x, Moves E id (f x ⟨⟩) (g (k x) ⟨⟩)) (xs : List γ) :
    Moves E id (forIn xs ⟨⟩ f) (forIn (xs.map k) ⟨⟩ g) := by
  induction xs with
  | nil => exact moves_pure _
  | cons x xs ih =>
    rw [List.map_cons, List.forIn_cons, List.forIn_cons]
    refine (hf x).bind fun y => ?_
    cases y with
    | done => exact moves_pure _
    | yield => exact ih

theorem moves_findM {f : γ → m Bool} {g : δ → m Bool} (hf : ∀ x, Moves E id (f x) (g (k x)))
    (xs : List γ) : Moves E (Option.map k) (xs.findM? f) ((xs.map k).findM? g) := by
  induction xs with
  | nil => exact moves_pure none
  | cons x xs ih =>
    refine (hf x).bind fun b => ?_
    cases b with
    | true => exact moves_pure (some x)
    | false => exact ih

end

/-! ### States of their own -/

section

variable {τ : Type} [C : Carried τ] {E : Guard} {α β : Type} {Q : α → β → Prop}

theorem tracks_get : Tracks E (C.Rel E) (get : StateT τ Action τ) (get : StateT τ Action τ) where
  forth _ hp ha := by
    obtain ⟨rfl, rfl⟩ := ends_get.1 ha
    exact ⟨_, _, ends_get.2 ⟨rfl, rfl⟩, hp.2, hp⟩
  back _ hp hb := by
    obtain ⟨rfl, rfl⟩ := ends_get.1 hb
    exact ⟨_, _, ends_get.2 ⟨rfl, rfl⟩, hp.2, hp⟩
  keeps hg _ ha := (ends_get.1 ha).2 ▸ hg.keeps

theorem moves_set {x y : τ} (h : C.Rel E x y) :
    Moves E id (set x : StateT τ Action PUnit) (set y : StateT τ Action PUnit) where
  forth _ hp ha := by
    obtain rfl := ends_set.1 ha
    exact ⟨⟨⟩, _, ends_set.2 rfl, rfl, hp.1, h⟩
  back _ hp hb := by
    obtain rfl := ends_set.1 hb
    exact ⟨⟨⟩, _, ends_set.2 rfl, rfl, hp.1, h⟩
  keeps hg _ ha := ends_set.1 ha ▸ hg.keeps

theorem moves_modify {f g : τ → τ} (h : ∀ x y, C.Rel E x y → C.Rel E (f x) (g y)) :
    Moves E id (modify f : StateT τ Action PUnit) (modify g : StateT τ Action PUnit) where
  forth _ hp ha := by
    obtain rfl := ends_modify.1 ha
    exact ⟨⟨⟩, _, ends_modify.2 rfl, rfl, hp.1, h _ _ hp.2⟩
  back _ hp hb := by
    obtain rfl := ends_modify.1 hb
    exact ⟨⟨⟩, _, ends_modify.2 rfl, rfl, hp.1, h _ _ hp.2⟩
  keeps hg _ ha := ends_modify.1 ha ▸ hg.keeps

theorem Tracks.run {a : StateT τ Action α} {b : StateT τ Action β} (h : Tracks E Q a b) {x y : τ}
    (hxy : C.Rel E x y) :
    Tracks E (fun r r' => Q r.1 r'.1 ∧ C.Rel E r.2 r'.2) (a.run x : Action (α × τ)) (b.run y : Action (β × τ)) where
  forth {p q p' r} hg hp ha := by
    have hends : Stateful.Ends a (p, x) r.1 (p', r.2) := ha
    obtain ⟨r', ⟨q', z⟩, hb, hr, hq, hz⟩ := h.forth (q := (q, y)) hg ⟨hp, hxy⟩ hends
    exact ⟨(r', z), q', hb, ⟨hr, hz⟩, hq⟩
  back {p q q' r'} hg hp hb := by
    have hends : Stateful.Ends b (q, y) r'.1 (q', r'.2) := hb
    obtain ⟨r, ⟨p', z⟩, ha, hr, hq, hz⟩ := h.back (p := (p, x)) hg ⟨hp, hxy⟩ hends
    exact ⟨(r, z), p', ha, ⟨hr, hz⟩, hq⟩
  keeps {p q p' r} hg hp ha := by
    have hends : Stateful.Ends a (p, x) r.1 (p', r.2) := ha
    exact h.keeps (q := (q, y)) hg ⟨hp, hxy⟩ hends

end

/-! ## The node store -/

section

variable {E : Guard} {α β α : Type} {Q : α → β → Prop}

theorem tracks_action {a : Action α} {b : Action β}
    (keeps : ∀ {w v w' x}, E.Good w → E.Holds w v → Runs a w x w' → E.Keeps w w')
    (forth : ∀ {w v w' x}, E.Holds w v → Runs a w x w' → ∃ y v', Runs b v y v' ∧ Q x y ∧ E.Holds w' v')
    (back : ∀ {w v v' y}, E.Holds w v → Runs b v y v' → ∃ x w', Runs a w x w' ∧ Q x y ∧ E.Holds w' v') :
    Tracks E Q a b := ⟨fun _ => forth, fun _ => back, keeps⟩

theorem ReadOnly.keeps {a : Action α} (ha : ReadOnly a) {w v w' : Session} {x : α}
    (hg : E.Good w) (_ : E.Holds w v) (hr : Runs a w x w') : E.Keeps w w' := ha _ _ _ hr ▸ hg.keeps

theorem moves_change {f f' : Session → Session} {a b : Action Unit}
    (ha : ∀ {w t r}, Runs a w r t ↔ t = f w) (hb : ∀ {v t r}, Runs b v r t ↔ t = f' v)
    (hk : ∀ w, E.Good w → E.Keeps w (f w)) (hf : ∀ w v, E.Holds w v → E.Holds (f w) (f' v)) : Moves E id a b :=
  tracks_action (fun hg _ h => ha.1 h ▸ hk _ hg)
    (fun hp h => ⟨⟨⟩, _, hb.2 rfl, rfl, ha.1 h ▸ hf _ _ hp⟩)
    (fun hp h => ⟨⟨⟩, _, ha.2 rfl, rfl, hb.1 h ▸ hf _ _ hp⟩)

/-! ### Reading -/

theorem moves_read {k : α → β} {a : Action α} {b : Action β} (x : Session → Except Fault α)
    (y : Session → Except Fault β) (ha : ∀ {w t r}, Runs a w r t ↔ x w = .ok r ∧ t = w)
    (hb : ∀ {v t r}, Runs b v r t ↔ y v = .ok r ∧ t = v) (h : ∀ w v, E.Holds w v → y v = (x w).map k) :
    Moves E k a b := by
  refine tracks_action (ReadOnly.keeps fun _ _ _ h => (ha.1 h).2) (fun {w v _ r} hp hr => ?_) (fun {w v _ r} hp hr => ?_)
  · obtain ⟨hx, rfl⟩ := ha.1 hr
    exact ⟨k r, v, hb.2 ⟨by rw [h _ _ hp, hx]; rfl, rfl⟩, rfl, hp⟩
  · obtain ⟨hy, rfl⟩ := hb.1 hr
    rw [h _ _ hp] at hy
    cases hx : x w with
    | error e => rw [hx] at hy; cases hy
    | ok r' =>
      rw [hx] at hy
      exact ⟨r', w, ha.2 ⟨hx, rfl⟩, (Except.ok.inj hy).symm, hp⟩

theorem moves_settings : Moves E id settings settings :=
  moves_read (fun w => .ok w.settings) (fun v => .ok v.settings)
    (by simp only [runs_settings, Except.ok.injEq, eq_comm, implies_true])
    (by simp only [runs_settings, Except.ok.injEq, eq_comm, implies_true])
    fun w v h => by rw [h.settings]; rfl

theorem moves_ofExcept (x : Except Fault α) : Moves E id (Action.ofExcept x) (Action.ofExcept x) := by
  cases x with
  | ok x => exact moves_pure x
  | error e => exact tracks_throw e e

theorem moves_required {k : α → β} (x : Option α) : Moves E k (required x) (required (x.map k)) := by
  cases x with
  | some x => exact moves_pure x
  | none => exact tracks_throw _ _

theorem moves_present (x : Option α) : Moves E id (required x) (required x) := by
  simpa only [Option.map_id, id_eq] using moves_required (k := id) x

theorem moves_identity : Mirrors E identity identity := by
  intro o
  cases o with
  | node id => exact moves_pure id
  | datum d => exact tracks_throw _ _
  | group os =>
    exact tracks_throw _ _

theorem tracks_node : Mirrors E node node := by
  intro i
  refine tracks_action (readOnly_node i).keeps (fun hp hr => ?_) (fun hp hr => ?_)
  · obtain ⟨hn, rfl⟩ := runs_node.1 hr
    obtain ⟨n', hn', hrel⟩ := hp.node i _ hn
    exact ⟨n', _, runs_node.2 ⟨hn', rfl⟩, hrel, hp⟩
  · obtain ⟨hn, rfl⟩ := runs_node.1 hr
    obtain ⟨n, hn', hrel⟩ := hp.back hn
    exact ⟨n, _, runs_node.2 ⟨hn', rfl⟩, hrel, hp⟩

theorem tracks_nodeOf : Mirrors E nodeOf nodeOf := fun o => (moves_identity o).bind tracks_node

theorem tracks_reading {k : Node → Action α} {k' : Node → Action β} (o : Operand)
    (h : ∀ form type x marks f, E.Form form f →
      Tracks E Q (k ⟨form, type, x, marks⟩) (k' ⟨f, type, x, marks.moved E.name⟩)) :
    Tracks E Q (nodeOf o >>= k) (nodeOf (E.operand o) >>= k') :=
  (tracks_nodeOf o).bind fun ⟨form, type, x, marks⟩ _ ⟨f, hf, hn⟩ => hn ▸ h form type x marks f hf

theorem Frame.Holds.node?_none {E : Frame} {w v : Session} (h : E.Holds w v) {i : NodeId} (hn : w.node? i = none) :
    v.node? (E.name i) = none := by
  cases hv : v.node? (E.name i) with
  | none => rfl
  | some n' =>
    obtain ⟨n, hn', -⟩ := h.back hv
    rw [hn] at hn'
    cases hn'

theorem Frame.Holds.form? {E : Frame} {w v : Session} (h : E.Holds w v) (o : Operand) :
    Option.Rel E.Form (o.id?.bind w.form?) ((E.operand o).id?.bind v.form?) := by
  rw [Operand.id?_rename]
  cases o.id? with
  | none => exact .none
  | some i =>
    cases hn : w.node? i with
    | some n =>
      obtain ⟨n', hn', f, hf, rfl⟩ := h.node i n hn
      simp only [Option.map_some, Option.bind_some, form?_of_node? hn, form?_of_node? hn']
      exact .some hf
    | none =>
      simp only [Option.map_some, Option.bind_some, Session.form?, hn, h.node?_none hn]
      exact .none

theorem tracks_formOf (o : Operand) : Tracks E (Option.Rel E.Form) (formOf? o) (formOf? (E.operand o)) := by
  refine tracks_action (ReadOnly.keeps fun _ _ _ h => (runs_formOf?.1 h).2) (fun hp hr => ?_) (fun hp hr => ?_)
  all_goals
    obtain ⟨rfl, rfl⟩ := runs_formOf?.1 hr
    exact ⟨_, _, runs_formOf?.2 ⟨rfl, rfl⟩, hp.form? o, hp⟩

theorem moves_typeOf : Mirrors E typeOf typeOf := by
  refine fun o => tracks_reading o fun _ type _ _ _ _ => ?_
  cases type with
  | some t => exact moves_pure t
  | none => exact tracks_throw _ _

theorem moves_known : Mirrors E known known := fun t =>
  tracks_ite (fun _ => tracks_throw _ _) fun _ => moves_pure t

theorem moves_knownType : Mirrors E knownType knownType := fun o => (moves_typeOf o).bind moves_known

theorem moves_baseOf : Mirrors E baseOf baseOf := by
  intro t
  unfold baseOf
  split
  · exact moves_pure _
  · exact tracks_throw _ _

theorem moves_dtypeOf : Mirrors E dtypeOf dtypeOf := by
  intro t
  unfold dtypeOf
  split
  · exact moves_pure _
  · exact tracks_throw _ _

theorem moves_ndimOf : Mirrors E ndimOf ndimOf := by
  intro t
  unfold ndimOf
  split
  · exact moves_pure _
  · exact tracks_throw _ _

theorem moves_nameOf : Mirrors E nameOf nameOf := by
  refine fun o => tracks_reading o fun form _ _ _ _ hf => ?_
  obtain h | h | ⟨_, h⟩ := hf
  on_goal 3 => cases form
  case function =>
    cases h
    exact moves_pure _
  case var v => exact moves_pure v.name
  case argument n u => exact moves_pure n
  case arrayArgument n d s vs u => exact moves_pure n
  case functionName n e => exact moves_pure (Name.datum n)
  case label n e => exact moves_pure (Name.datum n)
  case other.function => cases h
  all_goals exact tracks_throw _ _

theorem moves_typeText : Mirrors E typeText typeText := fun t =>
  moves_settings.bind fun s => moves_ofExcept (t.text s.declare)

theorem moves_shownName : Mirrors E shownName shownName := by
  intro n
  cases n with
  | datum d => exact moves_pure d.display
  | type t => exact moves_typeText t

theorem tracks_functionOf : Mirrors E functionOf functionOf := by
  refine fun o => tracks_reading o fun form _ _ _ _ hf => ?_
  obtain h | h | ⟨_, h⟩ := hf
  on_goal 3 => cases form
  case function => exact tracks_pure h
  case other.function => cases h
  all_goals exact tracks_throw _ _

theorem tracks_inFunction {k : Function → Action α} {k' : Function → Action β} (o : Operand)
    (h : ∀ (f : Function) emitted specializer, Tracks E Q (k f) (k' { f.moved E.name with emitted, specializer })) :
    Tracks E Q (functionOf o >>= k) (functionOf (E.operand o) >>= k') :=
  (tracks_functionOf o).bind fun f _ ⟨_, _, _⟩ => h f _ _

theorem moves_loopOf : Mirrors E loopOf loopOf := by
  refine fun o => tracks_reading o fun form _ _ _ _ hf => ?_
  obtain h | h | ⟨_, h⟩ := hf
  on_goal 3 => cases form
  case loop l => exact moves_pure l
  all_goals exact tracks_throw _ _

theorem moves_leftOf : Mirrors E leftOf leftOf := by
  refine fun o => tracks_reading o fun form _ _ _ _ hf => ?_
  obtain h | h | ⟨_, h⟩ := hf
  on_goal 3 => cases form
  case assign l _ _ => exact moves_pure l
  case conditional _ l _ => exact moves_pure l
  case binop l _ | index l _ | vectorStore l _ | vectorBinop l _ => exact moves_pure l
  all_goals exact tracks_throw _ _

theorem moves_rightOf : Mirrors E rightOf rightOf := by
  refine fun o => tracks_reading o fun form _ _ _ _ hf => ?_
  obtain h | h | ⟨_, h⟩ := hf
  on_goal 3 => cases form
  case assign _ r _ => exact moves_pure r
  case conditional _ _ r => exact moves_pure r
  case binop _ r | index _ r | vectorStore _ r | vectorBinop _ r => exact moves_pure r
  all_goals exact tracks_throw _ _

/-! ### Writing -/

theorem moves_alter (i : NodeId) {g g' : Node → Node} (hk : ∀ w, E.Good w → E.Keeps w (w.alter i g))
    (hg : ∀ n n', E.Node n n' → E.Node (g n) (g' n')) : Moves E id (updateNode i g) (updateNode (E.name i) g') :=
  moves_change runs_updateNode runs_updateNode hk fun _ _ h => h.alter fun n n' _ => hg n n'

theorem Guard.Good.alter {w : Session} {i : NodeId} {g : Node → Node} (hw : E.Good w)
    (hs : ∀ K n, E.At K w → w.node? i = some n → Soft n.form (g n).form) : E.Keeps w (w.alter i g) := fun K hK =>
  ⟨K.alter (hw K hK).holds fun n => hs K n (hw K hK), .alter fun n hn => (hs K n (hw K hK) hn).kept⟩

theorem moves_updateNode (i : NodeId) {g g' : Node → Node} (hs : ∀ n, Soft n.form (g n).form)
    (hg : ∀ n n', E.Node n n' → E.Node (g n) (g' n')) : Moves E id (updateNode i g) (updateNode (E.name i) g') :=
  moves_alter i (fun _ hw => hw.alter fun _ n _ _ => hs n) hg

theorem Frame.Node.reform {E : Frame} {n n' : Ast.Node} {g g' : Ast.Form → Ast.Form}
    (hg : ∀ f f', E.Form f f' → E.Form (g f) (g' f')) (h : E.Node n n') : E.Node (n.reform g) (n'.reform g') := by
  obtain ⟨f, hf, rfl⟩ := h
  exact ⟨g' f, hg _ _ hf, rfl⟩

theorem moves_updateForm (i : NodeId) {g g' : Form → Form} (hs : ∀ f, Soft f (g f))
    (hg : ∀ f f', E.Form f f' → E.Form (g f) (g' f')) : Moves E id (updateForm i g) (updateForm (E.name i) g') :=
  moves_updateNode i (fun n => hs n.form) fun _ _ => Frame.Node.reform hg

theorem moves_updateMarks (i : NodeId) {g g' : Marks → Marks}
    (hg : ∀ k, g' (k.moved E.name) = (g k).moved E.name) :
    Moves E id (updateMarks i g) (updateMarks (E.name i) g') := by
  refine moves_updateNode i (fun _ => .refl _) ?_
  rintro n _ ⟨f, hf, rfl⟩
  exact ⟨f, hf, by rw [← hg]⟩

theorem moves_updateFunction (i : NodeId) {g g' : Function → Function}
    (hs : ∀ f, (g f).successValue = f.successValue) (hg : ∀ f f', E.Function f f' → E.Function (g f) (g' f')) :
    Moves E id (updateFunction i g) (updateFunction (E.name i) g') := by
  refine moves_updateForm i (fun f => ?_) fun f f' hf => ?_
  · cases f with
    | function f => exact .of_kept rfl (congrArg Kept.function (hs f))
    | _ => exact .refl _
  obtain h | h | ⟨_, h⟩ := hf
  on_goal 3 => cases f
  case constant => exact .constant h
  case function => exact .function (hg _ _ h)
  case other.function => cases h
  all_goals exact .other _ h

theorem moves_updateLoop (i : NodeId) {g g' : Loop → Loop} (hg : ∀ l, g' (l.moved E.name) = (g l).moved E.name) :
    Moves E id (updateLoop i g) (updateLoop (E.name i) g') := by
  refine moves_updateForm i (fun f => ?_) fun f f' hf => ?_
  · cases f with
    | loop l => exact .of_kept rfl rfl
    | _ => exact .refl _
  obtain h | h | ⟨_, h⟩ := hf
  on_goal 3 => cases f
  case constant => exact .constant h
  case function => exact .function h
  case loop l =>
    show E.Form (.loop (g l)) (.loop (g' (l.moved E.name)))
    rw [hg]
    exact .other (.loop (g l)) rfl
  all_goals exact .other _ h

theorem moves_updateVariable (i : NodeId) {g g' : Variable → Variable}
    (hs : ∀ v, (Form.var (g v)).kept = (Form.var v).kept) (hg : ∀ v, g' (v.moved E.name) = (g v).moved E.name) :
    Moves E id (Build.updateVariable i g) (Build.updateVariable (E.name i) g') := by
  refine moves_updateForm i (fun f => ?_) fun f f' hf => ?_
  · cases f with
    | var v => exact .of_kept rfl (hs v)
    | _ => exact .refl _
  obtain h | h | ⟨_, h⟩ := hf
  on_goal 3 => cases f
  case constant => exact .constant h
  case function => exact .function h
  case var v =>
    show E.Form (.var (g v)) (.var (g' (v.moved E.name)))
    rw [hg]
    exact .other (.var (g v)) rfl
  all_goals exact .other _ h

theorem counts_setChild (f : Form) (name : String) (o : Operand) :
    Frame.counts (f.setChild name o) = Frame.counts f := by
  cases f with
  | var v => rcases v with ⟨_ | _ | _ | _ | _ | _, _, _, _, _⟩ <;> simp only [Form.setChild] <;> split <;> rfl
  | _ =>
    first
      | rfl
      | simp only [Form.setChild]
        split <;> rfl

theorem Frame.Form.setChild {E : Frame} {f f' : Ast.Form} (h : E.Form f f') (name : String) (o : Operand) :
    E.Form (f.setChild name o) (f'.setChild name (E.operand o)) := by
  cases h with
  | constant h => exact .constant h
  | function h =>
    obtain ⟨he, hs, hc⟩ := h
    simp only [Ast.Form.setChild]
    split
    all_goals exact .function (.moved he hs hc)
  | other _ h =>
    rw [Ast.Form.setChild_moved]
    exact .other _ (by rw [counts_setChild, h])

theorem moves_setChild (i : NodeId) (name : String) (o : Operand) (hname : name ≠ "operand") :
    Moves E id (updateForm i (·.setChild name o)) (updateForm (E.name i) (·.setChild name (E.operand o))) :=
  moves_updateForm i (fun _ => soft_setChild (.inl hname)) fun _ _ h => h.setChild name o

theorem moves_alterKnown (i : NodeId) {k : Kept} {g g' : Form → Form} (hi : E.Knows i k)
    (hs : ∀ f, f.kept = k → Soft f (g f)) (hg : ∀ f f', E.Form f f' → E.Form (g f) (g' f')) :
    Moves E id (updateForm i g) (updateForm (E.name i) g') := by
  refine moves_alter i (fun w hw => hw.alter fun K n hK hn => ?_) fun _ _ => Frame.Node.reform hg
  obtain ⟨f, hf, hk⟩ := hi K w hK
  obtain rfl := form_of_node? hn hf
  exact hs n.form hk

theorem moves_setOperand (i : NodeId) {k : Kept} (hi : E.Knows i k) (hk : k ≠ .returning) (name : String) (o : Operand) :
    Moves E id (updateForm i (·.setChild name o)) (updateForm (E.name i) (·.setChild name (E.operand o))) :=
  moves_alterKnown i hi (fun _ hf => soft_setChild (.inr (hf ▸ hk))) fun _ _ h => h.setChild name o

theorem moves_reform (i : NodeId) {f f' : Form} (hi : E.Knows i f.kept) (hfixed : f.isFixed = false)
    (hf : f' = f.moved E.name) (h : Frame.counts f = false) :
    Moves E id (updateForm i fun _ => f) (updateForm (E.name i) fun _ => f') := by
  refine moves_alterKnown i hi (fun g hg => .of_kept ?_ hg.symm) fun _ _ _ => hf ▸ .other f h
  rw [Form.isFixed_of_kept hg, hfixed]

theorem moves_loosely {E : Frame} (i : NodeId) {g g' : Form → Form} (hg : ∀ f f', E.Form f f' → E.Form (g f) (g' f')) :
    Moves E.loose id (updateForm i g) (updateForm (E.name i) g') :=
  moves_alter i (fun _ _ _ h => h.elim) fun _ _ => Frame.Node.reform hg

theorem moves_addNode {n n' : Node} (h : E.Node n n') (ha : E.Admits n.form) :
    Moves E E.name (addNode n) (addNode n') := by
  refine tracks_action (fun hg _ hr => ?_) (fun hp hr => ?_) (fun hp hr => ?_)
  on_goal 1 =>
    obtain ⟨-, rfl⟩ := runs_addNode.1 hr
    exact fun K hK => ⟨K.add (hg K hK).holds (ha K _ (hg K hK)), .add n⟩
  all_goals
    obtain ⟨rfl, rfl⟩ := runs_addNode.1 hr
    exact ⟨_, _, runs_addNode.2 ⟨rfl, rfl⟩, hp.next, hp.add h⟩

theorem tracks_knowing {m : Type → Type} [Monad m] [MonadLiftT Action m] [MonadExceptOf Fault m] {σ : Type}
    [S : Stateful m σ] [F : Framed m] {k : Node → m α} {k' : Node → m β} (i : NodeId)
    (h : ∀ form type x marks f s, E.Form form f → (E.since s).Knows i form.kept →
      Tracks (E.since s) Q (k ⟨form, type, x, marks⟩) (k' ⟨f, type, x, marks.moved E.name⟩)) :
    Tracks E Q (liftM (node i) >>= k) (liftM (node (E.name i)) >>= k') := by
  refine (tracks_node i).since_bind ?_
  rintro ⟨form, type, x, marks⟩ _ s t ⟨f, hf, rfl⟩ hr
  obtain ⟨hn, rfl⟩ := runs_node.1 hr
  exact h form type x marks f t hf (Guard.knows_since (form?_of_node? hn))

theorem moves_appendTo : Mirrors E appendTo appendTo := by
  refine fun list statement => (moves_identity list).bind fun i => tracks_knowing i fun form _ _ _ _ s hf hi => ?_
  obtain h | h | ⟨_, h⟩ := hf
  on_goal 3 => cases form
  case sequence o =>
    cases o
    case group items =>
      exact moves_reform i hi rfl (by simp [Form.moved, Operand.renameAll_eq]) rfl
    all_goals exact tracks_throw _ _
  all_goals exact tracks_throw _ _

/-! ### Builders and specializers -/

theorem getElem?_append_size (xs ys : Array α) (i : Nat) : (xs ++ ys)[xs.size + i]? = ys[i]? := by
  rw [Array.getElem?_append_right (Nat.le_add_right _ _), Nat.add_sub_cancel_left]

theorem modify_append_size (xs ys : Array α) (i : Nat) (f : α → α) :
    (xs ++ ys).modify (xs.size + i) f = xs ++ ys.modify i f := by
  apply Array.ext_getElem?
  intro j
  rw [Array.getElem?_modify]
  by_cases hj : j < xs.size
  · rw [Array.getElem?_append_left hj, if_neg (by omega), Array.getElem?_append_left hj]
  · obtain ⟨k, rfl⟩ := Nat.exists_eq_add_of_le (Nat.le_of_not_lt hj)
    rw [getElem?_append_size, getElem?_append_size, Array.getElem?_modify]
    simp only [Nat.add_left_cancel_iff]

theorem map_modify {β : Type} (xs : Array α) (i : Nat) {f : α → α} {g : β → β} {k : α → β}
    (h : ∀ x, g (k x) = k (f x)) : (xs.map k).modify i g = (xs.modify i f).map k := by
  apply Array.ext_getElem?
  intro j
  rw [Array.getElem?_modify, Array.getElem?_map, Array.getElem?_map, Array.getElem?_modify]
  split
  · cases xs[j]? with
    | none => rfl
    | some x => exact congrArg some (h x)
  · rfl

theorem Frame.Holds.builderAt {E : Frame} {w v : Session} (h : E.Holds w v) : v.builders[v.builder]? = w.builders[w.builder]? := by
  rw [h.builders, h.builder, getElem?_append_size]

theorem moves_position : Moves E id position position := by
  refine tracks_action (ReadOnly.keeps fun _ _ _ h => (runs_position.1 h).2) (fun hp hr => ?_) (fun hp hr => ?_)
  all_goals
    obtain ⟨rfl, rfl⟩ := runs_position.1 hr
    exact ⟨_, _, runs_position.2 ⟨rfl, rfl⟩, by rw [hp.builderAt]; rfl, hp⟩

theorem Frame.Holds.updateBuilder {E : Frame} {w v : Session} (h : E.Holds w v) (g : Builder → Builder) :
    E.Holds { w with builders := w.builders.modify w.builder g } { v with builders := v.builders.modify v.builder g } :=
  { h with
    node := h.node
    builders := by
      rw [h.builders, h.builder, modify_append_size] }

theorem moves_setPosition (x : Position) : Moves E id (setPosition x) (setPosition x) :=
  moves_change runs_modify runs_modify (fun _ h => h.same (fun _ => rfl) rfl) fun _ _ h => h.updateBuilder _

theorem moves_specializer (sp : Nat) : Moves E E.specializer (specializer sp) (specializer (E.slot sp)) := by
  have reads (i : Nat) {w t : Session} {r : Specializer} : Runs (specializer i) w r t ↔
      w.specializers[i]?.elim (.error Fault.noSuchField) Except.ok = .ok r ∧ t = w := by
    rw [specializer, runs_get_bind]
    cases w.specializers[i]? with
    | none => simp [runs_throw]
    | some sp => simp only [runs_pure, Option.elim_some, Except.ok.injEq, eq_comm]
  refine moves_read _ _ (reads sp) (reads (E.slot sp)) fun w v h => ?_
  rw [h.specializers, Frame.slot, getElem?_append_size, Array.getElem?_map]
  cases w.specializers[sp]? <;> rfl

theorem moves_updateSpecializer (sp : Nat) {g g' : Specializer → Specializer}
    (hg : ∀ s, g' (E.specializer s) = E.specializer (g s)) :
    Moves E id (updateSpecializer sp g) (updateSpecializer (E.slot sp) g') := by
  refine moves_change runs_modify runs_modify (fun _ h => h.same (fun _ => rfl) rfl) fun w v h =>
    { h with node := h.node, specializers := ?_ }
  rw [h.specializers, Frame.slot, modify_append_size, map_modify _ _ hg]

end

end ArrayKernel.Ast
