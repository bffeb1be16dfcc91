import ArrayKernel.Proofs.Building
import Mathlib.Logic.Function.Basic
import Mathlib.Logic.Relation

/-!
# Running a kernel

What the statements of a kernel do when they run: temporaries are assigned, loops repeat, and each execution
of one chosen statement is recorded with the temporaries it finds.
-/

namespace ArrayKernel.Running

open Ast

structure Inputs where
  value : Name → Int
  item : Name → Int → Int
  size : CType → Int

abbrev Temporaries := NodeId → Int

structure Machine where
  store : Session
  inputs : Inputs
  parallel : Bool
  leaf : NodeId

/-! ## Values -/

def isPassed : VariableRole → Bool
  | .plain | .dataPointer _ | .stridePointer _ => true
  | _ => false

/-- By how much an address of the type moves when one is added; numbers move by one. -/
def Inputs.scale (i : Inputs) : Option CType → Int
  | some (.pointer base _) => i.size base
  | _ => 1

/-- The value of an expression, where it is determined by the inputs and the temporaries. -/
inductive HasValue (m : Machine) (τ : Temporaries) : Operand → Int → Prop where
  | constant {id n} (h : m.store.form? id = some (.constant (.int n))) : HasValue m τ (.node id) n
  | temporary {id v shown} (h : m.store.form? id = some (.var v)) (hr : v.role = .temporary shown) :
    HasValue m τ (.node id) (τ id)
  | passed {id v} (h : m.store.form? id = some (.var v)) (hr : isPassed v.role = true) :
    HasValue m τ (.node id) (m.inputs.value v.name)
  | item {id p i v k} (h : m.store.form? id = some (.index (.node p) i))
    (hp : m.store.form? p = some (.var v)) (hr : isPassed v.role = true) (hi : HasValue m τ i k) :
    HasValue m τ (.node id) (m.inputs.item v.name k)
  | sum {id l r a b} (h : m.store.form? id = some (.binop "+" (.node l) r))
    (hl : HasValue m τ (.node l) a) (hr : HasValue m τ r b) :
    HasValue m τ (.node id) (a + m.inputs.scale (m.store.type? l) * b)
  | product {id l r a b} (h : m.store.form? id = some (.binop "*" l r)) (hl : HasValue m τ l a)
    (hr : HasValue m τ r b) : HasValue m τ (.node id) (a * b)
  | quotient {id l r a b} (h : m.store.form? id = some (.binop "/" l r)) (hl : HasValue m τ l a)
    (hr : HasValue m τ r b) : HasValue m τ (.node id) (a.tdiv b)
  | less {id l r a b} (h : m.store.form? id = some (.binop "<" l r)) (hl : HasValue m τ l a)
    (hr : HasValue m τ r b) : HasValue m τ (.node id) (if a < b then 1 else 0)
  | chosen {id c l r k a b} (h : m.store.form? id = some (.conditional c l r)) (hc : HasValue m τ c k)
    (hl : HasValue m τ l a) (hr : HasValue m τ r b) : HasValue m τ (.node id) (if k ≠ 0 then a else b)
  | sizeof {id ty} (h : m.store.form? id = some (.sizeof ty)) : HasValue m τ (.node id) (m.inputs.size ty)

/-- A value that an expression may have: its value if that is determined, and any value if not. -/
def May (m : Machine) (τ : Temporaries) (o : Operand) (k : Int) : Prop := ∀ n, HasValue m τ o n → k = n

section Values

variable {m : Machine} {τ : Temporaries} {o : Operand}

theorem value_unique {a b : Int} (ha : HasValue m τ o a) (hb : HasValue m τ o b) : a = b := by
  induction ha generalizing b with
  | constant h => cases hb <;> simp_all
  | temporary h hr | passed h hr => cases hb <;> simp_all [isPassed]
  | item h hp hr hi ih | sum h hl hr ihl ihr | product h hl hr ihl ihr | quotient h hl hr ihl ihr
  | less h hl hr ihl ihr | chosen h hc hl hr ihc ihl ihr =>
    cases hb <;> simp_all
    grind
  | sizeof h => cases hb <;> simp_all

theorem may_iff {n k : Int} (h : HasValue m τ o n) : May m τ o k ↔ k = n :=
  ⟨fun hk => hk n h, fun hk _ hn => hk.trans (value_unique h hn)⟩

end Values

/-! ## Statements -/

/-- What is still to be done: a statement, or the remaining iterations of a loop. -/
inductive Step where
  | run (o : Operand)
  | again (l : Loop)

inductive Effect where
  | steps (ks : List Step)
  | assigns (target : NodeId) (value : Operand)
  | branches (condition whenTrue whenFalse : Operand)
  | leaves
  | other

def effect (parallel : Bool) : Form → Effect
  | .sequence (.group os) => .steps (os.map .run)
  | .statement e => .steps [.run e]
  | .loop l => .steps [.run l.start, .again l]
  | .parallelChoice a b => .steps [.run (if parallel then a else b)]
  | .parallelLoop l _ _ _ => .steps [.run l]
  | .pragmaLoop l => .steps [.run l]
  | .handler h => .steps [.run h.errorStart, .run h.body]
  | .assign (.node t) r _ => .assigns t r
  | .branch b => .branches b.condition b.body b.otherwise
  | .yield _ | .jump _ => .leaves
  | _ => .other

def IsOperand (s : Session) (a b : NodeId) : Prop := ∃ f, s.form? a = some f ∧ b ∈ f.ids

def Assigns (s : Session) (id t : NodeId) : Prop :=
  ∃ a r d, Relation.ReflTransGen (IsOperand s) id a ∧ s.form? a = some (.assign (.node t) r d)

def Alters (s : Session) (id : NodeId) (τ τ' : Temporaries) : Prop :=
  ∀ t, ¬ Assigns s id t → τ' t = τ t

/-- Whether all steps were done. An execution may stop at any point: by an error, or because it is looked
at before it ends. -/
inductive Outcome where
  | done
  | stopped
  deriving DecidableEq

/-- One step: the temporaries before, what is recorded, the steps it opens, and the temporaries after. -/
inductive Next (m : Machine) :
    Step → Temporaries → List Temporaries → List Step → Temporaries → Prop where
  | leaf {τ τ₁ : Temporaries} (ha : Alters m.store m.leaf τ τ₁) :
    Next m (.run (.node m.leaf)) τ [τ] [] τ₁
  | skip {τ : Temporaries} {d} : Next m (.run (.datum d)) τ [] [] τ
  | steps {τ : Temporaries} {id f js} (hid : id ≠ m.leaf) (hf : m.store.form? id = some f)
    (he : effect m.parallel f = .steps js) : Next m (.run (.node id)) τ [] js τ
  | assigns {τ : Temporaries} {id f t r n} (hid : id ≠ m.leaf) (hf : m.store.form? id = some f)
    (he : effect m.parallel f = .assigns t r) (hn : May m τ r n) :
    Next m (.run (.node id)) τ [] [] (Function.update τ t n)
  | branches {τ : Temporaries} {id f c a b n} (hid : id ≠ m.leaf) (hf : m.store.form? id = some f)
    (he : effect m.parallel f = .branches c a b) (hn : May m τ c n) :
    Next m (.run (.node id)) τ [] [.run (if n ≠ 0 then a else b)] τ
  | other {τ τ₁ : Temporaries} {id f} (hid : id ≠ m.leaf) (hf : m.store.form? id = some f)
    (he : effect m.parallel f = .other) (ha : Alters m.store id τ τ₁) :
    Next m (.run (.node id)) τ [] [] τ₁
  | exit {τ : Temporaries} {l : Loop} (hn : May m τ l.condition 0) : Next m (.again l) τ [] [] τ
  | again {τ : Temporaries} {l : Loop} {n : Int} (hn : May m τ l.condition n) (hne : n ≠ 0) :
    Next m (.again l) τ [] [.run l.body, .run l.step, .again l] τ

/-- An execution of some steps: the temporaries before, those found at each execution of the chosen
statement, how it ended, and the temporaries after. -/
inductive Exec (m : Machine) :
    List Step → Temporaries → List Temporaries → Outcome → Temporaries → Prop where
  | nil (τ : Temporaries) : Exec m [] τ [] .done τ
  | stop (ks : List Step) (τ : Temporaries) : Exec m ks τ [] .stopped τ
  | step {k js ks ev es out} {τ τ₁ τ' : Temporaries} (hn : Next m k τ ev js τ₁)
    (h : Exec m (js ++ ks) τ₁ es out τ') : Exec m (k :: ks) τ (ev ++ es) out τ'

variable {m : Machine} {τ τ' τ₁ : Temporaries} {o : Operand} {es es' : List Temporaries} {out : Outcome} {k : Step}
variable {js ks ls : List Step}

theorem exec_append (h : Exec m (ks ++ ls) τ es .done τ') :
    ∃ es1 es2 τ₁, es = es1 ++ es2 ∧ Exec m ks τ es1 .done τ₁ ∧ Exec m ls τ₁ es2 .done τ' := by
  generalize hns : ks ++ ls = ns at h
  generalize hout : Outcome.done = out at h
  induction h generalizing ks with
  | nil τ =>
    obtain ⟨rfl, rfl⟩ := List.append_eq_nil_iff.1 hns
    exact ⟨[], [], τ, rfl, .nil τ, .nil τ⟩
  | stop => cases hout
  | @step k js ns ev es out τ τ₁ τ' hn h ih =>
    cases ks with
    | nil =>
      obtain rfl : ls = k :: ns := hns
      subst hout
      exact ⟨[], ev ++ es, τ, rfl, .nil τ, .step hn h⟩
    | cons k' ks =>
      obtain ⟨rfl, rfl⟩ := List.cons.inj hns
      obtain ⟨es1, es2, τ2, rfl, h1, h2⟩ := ih (List.append_assoc js ks ls) hout
      exact ⟨ev ++ es1, es2, τ2, (List.append_assoc ..).symm, .step hn h1, h2⟩

theorem Exec.append (h : Exec m ks τ es .done τ₁) (h' : Exec m ls τ₁ es' out τ') :
    Exec m (ks ++ ls) τ (es ++ es') out τ' := by
  generalize hout : Outcome.done = o at h
  induction h with
  | nil τ => exact h'
  | stop => cases hout
  | step hn h ih =>
    have hrest := ih h' hout
    rw [List.append_assoc] at hrest ⊢
    exact .step hn hrest

end ArrayKernel.Running
