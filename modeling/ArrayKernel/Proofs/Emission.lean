import ArrayKernel.Emit.Code
import ArrayKernel.Proofs.Heap
import ArrayKernel.Proofs.Stateful
import ArrayKernel.Proofs.Written
import Mathlib.Data.List.DropRight

/-!
# The text of expressions

An expression without effects is drawn as a sketch, which names its variables by their nodes. Emitting the
expression gives the nodes their names and declares the temporaries among them.
-/

namespace ArrayKernel.Emit

open Ast C Stateful

variable {f : Form} {v : Variable} {s t : Session} {x : String} {e : Emitter}

abbrev Page := Session × Emitter

/-! ## Sketches -/

inductive Sketch where
  | name (id : NodeId)
  | constant (v : Datum)
  | unary (op : String) (e : Sketch)
  | binary (op : String) (l r : Sketch)
  | index (p i : Sketch)
  | follow (p : Sketch)

def isNegative (v : Datum) : Bool := v.display.toList.head? == some '-'

def digits (v : Datum) : String := if isNegative v then String.ofList v.display.toList.tail else v.display

namespace Sketch

def write (label : NodeId → String) : Sketch → Term
  | .name id => .name (label id)
  | .constant v => .number (isNegative v) (digits v)
  | .unary op e => .unary op (e.write label)
  | .binary op l r => .binary op (l.write label) (r.write label)
  | .index p i => .index (p.write label) (i.write label)
  | .follow p => .follow (p.write label)

def names : Sketch → List NodeId
  | .name id => [id]
  | .constant _ => []
  | .unary _ e => e.names
  | .binary _ l r => l.names ++ r.names
  | .index p i => p.names ++ i.names
  | .follow p => p.names

def isPlace : Sketch → Bool
  | .name _ | .index .. | .follow _ => true
  | _ => false

def isConstant : Sketch → Bool
  | .constant _ => true
  | _ => false

def clashes : Sketch → Bool
  | .name _ | .constant _ => false
  | .unary op (.constant v) => op == "-" && isNegative v
  | .unary _ e => e.clashes
  | .binary _ l r => l.clashes || r.clashes
  | .index p i => p.clashes || i.clashes
  | .follow p => p.clashes

variable {label label' : NodeId → String} {k : Sketch}

theorem write_congr (h : ∀ id ∈ k.names, label' id = label id) : k.write label' = k.write label := by
  induction k with
  | name id => simp [write, h id (by simp [names])]
  | constant v => rfl
  | unary _ _ ih | follow _ ih => simp [write, ih h]
  | binary _ _ _ ihl ihr | index _ _ ihl ihr =>
    simp only [names, List.mem_append] at h
    simp [write, ihl fun id hid => h id (.inl hid), ihr fun id hid => h id (.inr hid)]

theorem clashes_write : (k.write label).clashes = k.clashes := by
  induction k with
  | unary op e ih =>
    cases e with
    | constant v => simp [write, Term.clashes, clashes, Term.isNegative]
    | _ => simp_all [write, Term.clashes, clashes, Term.isNegative]
  | binary _ _ _ ihl ihr | index _ _ ihl ihr => simp [write, Term.clashes, clashes, ihl, ihr]
  | follow p ih => simp [write, Term.clashes, clashes, ih]
  | _ => rfl

theorem exists_place? {V : Type} (label : NodeId → String) (M : Meaning V) (σ : State V) (h : k.isPlace = true) :
    ∃ place, (k.write label).place? M σ = some place ∧ (k.write label).value M σ = σ place := by
  cases k with
  | name id | index p i | follow p => exact ⟨_, rfl, rfl⟩
  | _ => cases h

end Sketch

theorem text_constant {v : Datum} : (Term.number (isNegative v) (digits v)).text = v.display := by
  have hhead : ∀ cs : List Char, cs.head? = some '-' → '-' :: cs.tail = cs := by
    rintro (_ | ⟨c, cs⟩) h
    · cases h
    · cases h
      rfl
  unfold digits
  by_cases h : isNegative v = true
  · have hcons := hhead v.display.toList (by simpa [isNegative] using h)
    refine String.toList_inj.1 ?_
    simpa [Term.text, h] using hcons
  · simp [Term.text, h]

/-! ## Names -/

def shown : Name → String
  | .datum d => d.display
  | .type _ => ""

/-- The name of a node in the code: a variable that has none yet has one in wait. A function keeps its own. -/
def label (s : Session) (id : NodeId) : String :=
  match s.form? id with
  | some (.var v) =>
    match v.role with
    | .plain =>
      if (s.type? id).any (·.isFunction) then shown v.name else v.emitted.getD (mangle (shown v.name))
    | _ => shown v.name
  | _ => ""

/-- How the form of a node changes when it is named. What has a name keeps it. -/
inductive Renames (hasName : Prop) : Form → Form → Prop where
  | refl (f : Form) : Renames hasName f f
  | plain {v : Variable} {d : Datum} (hrole : v.role = .plain) (hname : v.name = .datum d)
    (h : v.emitted = none) : Renames hasName (.var v) (.var { v with emitted := some (mangle d.display) })
  | temporary {v : Variable} {shown x : String} (hrole : v.role = .temporary shown) (h : ¬hasName) :
    Renames hasName (.var v) (.var { v with name := .ofString x })

theorem Renames.trans {P Q : Prop} {g h : Form} (hPQ : P → Q) (hf : Renames P f g) (hg : Renames Q g h) :
    Renames P f h := by
  cases hg with
  | refl => exact hf
  | plain hrole hname he =>
    cases hf with
    | refl => exact .plain hrole hname he
    | plain => cases he
    | temporary hrole' => cases hrole'.symm.trans hrole
  | temporary hrole hQ =>
    cases hf with
    | refl => exact .temporary hrole fun hP => hQ (hPQ hP)
    | plain hrole' => cases hrole'.symm.trans hrole
    | temporary hrole' hP => exact .temporary hrole hP

def IsDeclaration (line : String) : Prop := ∃ type x, line = type ++ " " ++ x ++ ";"

def putLines (d : Desk String) (lines : List (Nat × String)) : Desk String :=
  lines.foldl (fun d l => d.putLine id l.1 l.2) d

structure Follows (p q : Page) : Prop where
  size : q.1.nodes.size = p.1.nodes.size
  node? : ∀ {id n}, p.1.node? id = some n →
    ∃ n', q.1.node? id = some n' ∧ n'.type = n.type ∧ Renames (id ∈ p.2.declared) n.form n'.form
  settings : q.1.settings = p.1.settings
  declared : ∀ {id}, id ∈ p.2.declared → id ∈ q.2.declared
  named : ∀ {id v shown}, q.1.form? id = some (.var v) → v.role = .temporary shown → id ∈ q.2.declared →
    id ∉ p.2.declared → IsWord (mangle shown) → ∃ x, v.name = .ofString x ∧ IsWord x
  main : q.2.main = p.2.main
  desk : ∃ lines, (∀ l ∈ lines, IsDeclaration l.2) ∧ q.2.desk = putLines p.2.desk lines

namespace Follows

variable {p q r : Page} {id : NodeId}

theorem form? (h : Follows p q) (hf : p.1.form? id = some f) :
    ∃ f', q.1.form? id = some f' ∧ Renames (id ∈ p.2.declared) f f' := by
  obtain ⟨n, hn, rfl⟩ := node?_of_form? hf
  obtain ⟨n', hn', -, hr⟩ := h.node? hn
  exact ⟨_, form?_of_node? hn', hr⟩

theorem var (h : Follows p q) (hv : p.1.form? id = some (.var v)) :
    ∃ v', q.1.form? id = some (.var v') ∧ v'.role = v.role := by
  obtain ⟨f, hf, hr⟩ := h.form? hv
  cases hr with
  | refl => exact ⟨v, hf, rfl⟩
  | plain | temporary => exact ⟨_, hf, rfl⟩

theorem exists_form? {f' : Form} (h : Follows p q) (hf : q.1.form? id = some f') :
    ∃ f, p.1.form? id = some f ∧ Renames (id ∈ p.2.declared) f f' := by
  obtain ⟨n, hn⟩ := node?_of_lt (h.size ▸ form?_lt hf)
  obtain ⟨f'', hf'', hr⟩ := h.form? (form?_of_node? hn)
  obtain rfl := Option.some.inj (hf''.symm.trans hf)
  exact ⟨_, form?_of_node? hn, hr⟩

theorem refl (p : Page) : Follows p p where
  size := rfl
  node? {id n} h := ⟨n, h, rfl, .refl _⟩
  settings := rfl
  declared h := h
  named _ _ h h' := absurd h h'
  main := rfl
  desk := ⟨[], by simp, rfl⟩

theorem trans (h : Follows p q) (h' : Follows q r) : Follows p r where
  size := h'.size.trans h.size
  node? hn := by
    obtain ⟨n', hn', ht, hf⟩ := h.node? hn
    obtain ⟨n'', hn'', ht', hf'⟩ := h'.node? hn'
    exact ⟨n'', hn'', ht'.trans ht, hf.trans h.declared hf'⟩
  settings := h'.settings.trans h.settings
  declared hid := h'.declared (h.declared hid)
  named {id v shown} hv hrole hid hnot hx := by
    by_cases hq : id ∈ q.2.declared
    · obtain ⟨f, hf, hr⟩ := h'.exists_form? hv
      cases hr with
      | refl => exact h.named hf hrole hq hnot hx
      | plain hrole' => cases hrole'.symm.trans hrole
      | temporary _ hnot' => exact absurd hq hnot'
    · exact h'.named hv hrole hid hq hx
  main := h'.main.trans h.main
  desk := by
    obtain ⟨ls, hls, hd⟩ := h.desk
    obtain ⟨ls', hls', hd'⟩ := h'.desk
    refine ⟨ls ++ ls', fun l hl => ?_, by rw [hd', hd, putLines, putLines, putLines, List.foldl_append]⟩
    rcases List.mem_append.1 hl with hl | hl
    · exact hls l hl
    · exact hls' l hl

theorem form?_of_not_var (h : Follows p q) (hf : p.1.form? id = some f) (hv : ∀ v, f ≠ .var v) :
    q.1.form? id = some f := by
  obtain ⟨f', hf', hr⟩ := h.form? hf
  cases hr with
  | refl => exact hf'
  | plain | temporary => exact absurd rfl (hv _)

theorem type? (h : Follows p q) (hf : p.1.form? id = some f) : q.1.type? id = p.1.type? id := by
  obtain ⟨n, hn, -⟩ := node?_of_form? hf
  obtain ⟨n', hn', ht', -⟩ := h.node? hn
  rw [type?_of_node? hn', type?_of_node? hn, ht']

end Follows

/-! ## Expressions -/

/-- The sketch of an expression without effects, with names that are words of C. -/
inductive Draws (p : Page) : Operand → Sketch → Prop where
  | constant {id : NodeId} {v : Datum} {t : CType} (h : p.1.form? id = some (.constant v))
    (ht : p.1.type? id = some t) (htext : t.isCString = false) (hv : IsNumber (digits v)) :
    Draws p (.node id) (.constant v)
  | plain {id : NodeId} {v : Variable} {d : Datum} {t : CType} (h : p.1.form? id = some (.var v))
    (hrole : v.role = .plain) (hname : v.name = .datum d) (ht : p.1.type? id = some t)
    (hx : IsWord (label p.1 id)) : Draws p (.node id) (.name id)
  | temporary {id : NodeId} {v : Variable} {shown : String} (h : p.1.form? id = some (.var v))
    (hrole : v.role = .temporary shown) (hx : IsWord (mangle shown))
    (hname : id ∈ p.2.declared → ∃ x, v.name = .ofString x ∧ IsWord x) : Draws p (.node id) (.name id)
  | pointer {id : NodeId} {v : Variable} {d : Datum} (h : p.1.form? id = some (.var v))
    (hrole : (∃ a, v.role = .dataPointer a) ∨ ∃ a, v.role = .stridePointer a) (hname : v.name = .datum d)
    (hx : IsWord d.display) : Draws p (.node id) (.name id)
  | element {id e : NodeId} {v : Variable} {k : Sketch} (h : p.1.form? id = some (.var v))
    (hrole : v.role = .element (.node e)) (he : Draws p (.node e) k) (hk : k.isPlace = true) :
    Draws p (.node id) k
  | unop {id : NodeId} {op : String} {o : Operand} {k : Sketch} (h : p.1.form? id = some (.unop op o))
    (hop : op ∈ unaryOperators) (ho : Draws p o k) : Draws p (.node id) (.unary op k)
  | binop {id : NodeId} {op : String} {l r : Operand} {kl kr : Sketch}
    (h : p.1.form? id = some (.binop op l r)) (hop : op ∈ binaryOperators) (hl : Draws p l kl)
    (hr : Draws p r kr) : Draws p (.node id) (.binary op kl kr)
  | index {id : NodeId} {o i : Operand} {k ki : Sketch} (h : p.1.form? id = some (.index o i))
    (ho : Draws p o k) (hk : k.isConstant = false) (hi : Draws p i ki) : Draws p (.node id) (.index k ki)
  | dereference {id : NodeId} {o : Operand} {k : Sketch} (h : p.1.form? id = some (.dereference o))
    (ho : Draws p o k) : Draws p (.node id) (.follow k)

def Settled (p : Page) (id : NodeId) : Prop :=
  ∀ v shown, p.1.form? id = some (.var v) → v.role = .temporary shown → id ∈ p.2.declared

variable {p q : Page} {o : Operand} {k : Sketch} {id : NodeId} {r : Rendered} {g : Form → Form} {shown line : String}

theorem Follows.label (h : Follows p q) (hv : p.1.form? id = some (.var v))
    (hid : Settled p id) : label q.1 id = label p.1 id := by
  obtain ⟨f, hf, hr⟩ := h.form? hv
  cases hr with
  | refl => simp only [Emit.label, hf, hv, h.type? hv]
  | plain hrole hname he => simp [Emit.label, hf, hv, hrole, hname, he, shown, h.type? hv]
  | temporary hrole hnot => exact absurd (hid _ _ hv hrole) hnot

theorem Follows.settled (h : Follows p q) (hv : p.1.form? id = some (.var v))
    (hid : Settled p id) : Settled q id := by
  intro w shown hw hrole
  obtain ⟨f, hf, hr⟩ := h.form? hv
  obtain rfl : f = .var w := Option.some.inj (hf.symm.trans hw)
  cases hr with
  | refl => exact h.declared (hid _ _ hv hrole)
  | plain hrole' => cases hrole'.symm.trans hrole
  | temporary hrole' => exact h.declared (hid _ _ hv hrole')

theorem settled_of_role (hv : p.1.form? id = some (.var v)) (h : ∀ shown, v.role ≠ .temporary shown) :
    Settled p id := by
  intro w shown hw hrole
  obtain rfl := Form.var.inj (Option.some.inj (hv.symm.trans hw))
  exact absurd hrole (h shown)

theorem Draws.follows (h : Draws p o k) (hpq : Follows p q) : Draws q o k := by
  induction h with
  | constant h ht htext hv => exact .constant (hpq.form?_of_not_var h (by simp)) ((hpq.type? h).trans ht) htext hv
  | plain h hrole hname ht hx =>
    have hlabel := hpq.label h (settled_of_role h fun shown hs => by cases hrole.symm.trans hs)
    rw [← hlabel] at hx
    obtain ⟨f, hf, hr⟩ := hpq.form? h
    cases hr with
    | refl | plain => exact .plain hf hrole hname ((hpq.type? h).trans ht) hx
    | temporary hrole' => cases hrole'.symm.trans hrole
  | @temporary id v shown h hrole hx hname =>
    obtain ⟨f, hf, hr⟩ := hpq.form? h
    by_cases hid : id ∈ p.2.declared
    · cases hr with
      | refl => exact .temporary hf hrole hx fun _ => hname hid
      | plain hrole' => cases hrole'.symm.trans hrole
      | temporary _ hnot => exact absurd hid hnot
    · cases hr with
      | plain hrole' => cases hrole'.symm.trans hrole
      | refl | temporary => exact .temporary hf hrole hx fun hid' => hpq.named hf hrole hid' hid hx
  | pointer h hrole hname hx =>
    obtain ⟨f, hf, hr⟩ := hpq.form? h
    cases hr with
    | refl => exact .pointer hf hrole hname hx
    | plain hrole' | temporary hrole' => rcases hrole with ⟨a, ha⟩ | ⟨a, ha⟩ <;> cases hrole'.symm.trans ha
  | element h hrole _ hk ih =>
    obtain ⟨f, hf, hr⟩ := hpq.form? h
    cases hr with
    | refl => exact .element hf hrole ih hk
    | plain hrole' | temporary hrole' => cases hrole'.symm.trans hrole
  | unop h hop _ ih => exact .unop (hpq.form?_of_not_var h (by simp)) hop ih
  | binop h hop _ _ ihl ihr => exact .binop (hpq.form?_of_not_var h (by simp)) hop ihl ihr
  | index h _ hk _ iho ihi => exact .index (hpq.form?_of_not_var h (by simp)) iho hk ihi
  | dereference h _ ih => exact .dereference (hpq.form?_of_not_var h (by simp)) ih

theorem Draws.exists_node (h : Draws p o k) : ∃ id, o = .node id := by
  cases h <;> exact ⟨_, rfl⟩

theorem Draws.exists_var (h : Draws p o k) (hid : id ∈ k.names) : ∃ v, p.1.form? id = some (.var v) := by
  induction h with
  | constant => cases hid
  | plain h | temporary h | pointer h => exact ⟨_, List.mem_singleton.1 hid ▸ h⟩
  | element _ _ _ _ ih | unop _ _ _ ih | dereference _ _ ih => exact ih hid
  | binop _ _ _ _ ihl ihr | index _ _ _ _ ihl ihr => exact (List.mem_append.1 hid).elim ihl ihr

theorem Draws.write_follows (hk : Draws p o k) (hs : ∀ id ∈ k.names, Settled p id) (h : Follows p q) :
    k.write (Emit.label q.1) = k.write (Emit.label p.1) ∧ ∀ id ∈ k.names, Settled q id := by
  refine ⟨Sketch.write_congr fun id hid => ?_, fun id hid => ?_⟩
  all_goals obtain ⟨v, hv⟩ := hk.exists_var hid
  · exact h.label hv (hs id hid)
  · exact h.settled hv (hs id hid)

/-! ## Emitting -/

theorem runs_shownName {d : Datum} : Runs (shownName (.datum d)) s x t ↔ x = d.display ∧ t = s := runs_pure

theorem isWord_withoutDigits {y : String} (hx : IsWord x) (hy : ∀ c ∈ y.toList, isWordChar c = true) :
    IsWord (Build.withoutDigits x ++ y) := by
  obtain ⟨c, cs, hcs, hc, hall⟩ := hx
  have hdrop : (x.toList.reverse.dropWhile Char.isDigit).reverse = x.toList.rdropWhile Char.isDigit := rfl
  have hne : x.toList.rdropWhile Char.isDigit ≠ [] := by
    rw [Ne, List.rdropWhile_eq_nil_iff, hcs]
    intro h
    have hstart := isWordStart_of_isDigit (h c (by simp))
    rw [hc] at hstart
    cases hstart
  obtain ⟨b, bs, hbs⟩ := List.exists_cons_of_ne_nil hne
  have hprefix : b :: bs <+: c :: cs := by
    rw [← hbs, ← hcs]
    exact List.rdropWhile_prefix _ _
  obtain ⟨rfl, hbs'⟩ := List.cons_prefix_cons.1 hprefix
  refine ⟨b, bs ++ y.toList, by simp [Build.withoutDigits, hdrop, hbs], hc, ?_⟩
  rw [List.all_append, Bool.and_eq_true, List.all_eq_true, List.all_eq_true]
  exact ⟨fun a ha => List.all_eq_true.1 hall a (hbs'.subset ha), hy⟩

theorem isWord_distinctName {own : String} {names : List String} {n : Nat} (h : IsWord own) :
    IsWord (distinctName own names n) := by
  unfold distinctName
  split
  · rw [String.append_assoc]
    refine isWord_withoutDigits h fun c hc => ?_
    rw [String.toList_append, List.mem_append] at hc
    rcases hc with hc | hc
    · obtain rfl : c = '_' := by simpa using hc
      rfl
    · rw [Nat.toString_eq_repr, Nat.repr_eq_ofList_toDigits, String.toList_ofList] at hc
      have hdigit : c.isDigit = true := Nat.isDigit_of_mem_toDigits (by decide) (by decide) hc
      simp [isWordChar, Char.isAlphanum, hdigit]
  · exact h

theorem form?_alter (h : s.form? id = some f) : (s.alter id (Node.reform g)).form? id = some (g f) := by
  rw [form?_reform, if_pos rfl, h, Option.map_some]

theorem Follows.of_alter {e' : Emitter} (hf : s.form? id = some f)
    (hg : Renames (id ∈ e.declared) f (g f)) (hdesk : e'.desk = e.desk) (hmain : e'.main = e.main)
    (hdeclared : ∀ {j}, j ∈ e.declared → j ∈ e'.declared)
    (hnamed : ∀ {j v shown}, (s.alter id (Node.reform g)).form? j = some (.var v) → v.role = .temporary shown →
      j ∈ e'.declared → j ∉ e.declared → IsWord (mangle shown) → ∃ x, v.name = .ofString x ∧ IsWord x) :
    Follows (s, e) (s.alter id (Node.reform g), e') where
  size := size_alter
  node? {j n} hn := by
    by_cases hj : j = id
    · subst hj
      obtain rfl := Option.some.inj (hf.symm.trans (form?_of_node? hn))
      exact ⟨n.reform g, by rw [node?_alter, if_pos rfl, hn, Option.map_some], rfl, hg⟩
    · exact ⟨n, by rw [node?_alter, if_neg hj, hn], rfl, .refl _⟩
  settings := rfl
  declared := hdeclared
  named := hnamed
  main := hmain
  desk := ⟨[], by simp, hdesk⟩

theorem nameTemporary_follows {r : Unit} (h : Ends (nameTemporary id shown) (s, e) r q) (hid : id ∉ e.declared)
    (hv : s.form? id = some (.var v)) (hrole : v.role = .temporary shown) :
    Follows (s, e) q ∧ id ∈ q.2.declared := by
  rw [nameTemporary, ends_get_bind, ends_act_bind] at h
  obtain ⟨_, _, ht, h⟩ := h
  obtain rfl := runs_updateForm.1 ht
  obtain rfl := ends_set.1 h
  have hcontains : e.declared.contains id = false := by simpa using hid
  simp only [hcontains, Bool.false_eq_true, if_false]
  refine ⟨.of_alter hv (.temporary hrole hid) rfl rfl (fun hj => List.mem_append_left _ hj) ?_, by simp⟩
  intro j w shown' hw hrole' hj hnot hword
  obtain rfl : j = id := by simpa [hnot] using hj
  rw [form?_alter hv] at hw
  obtain rfl := Form.var.inj (Option.some.inj hw)
  obtain rfl := VariableRole.temporary.inj (hrole.symm.trans hrole')
  exact ⟨_, rfl, isWord_distinctName hword⟩

def Page.putLine (p : Page) (w : Nat) (line : String) : Page :=
  (p.1, { p.2 with desk := putLines p.2.desk [(w, line)] })

theorem ends_putLineTo {w : Nat} {r : Unit} :
    Ends (putLineTo w line) p r q ↔ q = p.putLine w line := ends_modify

theorem Follows.putLine {w : Nat} (hline : IsDeclaration line) : Follows p (p.putLine w line) := by
  have hlines : ∀ l ∈ [(w, line)], IsDeclaration l.2 := by simpa using hline
  exact ⟨rfl, fun {_ n} hn => ⟨n, hn, rfl, .refl _⟩, rfl, fun h => h, fun _ _ h h' => absurd h h', rfl, _, hlines, rfl⟩

theorem runs_typeText {type : CType} :
    Runs (typeText type) s x t ↔ type.text s.settings.declare = .ok x ∧ t = s := by
  simp only [typeText, runs_bind, runs_settings, runs_ofExcept]
  constructor
  · rintro ⟨_, _, ⟨rfl, rfl⟩, h, rfl⟩
    exact ⟨h, rfl⟩
  · rintro ⟨h, rfl⟩
    exact ⟨_, _, ⟨rfl, rfl⟩, h, rfl⟩

theorem runs_nameOf_var {x : Name} (hv : s.form? id = some (.var v)) :
    Runs (nameOf (.node id)) s x t ↔ x = v.name ∧ t = s := by
  obtain ⟨n, hn, hnv⟩ := node?_of_form? hv
  rw [nameOf, runs_nodeOf_bind hn, hnv]
  exact runs_pure

theorem putDeclaration_line {value : Rendered}
    {r : Unit} (h : Ends (putDeclaration id value) (s, e) r q) (hv : s.form? id = some (.var v))
    (hx : v.name = .ofString x) :
    ∃ w t type, s.type? id = some t ∧ t.text s.settings.declare = .ok type ∧
      q = Page.putLine (s, e) w (type ++ " " ++ x ++ value.initializer ++ ";") := by
  rw [putDeclaration, ends_get_bind] at h
  split at h
  · rename_i w _
    simp only [ends_act_bind, runs_typeOf, runs_typeText, ends_putLineTo] at h
    obtain ⟨t, _, ⟨_, hid', ht, rfl⟩, type, _, ⟨htype, rfl⟩, name, _, hname, y, _, hy, h⟩ := h
    cases hid'
    obtain ⟨rfl, rfl⟩ := (runs_nameOf_var hv).1 hname
    rw [hx] at hy
    obtain ⟨rfl, rfl⟩ := runs_shownName.1 hy
    exact ⟨w, t, type, ht, htype, h⟩
  · cases ends_throw.1 h

theorem emitTemporary_spec (h : Ends (emitTemporary id shown) (s, e) r q) (hv : s.form? id = some (.var v))
    (hrole : v.role = .temporary shown) (hword : IsWord (mangle shown))
    (hname : id ∈ e.declared → ∃ x, v.name = .ofString x ∧ IsWord x) :
    Follows (s, e) q ∧ id ∈ q.2.declared ∧ r = .text (label q.1 id) := by
  have hlabel : ∀ {s : Session} {v : Variable} {x : String}, s.form? id = some (.var v) →
      v.role = .temporary shown → v.name = .ofString x → label s id = x := by
    intro s v x hv hrole hx
    simp only [label, hv, hrole, hx]
    rfl
  have htext : ∀ {s : Session} {e : Emitter} {v : Variable} {x : String}, s.form? id = some (.var v) →
      v.role = .temporary shown → v.name = .ofString x →
      Ends (do return .text (← shownName (← nameOf (.node id))) : Emitting Rendered) (s, e) r q →
      q = (s, e) ∧ r = .text (label s id) := by
    intro s e v x hv hrole hx h
    simp only [ends_act_bind, runs_nameOf_var hv] at h
    obtain ⟨_, _, ⟨rfl, rfl⟩, y, _, hy, h⟩ := h
    rw [hx] at hy
    obtain ⟨rfl, rfl⟩ := runs_shownName.1 hy
    obtain ⟨rfl, rfl⟩ := ends_pure.1 h
    rw [hlabel hv hrole hx]
    exact ⟨rfl, rfl⟩
  rw [emitTemporary, ends_get_bind] at h
  by_cases hid : id ∈ e.declared
  · obtain ⟨x, hx, -⟩ := hname hid
    rw [if_neg (by simpa using hid)] at h
    obtain ⟨rfl, rfl⟩ := htext hv hrole hx h
    exact ⟨.refl _, hid, rfl⟩
  · rw [if_pos (by simpa using hid), ends_bind] at h
    obtain ⟨_, p1, hd, h⟩ := h
    rw [declareTemporary, ends_get_bind, if_pos (by simpa using hid), ends_bind] at hd
    obtain ⟨_, ⟨s1, e1⟩, hn, hd⟩ := hd
    obtain ⟨hfollows, hid1⟩ := nameTemporary_follows hn hid hv hrole
    obtain ⟨v1, hv1, hrole1⟩ := hfollows.var hv
    rw [hrole] at hrole1
    obtain ⟨x, hx, -⟩ := hfollows.named hv1 hrole1 hid1 hid hword
    obtain ⟨w, t, type, -, -, rfl⟩ := putDeclaration_line hd hv1 hx
    obtain ⟨rfl, rfl⟩ := htext hv1 hrole1 hx h
    refine ⟨hfollows.trans (.putLine ⟨type, x, ?_⟩), hid1, rfl⟩
    simp [Rendered.initializer]

theorem emitVariable_spec {d : Datum} {t : CType}
    (h : Ends (emitVariable id v) (s, e) r q) (hv : s.form? id = some (.var v)) (hrole : v.role = .plain)
    (hname : v.name = .datum d) (ht : s.type? id = some t) :
    Follows (s, e) q ∧ r = .text (label q.1 id) := by
  rw [emitVariable, ends_act_bind] at h
  obtain ⟨_, _, hd, h⟩ := h
  rw [hname] at hd
  obtain ⟨rfl, rfl⟩ := runs_shownName.1 hd
  rw [ends_act_bind] at h
  obtain ⟨_, _, htype, h⟩ := h
  obtain ⟨hty, rfl⟩ := runs_knownType htype
  obtain rfl := Option.some.inj (ht.symm.trans hty)
  split at h
  · rename_i hfun
    obtain ⟨rfl, rfl⟩ := ends_pure.1 h
    refine ⟨.refl _, ?_⟩
    simp [label, hv, hrole, hname, ht, hfun, shown]
  · rename_i hfun
    cases he : v.emitted with
    | some x =>
      rw [he] at h
      obtain ⟨rfl, rfl⟩ := ends_pure.1 h
      refine ⟨.refl _, ?_⟩
      simp [label, hv, hrole, he, ht, hfun]
    | none =>
      rw [he, ends_act_bind] at h
      obtain ⟨_, _, hu, h⟩ := h
      obtain rfl := runs_updateForm.1 hu
      obtain ⟨rfl, rfl⟩ := ends_pure.1 h
      refine ⟨.of_alter hv (.plain hrole hname he) rfl rfl (fun hj => hj) (fun _ _ hj hnot => absurd hj hnot), ?_⟩
      simp [label, form?_alter hv, hrole, type?_reform, ht, hfun]

theorem ends_results {visit : Operand → Emitting Rendered} {i : NodeId} {x : List Rendered} :
    Ends (results visit (.node i)) p x q ↔ ∃ y, Ends (visit (.node i)) p y q ∧ x = [y] := by
  simp only [results, ends_bind, ends_pure]
  constructor
  · rintro ⟨y, _, h, rfl, rfl⟩
    exact ⟨y, h, rfl⟩
  · rintro ⟨y, h, rfl⟩
    exact ⟨y, q, h, rfl, rfl⟩

theorem emit_text {depth : Nat} (hk : Draws p o k) (h : Ends (emitWithin depth o) p r q) :
    Follows p q ∧ (∀ id ∈ k.names, Settled q id) ∧ r = .text (k.write (label q.1)).text := by
  induction depth generalizing p q o k r with
  | zero => cases ends_throw.1 h
  | succ depth ih =>
    obtain ⟨s, e⟩ := p
    obtain ⟨id, rfl⟩ := hk.exists_node
    rw [emitWithin, emitNode, ends_act_bind] at h
    obtain ⟨⟨form, _, _, _⟩, s, hn, h⟩ := h
    obtain ⟨hn, rfl⟩ := runs_node.1 hn
    have hform : s.form? id = some form := form?_of_node? hn
    cases hk with
    | constant hf ht htext hv =>
      cases hform.symm.trans hf
      dsimp only at h
      rw [emitConstant, ends_act_bind] at h
      obtain ⟨_, _, htype, h⟩ := h
      obtain ⟨hty, rfl⟩ := runs_knownType htype
      obtain rfl := Option.some.inj (ht.symm.trans hty)
      rw [if_neg (by simp [htext])] at h
      obtain ⟨rfl, rfl⟩ := ends_pure.1 h
      exact ⟨.refl _, by simp [Sketch.names], by rw [Sketch.write, text_constant]⟩
    | plain hf hrole hname ht hx =>
      cases hform.symm.trans hf
      dsimp only at h
      rw [hrole] at h
      obtain ⟨hfollows, rfl⟩ := emitVariable_spec h hf hrole hname ht
      have hid := hfollows.settled hf (settled_of_role hf fun shown h => by cases hrole.symm.trans h)
      exact ⟨hfollows, by simpa [Sketch.names] using hid, rfl⟩
    | temporary hf hrole hx hname =>
      cases hform.symm.trans hf
      dsimp only at h
      rw [hrole] at h
      obtain ⟨hfollows, hid, rfl⟩ := emitTemporary_spec h hf hrole hx hname
      exact ⟨hfollows, by simpa [Sketch.names, Settled] using fun _ _ _ _ => hid, rfl⟩
    | pointer hf hrole hname hx =>
      cases hform.symm.trans hf
      dsimp only at h
      have hid := settled_of_role hf fun shown h => by
        rcases hrole with ⟨a, ha⟩ | ⟨a, ha⟩ <;> cases ha.symm.trans h
      rcases hrole with ⟨a, ha⟩ | ⟨a, ha⟩
      all_goals
        rw [ha, ends_act_bind] at h
        obtain ⟨x, _, hx', h⟩ := h
        rw [hname] at hx'
        obtain ⟨rfl, rfl⟩ := runs_shownName.1 hx'
        obtain ⟨rfl, rfl⟩ := ends_pure.1 h
        exact ⟨.refl _, by simpa [Sketch.names] using hid, by simp [Sketch.write, Term.text, label, hf, ha, hname, shown]⟩
    | element hf hrole he hp =>
      cases hform.symm.trans hf
      dsimp only at h
      rw [hrole] at h
      exact ih he h
    | unop hf _ ho | dereference hf ho =>
      cases hform.symm.trans hf
      rw [ends_bind] at h
      obtain ⟨x, p1, hx, h⟩ := h
      obtain ⟨rfl, rfl⟩ := ends_pure.1 h
      obtain ⟨hfollows, hs, rfl⟩ := ih ho hx
      exact ⟨hfollows, hs, rfl⟩
    | binop hf hop hl hr =>
      cases hform.symm.trans hf
      simp only [ends_bind] at h
      obtain ⟨x, p1, hx, y, p2, hy, h⟩ := h
      obtain ⟨rfl, rfl⟩ := ends_pure.1 h
      obtain ⟨hfollows, hs, rfl⟩ := ih hl hx
      obtain ⟨hfollows', hs', rfl⟩ := ih (hr.follows hfollows) hy
      obtain ⟨hwrite, hs⟩ := (hl.follows hfollows).write_follows hs hfollows'
      refine ⟨hfollows.trans hfollows', fun j hj => (List.mem_append.1 hj).elim (hs j) (hs' j), ?_⟩
      rw [← hwrite]
      rfl
    | index hf ho hc hi =>
      cases hform.symm.trans hf
      obtain ⟨a, rfl⟩ := ho.exists_node
      obtain ⟨b, rfl⟩ := hi.exists_node
      simp only [ends_bind, ends_results] at h
      obtain ⟨_, p1, ⟨x, hx, rfl⟩, _, p2, ⟨y, hy, rfl⟩, h⟩ := h
      obtain ⟨rfl, rfl⟩ := ends_pure.1 h
      obtain ⟨hfollows, hs, rfl⟩ := ih ho hx
      obtain ⟨hfollows', hs', rfl⟩ := ih (hi.follows hfollows) hy
      obtain ⟨hwrite, hs⟩ := (ho.follows hfollows).write_follows hs hfollows'
      refine ⟨hfollows.trans hfollows', fun j hj => (List.mem_append.1 hj).elim (hs j) (hs' j), ?_⟩
      rw [← hwrite]
      rfl

theorem Draws.proper (h : Draws p o k) (hs : ∀ id ∈ k.names, Settled p id) : (k.write (Emit.label p.1)).Proper := by
  induction h with
  | constant _ _ _ hv => exact hv
  | plain _ _ _ _ hx => exact hx
  | temporary h hrole _ hname =>
    obtain ⟨x, hx, hword⟩ := hname (hs _ (by simp [Sketch.names]) _ _ h hrole)
    simpa [Sketch.write, Term.Proper, Emit.label, h, hrole, hx, shown, Name.ofString, Datum.display] using hword
  | pointer h hrole hname hx =>
    rcases hrole with ⟨a, ha⟩ | ⟨a, ha⟩ <;>
      simpa [Sketch.write, Term.Proper, Emit.label, h, ha, hname, shown] using hx
  | element _ _ _ _ ih => exact ih hs
  | unop _ hop _ ih => exact ⟨hop, ih hs⟩
  | binop _ hop _ _ ihl ihr =>
    exact ⟨hop, ihl fun id hid => hs id (List.mem_append_left _ hid), ihr fun id hid => hs id (List.mem_append_right _ hid)⟩
  | @index _ _ _ k _ _ _ hk _ iho ihi =>
    refine ⟨?_, iho fun id hid => hs id (List.mem_append_left _ hid),
      ihi fun id hid => hs id (List.mem_append_right _ hid)⟩
    cases k <;> first | rfl | cases hk
  | dereference _ _ ih => exact ih hs

end ArrayKernel.Emit
