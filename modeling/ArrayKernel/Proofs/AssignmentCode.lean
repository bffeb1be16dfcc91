import ArrayKernel.Proofs.Emission

/-!
# The code of assignments

An assignment is written as an increment, as an operation in place, as a declaration with a first value, or as
it is.
-/

namespace ArrayKernel.Emit

open Ast C Stateful

variable {p q : Page} {lhs rhs : Operand} {kl kr : Sketch}
variable {i c : NodeId} {s : Session} {shown : String}
variable {depth : Nat} {e : Emitter} {a : NodeId} {m : Datum} {r : Rendered} {v : Variable} {x : String}

/-! ## Lines -/

theorem stripped_parentheses : stripped ("(" ++ x ++ ")") = x := by
  have hstart : ("(" ++ x ++ ")").startsWith "(" = true := by
    simp
  have hend : ("(" ++ x ++ ")").endsWith ")" = true := by
    rw [String.endsWith_eq_endsWith_toSlice, String.Slice.endsWith_string_iff]
    exact ⟨"(".toList ++ x.toList, by simp⟩
  rw [stripped, hstart, hend]
  refine String.toList_inj.1 ?_
  simp

theorem stripped_assignment {l r : Term} (op : String) :
    stripped ("(" ++ l.text ++ " " ++ op ++ "= " ++ r.text ++ ")") ++ ";" = Term.assignmentLine op l r := by
  have hparen : "(" ++ l.text ++ " " ++ op ++ "= " ++ r.text ++ ")" =
      "(" ++ (l.text ++ " " ++ op ++ "= " ++ r.text) ++ ")" := by simp only [String.append_assoc]
  rw [hparen, stripped_parentheses, Term.assignmentLine]

theorem stripped_increment : stripped (x ++ "++") = x ++ "++" := by
  have hend : (x ++ "++").endsWith ")" = false := by
    rw [Bool.eq_false_iff, Ne, String.endsWith_eq_endsWith_toSlice, String.Slice.endsWith_string_iff]
    rintro ⟨cs, hcs⟩
    have := congrArg List.getLast? hcs
    simp at this
  rw [stripped, hend]
  simp

/-- The ways to write an assignment, with the names that its nodes have in the end. -/
inductive Spelled (p : Page) (lhs rhs : Operand) (kl kr : Sketch) (label : NodeId → String) : String → Prop where
  | increment {k : Sketch} {v : Datum} (hr : kr = .binary "+" k (.constant v)) (hv : (v == .int 1) = true)
    (hk : (k.write label).Proper) : Spelled p lhs rhs kl kr label (Term.incrementLine (k.write label))
  | inPlace {i : NodeId} {op : String} {l r : Operand} {k k' : Sketch} (hi : rhs = .node i)
    (hf : p.1.form? i = some (.binop op l r)) (hsame : Runs (same lhs l) p.1 true p.1)
    (hr : kr = .binary op k k') (hkl : (kl.write label).Proper) (hk : (k'.write label).Proper) :
    Spelled p lhs rhs kl kr label (Term.assignmentLine op (kl.write label) (k'.write label))
  | declaration {i : NodeId} {type : String} (hl : kl = .name i) (htype : Term.IsType type) (hkl : IsWord (label i))
    (hkr : (kr.write label).Proper) :
    Spelled p lhs rhs kl kr label (Term.declarationLine type (label i) (kr.write label))
  | plain (hkl : (kl.write label).Proper) (hkr : (kr.write label).Proper) :
    Spelled p lhs rhs kl kr label (Term.assignmentLine "" (kl.write label) (kr.write label))

/-- When the shortcuts mean what the assignment means, in a state. -/
structure Faithful {V : Type} (M : Meaning V) (σ : State V) (p : Page) (lhs rhs : Operand) (kl kr : Sketch)
    (label : NodeId → String) : Prop where
  increment : ∀ {k : Sketch} {v : Datum}, kr = .binary "+" k (.constant v) → (v == .int 1) = true →
    (k.write label).place? M σ = (kl.write label).place? M σ ∧
      ((Sketch.constant v).write label).value M σ = M.number "1"
  inPlace : ∀ {i : NodeId} {op : String} {l r : Operand} {k k' : Sketch}, rhs = .node i →
    p.1.form? i = some (.binop op l r) → Runs (same lhs l) p.1 true p.1 → kr = .binary op k k' →
    op ∈ inPlaceOperators ∧ (k.write label).place? M σ = (kl.write label).place? M σ
  apart : kl.clashes = false ∧ kr.clashes = false

section

variable {V : Type} {M : Meaning V} {σ : State V}

theorem value_of_place? {t : Term} {place : C.Place V} (h : t.place? M σ = some place) : t.value M σ = σ place := by
  cases t with
  | name x | index p i | follow p => cases h; rfl
  | _ => cases h

variable {label : NodeId → String} {line : String} {k : Sketch}

theorem Sketch.place?_code (hk : (k.write label).Proper) (hc : k.clashes = false) :
    (k.write label).code.place? M σ = (k.write label).place? M σ := by
  rw [Term.place?_code hk, Sketch.clashes_write, hc]
  rfl

theorem Sketch.value?_code (hk : (k.write label).Proper) (hc : k.clashes = false) :
    (k.write label).code.value? M σ = some ((k.write label).value M σ) := by
  rw [Term.value?_code hk, Sketch.clashes_write, hc]
  rfl

variable [DecidableEq V]

theorem Spelled.stores (h : Spelled p lhs rhs kl kr label line) (hplace : kl.isPlace = true)
    (hf : Faithful M σ p lhs rhs kl kr label) :
    ∃ place st, (kl.write label).place? M σ = some place ∧ C.read line = some st ∧
      st.exec M σ = some (Function.update σ place ((kr.write label).value M σ)) := by
  obtain ⟨place, hkl, -⟩ := Sketch.exists_place? label M σ hplace
  obtain ⟨hcl, hcr⟩ := hf.apart
  refine ⟨place, ?_⟩
  cases h with
  | @increment k v hr hv hk =>
    obtain ⟨hsame, hone⟩ := hf.increment hr hv
    rw [hkl] at hsame
    subst hr
    simp only [Sketch.clashes, Bool.or_eq_false_iff] at hcr
    have hneg : (k.write label).isNegative = false := by
      cases hk' : k.write label with
      | number b d => rw [hk'] at hsame; cases hsame
      | _ => rfl
    have hcode := (Sketch.place?_code hk hcr.1).trans hsame
    refine ⟨_, hkl, Term.read_increment hk, ?_⟩
    have hvalue := value_of_place? hsame
    simp only [Term.incremented, hneg, Bool.false_eq_true, if_false, Statement.exec, hcode, Option.bind_eq_bind,
      Option.bind_some, Sketch.write, Term.value, hvalue]
    rw [← hone]
    rfl
  | @inPlace i op l r k k' hi hform hsame hr hkl' hk =>
    obtain ⟨hop, hpl⟩ := hf.inPlace hi hform hsame hr
    rw [hkl] at hpl
    subst hr
    simp only [Sketch.clashes, Bool.or_eq_false_iff] at hcr
    have hcode := (Sketch.place?_code hkl' hcl).trans hkl
    have hcode' := Sketch.value?_code (M := M) (σ := σ) hk hcr.2
    have hne : op ≠ "" := by
      rintro rfl
      exact absurd hop (by decide)
    refine ⟨_, hkl, Term.read_assignment hkl' hk (List.mem_append_left _ hop), ?_⟩
    simp [Statement.exec, hcode, hcode', hne, Sketch.write, Term.value, value_of_place? hpl]
  | @declaration i type hl htype hx hkr =>
    subst hl
    obtain rfl : C.Place.variable (label i) = place := by simpa [Sketch.write, Term.place?] using hkl
    refine ⟨_, hkl, Term.read_declaration htype hx hkr, ?_⟩
    simp [Statement.exec, Sketch.value?_code hkr hcr]
  | plain hkl' hkr =>
    have hcode := (Sketch.place?_code hkl' hcl).trans hkl
    refine ⟨_, hkl, Term.read_assignment hkl' hkr (by simp), ?_⟩
    simp [Statement.exec, hcode, Sketch.value?_code hkr hcr]

end

/-! ## Writing an assignment -/

theorem Draws.binop_form {f : Form} (h : Draws p (.node i) kr) (hf : p.1.form? i = some f)
    (hb : f.isBinop = true) : ∃ op l r k k', f = .binop op l r ∧ kr = .binary op k k' ∧ Draws p l k ∧ Draws p r k' := by
  cases h with
  | binop h _ hl hr => exact ⟨_, _, _, _, _, Option.some.inj (hf.symm.trans h), rfl, hl, hr⟩
  | constant h | plain h | temporary h | pointer h | element h | unop h | index h | dereference h =>
    cases Option.some.inj (hf.symm.trans h); cases hb

theorem runs_isIncrement_binop {t : Session} {op : String} {l r : Operand} {x : Option Operand}
    (h : Runs (isIncrement (.binop op l r)) s x t) : t = s ∧ (∀ o, x = some o → o = l ∧ op = "+" ∧
      ∃ c v, r = .node c ∧ s.form? c = some (.constant v) ∧ (v == .int 1) = true) := by
  unfold isIncrement at h
  split at h
  · obtain ⟨rfl, rfl⟩ := runs_pure.1 h
    simp
  · rename_i hop
    obtain rfl : op = "+" := by simpa [Form.isBinop, Form.operator?] using hop
    simp only [runs_bind, runs_nodeOf] at h
    obtain ⟨n, _, ⟨c, rfl, hc, rfl⟩, h⟩ := h
    split at h
    · rename_i v hv
      obtain ⟨rfl, rfl⟩ := runs_pure.1 h
      refine ⟨rfl, fun o ho => ?_⟩
      split at ho
      · exact ⟨(Option.some.inj ho).symm, rfl, c, v, rfl, by rw [form?_of_node? hc, hv], ‹_›⟩
      · cases ho
    · obtain ⟨rfl, rfl⟩ := runs_pure.1 h
      exact ⟨rfl, by simp⟩

theorem Draws.exists_form? (h : Draws p (.node c) kr) : ∃ f, p.1.form? c = some f := by
  cases h <;> exact ⟨_, ‹_›⟩

theorem Draws.eq_constant {v : Datum} (h : Draws p (.node c) kr)
    (hc : p.1.form? c = some (.constant v)) : kr = .constant v := by
  cases h with
  | constant h =>
    obtain rfl := Form.constant.inj (Option.some.inj (hc.symm.trans h))
    rfl
  | plain h | temporary h | pointer h | element h | unop h | binop h | index h | dereference h => cases hc.symm.trans h

/-- A result on its way to the code: a text that becomes a line, or a line that was written before. -/
def Gives (p : Page) (r : Rendered) (q : Page) (line : String) : Prop :=
  (∃ x, r = .text x ∧ x ≠ "" ∧ line = stripped x ++ ";" ∧ Follows p q) ∨
    r = .nothing ∧ ∃ p₁ w, Follows p p₁ ∧ q = p₁.putLine w line

theorem emitStore_spelled (h : Ends (emitStore (emitWithin depth) lhs rhs) p r q)
    (hl : Draws p lhs kl) (hr : Draws p rhs kr) :
    ∃ line, Gives p r q line ∧ Spelled p lhs rhs kl kr (label q.1) line := by
  obtain ⟨i, rfl⟩ := hl.exists_node
  obtain ⟨j, rfl⟩ := hr.exists_node
  simp only [emitStore, ends_bind, ends_results] at h
  obtain ⟨_, p1, ⟨x, hx, rfl⟩, _, p2, ⟨y, hy, rfl⟩, h⟩ := h
  obtain ⟨rfl, rfl⟩ := ends_pure.1 h
  obtain ⟨hfollows, hs, rfl⟩ := emit_text hl hx
  obtain ⟨hfollows', hs', rfl⟩ := emit_text (hr.follows hfollows) hy
  obtain ⟨hwrite, hs⟩ := (hl.follows hfollows).write_follows hs hfollows'
  have hpq := hfollows.trans hfollows'
  have hspelled : Spelled p (.node i) (.node j) kl kr (label q.1) _ :=
    .plain ((hl.follows hpq).proper hs) ((hr.follows hpq).proper hs')
  refine ⟨_, .inl ⟨_, rfl, by simp, rfl, hpq⟩, ?_⟩
  have hline := stripped_assignment (l := kl.write (label q.1)) (r := kr.write (label q.1)) ""
  rw [hwrite] at hline hspelled
  have hsign : ∀ x : String, x ++ " " ++ "" ++ "= " = x ++ " = " := by
    intro x
    simp only [String.append_empty, String.append_assoc]
    rfl
  rw [hsign] at hline
  exact hline ▸ hspelled

theorem text_ne_empty {t : Term} (h : t.Proper) : t.text ≠ "" := by
  obtain ⟨c, cs, hc, -⟩ := Term.text_starts h
  intro hempty
  rw [hempty] at hc
  cases hc

def NamesType (s : Session) (o : Operand) : Prop :=
  ∀ {i t type}, o = .node i → s.type? i = some t → t.text s.settings.declare = .ok type → Term.IsType type

theorem Draws.exists_temporary (h : Draws p (.node i) kl)
    (hv : p.1.form? i = some (.var v)) (hrole : v.role = .temporary shown) :
    kl = .name i ∧ IsWord (mangle shown) := by
  cases h with
  | temporary h hrole' hx =>
    obtain rfl := Form.var.inj (Option.some.inj (hv.symm.trans h))
    obtain rfl := VariableRole.temporary.inj (hrole.symm.trans hrole')
    exact ⟨rfl, hx⟩
  | plain h hrole' | element h hrole' =>
    obtain rfl := Form.var.inj (Option.some.inj (hv.symm.trans h))
    cases hrole.symm.trans hrole'
  | pointer h hrole' =>
    obtain rfl := Form.var.inj (Option.some.inj (hv.symm.trans h))
    rcases hrole' with ⟨a, ha⟩ | ⟨a, ha⟩ <;> cases hrole.symm.trans ha
  | constant h | unop h | binop h | index h | dereference h => cases hv.symm.trans h

theorem firstDeclaration_spelled (h : Ends (do
      nameTemporary i shown
      let value ← emitWithin depth rhs
      declareTemporary i shown value
      return .nothing : Emitting Rendered) (s, e) r q)
    (hl : Draws (s, e) (.node i) kl) (hr : Draws (s, e) rhs kr) (hv : s.form? i = some (.var v))
    (hrole : v.role = .temporary shown) (hid : i ∉ e.declared) (htype : NamesType s (.node i)) :
    ∃ line, Gives (s, e) r q line ∧ Spelled (s, e) (.node i) rhs kl kr (label q.1) line := by
  simp only [ends_bind] at h
  obtain ⟨_, p1, hn, value, ⟨s2, e2⟩, hvalue, _, p3, hd, h⟩ := h
  obtain ⟨rfl, rfl⟩ := ends_pure.1 h
  obtain ⟨hfollows1, hid1⟩ := nameTemporary_follows hn hid hv hrole
  obtain ⟨hfollows2, hs, rfl⟩ := emit_text (hr.follows hfollows1) hvalue
  have hfollows := hfollows1.trans hfollows2
  have hid2 : i ∈ e2.declared := hfollows2.declared hid1
  obtain ⟨rfl, hword⟩ := hl.exists_temporary hv hrole
  obtain ⟨v2, hv2, hrole2⟩ := hfollows.var hv
  rw [hrole] at hrole2
  obtain ⟨x, hx, hwordx⟩ := hfollows.named hv2 hrole2 hid2 hid hword
  rw [declareTemporary, ends_get_bind, if_neg (by simpa using hid2)] at hd
  obtain ⟨w, t, type, ht, htext, rfl⟩ := putDeclaration_line hd hv2 hx
  have hlabel : label s2 i = x := by
    simp only [label, hv2, hrole2, hx]
    rfl
  have hproper := (hr.follows hfollows).proper hs
  have hline : type ++ " " ++ x ++ (Rendered.text (kr.write (label s2)).text).initializer ++ ";" =
      Term.declarationLine type (label s2 i) (kr.write (label s2)) := by
    rw [hlabel, Rendered.initializer, if_neg (by simpa [String.isEmpty_iff] using text_ne_empty hproper)]
    simp [Term.declarationLine, String.append_assoc]
  have htype' : Term.IsType type :=
    htype rfl ((hfollows.type? hv).symm.trans ht) (by rw [← hfollows.settings]; exact htext)
  refine ⟨_, .inr ⟨rfl, _, w, hfollows, rfl⟩, ?_⟩
  rw [hline]
  exact .declaration rfl htype' (hlabel ▸ hwordx) hproper

theorem emitFirstStore_spelled
    (h : Ends (emitFirstStore (emitWithin depth) a lhs rhs m) (s, e) r q) (hl : Draws (s, e) lhs kl)
    (hr : Draws (s, e) rhs kr) (htype : NamesType s lhs) :
    ∃ line, Gives (s, e) r q line ∧ Spelled (s, e) lhs rhs kl kr (label q.1) line := by
  obtain ⟨i, rfl⟩ := hl.exists_node
  rw [emitFirstStore, ends_act_bind] at h
  obtain ⟨n, _, hn, h⟩ := h
  obtain ⟨-, rfl⟩ := runs_node.1 hn
  split at h
  · rw [ends_act_bind] at h
    obtain ⟨n, _, hn, h⟩ := h
    obtain ⟨_, hi, hn, rfl⟩ := runs_nodeOf.1 hn
    cases hi
    split at h
    · rename_i hv hi
      cases hi
      rw [ends_get_bind] at h
      split at h
      · rename_i hnew
        have hid : i ∉ e.declared := by
          simp only [Bool.and_eq_true, Bool.not_eq_true', List.contains_eq_mem, decide_eq_false_iff_not] at hnew
          exact hnew.1
        exact firstDeclaration_spelled h hl hr ((form?_of_node? hn).trans (congrArg some hv)) rfl hid htype
      · exact emitStore_spelled h hl hr
    · exact emitStore_spelled h hl hr
  · exact emitStore_spelled h hl hr

theorem emitAssignment_spelled
    (h : Ends (emitAssignment (emitWithin depth) a lhs rhs m) (s, e) r q) (hl : Draws (s, e) lhs kl)
    (hr : Draws (s, e) rhs kr) (htype : NamesType s lhs) :
    ∃ line, Gives (s, e) r q line ∧ Spelled (s, e) lhs rhs kl kr (label q.1) line := by
  obtain ⟨i, rfl⟩ := hr.exists_node
  rw [emitAssignment, ends_act_bind] at h
  obtain ⟨n, s, hn, h⟩ := h
  obtain ⟨_, hi, hn, rfl⟩ := runs_nodeOf.1 hn
  cases hi
  have hf := form?_of_node? hn
  by_cases hb : n.form.isBinop = true
  · obtain ⟨op, l, r', k, k', hform, rfl, hk, hk'⟩ := hr.binop_form hf hb
    rw [hform] at hf
    simp only [hform] at h
    rw [ends_act_bind] at h
    obtain ⟨counted, s, hc, h⟩ := h
    obtain ⟨rfl, hone⟩ := runs_isIncrement_binop hc
    cases counted with
    | some o =>
      obtain ⟨rfl, rfl, c, v, rfl, hc', hv⟩ := hone o rfl
      rw [ends_bind] at h
      obtain ⟨x, p1, hx, h⟩ := h
      obtain ⟨rfl, rfl⟩ := ends_pure.1 h
      obtain ⟨hfollows, hs, rfl⟩ := emit_text hk hx
      obtain rfl := hk'.eq_constant hc'
      refine ⟨_, .inl ⟨_, rfl, by simp [Rendered.shown], rfl, hfollows⟩, ?_⟩
      rw [stripped_increment]
      exact .increment rfl hv ((hk.follows hfollows).proper hs)
    | none =>
      rw [if_pos (show (Form.binop op l r').isBinop = true from rfl), ends_act_bind] at h
      obtain ⟨_, s, hleft, h⟩ := h
      obtain ⟨rfl, rfl⟩ := (runs_leftOf_binop hf).1 hleft
      rw [ends_act_bind] at h
      obtain ⟨b, s, hsame, h⟩ := h
      obtain ⟨-, rfl⟩ := runs_same.1 hsame
      cases b with
      | false => exact emitFirstStore_spelled h hl hr htype
      | true =>
        rw [if_pos rfl, ends_bind] at h
        obtain ⟨x, ⟨s1, e1⟩, hx, h⟩ := h
        obtain ⟨hfollows, hs, rfl⟩ := emit_text hl hx
        rw [ends_act_bind] at h
        obtain ⟨_, _, hright, h⟩ := h
        obtain ⟨rfl, rfl⟩ := (runs_rightOf_binop (hfollows.form?_of_not_var hf (by simp))).1 hright
        rw [ends_bind] at h
        obtain ⟨y, p2, hy, h⟩ := h
        obtain ⟨rfl, rfl⟩ := ends_pure.1 h
        obtain ⟨hfollows', hs', rfl⟩ := emit_text (hk'.follows hfollows) hy
        obtain ⟨hwrite, hs⟩ := (hl.follows hfollows).write_follows hs hfollows'
        have hpq := hfollows.trans hfollows'
        refine ⟨_, .inl ⟨_, rfl, by simp, rfl, hpq⟩, ?_⟩
        have hspelled : Spelled (s, e) lhs (.node i) kl (.binary op k k') (label q.1) _ :=
          .inPlace rfl hf hsame rfl ((hl.follows hpq).proper hs) ((hk'.follows hpq).proper hs')
        have hline := stripped_assignment (l := kl.write (label q.1)) (r := k'.write (label q.1)) op
        rw [hwrite] at hline hspelled
        exact hline ▸ hspelled
  · rw [ends_act_bind] at h
    obtain ⟨counted, s, hc, h⟩ := h
    unfold isIncrement at hc
    rw [if_pos (by simp [hb])] at hc
    obtain ⟨rfl, rfl⟩ := runs_pure.1 hc
    rw [if_neg hb] at h
    exact emitFirstStore_spelled h hl hr htype

def statementMark (n : Node) : Node := { n with marks := { n.marks with isStatement := true } }

theorem form?_statementMark {j : NodeId} : (s.alter a statementMark).form? j = s.form? j := by
  simp only [Session.form?, node?_alter]
  split
  · cases s.node? j <;> rfl
  · rfl

theorem Follows.statementMark :
    Follows (s, e) (s.alter a statementMark, e) where
  size := size_alter
  node? {j n} hn := by
    rw [node?_alter, hn]
    split
    · exact ⟨_, rfl, rfl, .refl _⟩
    · exact ⟨_, rfl, rfl, .refl _⟩
  settings := rfl
  declared h := h
  named _ _ h h' := absurd h h'
  main := rfl
  desk := ⟨[], by simp, rfl⟩

theorem Faithful.statementMark {V : Type} {M : Meaning V} {σ : State V}
    {label : NodeId → String} (h : Faithful M σ (s, e) lhs rhs kl kr label) :
    Faithful M σ (s.alter a statementMark, e) lhs rhs kl kr label where
  increment := h.increment
  inPlace {i op l x k k'} hi hf hsame hr := by
    have hsame' : sameWithin s.nodes depthLimit lhs l = .ok true := by
      rw [← (runs_same.1 hsame).1]
      refine (sameWithin_congr (fun i => ?_) _ _ _).symm
      simp only [Session.alter, Array.getElem?_modify]
      split
      · cases s.nodes[i]? <;> rfl
      · rfl
    exact h.inPlace hi (form?_statementMark.symm.trans hf) (runs_same.2 ⟨hsame', rfl⟩) hr
  apart := h.apart

theorem emitStatement_spelled {u : Unit} (h : Ends (emitStatement (emitWithin depth) (.node a)) (s, e) u q)
    (ha : s.form? a = some (.assign lhs rhs m)) (hl : Draws (s, e) lhs kl) (hr : Draws (s, e) rhs kr)
    (htype : NamesType s lhs) :
    ∃ p1 w line, Follows (s, e) p1 ∧ q = p1.putLine w line ∧
      Spelled (s.alter a statementMark, e) lhs rhs kl kr (label q.1) line := by
  rw [emitStatement, ends_act_bind] at h
  obtain ⟨_, s, hid, h⟩ := h
  obtain ⟨hid, rfl⟩ := runs_identity.1 hid
  cases hid
  rw [ends_act_bind] at h
  obtain ⟨_, s1, hmark, h⟩ := h
  obtain rfl : s1 = s.alter a Emit.statementMark := runs_updateNode.1 hmark
  rw [ends_bind] at h
  obtain ⟨r, p2, hr', h⟩ := h
  obtain _ | depth := depth
  · cases ends_throw.1 hr'
  rw [emitWithin, emitNode, ends_act_bind] at hr'
  obtain ⟨n, _, hn, hr'⟩ := hr'
  obtain ⟨hn', rfl⟩ := runs_node.1 hn
  rw [form_of_node? hn' (form?_statementMark.trans ha)] at hr'
  have hfollows := Follows.statementMark (s := s) (e := e) (a := a)
  have htype' : NamesType (s.alter a Emit.statementMark) lhs := by
    intro i t type hi ht
    subst hi
    obtain ⟨f, hf⟩ := hl.exists_form?
    exact htype rfl ((hfollows.type? hf).symm.trans ht)
  obtain ⟨line, hgives, hspelled⟩ := emitAssignment_spelled hr' (hl.follows hfollows) (hr.follows hfollows) htype'
  rcases hgives with ⟨x, rfl, hx, rfl, hp2⟩ | ⟨rfl, p1, w, hp1, rfl⟩
  · dsimp only at h
    rw [if_pos (by simpa [String.isEmpty_iff] using hx), putLine] at h
    obtain ⟨s2, e2⟩ := p2
    rw [ends_get_bind, ends_putLineTo] at h
    subst h
    exact ⟨_, _, _, hfollows.trans hp2, rfl, hspelled⟩
  · obtain ⟨-, rfl⟩ := ends_pure.1 h
    exact ⟨p1, w, line, hfollows.trans hp1, rfl, hspelled⟩

/-- The code of an assignment is the declarations of the temporaries it uses, and a statement that stores the
value of the right side where the left side stands. It changes nothing else. -/
theorem emitted_assignment_stores {s s' : Session} {e e' : Emitter} {depth : Nat} {i a : NodeId} {m : Datum}
    {r : Rendered} {V : Type} [DecidableEq V] {M : Meaning V} {σ : State V}
    (hi : s.form? i = some (.statement (.node a))) (ha : s.form? a = some (.assign lhs rhs m))
    (hl : Draws (s, e) lhs kl) (hplace : kl.isPlace = true) (hr : Draws (s, e) rhs kr) (htype : NamesType s lhs)
    (hrun : Ends (emitWithin depth (.node i)) (s, e) r (s', e'))
    (hf : Faithful M σ (s, e) lhs rhs kl kr (label s')) :
    ∃ lines w line place st, (∀ l ∈ lines, IsDeclaration l.2) ∧
      e'.desk = (putLines e.desk lines).putLine id w line ∧
      (kl.write (label s')).place? M σ = some place ∧ C.read line = some st ∧
      st.exec M σ = some (Function.update σ place ((kr.write (label s')).value M σ)) := by
  obtain _ | depth := depth
  · cases ends_throw.1 hrun
  rw [emitWithin, emitNode, ends_act_bind] at hrun
  obtain ⟨n, s, hn, hrun⟩ := hrun
  obtain ⟨hn, rfl⟩ := runs_node.1 hn
  rw [form_of_node? hn hi] at hrun
  rw [ends_bind] at hrun
  obtain ⟨_, q, hrun, hq⟩ := hrun
  obtain ⟨-, rfl⟩ := ends_pure.1 hq
  obtain ⟨p₁, w, line, hfollows, hq, hspelled⟩ := emitStatement_spelled hrun ha hl hr htype
  obtain ⟨lines, hlines, hdesk⟩ := hfollows.desk
  obtain ⟨place, st, hkl, hread, hexec⟩ := hspelled.stores hplace hf.statementMark
  refine ⟨lines, w, line, place, st, hlines, ?_, hkl, hread, hexec⟩
  rw [(Prod.mk.inj hq).2, ← hdesk]
  rfl

/-! ## Two assignments -/

def integers : Meaning Int where
  number d := d.toList.foldl (fun n c => 10 * n + (c.toNat - 48)) 0
  unary _ x := -x
  binary _ x y := x + y

def blankEmitter : Emitter :=
  let (desk, w) := Emitter.start.desk.insertionPoint Emitter.start.main
  { Emitter.start with
    desk := desk.update Emitter.start.main fun m => { m with declarationLevels := [w] } }

/-- A statement that assigns to a temporary the sum of a variable and a number. -/
def sumPage (c : Int) : Page :=
  ({ nodes := #[
      ⟨.var { role := .temporary "x0", name := .ofString "x" }, some CType.float64, .unknown, {}⟩,
      ⟨.var { role := .plain, name := .ofString "y" }, some CType.float64, .unknown, {}⟩,
      ⟨.constant (.int c), some CType.long, .unknown, {}⟩,
      ⟨.binop "+" (.node ⟨1⟩) (.node ⟨2⟩), some CType.float64, .unknown, {}⟩,
      ⟨.assign (.node ⟨0⟩) (.node ⟨3⟩) (.bool false), some CType.float64, .unknown, {}⟩,
      ⟨.statement (.node ⟨4⟩), none, .unknown, {}⟩] }, blankEmitter)

def sumCode (c : Int) : Option String :=
  match ((emitWithin 9 (.node ⟨5⟩)).run (sumPage c).2).runOn (sumPage c).1 with
  | (.ok (_, e), _) => some e.code
  | _ => none

/-- A sum with two is assigned as it is. -/
theorem sum_with_two_stores : ∃ r q, Ends (emitWithin 9 (.node ⟨5⟩)) (sumPage 2) r q ∧
    ∀ σ : State Int, ∃ lines w line place st, (∀ l ∈ lines, IsDeclaration l.2) ∧
      q.2.desk = (putLines (sumPage 2).2.desk lines).putLine id w line ∧
      ((Sketch.name ⟨0⟩).write (label q.1)).place? integers σ = some place ∧ C.read line = some st ∧
      st.exec integers σ = some (Function.update σ place
        (((Sketch.binary "+" (.name ⟨1⟩) (.constant (.int 2))).write (label q.1)).value integers σ)) := by
  obtain ⟨⟨r, e⟩, s, h⟩ := exists_runs (a := (emitWithin 9 (.node ⟨5⟩)).run (sumPage 2).2) (s := (sumPage 2).1)
    (by decide +kernel)
  have hx : Draws (sumPage 2) (.node ⟨0⟩) (.name ⟨0⟩) :=
    .temporary rfl rfl ⟨'_', _, rfl, rfl, rfl⟩ (fun h => absurd h (by decide +kernel))
  have hy : Draws (sumPage 2) (.node ⟨1⟩) (.name ⟨1⟩) := .plain rfl rfl rfl rfl ⟨'_', _, rfl, rfl, rfl⟩
  have htwo : Draws (sumPage 2) (.node ⟨2⟩) (.constant (.int 2)) :=
    .constant rfl rfl rfl ⟨'2', [], by decide +kernel, rfl, rfl, by decide +kernel, by decide +kernel⟩
  have htype : NamesType (sumPage 2).1 (.node ⟨0⟩) := by
    intro i t type hi ht htext
    cases hi
    cases ht
    obtain rfl : "double" = type := by
      have hdouble : CType.float64.text (sumPage 2).1.settings.declare = .ok "double" := rfl
      exact Except.ok.inj (hdouble.symm.trans htext)
    exact ⟨_, [], rfl, by simp⟩
  refine ⟨r, (s, e), h, fun σ => emitted_assignment_stores rfl rfl hx rfl
    (.binop rfl (by decide) hy htwo) htype h ⟨?_, ?_, by decide, by decide +kernel⟩⟩
  · intro k v hk hv
    cases hk
    exact absurd hv (by decide +kernel)
  · intro i op l x k k' hi hf hsame _
    cases hi
    cases hf
    have hother : sameWithin (sumPage 2).1.nodes depthLimit (.node ⟨0⟩) (.node ⟨1⟩) = .ok false := rfl
    cases hother.symm.trans (runs_same.1 hsame).1

/-- A sum with one is written as an increment of its variable, which leaves the temporary as it was. -/
theorem sum_with_one_increments_variable : sumCode 1 = some "__mini_mangle_y++;\n" ∧
    ∀ σ : State Int, ∃ st σ', C.read "__mini_mangle_y++;" = some st ∧ st.exec integers σ = some σ' ∧
      σ' (.variable "__mini_mangle_x0") = σ (.variable "__mini_mangle_x0") ∧
      σ' (.variable "__mini_mangle_y") = σ (.variable "__mini_mangle_y") + 1 := by
  refine ⟨by decide +kernel, fun σ => ?_⟩
  have hword : (Term.name "__mini_mangle_y").Proper := ⟨'_', _, rfl, rfl, rfl⟩
  refine ⟨_, _, Term.read_increment hword, rfl, by simp [Function.update_of_ne], ?_⟩
  rw [Function.update_self]
  have hone : integers.number "1" = 1 := by decide +kernel
  rw [← hone]
  rfl

end ArrayKernel.Emit
