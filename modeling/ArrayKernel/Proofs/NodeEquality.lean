import ArrayKernel.Proofs.Printing

/-!
# Equal nodes

Equal expressions of variables, temporaries and operations are printed alike. Constants are not: only their types are
compared.
-/

namespace ArrayKernel.Emit

open Ast C Stateful

/-- Phrases of variables, temporaries and operations on them. -/
inductive Symbolic (s : Session) : Phrase NodeId → Prop where
  | name {id : NodeId} {v : Variable} (h : s.form? id = some (.var v))
    (hrole : v.role = .plain ∨ ∃ x, v.role = .temporary x) : Symbolic s (.name id)
  | index {e i : Phrase NodeId} (he : Symbolic s e) (hi : Symbolic s i) : Symbolic s (.index e i)
  | binary {op : { op // op ∈ binaryOperators }} {l r : Phrase NodeId} (hl : Symbolic s l) (hr : Symbolic s r) :
    Symbolic s (.binary op l r)
  | unary {op : { op // op ∈ unaryOperators }} {e : Phrase NodeId} (he : Symbolic s e) : Symbolic s (.unary op e)
  | follow {e : Phrase NodeId} (he : Symbolic s e) : Symbolic s (.follow e)

def Namesakes (s : Session) (a b : NodeId) : Prop :=
  ∃ v w : Variable, s.form? a = some (.var v) ∧ s.form? b = some (.var w) ∧ v.name.same w.name = true

variable {p q q' : Page} {o o' : Operand} {e e' : Phrase NodeId} {depth depth' : Nat} {r r' : Rendered}

theorem Shows.unique (he : Shows p o e) (he' : Shows p o e') (hs : Symbolic p.1 e) : e' = e := by
  induction he generalizing e' with
  | function h hx =>
    cases hs
    grind
  | number | cast | conditional | call => cases hs
  | name | promotion | element => cases he' <;> grind
  | binary | unary | follow | index =>
    cases hs
    cases he' <;> grind

@[grind =]
theorem allSame_cons {same : Operand → Operand → Except Fault Bool} {a b : Operand} {as bs : List Operand} :
    allSame same (a :: as) (b :: bs) = .ok true ↔ same a b = .ok true ∧ allSame same as bs = .ok true := by
  rw [allSame]
  cases same a b with
  | error => simp [bind, Except.bind]
  | ok x => cases x <;> simp [bind, Except.bind, pure, Except.pure]

theorem kindName_ne_var {f : Form} (hf : ∀ v, f ≠ .var v) (v : Variable) : f.kindName ≠ (Form.var v).kindName := by
  intro h
  cases f with
  | var w => exact hf w rfl
  | _ => cases hv : v.role <;> simp [Form.kindName, hv] at h

theorem text_of_same {l : NodeId → String} (h : sameWithin p.1.nodes depth o o' = .ok true) (he : Shows p o e)
    (he' : Shows p o' e') (hs : Symbolic p.1 e)
    (hl : ∀ a ∈ e.names, ∀ b ∈ e'.names, Namesakes p.1 a b → l a = l b) : e.text l = e'.text l := by
  induction depth generalizing o o' e e' with
  | zero =>
    obtain ⟨a, rfl⟩ := he.exists_node
    obtain ⟨b, rfl⟩ := he'.exists_node
    simp [sameWithin] at h
  | succ depth ih =>
    obtain ⟨a, rfl⟩ := he.exists_node
    obtain ⟨b, rfl⟩ := he'.exists_node
    rw [sameWithin] at h
    split at h
    · rename_i hab
      obtain rfl := beq_iff_eq.1 hab
      rw [he.unique he' hs]
    split at h
    · rename_i m n hm hn
      have hm : ∀ {f}, p.1.form? a = some f → m.form = f := fun hf => form_of_node? hm hf
      have hn : ∀ {f}, p.1.form? b = some f → n.form = f := fun hf => form_of_node? hn hf
      -- Nodes of different forms are not compared any further.
      cases he with
      | name hf hrole hd =>
        cases hs with
        | name hv hplain =>
        simp only [Node.comparison, hm hf] at h
        cases he' with
        | name hf' hrole' hd' =>
          have hsame : Namesakes p.1 a b := ⟨_, _, hf, hf', by grind⟩
          simp only [Phrase.text, hl a (by simp [Phrase.names]) b (by simp [Phrase.names]) hsame]
        | element => grind
        | _ => simp [hn (by assumption)] at h
      | function hf hx =>
        cases hs
        grind
      | number | cast | conditional | call => cases hs
      | promotion hf hx =>
        obtain ⟨c, rfl⟩ := hx.exists_node
        simp only [Node.comparison, hm hf] at h
        cases he' with
        | promotion hf' hx' =>
          obtain ⟨c', rfl⟩ := hx'.exists_node
          simp only [hm hf, hn hf', Node.presentChildren, Form.children] at h
          exact ih (by grind [Operand.isAbsent]) hx hx' hs hl
        | name hf' | element hf' => simp [hn hf', kindName_ne_var] at h
        | _ => simp [hn (by assumption), Form.kindName] at h
      | element hf hrole hx =>
        simp only [Node.comparison, hm hf] at h
        cases he' with
        | element hf' hrole' hx' =>
          simp only [hn hf', hrole, hrole', allSame_cons] at h
          exact ih h.1 hx hx' hs hl
        | name => grind
        | _ => simp [hn (by assumption)] at h
      | binary op hf hx hy =>
        cases hs with
        | binary hsx hsy =>
        simp only [Node.comparison, hm hf] at h
        cases he' with
        | binary op' hf' hx' hy' =>
          simp only [Phrase.names, List.mem_append] at hl
          have hop : op.1 = op'.1 := by grind
          rw [Phrase.text, Phrase.text, hop, ih (by grind) hx hx' hsx (by grind), ih (by grind) hy hy' hsy (by grind)]
        | name hf' | element hf' => simp [hn hf', kindName_ne_var] at h
        | _ => simp [hn (by assumption), Form.kindName] at h
      | unary op hf hx =>
        cases hs with
        | unary hsx =>
        simp only [Node.comparison, hm hf] at h
        cases he' with
        | unary op' hf' hx' =>
          simp only [Phrase.names] at hl
          have hop : op.1 = op'.1 := by grind
          rw [Phrase.text, Phrase.text, hop, ih (by grind) hx hx' hsx hl]
        | name hf' | element hf' => simp [hn hf', kindName_ne_var] at h
        | _ => simp [hn (by assumption), Form.kindName] at h
      | follow hf hx =>
        cases hs with
        | follow hsx =>
        obtain ⟨c, rfl⟩ := hx.exists_node
        simp only [Node.comparison, hm hf] at h
        cases he' with
        | follow hf' hx' =>
          obtain ⟨c', rfl⟩ := hx'.exists_node
          simp only [hm hf, hn hf', Node.presentChildren, Form.children] at h
          simp only [Phrase.names] at hl
          rw [Phrase.text, Phrase.text, ih (by grind [Operand.isAbsent]) hx hx' hsx hl]
        | name hf' | element hf' => simp [hn hf', kindName_ne_var] at h
        | _ => simp [hn (by assumption), Form.kindName] at h
      | index hf hx hy =>
        cases hs with
        | index hsx hsy =>
        obtain ⟨c, rfl⟩ := hx.exists_node
        obtain ⟨d, rfl⟩ := hy.exists_node
        simp only [Node.comparison, hm hf] at h
        cases he' with
        | index hf' hx' hy' =>
          obtain ⟨c', rfl⟩ := hx'.exists_node
          obtain ⟨d', rfl⟩ := hy'.exists_node
          simp only [hm hf, hn hf', Node.presentChildren, Form.children] at h
          simp only [Phrase.names, List.mem_append] at hl
          rw [Phrase.text, Phrase.text, ih (by grind [Operand.isAbsent]) hx hx' hsx (by grind),
            ih (by grind [Operand.isAbsent]) hy hy' hsy (by grind)]
        | name hf' | element hf' => simp [hn hf', kindName_ne_var] at h
        | _ => simp [hn (by assumption), Form.kindName] at h
    · cases h

/-- Equal expressions of variables, temporaries and operations are printed as the same text, one after the other, if
variables of the same name are. -/
theorem equal_nodes_printed_alike (hsame : Runs (same o o') p.1 true p.1) (he : Shows p o e) (he' : Shows p o' e')
    (hs : Symbolic p.1 e) (h : Ends (emitWithin depth o) p r q) (h' : Ends (emitWithin depth' o') q r' q')
    (hnames : ∀ a ∈ e.names, ∀ b ∈ e'.names, Namesakes p.1 a b → spelling q'.1 a = spelling q'.1 b) : r = r' := by
  have hr := emit_phrase he (.refl p) h
  have hr' := emit_phrase he' hr.follows h'
  rw [(hr.later hr'.follows).text, hr'.text, text_of_same (runs_same.1 hsame).1 he he' hs hnames]

/-- Two variables `x` and a variable `y`, the sums of each `x` with `y`, and two constants. -/
def sums : Page :=
  let x (name : String) : Form := .var { role := .plain, name := .ofString name, emitted := some name }
  let forms := [x "x", x "x", x "y", .binop "+" (.node ⟨0⟩) (.node ⟨2⟩), .binop "+" (.node ⟨1⟩) (.node ⟨2⟩),
    .constant (.int 1), .constant (.int 2)]
  ({ nodes := (forms.map fun f => ⟨f, some CType.long, .unknown, {}⟩).toArray }, {})

theorem equal_sums_printed_alike : Runs (same (.node ⟨3⟩) (.node ⟨4⟩)) sums.1 true sums.1 ∧
    ∃ r, Ends (emitWithin 9 (.node ⟨4⟩)) sums r sums ∧ .text "(x + y)" = r := by
  have hname : ∀ {id x}, sums.1.form? id = some (.var { role := .plain, name := .ofString x, emitted := some x }) →
      sums.1.type? id = some CType.long → IsWord x → Shows sums (.node id) (.name id) := by
    intro id x hf ht hx
    have hlabel : label sums.1 id = x := by simp [label, hf, ht, CType.isFunction, CType.long]
    exact .name hf (by simp) (.plain hf rfl rfl ht (hlabel ▸ hx))
  have hx : IsWord "x" := ⟨'x', [], rfl, rfl, rfl⟩
  have hy : Shows sums (.node ⟨2⟩) (.name ⟨2⟩) := hname rfl rfl ⟨'y', [], rfl, rfl, rfl⟩
  have hsame : Runs (same (.node ⟨3⟩) (.node ⟨4⟩)) sums.1 true sums.1 := rfl
  have hfirst : Ends (emitWithin 9 (.node ⟨3⟩)) sums (.text "(x + y)") sums := rfl
  have hrun : Ends (emitWithin 9 (.node ⟨4⟩)) sums (.text "(x + y)") sums := rfl
  refine ⟨hsame, _, hrun, equal_nodes_printed_alike hsame (.binary ⟨"+", by decide⟩ rfl (hname rfl rfl hx) hy)
    (.binary ⟨"+", by decide⟩ rfl (hname rfl rfl hx) hy) (.binary (.name rfl (.inl rfl)) (.name rfl (.inl rfl)))
    hfirst hrun ?_⟩
  rintro a ha b hb ⟨v, w, hv, hw, hvw⟩
  simp only [Phrase.names, List.cons_append, List.nil_append, List.mem_cons, List.not_mem_nil, or_false] at ha hb
  obtain rfl | rfl := ha <;> obtain rfl | rfl := hb
  · rfl
  · cases hv
    cases hw
    cases hvw
  · cases hv
    cases hw
    cases hvw
  · rfl

theorem different_constants_equal : Runs (same (.node ⟨5⟩) (.node ⟨6⟩)) sums.1 true sums.1 ∧
    Ends (emitWithin 9 (.node ⟨5⟩)) sums (.text "1") sums ∧ Ends (emitWithin 9 (.node ⟨6⟩)) sums (.text "2") sums :=
  ⟨rfl, rfl, rfl⟩

end ArrayKernel.Emit
