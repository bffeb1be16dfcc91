import ArrayKernel.Proofs.Emission
import ArrayKernel.Proofs.Phrase

/-!
# Printed expressions

The text of an expression is that of its phrase, which leaves out promotions and wrappers around elements.
-/

namespace ArrayKernel.Emit

open Ast C Stateful

/-! ## Types in casts -/

inductive Common : CType → Prop where
  | predefined {name : String} {t : CType} (h : (name, t) ∈ CType.predefined) : Common t
  | pointer {t : CType} (h : Common t) : Common (.pointer t [])

theorem Common.bare {t : CType} {declare : CType.Declare} {x : String} (h : Common t)
    (hx : t.text declare = .ok x) : ∀ c ∈ x.toList, weight c = 0 := by
  induction h generalizing x with
  | @predefined name t h =>
    have hkind : ∀ p ∈ CType.predefined, p.2 matches .scalar .. | .complex .. | .cString _ | .object _ := by decide
    have hall : ∀ p ∈ CType.predefined, ((p.2.text none).toOption.getD "").toList.all fun c => weight c = 0 := by
      decide +kernel
    have hnone : t.text declare = t.text none := by
      have := hkind _ h
      cases t <;> first | rfl | cases this
    have := hall _ h
    rw [← hnone, hx] at this
    simpa [Except.toOption] using this
  | @pointer t _ ih =>
    cases ht : t.text declare with
    | error => simp [CType.text, ht] at hx
    | ok y =>
      obtain rfl : y ++ " *" = x := by simpa [CType.text, ht, CType.words] using hx
      intro c hc
      rw [String.toList_append, List.mem_append] at hc
      rcases hc with hc | hc
      · exact ih ht c hc
      · rcases List.mem_pair.1 hc with rfl | rfl <;> rfl

/-! ## Phrases of nodes -/

/-- The name of a node in the code. A function is called by its own name. -/
def spelling (s : Session) (id : NodeId) : String :=
  match s.form? id with
  | some (.functionName name _) => name.display
  | _ => label s id

inductive Shows (p : Page) : Operand → Phrase NodeId → Prop where
  | name {id : NodeId} {v : Variable} (h : p.1.form? id = some (.var v)) (hrole : ∀ o, v.role ≠ .element o)
    (hd : Draws p (.node id) (.name id)) : Shows p (.node id) (.name id)
  | function {id : NodeId} {name isExternal : Datum} (h : p.1.form? id = some (.functionName name isExternal))
    (hx : IsWord name.display) : Shows p (.node id) (.name id)
  | number {id : NodeId} {n : Nat} {t : CType} (h : p.1.form? id = some (.constant (.int n)))
    (ht : p.1.type? id = some t) (htext : t.isCString = false) : Shows p (.node id) (.number n)
  | promotion {id : NodeId} {o : Operand} {e : Phrase NodeId} (h : p.1.form? id = some (.promotion o))
    (ho : Shows p o e) : Shows p (.node id) e
  | element {id : NodeId} {v : Variable} {o : Operand} {e : Phrase NodeId} (h : p.1.form? id = some (.var v))
    (hrole : v.role = .element o) (ho : Shows p o e) : Shows p (.node id) e
  | binary {id : NodeId} {l r : Operand} {e e' : Phrase NodeId} (op : { op // op ∈ binaryOperators })
    (h : p.1.form? id = some (.binop op l r)) (hl : Shows p l e) (hr : Shows p r e') :
    Shows p (.node id) (.binary op e e')
  | unary {id : NodeId} {o : Operand} {e : Phrase NodeId} (op : { op // op ∈ unaryOperators })
    (h : p.1.form? id = some (.unop op o)) (ho : Shows p o e) : Shows p (.node id) (.unary op e)
  | follow {id : NodeId} {o : Operand} {e : Phrase NodeId} (h : p.1.form? id = some (.dereference o))
    (ho : Shows p o e) : Shows p (.node id) (.follow e)
  | cast {id : NodeId} {o : Operand} {t : CType} {x : String} {e : Phrase NodeId} (h : p.1.form? id = some (.cast o))
    (ht : p.1.type? id = some t) (hc : Common t) (hx : t.text p.1.settings.declare = .ok x) (ho : Shows p o e) :
    Shows p (.node id) (.cast ⟨x, hc.bare hx⟩ e)
  | index {id : NodeId} {o i : Operand} {e e' : Phrase NodeId} (h : p.1.form? id = some (.index o i))
    (ho : Shows p o e) (hi : Shows p i e') : Shows p (.node id) (.index e e')
  | conditional {id : NodeId} {c l r : Operand} {e₁ e₂ e₃ : Phrase NodeId}
    (h : p.1.form? id = some (.conditional c l r)) (hc : Shows p c e₁) (hl : Shows p l e₂) (hr : Shows p r e₃) :
    Shows p (.node id) (.conditional e₁ e₂ e₃)
  | call {id : NodeId} {f : Operand} {args : List Operand} {inline : Datum} {e : Phrase NodeId}
    {es : List (Phrase NodeId)} (h : p.1.form? id = some (.call f (.group args) inline)) (hf : Shows p f e)
    (hlength : args.length = es.length) (hargs : ∀ x ∈ args.zip es, Shows p x.1 x.2) : Shows p (.node id) (.call e es)

variable {p₀ p q : Page} {o : Operand} {e : Phrase NodeId} {id : NodeId} {depth : Nat} {r : Rendered}

theorem Shows.exists_node (h : Shows p o e) : ∃ id, o = .node id := by
  cases h <;> exact ⟨_, rfl⟩

/-- A name that is a word, and that does not change any more. -/
structure Fixed (p : Page) (id : NodeId) : Prop where
  word : IsWord (spelling p.1 id)
  kept : ∀ {q}, Follows p q → spelling q.1 id = spelling p.1 id

theorem Fixed.follows (h : Fixed p id) (hpq : Follows p q) : Fixed q id where
  word := h.kept hpq ▸ h.word
  kept hq := (h.kept (hpq.trans hq)).trans (h.kept hpq).symm

theorem spelling_var {s : Session} {v : Variable} (h : s.form? id = some (.var v)) : spelling s id = label s id := by
  simp [spelling, h]

theorem Draws.fixed (h : Draws p o (.name id)) (hs : Settled p id) : Fixed p id := by
  obtain ⟨v, hv⟩ := h.exists_var (show id ∈ _ by simp [Sketch.names])
  have hword : IsWord (label p.1 id) := h.proper (by simpa [Sketch.names] using hs)
  refine ⟨by rwa [spelling_var hv], fun hpq => ?_⟩
  obtain ⟨v', hv', -⟩ := hpq.var hv
  rw [spelling_var hv, spelling_var hv', hpq.label hv hs]

theorem fixed_function {name isExternal : Datum} (h : p.1.form? id = some (.functionName name isExternal))
    (hx : IsWord name.display) : Fixed p id where
  word := by simpa [spelling, h] using hx
  kept hpq := by simp [spelling, h, hpq.form?_of_not_var h]

structure Printed (p q : Page) (e : Phrase NodeId) (r : Rendered) : Prop where
  follows : Follows p q
  fixed : ∀ id ∈ e.names, Fixed q id
  text : r = .text (String.ofList (e.text (spelling q.1)))

theorem Printed.later {q' : Page} (h : Printed p q e r) (hq : Follows q q') : Printed p q' e r where
  follows := h.follows.trans hq
  fixed id hid := (h.fixed id hid).follows hq
  text := by rw [h.text, Phrase.text_congr fun id hid => (h.fixed id hid).kept hq]

theorem emit_all {args : List Operand} {es : List (Phrase NodeId)} {rs : List Rendered}
    (hemit : ∀ {o e p r q}, Shows p₀ o e → Follows p₀ p → Ends (emitWithin depth o) p r q → Printed p q e r)
    (hargs : List.Forall₂ (Shows p₀) args es) (hp : Follows p₀ p) (h : Ends (args.mapM (emitWithin depth)) p rs q) :
    Follows p q ∧ (∀ e ∈ es, ∀ id ∈ e.names, Fixed q id) ∧
      rs = (es.map fun e => String.ofList (e.text (spelling q.1))).map .text := by
  induction hargs generalizing p q rs with
  | nil =>
    obtain ⟨rfl, rfl⟩ := ends_pure.1 h
    exact ⟨.refl _, by simp, rfl⟩
  | cons ho _ ih =>
    rw [List.mapM_cons] at h
    simp only [ends_bind] at h
    obtain ⟨x, p1, hx, xs, p2, hxs, h⟩ := h
    obtain ⟨rfl, rfl⟩ := ends_pure.1 h
    have hx := hemit ho hp hx
    obtain ⟨hfollows, hfixed, rfl⟩ := ih (hp.trans hx.follows) hxs
    have hx := hx.later hfollows
    exact ⟨hx.follows, List.forall_mem_cons.2 ⟨hx.fixed, hfixed⟩, by rw [hx.text, List.map_cons, List.map_cons]⟩

theorem ends_asText {xs texts : List String}
    (h : Ends ((xs.map Rendered.text).mapM fun r => (liftM (Action.ofExcept r.asText) : Emitting String)) p texts q) :
    texts = xs ∧ q = p := by
  induction xs generalizing p q texts with
  | nil =>
    exact ends_pure.1 h
  | cons x xs ih =>
    rw [List.map_cons, List.mapM_cons, ends_act_bind] at h
    obtain ⟨_, _, hx, h⟩ := h
    obtain ⟨hok, rfl⟩ := runs_ofExcept.1 hx
    obtain rfl := Except.ok.inj hok
    rw [ends_bind] at h
    obtain ⟨ys, _, hys, h⟩ := h
    obtain ⟨rfl, rfl⟩ := ih hys
    exact ends_pure.1 h

theorem text_ofList {x : String} {cs : List Char} (h : x.toList = cs) : Rendered.text x = .text (String.ofList cs) := by
  rw [← h, String.ofList_toList]

theorem emit_phrase (he : Shows p₀ o e) (hp : Follows p₀ p) (h : Ends (emitWithin depth o) p r q) :
    Printed p q e r := by
  induction depth generalizing p q o e r with
  | zero => cases ends_throw.1 h
  | succ depth ih =>
    obtain ⟨s, w⟩ := p
    obtain ⟨id, rfl⟩ := he.exists_node
    have hemit := h
    rw [emitWithin, emitNode, ends_act_bind] at h
    obtain ⟨⟨form, _, _, _⟩, s, hn, h⟩ := h
    obtain ⟨hn, rfl⟩ := runs_node.1 hn
    have hform : s.form? id = some form := form?_of_node? hn
    have hkept : ∀ {f}, p₀.1.form? id = some f → (∀ v, f ≠ .var v) → form = f := fun hf hv =>
      Option.some.inj (hform.symm.trans (hp.form?_of_not_var hf hv))
    cases he with
    | name _ _ hd =>
      obtain ⟨hfollows, hs, rfl⟩ := emit_text (hd.follows hp) hemit
      have hd := (hd.follows hp).follows hfollows
      obtain ⟨v, hv⟩ := hd.exists_var (show id ∈ _ by simp [Sketch.names])
      refine ⟨hfollows, ?_, ?_⟩
      · simpa [Phrase.names] using hd.fixed (hs id (by simp [Sketch.names]))
      · simp [Phrase.text, spelling_var hv, Sketch.write, Term.text]
    | function hf hx =>
      rw [hkept hf (by simp)] at h
      obtain ⟨rfl, rfl⟩ := ends_pure.1 h
      have hf := hp.form?_of_not_var hf (by simp)
      exact ⟨.refl _, by simpa [Phrase.names] using fixed_function hf hx, by simp [Phrase.text, spelling, hf]⟩
    | @number _ k _ hf ht htext =>
      cases hkept hf (by simp)
      dsimp only at h
      rw [emitConstant, ends_act_bind] at h
      obtain ⟨_, _, htype, h⟩ := h
      obtain ⟨hty, rfl⟩ := runs_knownType htype
      obtain rfl := Option.some.inj (((hp.type? hf).trans ht).symm.trans hty)
      rw [if_neg (by simp [htext])] at h
      obtain ⟨rfl, rfl⟩ := ends_pure.1 h
      refine ⟨.refl _, by simp [Phrase.names], ?_⟩
      have hshown : (Datum.int k).display = toString k := rfl
      rw [hshown, Phrase.text, String.ofList_toList]
    | promotion hf ho =>
      rw [hkept hf (by simp)] at h
      exact ih ho hp h
    | element hf hrole ho =>
      obtain ⟨v', hv', hrole'⟩ := hp.var hf
      rw [Option.some.inj (hform.symm.trans hv')] at h
      dsimp only at h
      rw [hrole', hrole] at h
      exact ih ho hp h
    | binary op hf hl hr =>
      cases hkept hf (by simp)
      simp only [ends_bind] at h
      obtain ⟨x, p1, hx, y, p2, hy, h⟩ := h
      obtain ⟨rfl, rfl⟩ := ends_pure.1 h
      have hx := ih hl hp hx
      have hy := ih hr (hp.trans hx.follows) hy
      have hx := hx.later hy.follows
      refine ⟨hx.follows, ?_, ?_⟩
      · simp only [Phrase.names, List.mem_append]
        exact fun j hj => hj.elim (hx.fixed j) (hy.fixed j)
      · rw [hx.text, hy.text]
        exact text_ofList (by simp [Rendered.shown, Phrase.text, Phrase.grouped])
    | unary op hf ho | follow hf ho =>
      cases hkept hf (by simp)
      rw [ends_bind] at h
      obtain ⟨x, p1, hx, h⟩ := h
      obtain ⟨rfl, rfl⟩ := ends_pure.1 h
      have hx := ih ho hp hx
      refine ⟨hx.follows, by simpa only [Phrase.names] using hx.fixed, ?_⟩
      rw [hx.text]
      exact text_ofList (by simp [Rendered.shown, Phrase.text, Phrase.grouped])
    | cast hf ht hc hx ho =>
      cases hkept hf (by simp)
      rw [ends_act_bind] at h
      obtain ⟨t, _, htype, h⟩ := h
      obtain ⟨_, hid, hty, rfl⟩ := runs_typeOf.1 htype
      cases hid
      rw [ends_bind] at h
      obtain ⟨y, ⟨s', w'⟩, hy, h⟩ := h
      rw [ends_act_bind] at h
      obtain ⟨x', _, hx', h⟩ := h
      obtain ⟨hx', rfl⟩ := runs_typeText.1 hx'
      obtain ⟨rfl, rfl⟩ := ends_pure.1 h
      obtain rfl := Option.some.inj (((hp.type? hf).trans ht).symm.trans hty)
      have hy := ih ho hp hy
      obtain rfl : _ = x' := Except.ok.inj (hx.symm.trans (by rw [← hx', (hp.trans hy.follows).settings]))
      refine ⟨hy.follows, by simpa only [Phrase.names] using hy.fixed, ?_⟩
      rw [hy.text]
      exact text_ofList (by simp [Rendered.shown, Phrase.text, Phrase.grouped])
    | index hf ho hi =>
      cases hkept hf (by simp)
      obtain ⟨a, rfl⟩ := ho.exists_node
      obtain ⟨b, rfl⟩ := hi.exists_node
      simp only [ends_bind, ends_results] at h
      obtain ⟨_, p1, ⟨x, hx, rfl⟩, _, p2, ⟨y, hy, rfl⟩, h⟩ := h
      obtain ⟨rfl, rfl⟩ := ends_pure.1 h
      have hx := ih ho hp hx
      have hy := ih hi (hp.trans hx.follows) hy
      have hx := hx.later hy.follows
      refine ⟨hx.follows, ?_, ?_⟩
      · simp only [Phrase.names, List.mem_append]
        exact fun j hj => hj.elim (hx.fixed j) (hy.fixed j)
      · rw [hx.text, hy.text]
        exact text_ofList (by simp [Rendered.shown, Phrase.text])
    | conditional hf hc hl hr =>
      cases hkept hf (by simp)
      obtain ⟨a, rfl⟩ := hc.exists_node
      obtain ⟨b, rfl⟩ := hl.exists_node
      obtain ⟨d, rfl⟩ := hr.exists_node
      simp only [ends_bind, ends_results] at h
      obtain ⟨_, p1, ⟨x, hx, rfl⟩, _, p2, ⟨y, hy, rfl⟩, _, p3, ⟨z, hz, rfl⟩, h⟩ := h
      obtain ⟨rfl, rfl⟩ := ends_pure.1 h
      have hx := ih hc hp hx
      have hy := ih hl (hp.trans hx.follows) hy
      have hz := ih hr ((hp.trans hx.follows).trans hy.follows) hz
      have hx := hx.later (hy.follows.trans hz.follows)
      have hy := hy.later hz.follows
      refine ⟨hx.follows, ?_, ?_⟩
      · simp only [Phrase.names, List.mem_append]
        exact fun j hj => hj.elim (fun hj => hj.elim (hx.fixed j) (hy.fixed j)) (hz.fixed j)
      · rw [hx.text, hy.text, hz.text]
        exact text_ofList (by simp [Rendered.shown, Phrase.text, Phrase.grouped])
    | call hf hg hlength hargs =>
      cases hkept hf (by simp)
      simp only [commaList, results, ends_bind] at h
      obtain ⟨x, p1, hx, _, p2, ⟨rs, p3, hrs, texts, p4, htexts, h2⟩, h⟩ := h
      obtain ⟨rfl, rfl⟩ := ends_pure.1 h2
      obtain ⟨rfl, rfl⟩ := ends_pure.1 h
      have hx := ih hg hp hx
      obtain ⟨hfollows, hfixed, rfl⟩ := emit_all ih (List.forall₂_iff_zip.2 ⟨hlength, hargs _⟩) (hp.trans hx.follows) hrs
      have hx := hx.later hfollows
      obtain ⟨rfl, rfl⟩ := ends_asText htexts
      refine ⟨hx.follows, ?_, ?_⟩
      · simp only [Phrase.names, List.mem_append, List.mem_flatMap]
        rintro j (hj | ⟨a, ha, hj⟩)
        · exact hx.fixed j hj
        · exact hfixed a ha j hj
      · rw [hx.text]
        exact text_ofList (by simp [Rendered.shown, Phrase.text, Function.comp_def])

/-- Expressions that are printed as the same text are the same, up to promotions, wrappers and types, if distinct
entities are printed under distinct names. -/
theorem printing_unambiguous {ε : Type} {p p' q q' : Page} {o o' : Operand} {e e' : Phrase NodeId} {depth depth' : Nat}
    {r : Rendered} {entity entity' : NodeId → ε} (he : Shows p o e) (he' : Shows p' o' e')
    (h : Ends (emitWithin depth o) p r q) (h' : Ends (emitWithin depth' o') p' r q')
    (hnames : ∀ a ∈ e.names, ∀ b ∈ e'.names, spelling q.1 a = spelling q'.1 b → entity a = entity' b) :
    e.map entity = e'.map entity' := by
  have hr := emit_phrase he (.refl p) h
  have hr' := emit_phrase he' (.refl p') h'
  refine Phrase.map_eq_of_text_eq ⟨fun a ha => (hr.fixed a ha).word, fun b hb => (hr'.fixed b hb).word, hnames⟩ ?_
  have htext := hr.text.symm.trans hr'.text
  simpa [String.ofList_inj] using htext

/-- A sum in a wrapper with a promotion, and the same sum of another node without them. -/
def twoSums : Page :=
  ({ nodes := #[
      ⟨.var { role := .plain, name := .ofString "x", emitted := some "x" }, some CType.float64, .unknown, {}⟩,
      ⟨.var { role := .plain, name := .ofString "x", emitted := some "x" }, some CType.float64, .unknown, {}⟩,
      ⟨.constant (.int 1), some CType.long, .unknown, {}⟩,
      ⟨.promotion (.node ⟨2⟩), some CType.float64, .unknown, {}⟩,
      ⟨.binop "+" (.node ⟨0⟩) (.node ⟨3⟩), some CType.float64, .unknown, {}⟩,
      ⟨.var { role := .element (.node ⟨4⟩), name := .ofString "y" }, some CType.float64, .unknown, {}⟩,
      ⟨.binop "+" (.node ⟨1⟩) (.node ⟨2⟩), some CType.float64, .unknown, {}⟩] }, {})

theorem wrapped_sum_is_sum : Ends (emitWithin 9 (.node ⟨5⟩)) twoSums (.text "(x + 1)") twoSums ∧
    Ends (emitWithin 9 (.node ⟨6⟩)) twoSums (.text "(x + 1)") twoSums ∧
    (Phrase.binary ⟨"+", by decide⟩ (.name (⟨0⟩ : NodeId)) (.number 1)).map (spelling twoSums.1) =
      (Phrase.binary ⟨"+", by decide⟩ (.name (⟨1⟩ : NodeId)) (.number 1)).map (spelling twoSums.1) := by
  have hname : ∀ id : NodeId, id = ⟨0⟩ ∨ id = ⟨1⟩ → Shows twoSums (.node id) (.name id) := by
    rintro id (rfl | rfl) <;> exact .name rfl (by simp) (.plain rfl rfl rfl rfl ⟨'x', [], rfl, rfl, rfl⟩)
  have hone : Shows twoSums (.node ⟨2⟩) (.number 1) := .number rfl rfl rfl
  have h : Shows twoSums (.node ⟨5⟩) (.binary ⟨"+", by decide⟩ (.name ⟨0⟩) (.number 1)) :=
    .element rfl rfl (.binary ⟨"+", by decide⟩ rfl (hname _ (.inl rfl)) (.promotion rfl hone))
  have h' : Shows twoSums (.node ⟨6⟩) (.binary ⟨"+", by decide⟩ (.name ⟨1⟩) (.number 1)) :=
    .binary ⟨"+", by decide⟩ rfl (hname _ (.inr rfl)) hone
  have hrun : Ends (emitWithin 9 (.node ⟨5⟩)) twoSums (.text "(x + 1)") twoSums := rfl
  have hrun' : Ends (emitWithin 9 (.node ⟨6⟩)) twoSums (.text "(x + 1)") twoSums := rfl
  exact ⟨hrun, hrun', printing_unambiguous h h' hrun hrun' fun _ _ _ _ heq => heq⟩

end ArrayKernel.Emit
