import ArrayKernel.Proofs.CStatement
import ArrayKernel.Proofs.Naming
import Mathlib.Algebra.BigOperators.Group.List.Basic

/-!
# Phrases

An expression of C with all its brackets. A phrase can be read back from its text: blanks and commas stand
between brackets, so the last opening bracket that is closed by the end tells what a text is made of.
-/

namespace ArrayKernel.C

variable {ps : List (List Char)}

/-! ## Brackets -/

def weight (c : Char) : Int := if c = ')' ∨ c = ']' then 1 else if c = '(' ∨ c = '[' then -1 else 0

def excess (cs : List Char) : Int := (cs.map weight).sum

@[simp] theorem excess_nil : excess [] = 0 := rfl

@[simp] theorem excess_cons (c : Char) (cs : List Char) : excess (c :: cs) = weight c + excess cs := by
  simp [excess]

@[simp] theorem excess_append (a b : List Char) : excess (a ++ b) = excess a + excess b := by
  simp [excess]

def separators : List Char := [' ', ',']

/-- A text whose brackets match, and which has some characters only between brackets. -/
structure Solid (seps cs : List Char) : Prop where
  level : excess cs = 0
  suffix : ∀ u v, cs = u ++ v → 0 ≤ excess v
  inside : ∀ c ∈ seps, ∀ u v, cs = u ++ c :: v → 0 < excess v

namespace Solid

variable {seps a b u v u' v' : List Char} {c c' : Char}

theorem closed (h : Solid seps a) : Solid [] a := ⟨h.level, h.suffix, by simp⟩

theorem append (ha : Solid seps a) (hb : Solid seps b) : Solid seps (a ++ b) where
  level := by simp [ha.level, hb.level]
  suffix u v h := by
    rcases List.append_eq_append_iff.1 h with ⟨z, rfl, hz⟩ | ⟨z, hz, rfl⟩
    · exact hb.suffix z v hz
    · have := ha.suffix u z hz
      simpa [hb.level] using this
  inside c hc u v h := by
    rcases List.append_eq_append_iff.1 h with ⟨z, rfl, hz⟩ | ⟨z, hz, hv⟩
    · exact hb.inside c hc z v hz
    · cases z with
      | nil => exact hb.inside c hc [] v hv.symm
      | cons d z =>
        obtain ⟨rfl, rfl⟩ := List.cons.inj hv
        have := ha.inside c hc u z hz
        simpa [hb.level] using this

theorem plain (h : ∀ c ∈ a, weight c = 0 ∧ c ∉ seps) : Solid seps a := by
  have hsum : ∀ v : List Char, (∀ c ∈ v, weight c = 0) → excess v = 0 := by
    intro v hv
    induction v with
    | nil => rfl
    | cons c v ih => simp [hv c (by simp), ih fun d hd => hv d (by simp [hd])]
  refine ⟨hsum a fun c hc => (h c hc).1, ?_, ?_⟩
  · rintro u v rfl
    have := hsum v fun c hc => (h c (by simp [hc])).1
    omega
  · rintro c hc u v rfl
    exact absurd hc (h c (by simp)).2

theorem bracket {o : Char} (h : Solid [] a) (ho : weight o = -1) (hc : weight c = 1) :
    Solid separators (o :: (a ++ [c])) := by
  have hsuffix : ∀ u v, a ++ [c] = u ++ v → v = [] ∨ 0 < excess v := by
    intro u v huv
    rcases List.append_eq_append_iff.1 huv with ⟨z, rfl, hz⟩ | ⟨z, hz, rfl⟩
    · rcases List.append_eq_singleton_iff.1 hz.symm with ⟨-, rfl⟩ | ⟨-, rfl⟩
      · exact .inr (by simp [hc])
      · exact .inl rfl
    · have := h.suffix u z hz
      exact .inr (by simp [hc]; omega)
  refine ⟨by simp [ho, hc, h.level], fun u v huv => ?_, fun d hd u v huv => ?_⟩
  · cases u with
    | nil =>
      obtain rfl : v = o :: (a ++ [c]) := huv.symm
      simp [ho, hc, h.level]
    | cons e u =>
      rcases hsuffix u v (List.cons.inj huv).2 with rfl | hv
      · simp
      · omega
  · cases u with
    | nil =>
      obtain ⟨rfl, rfl⟩ := List.cons.inj huv
      simp [hc, h.level]
    | cons e u =>
      have huv := (List.cons.inj huv).2
      rcases hsuffix (u ++ [d]) v (by simpa using huv) with rfl | hv
      · obtain ⟨-, hd'⟩ := List.append_inj' huv rfl
        obtain rfl := (List.cons.inj hd').1
        simp only [separators, List.mem_cons, List.not_mem_nil, or_false] at hd
        rcases hd with rfl | rfl <;> cases hc
      · exact hv

theorem cut (hv : Solid seps v) (hv' : Solid seps v') (hc : weight c = -1) (hc' : weight c' = -1)
    (h : u ++ c :: v = u' ++ c' :: v') : u = u' ∧ c = c' ∧ v = v' := by
  have hnil : ∀ {v v' z : List Char} {c c' : Char}, Solid seps v → Solid seps v' → weight c' = -1 →
      c :: v = z ++ c' :: v' → z = [] := by
    intro v v' z c c' hv hv' hc' heq
    cases z with
    | nil => rfl
    | cons d z =>
      have := hv.suffix z (c' :: v') (List.cons.inj heq).2
      simp [hc', hv'.level] at this
  rcases List.append_eq_append_iff.1 h with ⟨z, rfl, hz⟩ | ⟨z, rfl, hz⟩
  · obtain rfl := hnil hv hv' hc' hz
    simpa using hz
  · obtain rfl := hnil hv' hv hc hz
    simpa [eq_comm] using hz

theorem not_split (ha : Solid separators a) (hb : Solid separators b) (hc : c ∈ separators) : a ≠ b ++ c :: v := by
  intro heq
  have hpos := ha.inside c hc b v heq
  have hlevel := ha.level
  have hweight : weight c = 0 := by
    simp only [separators, List.mem_cons, List.not_mem_nil, or_false] at hc
    rcases hc with rfl | rfl <;> rfl
  rw [heq, excess_append, excess_cons, hb.level, hweight] at hlevel
  omega

theorem split (ha : Solid separators a) (hb : Solid separators b) (hc : c ∈ separators)
    (h : a ++ c :: u = b ++ c :: v) : a = b ∧ u = v := by
  rcases List.append_eq_append_iff.1 h with ⟨z, hz, hv⟩ | ⟨z, hz, hv⟩
  all_goals
    cases z with
    | nil => simp_all
    | cons d z =>
      obtain ⟨rfl, -⟩ := List.cons.inj hv
      first
      | exact absurd hz (hb.not_split ha hc)
      | exact absurd hz (ha.not_split hb hc)

end Solid

theorem intercalate_injective {c : Char} {w : List Char} (hc : c ∈ separators) {qs : List (List Char)}
    (hps : ∀ p ∈ ps, p ≠ [] ∧ Solid separators p) (hqs : ∀ q ∈ qs, q ≠ [] ∧ Solid separators q)
    (h : (c :: w).intercalate ps = (c :: w).intercalate qs) : ps = qs := by
  have hempty : ∀ {p : List Char} {ps : List (List Char)}, p ≠ [] → [] ≠ (c :: w).intercalate (p :: ps) := by
    intro p ps hp
    cases ps <;> simp [hp.symm]
  induction ps generalizing qs with
  | nil =>
    cases qs with
    | nil => rfl
    | cons q qs => exact absurd h (hempty (hqs q (by simp)).1)
  | cons p ps ih =>
    have hp := hps p (by simp)
    cases qs with
    | nil => exact absurd h.symm (hempty hp.1)
    | cons q qs =>
      have hq := hqs q (by simp)
      cases ps <;> cases qs
      case nil.nil => simpa using h
      case nil.cons => exact absurd (by simpa using h) (hp.2.not_split hq.2 hc)
      case cons.nil => exact absurd (by simpa using h.symm) (hq.2.not_split hp.2 hc)
      case cons.cons =>
        obtain ⟨rfl, htail⟩ := hp.2.split hq.2 hc h
        rw [ih (fun r hr => hps r (List.mem_cons_of_mem _ hr)) (fun r hr => hqs r (List.mem_cons_of_mem _ hr))
          (List.append_cancel_left htail)]

theorem closed_intercalate {sep : List Char} (hsep : ∀ c ∈ sep, weight c = 0)
    (h : ∀ p ∈ ps, Solid [] p) : Solid [] (sep.intercalate ps) := by
  have hclosed : Solid [] sep := .plain fun c hc => ⟨hsep c hc, by simp⟩
  induction ps with
  | nil => exact .plain (by simp)
  | cons p ps ih =>
    have hrest := ih fun q hq => h q (by simp [hq])
    cases ps with
    | nil => simpa using h p (by simp)
    | cons q ps =>
      rw [List.intercalate_cons_cons]
      exact ((h p (by simp)).append hclosed).append hrest

/-! ## Phrases -/

abbrev Bare := { s : String // ∀ c ∈ s.toList, weight c = 0 }

inductive Phrase (α : Type) where
  | name (a : α)
  | number (n : Nat)
  | index (p i : Phrase α)
  | call (f : Phrase α) (args : List (Phrase α))
  | binary (op : { op // op ∈ binaryOperators }) (l r : Phrase α)
  | unary (op : { op // op ∈ unaryOperators }) (e : Phrase α)
  | follow (p : Phrase α)
  | cast (type : Bare) (e : Phrase α)
  | conditional (c l r : Phrase α)

namespace Phrase

variable {α β ε : Type}

def map (g : α → ε) : Phrase α → Phrase ε
  | .name a => .name (g a)
  | .number n => .number n
  | .index p i => .index (p.map g) (i.map g)
  | .call f args => .call (f.map g) (args.map fun a => a.map g)
  | .binary op l r => .binary op (l.map g) (r.map g)
  | .unary op e => .unary op (e.map g)
  | .follow p => .follow (p.map g)
  | .cast type e => .cast type (e.map g)
  | .conditional c l r => .conditional (c.map g) (l.map g) (r.map g)

def names : Phrase α → List α
  | .name a => [a]
  | .number _ => []
  | .index p i => p.names ++ i.names
  | .call f args => f.names ++ args.flatMap fun a => a.names
  | .binary _ l r => l.names ++ r.names
  | .unary _ e => e.names
  | .follow p => p.names
  | .cast _ e => e.names
  | .conditional c l r => c.names ++ l.names ++ r.names

def grouped (pieces : List (List Char)) : List Char := '(' :: ([' '].intercalate pieces ++ [')'])

def text (label : α → String) : Phrase α → List Char
  | .name a => (label a).toList
  | .number n => (toString n).toList
  | .index p i => p.text label ++ '[' :: (i.text label ++ [']'])
  | .call f args => f.text label ++ '(' :: ([',', ' '].intercalate (args.map fun a => a.text label) ++ [')'])
  | .binary op l r => grouped [l.text label, op.1.toList, r.text label]
  | .unary op e => grouped [op.1.toList ++ e.text label]
  | .follow p => grouped ['*' :: p.text label]
  | .cast type e => grouped ['(' :: (type.1.toList ++ [')']), e.text label]
  | .conditional c l r => grouped [c.text label, ['?'], l.text label, [':'], r.text label]

def pieces (label : α → String) : Phrase α → List (List Char)
  | .binary op l r => [l.text label, op.1.toList, r.text label]
  | .unary op e => [op.1.toList ++ e.text label]
  | .follow p => ['*' :: p.text label]
  | .cast type e => ['(' :: (type.1.toList ++ [')']), e.text label]
  | .conditional c l r => [c.text label, ['?'], l.text label, [':'], r.text label]
  | _ => []

def frame (label : α → String) : Phrase α → Option (List Char × Char × List Char)
  | .name _ | .number _ => none
  | .index p i => some (p.text label, '[', i.text label)
  | .call f args => some (f.text label, '(', [',', ' '].intercalate (args.map fun a => a.text label))
  | e => some ([], '(', [' '].intercalate (e.pieces label))

variable {label : α → String} {label' : β → String} {e : Phrase α} {e' : Phrase β} {args : List (Phrase α)}
variable {entity' : β → ε} {entity : α → ε} {x : String}

theorem text_congr {label' : α → String} (h : ∀ a ∈ e.names, label' a = label a) : e.text label' = e.text label := by
  induction e using text.induct with
  | case1 a => rw [text, text, h a (by simp [names])]
  | case2 n => rw [text, text]
  | case3 p i ihp ihi =>
    simp only [names, List.mem_append] at h
    rw [text, text, ihp fun a ha => h a (.inl ha), ihi fun a ha => h a (.inr ha)]
  | case4 f args ihf ihargs =>
    simp only [names, List.mem_append, List.mem_flatMap] at h
    rw [text, text, ihf fun a ha => h a (.inl ha)]
    rw [List.map_congr_left fun a ha => ihargs a ha fun x hx => h x (.inr ⟨a, ha, hx⟩)]
  | case5 op l r ihl ihr =>
    simp only [names, List.mem_append] at h
    rw [text, text, ihl fun a ha => h a (.inl ha), ihr fun a ha => h a (.inr ha)]
  | case6 op e ih | case7 p ih | case8 type e ih => rw [text, text, ih (by simpa only [names] using h)]
  | case9 c l r ihc ihl ihr =>
    simp only [names, List.mem_append] at h
    rw [text, text, ihc fun a ha => h a (.inl (.inl ha)), ihl fun a ha => h a (.inl (.inr ha)),
      ihr fun a ha => h a (.inr ha)]

theorem plain_char {c : Char} (h : isWordChar c = true) : weight c = 0 ∧ c ∉ separators := by
  have hnot : ∀ d ∈ ['(', ')', '[', ']', ' ', ','], c ≠ d := by
    rintro d hd rfl
    simp only [List.mem_cons, List.not_mem_nil, or_false] at hd
    rcases hd with rfl | rfl | rfl | rfl | rfl | rfl <;> cases h
  simp [weight, separators, hnot]

theorem plain_word (h : IsWord x) : ∀ c ∈ x.toList, weight c = 0 ∧ c ∉ separators := by
  obtain ⟨d, ds, hx, hd, hds⟩ := h
  intro c hc
  rw [hx, List.mem_cons] at hc
  rcases hc with rfl | hc
  · refine plain_char ?_
    simp only [isWordStart, isWordChar, Char.isAlphanum, Bool.or_eq_true] at hd ⊢
    tauto
  · exact plain_char (List.all_eq_true.1 hds c hc)

theorem plain_number (n : Nat) : ∀ c ∈ (toString n).toList, weight c = 0 ∧ c ∉ separators := by
  intro c hc
  have hdigit := Build.isDigit_of_mem_toString hc
  exact plain_char (by simp [isWordChar, Char.isAlphanum, hdigit])

theorem sound_operator : ∀ op ∈ binaryOperators ++ unaryOperators ++ ["?", ":", "*"],
    op.toList ≠ [] ∧ Solid separators op.toList := by
  have hplain : ∀ op ∈ binaryOperators ++ unaryOperators ++ ["?", ":", "*"],
      op.toList ≠ [] ∧ op.toList.all fun c => weight c = 0 ∧ c ∉ separators := by decide
  exact fun op hop => ⟨(hplain op hop).1, .plain (by simpa using (hplain op hop).2)⟩

theorem solid_grouped (h : ∀ p ∈ ps, p ≠ [] ∧ Solid separators p) : Solid separators (grouped ps) :=
  (closed_intercalate (by simp [weight]) fun p hp => (h p hp).2.closed).bracket rfl rfl

theorem solid (h : ∀ a ∈ e.names, IsWord (label a)) : (e.text label ≠ [] ∧ Solid separators (e.text label)) ∧
    ∀ p ∈ e.pieces label, p ≠ [] ∧ Solid separators p := by
  induction e using text.induct with
  | case1 a =>
    have hword := h a (by simp [names])
    obtain ⟨c, cs, hx, -⟩ := id hword
    simp only [text, pieces]
    exact ⟨⟨by simp [hx], .plain (plain_word hword)⟩, by simp⟩
  | case2 n =>
    simp only [text, pieces]
    exact ⟨⟨Build.toString_ne_empty n, .plain (plain_number n)⟩, by simp⟩
  | case3 p i ihp ihi =>
    simp only [names, List.mem_append] at h
    simp only [text, pieces]
    have hi := (ihi fun a ha => h a (.inr ha)).1.2.closed.bracket (o := '[') (c := ']') rfl rfl
    exact ⟨⟨by simp, (ihp fun a ha => h a (.inl ha)).1.2.append hi⟩, by simp⟩
  | case4 f args ihf ihargs =>
    simp only [names, List.mem_append, List.mem_flatMap] at h
    simp only [text, pieces]
    have hargs : Solid [] ([',', ' '].intercalate (args.map fun a => a.text label)) := by
      refine closed_intercalate (by simp [weight]) fun p hp => ?_
      obtain ⟨a, ha, rfl⟩ := List.mem_map.1 hp
      exact (ihargs a ha fun x hx => h x (.inr ⟨a, ha, hx⟩)).1.2.closed
    have := (ihf fun a ha => h a (.inl ha)).1.2.append (hargs.bracket (o := '(') (c := ')') rfl rfl)
    exact ⟨⟨by simp, this⟩, by simp⟩
  | case5 op l r ihl ihr =>
    simp only [names, List.mem_append] at h
    simp only [text, pieces]
    have hp : ∀ p ∈ [l.text label, op.1.toList, r.text label], p ≠ [] ∧ Solid separators p := by
      simp only [List.forall_mem_cons]
      exact ⟨(ihl fun a ha => h a (.inl ha)).1, sound_operator op (by simp [op.2]), (ihr fun a ha => h a (.inr ha)).1, by simp⟩
    exact ⟨⟨by simp [grouped], solid_grouped hp⟩, hp⟩
  | case6 op e ih =>
    simp only [names] at h
    simp only [text, pieces]
    have hp : ∀ p ∈ [op.1.toList ++ e.text label], p ≠ [] ∧ Solid separators p := by
      have hop := sound_operator op (by simp [op.2])
      simpa [hop.1] using hop.2.append (ih h).1.2
    exact ⟨⟨by simp [grouped], solid_grouped hp⟩, hp⟩
  | case7 p ih =>
    simp only [names] at h
    simp only [text, pieces]
    have hp : ∀ q ∈ ['*' :: p.text label], q ≠ [] ∧ Solid separators q := by
      simpa using (sound_operator "*" (by simp)).2.append (ih h).1.2
    exact ⟨⟨by simp [grouped], solid_grouped hp⟩, hp⟩
  | case8 type e ih =>
    simp only [names] at h
    simp only [text, pieces]
    have htype : Solid [] type.1.toList := .plain fun c hc => ⟨type.2 c hc, by simp⟩
    have hp : ∀ p ∈ ['(' :: (type.1.toList ++ [')']), e.text label], p ≠ [] ∧ Solid separators p := by
      simp only [List.forall_mem_cons]
      exact ⟨⟨by simp, htype.bracket rfl rfl⟩, (ih h).1, by simp⟩
    exact ⟨⟨by simp [grouped], solid_grouped hp⟩, hp⟩
  | case9 c l r ihc ihl ihr =>
    simp only [names, List.mem_append] at h
    simp only [text, pieces]
    have hp : ∀ p ∈ [c.text label, ['?'], l.text label, [':'], r.text label], p ≠ [] ∧ Solid separators p := by
      simp only [List.forall_mem_cons]
      exact ⟨(ihc fun a ha => h a (.inl (.inl ha))).1, sound_operator "?" (by simp), (ihl fun a ha => h a (.inl (.inr ha))).1,
        sound_operator ":" (by simp), (ihr fun a ha => h a (.inr ha)).1, by simp⟩
    exact ⟨⟨by simp [grouped], solid_grouped hp⟩, hp⟩

theorem names_argument {f a : Phrase α} (h : a ∈ args) : a.names ⊆ (call f args).names := by
  intro x hx
  simp only [names, List.mem_append, List.mem_flatMap]
  exact .inr ⟨a, h, hx⟩

theorem sound_arguments {f : Phrase α} (h : ∀ a ∈ (call f args).names, IsWord (label a)) :
    ∀ p ∈ args.map fun a => a.text label, p ≠ [] ∧ Solid separators p := by
  intro p hp
  obtain ⟨a, ha, rfl⟩ := List.mem_map.1 hp
  exact (solid fun x hx => h x (names_argument ha hx)).1

section

variable (h : ∀ a ∈ e.names, IsWord (label a))

include h

theorem text_of_frame {u v : List Char} {o : Char}
    (hf : e.frame label = some (u, o, v)) : ∃ c, e.text label = u ++ o :: (v ++ [c]) ∧ weight o = -1 ∧ Solid [] v := by
  cases e <;> simp only [frame, Option.some.injEq, Prod.mk.injEq, reduceCtorEq] at hf
  case index p i =>
    obtain ⟨rfl, rfl, rfl⟩ := hf
    simp only [names, List.mem_append] at h
    exact ⟨']', by rw [text], rfl, (solid fun a ha => h a (.inr ha)).1.2.closed⟩
  case call f args =>
    obtain ⟨rfl, rfl, rfl⟩ := hf
    exact ⟨')', by rw [text], rfl, closed_intercalate (by simp [weight]) fun p hp => (sound_arguments h p hp).2.closed⟩
  all_goals
    obtain ⟨rfl, rfl, rfl⟩ := hf
    exact ⟨')', by rw [text]; rfl, rfl, closed_intercalate (by simp [weight]) fun p hp => ((solid h).2 p hp).2.closed⟩

theorem frame_eq (h' : ∀ a ∈ e'.names, IsWord (label' a))
    (htext : e.text label = e'.text label') : e.frame label = e'.frame label' := by
  have hnone : ∀ {α : Type} {label : α → String} {e : Phrase α}, (∀ a ∈ e.names, IsWord (label a)) →
      e.frame label = none → ∀ c ∈ e.text label, weight c = 0 := by
    intro α label e h hf c hc
    cases e <;> simp only [text, frame, reduceCtorEq] at hc hf
    case name a => exact (plain_word (h a (by simp [names])) c hc).1
    case number n => exact (plain_number n c hc).1
  rcases hf : e.frame label with _ | ⟨u, o, v⟩ <;> rcases hf' : e'.frame label' with _ | ⟨u', o', v'⟩
  · rfl
  · obtain ⟨c, hc, ho, -⟩ := text_of_frame h' hf'
    have := hnone h hf o' (by simp [htext, hc])
    omega
  · obtain ⟨c, hc, ho, -⟩ := text_of_frame h hf
    have := hnone h' hf' o (by simp [← htext, hc])
    omega
  · obtain ⟨c, hc, ho, hv⟩ := text_of_frame h hf
    obtain ⟨c', hc', ho', hv'⟩ := text_of_frame h' hf'
    have hlast : (u ++ o :: v) ++ [c] = (u' ++ o' :: v') ++ [c'] := by simpa [htext, hc'] using hc.symm
    obtain ⟨rfl, rfl, rfl⟩ := hv.cut hv' ho ho' (List.append_inj' hlast rfl).1
    rfl

theorem pieces_eq (h' : ∀ a ∈ e'.names, IsWord (label' a))
    (htext : e.text label = e'.text label') : e.pieces label = e'.pieces label' := by
  have hgroup : ∀ {α : Type} {label : α → String} {e : Phrase α}, (∀ a ∈ e.names, IsWord (label a)) →
      (e.pieces label = [] ∧ ∀ v, e.frame label ≠ some ([], '(', v)) ∨
        e.frame label = some ([], '(', [' '].intercalate (e.pieces label)) := by
    intro α label e h
    cases e with
    | call f args =>
      simp only [names, List.mem_append] at h
      have hne := (solid fun a ha => h a (.inl ha)).1.1
      exact .inl ⟨rfl, by simp [frame, hne]⟩
    | name | number | index => exact .inl ⟨rfl, by simp [frame]⟩
    | _ => exact .inr rfl
  have hframe := frame_eq h h' htext
  rcases hgroup h with ⟨hnil, hne⟩ | hf <;> rcases hgroup h' with ⟨hnil', hne'⟩ | hf'
  · rw [hnil, hnil']
  · exact absurd (hframe.trans hf') (hne _)
  · exact absurd (hframe.symm.trans hf) (hne' _)
  · rw [hf, hf'] at hframe
    simp only [Option.some.injEq, Prod.mk.injEq, true_and] at hframe
    exact intercalate_injective (by decide) (solid h).2 (solid h').2 hframe

end

theorem operator_eq {op op' : String} {x y : List Char} (h : op ∈ unaryOperators ++ ["*"])
    (h' : op' ∈ unaryOperators ++ ["*"]) (heq : op.toList ++ x = op'.toList ++ y) : op = op' ∧ x = y := by
  have hlength : ∀ op ∈ unaryOperators ++ ["*"], op.toList.length = 1 := by decide
  obtain ⟨hop, hx⟩ := List.append_inj heq ((hlength op h).trans (hlength op' h').symm)
  exact ⟨String.toList_inj.1 hop, hx⟩

theorem word_ne_number (h : IsWord x) (n : Nat) : x.toList ≠ (toString n).toList := by
  obtain ⟨c, cs, hx, hc, -⟩ := h
  intro heq
  have hdigit := isWordStart_of_isDigit (Build.isDigit_of_mem_toString (c := c) (by rw [← heq, hx]; simp))
  rw [hc] at hdigit
  cases hdigit

/-- Names that are words, such that names with the same text stand for the same. -/
structure Distinct (label : α → String) (label' : β → String) (entity : α → ε) (entity' : β → ε) (xs : List α)
    (ys : List β) : Prop where
  word : ∀ a ∈ xs, IsWord (label a)
  word' : ∀ b ∈ ys, IsWord (label' b)
  entity : ∀ a ∈ xs, ∀ b ∈ ys, label a = label' b → entity a = entity' b

theorem Distinct.sub {xs xs' : List α} {ys ys' : List β}
    (h : Distinct label label' entity entity' xs ys) (hx : xs' ⊆ xs) (hy : ys' ⊆ ys) :
    Distinct label label' entity entity' xs' ys' where
  word a ha := h.word a (hx ha)
  word' b hb := h.word' b (hy hb)
  entity a ha b hb := h.entity a (hx ha) b (hy hb)

theorem map_eq_of_text_eq (h : Distinct label label' entity entity' e.names e'.names)
    (htext : e.text label = e'.text label') : e.map entity = e'.map entity' := by
  induction e using text.induct generalizing e' with
  | case1 a =>
    have hframe := frame_eq h.word h.word' htext
    cases e' <;> simp only [frame, reduceCtorEq] at hframe
    all_goals simp only [text] at htext
    case name b => rw [map, map, h.entity a (by simp [names]) b (by simp [names]) (String.toList_inj.1 htext)]
    case number n => exact absurd htext (word_ne_number (h.word a (by simp [names])) n)
  | case2 n =>
    have hframe := frame_eq h.word h.word' htext
    cases e' <;> simp only [frame, reduceCtorEq] at hframe
    all_goals simp only [text] at htext
    case name b => exact absurd htext.symm (word_ne_number (h.word' b (by simp [names])) n)
    case number m => rw [map, map, Build.toString_inj (String.toList_inj.1 htext)]
  | case3 p i ihp ihi =>
    have hframe := frame_eq h.word h.word' htext
    cases e' <;> simp [frame] at hframe
    case index p' i' =>
      rw [map, map, ihp (h.sub (by simp [names]) (by simp [names])) hframe.1,
        ihi (h.sub (by simp [names]) (by simp [names])) hframe.2]
  | case4 f args ihf ihargs =>
    have hframe := frame_eq h.word h.word' htext
    have hpieces := pieces_eq h.word h.word' htext
    cases e' <;> simp [frame, pieces] at hframe hpieces
    case call f' args' =>
      rw [map, map, ihf (h.sub (by simp [names]) (by simp [names])) hframe.1]
      have hargs := intercalate_injective (by decide) (sound_arguments h.word) (sound_arguments h.word') hframe.2
      refine congrArg _ (List.ext_getElem (by simpa using congrArg List.length hargs) fun i hi hi' => ?_)
      have hi := List.getElem_of_eq hargs (by simpa using hi)
      simp only [List.getElem_map] at hi ⊢
      exact ihargs _ (List.getElem_mem _) (h.sub (names_argument (List.getElem_mem _)) (names_argument (List.getElem_mem _))) hi
  | case5 op l r ihl ihr =>
    have hpieces := pieces_eq h.word h.word' htext
    cases e' <;> simp [pieces, String.toList_inj] at hpieces
    case binary op' l' r' =>
      rw [map, map, Subtype.ext hpieces.2.1, ihl (h.sub (by simp [names]) (by simp [names])) hpieces.1,
        ihr (h.sub (by simp [names]) (by simp [names])) hpieces.2.2]
  | case6 op e ih =>
    have hpieces := pieces_eq h.word h.word' htext
    cases e' <;> simp [pieces] at hpieces
    case unary op' e' =>
      obtain ⟨hop, he⟩ := operator_eq (by simp [op.2]) (by simp [op'.2]) hpieces
      rw [map, map, Subtype.ext hop, ih (h.sub (by simp [names]) (by simp [names])) he]
    case follow p =>
      have := (operator_eq (by simp [op.2]) (show "*" ∈ _ by simp) hpieces).1
      exact absurd op.2 (by rw [this]; decide)
  | case7 p ih =>
    have hpieces := pieces_eq h.word h.word' htext
    cases e' <;> simp [pieces] at hpieces
    case unary op' e' =>
      have := (operator_eq (show "*" ∈ _ by simp) (by simp [op'.2]) hpieces).1
      exact absurd op'.2 (by rw [← this]; decide)
    case follow p' => rw [map, map, ih (h.sub (by simp [names]) (by simp [names])) hpieces]
  | case8 type e ih =>
    have hpieces := pieces_eq h.word h.word' htext
    cases e' <;> simp [pieces, String.toList_inj] at hpieces
    case cast type' e' =>
      rw [map, map, Subtype.ext hpieces.1, ih (h.sub (by simp [names]) (by simp [names])) hpieces.2]
  | case9 c l r ihc ihl ihr =>
    have hpieces := pieces_eq h.word h.word' htext
    cases e' <;> simp [pieces] at hpieces
    case conditional c' l' r' =>
      rw [map, map, ihc (h.sub (by simp [names]) (by simp [names])) hpieces.1,
        ihl (h.sub (by simp [names]) (by simp [names])) hpieces.2.1,
        ihr (h.sub (by simp [names]) (by simp [names])) hpieces.2.2]

end Phrase

end ArrayKernel.C
