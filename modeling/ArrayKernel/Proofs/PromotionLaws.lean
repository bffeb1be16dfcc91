import ArrayKernel.Proofs.TypeEquality
import Mathlib.Algebra.Order.Ring.Rat
import Mathlib.Tactic.Linarith

/-!
# Laws of promotion

Promotion of numbers, objects and arrays of them depends neither on the order of the operands nor on how they
are bracketed.
-/

namespace ArrayKernel.CType

variable {n : Nat} {k f i : Bool} {bs : Option (List Bool)}

/-- Numbers of any rank, objects, and arrays of such types to any depth. -/
inductive Arithmetic : CType → Prop where
  | number {t : CType} (h : t.isNumeric = true) : Arithmetic t
  | object (q : List String) : Arithmetic (.object q)
  | array {d : CType} (h : Arithmetic d) (n : Nat) (c f i : Bool) (b : Option (List Bool)) :
    Arithmetic (.array d n c f i b)

/-- The dimensions and the contiguity of each level of arrays, from the outside. -/
def layout : CType → List (Nat × Bool × Bool)
  | .array d n c f _ _ => (n, c, f) :: d.layout
  | _ => []

structure Matches (t u : CType) : Prop where
  same : (t == u) = true
  layout : t.layout = u.layout

theorem Matches.refl (t : CType) : Matches t t := ⟨beq_refl t, rfl⟩

variable {a b c r t x y l d e : CType} {q : List String}

/-! ## One step of promotion -/

theorem number_cases (h : t.isNumeric = true) : (∃ s q, t = .scalar s q) ∨ ∃ s p q, t = .complex s p q := by
  cases t with
  | scalar s q => exact .inl ⟨s, q, rfl⟩
  | complex s p q => exact .inr ⟨s, p, q, rfl⟩
  | _ => cases h

theorem number_not_object (h : t.isNumeric = true) : t.isObject = false := by
  obtain ⟨s, q, rfl⟩ | ⟨s, p, q, rfl⟩ := number_cases h <;> rfl

theorem number_layout (h : t.isNumeric = true) : t.layout = [] := by
  obtain ⟨s, q, rfl⟩ | ⟨s, p, q, rfl⟩ := number_cases h <;> rfl

theorem promote_numbers (ha : a.isNumeric = true) (hb : b.isNumeric = true) :
    promote a b = promoteNumeric a b := by
  obtain ⟨s, q, rfl⟩ | ⟨s, p, q, rfl⟩ := number_cases ha <;>
    obtain ⟨s', q', rfl⟩ | ⟨s', p', q', rfl⟩ := number_cases hb <;>
      simp [promote, isAbsent, isPointer, isObject, ha, hb]

theorem promote_number_array (ha : a.isNumeric = true) :
    promote a (.array d n k f i bs) = .error (.unpromotable a (.array d n k f i bs)) := by
  have harray : (CType.array d n k f i bs).isNumeric = false := rfl
  obtain ⟨s, q, rfl⟩ | ⟨s, p, q, rfl⟩ := number_cases ha <;> rw [promote, harray, Bool.and_false] <;>
    first | rfl | simp

theorem promote_array_number (hb : b.isNumeric = true) :
    promote (.array d n k f i bs) b = .error (.unpromotable (.array d n k f i bs) b) := by
  obtain ⟨s, q, rfl⟩ | ⟨s, p, q, rfl⟩ := number_cases hb <;> rfl

theorem promote_object_left (hb : Arithmetic b) : promote (.object q) b = .ok objectType := by
  cases hb with
  | number h => obtain ⟨s, q, rfl⟩ | ⟨s, p, q, rfl⟩ := number_cases h <;> rfl
  | object | array => rfl

theorem promote_object_right (ha : Arithmetic a) : promote a (.object q) = .ok objectType := by
  cases ha with
  | number h => obtain ⟨s, q, rfl⟩ | ⟨s, p, q, rfl⟩ := number_cases h <;> rfl
  | object | array => rfl

/-! ## Rules -/

/-- The rules of promotion. Of two numbers of one rank only equal ones can be promoted. -/
inductive Promotes : CType → CType → CType → Prop where
  | object {a b : CType} (h : a.isObject = true ∨ b.isObject = true) : Promotes a b objectType
  | left {a b : CType} {ra rb : Rank} (ha : a.isNumeric = true) (hb : b.isNumeric = true) (hra : a.rank = .ok ra)
    (hrb : b.rank = .ok rb) (h : rb.value < ra.value ∨ rb.value = ra.value ∧ (a == b) = true) : Promotes a b a
  | right {a b : CType} {ra rb : Rank} (ha : a.isNumeric = true) (hb : b.isNumeric = true) (hra : a.rank = .ok ra)
    (hrb : b.rank = .ok rb) (h : ra.value < rb.value) : Promotes a b b
  | array {d d' e : CType} (h : Promotes d d' e) (n n' : Nat) (c c' f f' i i' : Bool)
    (bs bs' : Option (List Bool)) :
    Promotes (.array d n c f i bs) (.array d' n' c' f' i' bs') (joinArrays e n n' c c' f f')

theorem number_not_absent (h : t.isNumeric = true) : t.isAbsent = false := by
  obtain ⟨s, q, rfl⟩ | ⟨s, p, q, rfl⟩ := number_cases h <;> rfl

theorem promoteNumeric_ranks {ra rb : Rank} (ha : a.isNumeric = true) (hb : b.isNumeric = true)
    (hra : a.rank = .ok ra) (hrb : b.rank = .ok rb) :
    promoteNumeric a b =
      if ra.value = rb.value then if a == b then .ok a else .error .wrongKind
      else .ok (if ra.value < rb.value then b else a) := by
  simp only [promoteNumeric, number_not_absent ha, number_not_absent hb, Bool.or_self, Bool.false_eq_true, if_false,
    hra, hrb, Rank.same, Rank.below, beq_iff_eq, decide_eq_true_eq]
  rfl

theorem promoteNumeric_eq_ok (ha : a.isNumeric = true) (hb : b.isNumeric = true) :
    promoteNumeric a b = .ok r ↔ Promotes a b r := by
  constructor
  · intro h
    have hranks : ∃ ra rb, a.rank = .ok ra ∧ b.rank = .ok rb := by
      simp only [promoteNumeric, number_not_absent ha, number_not_absent hb, Bool.or_self, Bool.false_eq_true,
        if_false] at h
      cases hra : a.rank with
      | error => rw [hra] at h; cases h
      | ok ra =>
        cases hrb : b.rank with
        | error => rw [hra, hrb] at h; cases h
        | ok rb => exact ⟨ra, rb, rfl, rfl⟩
    obtain ⟨ra, rb, hra, hrb⟩ := hranks
    rw [promoteNumeric_ranks ha hb hra hrb] at h
    split at h
    · split at h
      · cases h
        exact .left ha hb hra hrb (.inr ⟨Eq.symm ‹_›, ‹_›⟩)
      · cases h
    · obtain rfl := Except.ok.inj h
      split
      · exact .right ha hb hra hrb ‹_›
      · exact .left ha hb hra hrb (.inl (by grind))
  · intro h
    cases h with
    | object h => simp [number_not_object ha, number_not_object hb] at h
    | left _ _ hra hrb h =>
      rw [promoteNumeric_ranks ha hb hra hrb]
      rcases h with h | ⟨h, hab⟩
      · rw [if_neg (by grind), if_neg (by grind)]
      · rw [if_pos h.symm, if_pos hab]
    | right _ _ hra hrb h =>
      rw [promoteNumeric_ranks ha hb hra hrb, if_neg (by grind), if_pos h]
    | array => cases ha

namespace Promotes

theorem alike (h : Promotes a b r) (ha : a.isObject = false) (hb : b.isObject = false) :
    a.isNumeric = b.isNumeric ∧ a.isArray = b.isArray := by
  cases h with
  | object h => simp [ha, hb] at h
  | left ha hb | right ha hb =>
    obtain ⟨s, q, rfl⟩ | ⟨s, p, q, rfl⟩ := number_cases ha <;>
      obtain ⟨s', q', rfl⟩ | ⟨s', p', q', rfl⟩ := number_cases hb <;> exact ⟨ha.trans hb.symm, rfl⟩
  | array => exact ⟨rfl, rfl⟩

theorem eq_object (h : Promotes a b r) (ho : a.isObject = true ∨ b.isObject = true) : r = objectType := by
  cases h with
  | object => rfl
  | left ha hb | right ha hb => simp [number_not_object ha, number_not_object hb] at ho
  | array => simp [isObject] at ho

end Promotes

theorem promotes_object (ho : a.isObject = true ∨ b.isObject = true) : .ok objectType = Except.ok (ε := Fault) r ↔
    Promotes a b r := by
  constructor
  · rintro ⟨⟩
    exact .object ho
  · intro h
    rw [h.eq_object ho]

theorem promote_eq_ok (ha : Arithmetic a) (hb : Arithmetic b) : promote a b = .ok r ↔ Promotes a b r := by
  induction ha generalizing b r with
  | number ha =>
    cases hb with
    | number hb => rw [promote_numbers ha hb, promoteNumeric_eq_ok ha hb]
    | object q =>
      rw [promote_object_right (.number ha)]
      exact promotes_object (.inr rfl)
    | array =>
      rw [promote_number_array ha]
      refine ⟨nofun, fun h => ?_⟩
      cases ha.symm.trans (h.alike (number_not_object ha) rfl).1
  | object q =>
    rw [promote_object_left hb]
    exact promotes_object (.inl rfl)
  | @array d hd n c f i bs ih =>
    cases hb with
    | number hb =>
      rw [promote_array_number hb]
      refine ⟨nofun, fun h => ?_⟩
      cases (h.alike rfl (number_not_object hb)).1.trans hb
    | object q =>
      exact promotes_object (.inr rfl)
    | @array d' hd' n' c' f' i' bs' =>
      rw [promote]
      constructor
      · intro h
        cases he : promote d d' with
        | error => rw [he] at h; cases h
        | ok e =>
          rw [he] at h
          cases h
          exact .array ((ih hd').1 he) ..
      · intro h
        cases h with
        | object h => simp [isObject] at h
        | left ha | right ha => cases ha
        | array h =>
          rw [(ih hd').2 h]
          rfl

namespace Promotes

theorem arithmetic (h : Promotes a b r) : Arithmetic r := by
  induction h with
  | object => exact .object []
  | left ha => exact .number ha
  | right _ hb => exact .number hb
  | array _ _ _ _ _ _ _ _ _ _ _ ih => exact .array ih ..

theorem unique (h : Promotes a b x) (h' : Promotes a b y) : x = y := by
  induction h generalizing y with
  | object h => exact (h'.eq_object h).symm
  | left ha hb hra hrb h =>
    cases h' with
    | object h => simp [number_not_object ha, number_not_object hb] at h
    | left => rfl
    | right _ _ hra' hrb' h' =>
      grind
    | array => cases ha
  | right ha hb hra hrb h =>
    cases h' with
    | object h => simp [number_not_object ha, number_not_object hb] at h
    | left _ _ hra' hrb' h' =>
      grind
    | right => rfl
    | array => cases ha
  | array _ _ _ _ _ _ _ _ _ _ _ ih =>
    cases h' with
    | object h => simp [isObject] at h
    | left ha | right ha => cases ha
    | array h' => rw [ih h']

/-! ## Order and brackets -/

theorem joinArrays_matches {n' m m' : Nat} {c c' f' k' g g' : Bool} (h : Matches d e)
    (hn : max n n' = max m m') (hc : (n == n' && c && c') = (m == m' && k && k'))
    (hf : (n == n' && f && f') = (m == m' && g && g')) :
    Matches (joinArrays d n n' c c' f f') (joinArrays e m m' k k' g g') := by
  refine ⟨?_, ?_⟩
  · show CType.same _ _ = true
    simp only [joinArrays, hc, hf, CType.same, beq_self_eq_true, Bool.and_true]
    exact h.same
  · simp only [joinArrays, CType.layout, hn, hc, hf, h.layout]

theorem symm (h : Promotes a b x) : ∃ y, Promotes b a y ∧ Matches x y := by
  induction h with
  | object h => exact ⟨_, .object h.symm, .refl _⟩
  | @left a b ra rb ha hb hra hrb h =>
    rcases h with h | ⟨h, hab⟩
    · exact ⟨a, .right hb ha hrb hra h, .refl _⟩
    · exact ⟨b, .left hb ha hrb hra (.inr ⟨h.symm, beq_symm hab⟩), hab, by rw [number_layout ha, number_layout hb]⟩
  | right ha hb hra hrb h => exact ⟨_, .left hb ha hrb hra (.inl h), .refl _⟩
  | @array d d' e h n n' c c' f f' i i' bs bs' ih =>
    obtain ⟨e', he', hmatch⟩ := ih
    refine ⟨_, .array he' n' n c' c f' f i' i bs' bs, joinArrays_matches hmatch (max_comm n n') ?_ ?_⟩ <;> grind

theorem ranks (h : Promotes a b x) (ha : a.isNumeric = true) (hb : b.isNumeric = true) :
    ∃ ra rb, a.rank = .ok ra ∧ b.rank = .ok rb ∧
      (x = a ∧ rb.value ≤ ra.value ∨ x = b ∧ ra.value < rb.value) := by
  cases h with
  | object h => simp [number_not_object ha, number_not_object hb] at h
  | left _ _ hra hrb h => exact ⟨_, _, hra, hrb, .inl ⟨rfl, by grind⟩⟩
  | right _ _ hra hrb h => exact ⟨_, _, hra, hrb, .inr ⟨rfl, h⟩⟩
  | array => cases ha

theorem assoc_numbers (ha : a.isNumeric = true) (hb : b.isNumeric = true) (hc : c.isNumeric = true)
    (hx : Promotes a b x) (hl : Promotes x c l) (hy : Promotes b c y) (hr : Promotes a y r) : l = r := by
  obtain ⟨ra, rb, hra, hrb, hab⟩ := hx.ranks ha hb
  obtain ⟨_, rc, hrb', hrc, hbc⟩ := hy.ranks hb hc
  rcases hab with ⟨rfl, hab⟩ | ⟨rfl, hab⟩
  · obtain ⟨_, _, hra', hrc', hl⟩ := hl.ranks ha hc
    rcases hbc with ⟨rfl, hbc⟩ | ⟨rfl, hbc⟩
    · obtain ⟨_, _, hra', hrb', hr⟩ := hr.ranks ha hb
      grind
    · obtain ⟨_, _, hra', hrc', hr⟩ := hr.ranks ha hc
      grind
  · obtain rfl := hl.unique hy
    rcases hbc with ⟨rfl, hbc⟩ | ⟨rfl, hbc⟩
    · exact hx.unique hr
    · obtain ⟨_, _, hra', hrc', hr⟩ := hr.ranks ha hc
      grind

theorem array_inv {n' : Nat} {c c' f' i' : Bool} {bs' : Option (List Bool)} {d' : CType}
    (h : Promotes (.array d n c f i bs) (.array d' n' c' f' i' bs') x) :
    ∃ e, Promotes d d' e ∧ x = joinArrays e n n' c c' f f' := by
  cases h with
  | object h => simp [isObject] at h
  | left ha | right ha => cases ha
  | array h => exact ⟨_, h, rfl⟩

theorem assoc_object (hc : c.isObject = true) (hl : Promotes x c l) (hy : Promotes b c y) (hr : Promotes a y r) :
    Matches l r := by
  obtain rfl := hy.eq_object (.inr hc)
  rw [hl.eq_object (.inr hc), hr.eq_object (.inr rfl)]
  exact .refl _

/-- Promotion does not depend on brackets. An object absorbs all; numbers are compared by rank; a level of
arrays is contiguous exactly if all three are and have the same number of dimensions. -/
theorem assoc (hx : Promotes a b x) (hl : Promotes x c l) (hy : Promotes b c y) (hr : Promotes a y r) :
    Matches l r := by
  induction hx generalizing c l y r with
  | object h =>
    rw [hl.eq_object (.inl rfl)]
    rcases h with ha | hb
    · rw [hr.eq_object (.inl ha)]
      exact .refl _
    · obtain rfl := hy.eq_object (.inl hb)
      rw [hr.eq_object (.inr rfl)]
      exact .refl _
  | left ha hb hra hrb h =>
    by_cases hc : c.isObject = true
    · exact assoc_object hc hl hy hr
    · have hnum := (hy.alike (number_not_object hb) (by simpa using hc)).1.symm.trans hb
      rw [assoc_numbers ha hb hnum (.left ha hb hra hrb h) hl hy hr]
      exact .refl _
  | right ha hb hra hrb h =>
    by_cases hc : c.isObject = true
    · exact assoc_object hc hl hy hr
    · have hnum := (hy.alike (number_not_object hb) (by simpa using hc)).1.symm.trans hb
      rw [assoc_numbers ha hb hnum (.right ha hb hra hrb h) hl hy hr]
      exact .refl _
  | @array d d' e h n n' k k' f f' i i' bs bs' ih =>
    cases c with
    | array d'' n'' k'' f'' i'' bs'' =>
      obtain ⟨e1, he1, rfl⟩ := hl.array_inv
      obtain ⟨e2, he2, rfl⟩ := hy.array_inv
      obtain ⟨e3, he3, rfl⟩ := hr.array_inv
      exact joinArrays_matches (ih he1 he2 he3) (max_assoc n n' n'') (by grind) (by grind)
    | object q => exact assoc_object rfl hl hy hr
    | _ => cases (hy.alike rfl rfl).2

end Promotes

/-! ## Main statement -/

/-- Promotion depends neither on the order of its operands nor on brackets: the two orders give results together,
and what they give, like what the two bracketings give where both do, are equal types with the same layout. -/
theorem promotion_commutes_associates (ha : Arithmetic a) (hb : Arithmetic b) (hc : Arithmetic c) :
    ((∃ t, promote a b = .ok t) ↔ ∃ t, promote b a = .ok t) ∧
    (∀ t u, promote a b = .ok t → promote b a = .ok u → Matches t u) ∧
    ∀ l r, (promote a b >>= fun t => promote t c) = .ok l → (promote b c >>= fun t => promote a t) = .ok r →
      Matches l r := by
  have hflip : ∀ {a b t : CType}, Arithmetic a → Arithmetic b → promote a b = .ok t →
      ∃ u, promote b a = .ok u ∧ Matches t u := by
    intro a b t ha hb h
    obtain ⟨u, hu, hmatch⟩ := ((promote_eq_ok ha hb).1 h).symm
    exact ⟨u, (promote_eq_ok hb ha).2 hu, hmatch⟩
  refine ⟨⟨fun ⟨t, h⟩ => ?_, fun ⟨t, h⟩ => ?_⟩, fun t u ht hu => ?_, fun l r hl hr => ?_⟩
  · obtain ⟨u, hu, -⟩ := hflip ha hb h
    exact ⟨u, hu⟩
  · obtain ⟨u, hu, -⟩ := hflip hb ha h
    exact ⟨u, hu⟩
  · obtain ⟨u', hu', hmatch⟩ := hflip ha hb ht
    cases hu.symm.trans hu'
    exact hmatch
  · cases hx : promote a b with
    | error => rw [hx] at hl; cases hl
    | ok x =>
      cases hy : promote b c with
      | error => rw [hy] at hr; cases hr
      | ok y =>
        rw [hx] at hl
        rw [hy] at hr
        have hx := (promote_eq_ok ha hb).1 hx
        have hy := (promote_eq_ok hb hc).1 hy
        exact hx.assoc ((promote_eq_ok hx.arithmetic hc).1 hl) hy ((promote_eq_ok ha hy.arithmetic).1 hr)

/-- A row of contiguous blocks of an element type, each with some number of dimensions. -/
def blocks (element : CType) (ndim : Nat) : CType :=
  .array (.array element ndim true false true none) 1 true true true none

theorem blocks_arithmetic (h : t.isNumeric = true) : (blocks t n).Arithmetic :=
  .array (.array (.number h) ..) ..

/-- Blocks of integers, floats and doubles are promoted to blocks of doubles in each order, and these are
contiguous only where the blocks have the same number of dimensions. -/
theorem blocks_commute_associate :
    (∃ t u, promote (blocks int 2) (blocks float64 2) = .ok t ∧ promote (blocks float64 2) (blocks int 2) = .ok u ∧
      Matches t u ∧ t.layout = [(1, true, true), (2, true, false)]) ∧
    ∃ l r, (promote (blocks int 2) (blocks float64 2) >>= fun t => promote t (blocks float32 3)) = .ok l ∧
      (promote (blocks float64 2) (blocks float32 3) >>= fun t => promote (blocks int 2) t) = .ok r ∧
      Matches l r ∧ l.layout = [(1, true, true), (3, false, false)] := by
  obtain ⟨-, hcomm, hassoc⟩ := promotion_commutes_associates (a := blocks int 2) (b := blocks float64 2)
    (c := blocks float32 3) (blocks_arithmetic rfl) (blocks_arithmetic rfl) (blocks_arithmetic rfl)
  exact ⟨⟨_, _, rfl, rfl, hcomm _ _ rfl rfl, rfl⟩, _, _, rfl, rfl, hassoc _ _ rfl rfl, rfl⟩

end ArrayKernel.CType
