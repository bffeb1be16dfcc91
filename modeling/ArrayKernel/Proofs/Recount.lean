import ArrayKernel.Proofs.Naming

/-! # Texts that count functions -/

namespace ArrayKernel.Emit

/-- A part of a text: a character, or the name of a function behind a word, with its number. -/
inductive Part where
  | char (c : Char)
  | counted (word name : String) (number : Nat)

namespace Part

def words : List String := ["__mini_mangle_", "Calling function "]

def chars (start : Nat) : Part → List Char
  | .char c => [c]
  | .counted word name number => (word ++ name ++ "_" ++ toString (start + number)).toList

/-- Only names of functions are counted; their line breaks may be written as escapes. -/
def Names (called : String → Prop) : Part → Prop
  | .char _ => True
  | .counted word name _ => word ∈ words ∧ (called name ∨ ∃ x, called x ∧ name = escaped x)

end Part

def filled (start : Nat) (parts : List Part) : String := String.ofList (parts.flatMap (·.chars start))

/-- The texts are the same, but in the first one functions are numbered from `m`, in the second from `n`. -/
def Recounted (called : String → Prop) (m n : Nat) (a b : String) : Prop :=
  ∃ parts : List Part, (∀ p ∈ parts, p.Names called) ∧ a = filled m parts ∧ b = filled n parts

section

variable {called : String → Prop} {m n start : Nat} {a b c d : String} {parts : List Part}

theorem toList_filled (start : Nat) (parts : List Part) :
    (filled start parts).toList = parts.flatMap (·.chars start) := String.toList_ofList

theorem filled_append (start : Nat) (ps qs : List Part) :
    filled start (ps ++ qs) = filled start ps ++ filled start qs := by
  refine String.toList_inj.1 ?_
  simp [toList_filled]

theorem filled_chars (start : Nat) (cs : List Char) : filled start (cs.map .char) = String.ofList cs := by
  refine String.toList_inj.1 ?_
  induction cs with
  | nil => rfl
  | cons c cs ih => simpa [toList_filled, Part.chars] using ih

theorem Recounted.refl (a : String) : Recounted called m n a a := by
  refine ⟨a.toList.map .char, ?_, ?_, ?_⟩
  · simp [Part.Names]
  all_goals rw [filled_chars, String.ofList_toList]

theorem Recounted.eq (h : Recounted called n n a b) : a = b := by
  obtain ⟨parts, -, rfl, rfl⟩ := h
  rfl

theorem Recounted.append (h : Recounted called m n a b) (h' : Recounted called m n c d) :
    Recounted called m n (a ++ c) (b ++ d) := by
  obtain ⟨ps, hps, rfl, rfl⟩ := h
  obtain ⟨qs, hqs, rfl, rfl⟩ := h'
  refine ⟨ps ++ qs, ?_, (filled_append m ps qs).symm, (filled_append n ps qs).symm⟩
  intro p hp
  rcases List.mem_append.1 hp with hp | hp
  · exact hps p hp
  · exact hqs p hp

theorem Recounted.after (s : String) (h : Recounted called m n a b) : Recounted called m n (s ++ a) (s ++ b) :=
  (Recounted.refl s).append h

theorem Recounted.before (s : String) (h : Recounted called m n a b) : Recounted called m n (a ++ s) (b ++ s) :=
  h.append (.refl s)

theorem Recounted.counted {word name : String} (hword : word ∈ Part.words) (hname : called name) (number : Nat) :
    Recounted called m n (word ++ (name ++ "_" ++ toString (m + number)))
      (word ++ (name ++ "_" ++ toString (n + number))) := by
  refine ⟨[.counted word name number], ?_, ?_, ?_⟩
  · simp [Part.Names, hword, hname]
  all_goals
    refine String.toList_inj.1 ?_
    simp [toList_filled, Part.chars]

theorem Recounted.intercalate {as bs : List String} (h : List.Forall₂ (Recounted called m n) as bs) (between : String) :
    Recounted called m n (between.intercalate as) (between.intercalate bs) := by
  induction h with
  | nil => exact .refl _
  | cons hab hrest ih =>
    cases hrest with
    | nil =>
      exact hab
    | cons hcd hmore =>
      rw [String.intercalate_cons_cons, String.intercalate_cons_cons]
      exact (hab.append (.refl _)).append ih

/-! ## What is read of a text -/

theorem chars_counted (start : Nat) (word name : String) (number : Nat) :
    Part.chars start (.counted word name number) =
      (word ++ name ++ "_").toList ++ (toString (start + number)).toList := by
  simp [Part.chars]

theorem chars_ne_nil (start : Nat) (p : Part) : p.chars start ≠ [] := by
  cases p with
  | char c => simp [Part.chars]
  | counted word name number => simp [chars_counted]

theorem Recounted.isEmpty (h : Recounted called m n a b) : a.isEmpty = b.isEmpty := by
  obtain ⟨parts, -, rfl, rfl⟩ := h
  have hempty : ∀ start, filled start parts = "" ↔ parts = [] := by
    intro start
    rw [← String.toList_inj, toList_filled]
    cases parts with
    | nil => simp
    | cons p ps => simp [chars_ne_nil]
  rw [Bool.eq_iff_iff, String.isEmpty_iff, String.isEmpty_iff, hempty, hempty]

theorem count_toString {x : Char} (hx : x.isDigit = false) (k : Nat) : (toString k).toList.count x = 0 := by
  rw [List.count_eq_zero]
  intro hmem
  rw [Build.isDigit_of_mem_toString hmem] at hx
  cases hx

theorem Recounted.countChar (h : Recounted called m n a b) {x : Char} (hx : x.isDigit = false) :
    countChar x a = countChar x b := by
  obtain ⟨parts, -, rfl, rfl⟩ := h
  unfold Emit.countChar
  rw [toList_filled, toList_filled, List.count_flatMap, List.count_flatMap]
  congr 1
  refine List.map_congr_left fun p _ => ?_
  cases p with
  | char c => rfl
  | counted word name number =>
    simp only [Function.comp_apply, chars_counted, List.count_append, count_toString hx]

/-! ## Parentheses -/

theorem eq_open_of_starts (hnames : ∀ p ∈ parts, p.Names called)
    (h : ['('] <+: (filled start parts).toList) : ∃ ps, parts = .char '(' :: ps := by
  rw [toList_filled] at h
  cases parts with
  | nil => simp at h
  | cons p ps =>
    cases p with
    | char c =>
      obtain ⟨rest, hrest⟩ := h
      simp only [List.flatMap_cons, Part.chars, List.singleton_append, List.cons.injEq] at hrest
      exact ⟨ps, by rw [← hrest.1]⟩
    | counted word name number =>
      have hword := (hnames _ (List.mem_cons_self ..)).1
      obtain ⟨rest, hrest⟩ := h
      rw [List.flatMap_cons, chars_counted] at hrest
      have hhead := congrArg List.head? hrest
      simp only [Part.words, List.mem_cons, List.not_mem_nil, or_false] at hword
      rcases hword with rfl | rfl <;> simp at hhead

theorem eq_close_of_ends (h : [')'] <:+ (filled start parts).toList) : ∃ ps, parts = ps ++ [.char ')'] := by
  rw [toList_filled] at h
  rcases List.eq_nil_or_concat parts with rfl | ⟨ps, p, rfl⟩
  · simp at h
  · rw [List.concat_eq_append, List.flatMap_append, List.flatMap_singleton] at h
    obtain ⟨rest, hrest⟩ := h
    have hlast := congrArg List.getLast? hrest
    cases p with
    | char c =>
      simp only [Part.chars, List.getLast?_append, List.getLast?_singleton, Option.some_or,
        Option.some.injEq] at hlast
      exact ⟨ps, by rw [List.concat_eq_append, hlast]⟩
    | counted word name number =>
      rw [chars_counted, List.getLast?_append, List.getLast?_append, List.getLast?_append] at hlast
      obtain ⟨c, hc⟩ := Option.isSome_iff_exists.1
        (List.getLast?_isSome.2 (Build.toString_ne_empty (start + number)))
      rw [hc] at hlast
      have hdigit := Build.isDigit_of_mem_toString (List.mem_of_getLast? hc)
      simp only [List.getLast?_singleton, Option.some_or, Option.some.injEq] at hlast
      rw [← hlast] at hdigit
      exact absurd hdigit (by decide)

theorem stripped_of_parentheses (a : String) (h : ['('] <+: a.toList) (h' : [')'] <:+ a.toList) :
    stripped a = String.ofList (a.toList.drop 1).dropLast := by
  have hstart : a.startsWith "(" = true := by
    rw [String.startsWith_string_iff]
    exact h
  have hend : a.endsWith ")" = true := by
    rw [String.endsWith_eq_endsWith_toSlice, String.Slice.endsWith_string_iff]
    simpa using h'
  rw [stripped, hstart, hend]
  rfl

theorem stripped_of_not (a : String) (h : ¬ (['('] <+: a.toList ∧ [')'] <:+ a.toList)) : stripped a = a := by
  rw [stripped, if_neg]
  intro hboth
  rw [Bool.and_eq_true, String.startsWith_string_iff, String.endsWith_eq_endsWith_toSlice,
    String.Slice.endsWith_string_iff] at hboth
  exact h (by simpa using hboth)

theorem Recounted.stripped (h : Recounted called m n a b) : Recounted called m n (stripped a) (stripped b) := by
  obtain ⟨parts, hnames, rfl, rfl⟩ := h
  by_cases hboth : ['('] <+: (filled m parts).toList ∧ [')'] <:+ (filled m parts).toList
  · obtain ⟨ps, rfl⟩ := eq_open_of_starts hnames hboth.1
    obtain ⟨qs, hqs⟩ := eq_close_of_ends hboth.2
    cases qs with
    | nil => simp at hqs
    | cons q qs =>
      obtain ⟨rfl, rfl⟩ := List.cons.inj hqs
      have hfilled : ∀ start, (filled start (.char '(' :: (qs ++ [.char ')']))).toList =
          '(' :: ((filled start qs).toList ++ [')']) := by
        intro start
        simp [toList_filled, Part.chars]
      have hstripped : ∀ start, Emit.stripped (filled start (.char '(' :: (qs ++ [.char ')']))) =
          filled start qs := by
        intro start
        rw [stripped_of_parentheses _ (by rw [hfilled]; simp)
          (by rw [hfilled]; exact ⟨'(' :: (filled start qs).toList, by simp⟩), hfilled]
        simp
      refine ⟨qs, ?_, hstripped m, hstripped n⟩
      intro p hp
      exact hnames p (by simp [hp])
  · have hboth' : ¬ (['('] <+: (filled n parts).toList ∧ [')'] <:+ (filled n parts).toList) := by
      rintro ⟨h1, h2⟩
      refine hboth ⟨?_, ?_⟩
      · obtain ⟨ps, rfl⟩ := eq_open_of_starts hnames h1
        simp [toList_filled, Part.chars]
      · obtain ⟨ps, rfl⟩ := eq_close_of_ends h2
        rw [toList_filled, List.flatMap_append]
        exact List.suffix_append _ _
    rw [stripped_of_not _ hboth, stripped_of_not _ hboth']
    exact ⟨parts, hnames, rfl, rfl⟩

/-! ## Line breaks -/

def escape (c : Char) : List Char := if c == '\n' then ['\\', 'n'] else [c]

theorem toList_escaped (s : String) : (escaped s).toList = s.toList.flatMap escape := String.toList_ofList

theorem flatMap_escape {cs : List Char} (h : '\n' ∉ cs) : cs.flatMap escape = cs := by
  induction cs with
  | nil => rfl
  | cons c cs ih =>
    rw [List.mem_cons, not_or] at h
    rw [List.flatMap_cons, ih h.2, escape, if_neg (by simpa using Ne.symm h.1)]
    rfl

theorem escaped_escaped (s : String) : escaped (escaped s) = escaped s := by
  refine String.toList_inj.1 ?_
  rw [toList_escaped (escaped s)]
  refine flatMap_escape ?_
  rw [toList_escaped]
  intro hmem
  obtain ⟨c, -, hc⟩ := List.mem_flatMap.1 hmem
  unfold escape at hc
  split at hc
  · simp at hc
  · next hne =>
    rw [List.mem_singleton] at hc
    exact hne (by simp [← hc])

def Part.escaped : Part → List Part
  | .char c => (escape c).map .char
  | .counted word name number => [.counted word (Emit.escaped name) number]

theorem chars_escaped {p : Part} (hp : p.Names called) (start : Nat) :
    p.escaped.flatMap (·.chars start) = (p.chars start).flatMap escape := by
  cases p with
  | char c =>
    rw [Part.escaped, Part.chars, List.flatMap_singleton, List.flatMap_map]
    exact List.flatMap_singleton' (escape c)
  | counted word name number =>
    have hword : '\n' ∉ word.toList := by
      have hmem := hp.1
      simp only [Part.words, List.mem_cons, List.not_mem_nil, or_false] at hmem
      rcases hmem with rfl | rfl <;> decide
    have hdigits : '\n' ∉ (toString (start + number)).toList :=
      fun hmem => absurd (Build.isDigit_of_mem_toString hmem) (by decide)
    rw [Part.escaped, List.flatMap_singleton, chars_counted, chars_counted, List.flatMap_append,
      flatMap_escape hdigits]
    simp [toList_escaped, flatMap_escape hword, escape]

theorem Recounted.escaped (h : Recounted called m n a b) : Recounted called m n (escaped a) (escaped b) := by
  obtain ⟨parts, hnames, rfl, rfl⟩ := h
  have hfilled : ∀ start, Emit.escaped (filled start parts) = filled start (parts.flatMap Part.escaped) := by
    intro start
    refine String.toList_inj.1 ?_
    rw [toList_escaped, toList_filled, toList_filled, List.flatMap_assoc, List.flatMap_assoc]
    refine List.flatMap_congr fun p hp => ?_
    exact (chars_escaped (hnames p hp) start).symm
  refine ⟨parts.flatMap Part.escaped, ?_, hfilled m, hfilled n⟩
  intro q hq
  obtain ⟨p, hp, hqp⟩ := List.mem_flatMap.1 hq
  cases p with
  | char c =>
    obtain ⟨x, -, rfl⟩ := List.mem_map.1 hqp
    trivial
  | counted word name number =>
    rw [Part.escaped, List.mem_singleton] at hqp
    subst hqp
    obtain ⟨hword, hname⟩ := hnames _ hp
    refine ⟨hword, .inr ?_⟩
    rcases hname with hname | ⟨x, hx, rfl⟩
    · exact ⟨name, hname, rfl⟩
    · exact ⟨x, hx, escaped_escaped x⟩

end

end ArrayKernel.Emit
