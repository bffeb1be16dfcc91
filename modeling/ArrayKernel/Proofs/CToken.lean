import Mathlib.Data.List.Basic

/-!
# Tokens of C

C reads a text from the left, and each token is the longest that can be read there.
-/

namespace ArrayKernel.C

inductive Token where
  | word (cs : List Char)
  | number (cs : List Char)
  | sign (cs : List Char)
  deriving DecidableEq, Repr

def isWordStart (c : Char) : Bool := c.isAlpha || c == '_'

def isWordChar (c : Char) : Bool := c.isAlphanum || c == '_'

/-- The signs of more than one character. The first characters of each are a sign themselves. -/
def longSigns : List (List Char) :=
  [['+', '+'], ['-', '-'], ['-', '>'], ['<', '<'], ['>', '>'], ['<', '='], ['>', '='], ['=', '='], ['!', '='],
   ['&', '&'], ['|', '|'], ['*', '='], ['/', '='], ['%', '='], ['+', '='], ['-', '='], ['&', '='], ['^', '='],
   ['|', '='], ['<', '<', '='], ['>', '>', '=']]

/-- Whether a number goes on with a character: a sign belongs to a number only after its exponent mark. -/
def continuesNumber (cs : List Char) (c : Char) : Bool :=
  isWordChar c || c == '.' ||
    ((c == '+' || c == '-') && (cs.getLast? == some 'e' || cs.getLast? == some 'E'))

def Token.extend? : Token → Char → Option Token
  | .word cs, c => if isWordChar c then some (.word (cs ++ [c])) else none
  | .number cs, c => if continuesNumber cs c then some (.number (cs ++ [c])) else none
  | .sign cs, c => if longSigns.contains (cs ++ [c]) then some (.sign (cs ++ [c])) else none

def Token.start? (c : Char) : Option Token :=
  if c == ' ' then none
  else if isWordStart c then some (.word [c])
  else if c.isDigit then some (.number [c])
  else some (.sign [c])

def lexFrom : Option Token → List Char → List Token
  | t, [] => t.toList
  | t, c :: cs =>
    match t.bind (·.extend? c) with
    | some t => lexFrom (some t) cs
    | none => t.toList ++ lexFrom (Token.start? c) cs

def lex (s : String) : List Token := lexFrom none s.toList

/-! ## Where tokens end -/

variable {t u : Token} {c : Char} {cs rest : List Char}

def Token.feed? (t : Token) (cs : List Char) : Option Token := cs.foldlM Token.extend? t

theorem lexFrom_feed (h : t.feed? cs = some u) : lexFrom (some t) (cs ++ rest) = lexFrom (some u) rest := by
  induction cs generalizing t with
  | nil =>
    cases h
    rfl
  | cons c cs ih =>
    obtain ⟨v, hv, h⟩ := Option.bind_eq_some_iff.1 h
    simp only [List.cons_append, lexFrom, Option.bind_some, hv]
    exact ih h

theorem lexFrom_ends (h : ∀ c ∈ rest.head?, t.extend? c = none) :
    lexFrom (some t) rest = t :: lexFrom none rest := by
  cases rest with
  | nil => rfl
  | cons c cs => simp [lexFrom, h c rfl]

theorem lexFrom_blank : lexFrom none (' ' :: rest) = lexFrom none rest := rfl

def closers : List Char := [' ', ')', '[', ']', ';', '+']

def Spells (cs : List Char) (ts : List Token) : Prop :=
  ∀ rest, (∀ c ∈ rest.head?, c ∈ closers) → lexFrom none (cs ++ rest) = ts ++ lexFrom none rest

/-! ## Words and numbers -/

def IsWord (x : String) : Prop := ∃ c cs, x.toList = c :: cs ∧ isWordStart c = true ∧ cs.all isWordChar = true

def IsNumber (d : String) : Prop :=
  ∃ c cs, d.toList = c :: cs ∧ c.isDigit = true ∧ (Token.number [c]).feed? cs = some (.number (c :: cs)) ∧
    d.toList.getLast? ≠ some 'e' ∧ d.toList.getLast? ≠ some 'E'

theorem start?_word (h : isWordStart c = true) : Token.start? c = some (.word [c]) := by
  have hc : c ≠ ' ' := by
    rintro rfl
    cases h
  simp [Token.start?, hc, h]

theorem isWordStart_of_isDigit (h : c.isDigit = true) : isWordStart c = false := by
  have hne : c ≠ '_' := by
    rintro rfl
    cases h
  simp only [Char.isDigit, Bool.and_eq_true, decide_eq_true_eq, UInt32.le_iff_toNat_le, ge_iff_le] at h
  delta isWordStart Char.isAlpha Char.isUpper Char.isLower
  simp only [Bool.or_eq_false_iff, Bool.and_eq_false_imp, decide_eq_true_eq, decide_eq_false_iff_not,
    beq_eq_false_iff_ne, UInt32.le_iff_toNat_le, ge_iff_le]
  have h57 : '9'.val.toNat = 57 := rfl
  have h65 : 'A'.val.toNat = 65 := rfl
  have h97 : 'a'.val.toNat = 97 := rfl
  refine ⟨⟨fun hA => ?_, fun ha => ?_⟩, hne⟩ <;> omega

theorem start?_number (h : c.isDigit = true) : Token.start? c = some (.number [c]) := by
  have hc : c ≠ ' ' := by
    rintro rfl
    cases h
  simp [Token.start?, hc, h, isWordStart_of_isDigit h]

theorem feed?_word (h : cs.all isWordChar = true) (bs : List Char) :
    (Token.word bs).feed? cs = some (.word (bs ++ cs)) := by
  induction cs generalizing bs with
  | nil => simp [Token.feed?]
  | cons c cs ih =>
    simp only [List.all_cons, Bool.and_eq_true] at h
    have := ih h.2 (bs ++ [c])
    simp only [Token.feed?] at this
    simp [Token.feed?, Token.extend?, h.1, this]

theorem spells_word {x : String} (h : IsWord x) : Spells x.toList [.word x.toList] := by
  obtain ⟨c, cs, hx, hc, hcs⟩ := h
  intro rest hrest
  rw [hx, List.cons_append]
  show lexFrom (Token.start? c) (cs ++ rest) = _
  rw [start?_word hc, lexFrom_feed (feed?_word hcs [c]), lexFrom_ends fun d hd => ?_]
  · rfl
  · have := hrest d hd
    simp only [closers, List.mem_cons, List.not_mem_nil, or_false] at this
    rcases this with rfl | rfl | rfl | rfl | rfl | rfl <;> rfl

theorem continuesNumber_closer (hc : c ∈ closers) (he : cs.getLast? ≠ some 'e') (hE : cs.getLast? ≠ some 'E') :
    continuesNumber cs c = false := by
  simp only [closers, List.mem_cons, List.not_mem_nil, or_false] at hc
  rcases hc with rfl | rfl | rfl | rfl | rfl | rfl <;> simp [continuesNumber, isWordChar, he, hE]

theorem spells_number {d : String} (h : IsNumber d) : Spells d.toList [.number d.toList] := by
  obtain ⟨c, cs, hx, hc, hcs, he, hE⟩ := h
  rw [hx] at he hE
  intro rest hrest
  rw [hx, List.cons_append]
  show lexFrom (Token.start? c) (cs ++ rest) = _
  rw [start?_number hc, lexFrom_feed hcs, lexFrom_ends fun b hb => ?_]
  · rfl
  · simp [Token.extend?, continuesNumber_closer (hrest b hb) he hE]

end ArrayKernel.C
