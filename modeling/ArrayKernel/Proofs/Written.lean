import ArrayKernel.Proofs.CStatement

/-!
# Written expressions

An expression is written with parentheses around each operation. C reads it as it is meant, with one
exception: a minus before a negative number makes a decrement of the two signs.
-/

namespace ArrayKernel.C

inductive Term where
  | name (x : String)
  | number (isNegative : Bool) (digits : String)
  | unary (op : String) (e : Term)
  | binary (op : String) (l r : Term)
  | index (p i : Term)
  | follow (p : Term)
  deriving DecidableEq, Repr

namespace Term

def text : Term → String
  | .name x => x
  | .number isNegative d => (if isNegative then "-" else "") ++ d
  | .unary op e => "(" ++ op ++ e.text ++ ")"
  | .binary op l r => "(" ++ l.text ++ " " ++ op ++ " " ++ r.text ++ ")"
  | .index p i => p.text ++ "[" ++ i.text ++ "]"
  | .follow p => "(*" ++ p.text ++ ")"

def isNegative : Term → Bool
  | .number isNegative _ => isNegative
  | _ => false

def digits : Term → String
  | .number _ d => d
  | _ => ""

/-- Names are words and operators are those of C. No constant is a pointer. -/
def Proper : Term → Prop
  | .name x => IsWord x
  | .number _ d => IsNumber d
  | .unary op e => op ∈ unaryOperators ∧ e.Proper
  | .binary op l r => op ∈ binaryOperators ∧ l.Proper ∧ r.Proper
  | .index p i => p.isNegative = false ∧ p.Proper ∧ i.Proper
  | .follow p => p.Proper

def clashes : Term → Bool
  | .name _ | .number .. => false
  | .unary op e => (op == "-" && e.isNegative) || e.clashes
  | .binary _ l r => l.clashes || r.clashes
  | .index p i => p.clashes || i.clashes
  | .follow p => p.clashes

/-! ## Meaning -/

section

variable {V : Type} (M : Meaning V) (σ : State V)

def value : Term → V
  | .name x => σ (.variable x)
  | .number isNegative d => if isNegative then M.unary "-" (M.number d) else M.number d
  | .unary op e => M.unary op e.value
  | .binary op l r => M.binary op l.value r.value
  | .index p i => σ (.cell (M.binary "+" p.value i.value))
  | .follow p => σ (.cell p.value)

def place? : Term → Option (Place V)
  | .name x => some (.variable x)
  | .index p i => some (.cell (M.binary "+" (p.value M σ) (i.value M σ)))
  | .follow p => some (.cell (p.value M σ))
  | _ => none

end

/-! ## Tokens -/

def tokens : Term → List Token
  | .name x => [.word x.toList]
  | .number isNegative d => (if isNegative then [.sign ['-']] else []) ++ [.number d.toList]
  | .unary op e =>
    .sign ['('] :: (if op = "-" ∧ e.isNegative = true then [.sign ['-', '-'], .number e.digits.toList]
      else .sign op.toList :: e.tokens) ++ [.sign [')']]
  | .binary op l r => .sign ['('] :: l.tokens ++ .sign op.toList :: r.tokens ++ [.sign [')']]
  | .index p i => p.tokens ++ .sign ['['] :: i.tokens ++ [.sign [']']]
  | .follow p => .sign ['('] :: .sign ['*'] :: p.tokens ++ [.sign [')']]

def code : Term → Expr
  | .name x => .name x
  | .number isNegative d => if isNegative then .unary "-" (.number d) else .number d
  | .unary op e =>
    if op = "-" ∧ e.isNegative = true then .unary "--" (.number e.digits) else .unary op e.code
  | .binary op l r => .binary op l.code r.code
  | .index p i => .index p.code i.code
  | .follow p => .unary "*" p.code

variable {e p i l r : Term} {op : String} {rest : List Char} {c : Char} {ts : List Token}

theorem eq_number (h : e.isNegative = true) : e = .number true e.digits := by
  cases e with
  | number b d =>
    cases h
    rfl
  | _ => cases h

theorem text_starts (h : e.Proper) : ∃ c cs, e.text.toList = c :: cs ∧
    (c = '(' ∨ isWordStart c = true ∨ c.isDigit = true ∨ c = '-' ∧ e.isNegative = true) := by
  induction e with
  | name x =>
    obtain ⟨c, cs, hx, hc, -⟩ := h
    exact ⟨c, cs, hx, .inr (.inl hc)⟩
  | number b d =>
    obtain ⟨c, cs, hx, hc, -⟩ := h
    cases b with
    | false => exact ⟨c, cs, by simpa [text] using hx, .inr (.inr (.inl hc))⟩
    | true => exact ⟨'-', c :: cs, by simp [text, hx], .inr (.inr (.inr ⟨rfl, rfl⟩))⟩
  | index p i ihp =>
    obtain ⟨c, cs, hx, hc⟩ := ihp h.2.1
    refine ⟨c, cs ++ "[".toList ++ i.text.toList ++ "]".toList, by simp [text, hx], ?_⟩
    rcases hc with hc | hc | hc | ⟨-, hc⟩
    · exact .inl hc
    · exact .inr (.inl hc)
    · exact .inr (.inr (.inl hc))
    · rw [h.1] at hc
      cases hc
  | unary | binary | follow => exact ⟨'(', _, by simp [text]; rfl, .inl rfl⟩

theorem lexFrom_single (hc : c ∈ ['(', ')', '[', ']', ';']) :
    lexFrom none (c :: rest) = .sign [c] :: lexFrom none rest := by
  have hends : ∀ d, (Token.sign [c]).extend? d = none := by
    intro d
    simp only [List.mem_cons, List.not_mem_nil, or_false] at hc
    rcases hc with rfl | rfl | rfl | rfl | rfl <;> simp [Token.extend?, longSigns]
  have hstart : Token.start? c = some (.sign [c]) := by
    simp only [List.mem_cons, List.not_mem_nil, or_false] at hc
    rcases hc with rfl | rfl | rfl | rfl | rfl <;> rfl
  show lexFrom (Token.start? c) rest = _
  rw [hstart, lexFrom_ends fun d _ => hends d]

theorem lexFrom_then_blank {t : Option Token} {cs : List Char} :
    lexFrom t (cs ++ ' ' :: rest) = lexFrom t cs ++ lexFrom none rest := by
  have hblank : ∀ t : Token, t.extend? ' ' = none := by
    have hlast : ∀ s ∈ longSigns, s.getLast? ≠ some ' ' := by decide
    rintro (cs | cs | cs)
    · rfl
    · simp [Token.extend?, isWordChar, continuesNumber]
    · have hnot : cs ++ [' '] ∉ longSigns := fun hmem => hlast _ hmem (by simp)
      simp [Token.extend?, hnot]
  induction cs generalizing t with
  | nil => cases t <;> simp [lexFrom, hblank, Token.start?]
  | cons c cs ih =>
    simp only [List.cons_append, lexFrom]
    split <;> simp [ih]

theorem lexFrom_operator (h : op ∈ binaryOperators) :
    lexFrom none (op.toList ++ ' ' :: rest) = .sign op.toList :: lexFrom none rest := by
  have hsigns : ∀ op ∈ binaryOperators, lexFrom none op.toList = [.sign op.toList] := by decide
  rw [lexFrom_then_blank, hsigns op h, List.singleton_append]

theorem lexFrom_pair {o : Char} (ho : Token.start? o = some (.sign [o])) (h : [o, c] ∉ longSigns) :
    lexFrom none (o :: c :: rest) = .sign [o] :: lexFrom none (c :: rest) := by
  show lexFrom (Token.start? o) (c :: rest) = _
  rw [ho]
  refine lexFrom_ends fun d hd => ?_
  cases hd
  simp [Token.extend?, h]

/-- An operator before the start of an expression is a token of its own, unless two signs meet. -/
theorem lexFrom_unary (h : op ∈ unaryOperators)
    (hc : c = '(' ∨ isWordStart c = true ∨ c.isDigit = true ∨ c = '-' ∧ op ≠ "-") :
    lexFrom none (op.toList ++ c :: rest) = .sign op.toList :: lexFrom none (c :: rest) := by
  have hnot : ∀ {b : Char}, b ∈ ['=', '+', '>'] → c ≠ b := by
    rintro b hb rfl
    simp only [List.mem_cons, List.not_mem_nil, or_false] at hb
    rcases hb with rfl | rfl | rfl <;> rcases hc with hc | hc | hc | hc <;> simp_all [isWordStart]
  have hminus : op = "-" → c ≠ '-' := by
    rintro rfl rfl
    rcases hc with hc | hc | hc | hc <;> simp_all [isWordStart]
  have heq : c ≠ '=' := hnot (by simp)
  have hplus : c ≠ '+' := hnot (by simp)
  have hgt : c ≠ '>' := hnot (by simp)
  simp only [unaryOperators, List.mem_cons, List.not_mem_nil, or_false] at h
  rcases h with rfl | rfl | rfl | rfl
  · have hm := hminus rfl
    exact lexFrom_pair (o := '-') rfl (by simp [longSigns, hm, heq, hgt])
  · exact lexFrom_pair (o := '+') rfl (by simp [longSigns, hplus, heq])
  · exact lexFrom_pair (o := '~') rfl (by simp [longSigns])
  · exact lexFrom_pair (o := '!') rfl (by simp [longSigns, heq])

theorem text_spells (h : e.Proper) : Spells e.text.toList e.tokens := by
  induction e with
  | name x => exact spells_word h
  | number b d =>
    cases b with
    | false => simpa [text, tokens] using spells_number h
    | true =>
      intro rest hrest
      obtain ⟨c, cs, hx, hc, -⟩ := id h
      have hd := spells_number h rest hrest
      rw [hx, List.cons_append] at hd
      have hminus : lexFrom none ("-".toList ++ c :: (cs ++ rest)) = _ :=
        lexFrom_unary (by simp [unaryOperators]) (.inr (.inr (.inl hc)))
      rw [hd] at hminus
      simpa [text, tokens, hx] using hminus
  | unary op e ih =>
    intro rest hrest
    have he := ih h.2 (')' :: rest) (by simp [closers])
    rw [lexFrom_single (by simp)] at he
    by_cases hneg : op = "-" ∧ e.isNegative = true
    · obtain ⟨rfl, hneg⟩ := hneg
      obtain ⟨d, rfl⟩ : ∃ d, e = .number true d := ⟨_, eq_number hneg⟩
      obtain ⟨c, cs, hx, hc, -⟩ := id h.2
      have hd := spells_number h.2 (')' :: rest) (by simp [closers])
      rw [lexFrom_single (by simp), hx, List.cons_append] at hd
      have hdecrement : lexFrom none ('-' :: '-' :: c :: (cs ++ ')' :: rest)) =
          .sign ['-', '-'] :: lexFrom none (c :: (cs ++ ')' :: rest)) :=
        lexFrom_ends (t := .sign ['-', '-']) fun b _ => by simp [Token.extend?, longSigns]
      rw [hd] at hdecrement
      simp [text, tokens, isNegative, digits, hx, lexFrom_single, hdecrement]
    · obtain ⟨c, cs, hx, hc⟩ := text_starts h.2
      have hop : lexFrom none (op.toList ++ c :: (cs ++ ')' :: rest)) = _ := lexFrom_unary h.1 (by
        rcases hc with hc | hc | hc | ⟨hc, hc'⟩
        · exact .inl hc
        · exact .inr (.inl hc)
        · exact .inr (.inr (.inl hc))
        · exact .inr (.inr (.inr ⟨hc, fun hop => hneg ⟨hop, hc'⟩⟩)))
      rw [hx, List.cons_append] at he
      rw [he] at hop
      simp [text, tokens, hneg, hx, lexFrom_single, hop]
  | binary op l r ihl ihr =>
    intro rest hrest
    have h1 := ihl h.2.1 (' ' :: (op.toList ++ ' ' :: (r.text.toList ++ ')' :: rest))) (by simp [closers])
    have h2 := ihr h.2.2 (')' :: rest) (by simp [closers])
    rw [lexFrom_blank, lexFrom_operator h.1, h2, lexFrom_single (by simp)] at h1
    simp [text, tokens, lexFrom_single, h1]
  | index p i ihp ihi =>
    intro rest hrest
    have h1 := ihp h.2.1 ('[' :: (i.text.toList ++ ']' :: rest)) (by simp [closers])
    have h2 := ihi h.2.2 (']' :: rest) (by simp [closers])
    rw [lexFrom_single (by simp), h2, lexFrom_single (by simp)] at h1
    simp [text, tokens, h1]
  | follow p ih =>
    intro rest hrest
    have hp := ih h (')' :: rest) (by simp [closers])
    obtain ⟨c, cs, hx, hc⟩ := text_starts (e := p) h
    have hne : c ≠ '=' := by
      rintro rfl
      rcases hc with hc | hc | hc | hc <;> simp [isWordStart] at hc
    have hstar : lexFrom none ('*' :: c :: (cs ++ ')' :: rest)) = _ :=
      lexFrom_pair rfl (by simp [longSigns, hne])
    rw [lexFrom_single (by simp), hx, List.cons_append] at hp
    rw [hp] at hstar
    simp [text, tokens, hx, lexFrom_single, hstar]

/-! ## Reading -/

/-- How many steps after its first token the reader takes at the end of an expression. -/
def indices : Term → Nat
  | .index p _ => p.indices + 1
  | _ => 1

theorem indices_le : e.indices ≤ e.tokens.length := by
  induction e with
  | index p i ihp =>
    simp only [indices, tokens, List.length_append, List.length_cons, List.length_nil]
    omega
  | number b d => cases b <;> simp [indices, tokens]
  | _ => simp [indices, tokens]

theorem indices_pos : 0 < e.indices := by cases e <;> simp [indices]

def Over (ts : List Token) : Prop :=
  ∀ t ∈ ts.head?, t ≠ .sign ['['] ∧ t ≠ .sign ['+', '+']

theorem suffixes_over {n : Nat} {x : Expr} (h : Over ts) : suffixes (n + 1) x ts = some (x, ts) := by
  unfold suffixes
  split
  · exact absurd rfl (h _ rfl).1
  · exact absurd rfl (h _ rfl).2
  · rfl

theorem isUnary_of_mem (h : op ∈ unaryOperators) : isUnary op.toList = true := by
  simp [isUnary, h]

theorem ne_star_of_mem (h : op ∈ unaryOperators) : op ≠ "*" := by
  rintro rfl
  exact absurd h (by decide)

theorem ne_open_of_mem (h : op ∈ unaryOperators) : op.toList ≠ ['('] := by
  simp only [unaryOperators, List.mem_cons, List.not_mem_nil, or_false] at h
  rcases h with rfl | rfl | rfl | rfl <;> decide

section

variable {n : Nat} {x y : Expr} {us us' : List Token} {cs : List Char}

theorem expression_over (h : operand n ts = some (x, .sign cs :: us)) (hcs : isBinary cs = false) :
    expression (n + 1) ts = some (x, .sign cs :: us) := by
  simp [expression, h, hcs]

theorem expression_binary (h : operand n ts = some (x, .sign cs :: us)) (hcs : isBinary cs = true)
    (h' : operand n us = some (y, us')) : expression (n + 1) ts = some (.binary (String.ofList cs) x y, us') := by
  simp [expression, h, hcs, h']

theorem operand_paren (h : expression n ts = some (x, .sign [')'] :: us)) :
    operand (n + 1) (.sign ['('] :: ts) = suffixes n x us := by
  simp [operand, h]

theorem operand_unary (hcs : isUnary cs = true) (hne : cs ≠ ['(']) (h : operand n ts = some (x, us)) :
    operand (n + 1) (.sign cs :: ts) = some (.unary (String.ofList cs) x, us) := by
  simp [operand, hcs, hne, h]

theorem suffixes_index (h : expression n ts = some (y, .sign [']'] :: us)) :
    suffixes (n + 1) x (.sign ['['] :: ts) = suffixes n (.index x y) us := by
  simp [suffixes, h]

/-- The reader takes an expression that is over, if it takes those that are not negative numbers. -/
theorem operand_over_of (hread : ∀ {n ts}, e.isNegative = false → 3 * e.tokens.length ≤ n →
      operand n (e.tokens ++ ts) = suffixes (n - e.indices) e.code ts)
    (hn : 3 * e.tokens.length ≤ n) (hts : Over ts) : operand n (e.tokens ++ ts) = some (e.code, ts) := by
  by_cases hneg : e.isNegative = true
  · obtain ⟨d, rfl⟩ : ∃ d, e = .number true d := ⟨_, eq_number hneg⟩
    obtain ⟨m, rfl⟩ : ∃ m, n = m + 3 := ⟨n - 3, by simp [tokens] at hn; omega⟩
    have hd : operand (m + 2) (.number d.toList :: ts) = some (.number d, ts) := by
      simp [operand, suffixes_over hts]
    exact (operand_unary rfl (by decide) hd).trans rfl
  · have hle := indices_le (e := e)
    have hpos := indices_pos (e := e)
    rw [hread (by simpa using hneg) hn]
    obtain ⟨m, hm⟩ : ∃ m, n - e.indices = m + 1 := ⟨n - e.indices - 1, by omega⟩
    rw [hm, suffixes_over hts]

end

theorem over_sign {cs : List Char} (h : cs ≠ ['['] ∧ cs ≠ ['+', '+']) : Over (.sign cs :: ts) := by
  intro t ht
  cases ht
  exact ⟨fun heq => h.1 (Token.sign.inj heq), fun heq => h.2 (Token.sign.inj heq)⟩

theorem isBinary_of_mem (h : op ∈ binaryOperators) : isBinary op.toList = true := by
  simp [isBinary, h]

theorem over_of_mem (h : op ∈ binaryOperators) : Over (.sign op.toList :: ts) := by
  have hsigns : ∀ op ∈ binaryOperators, op.toList ≠ ['['] ∧ op.toList ≠ ['+', '+'] := by decide
  exact over_sign (hsigns op h)

theorem operand_tokens {n : Nat} (h : e.Proper) (hneg : e.isNegative = false)
    (hn : 3 * e.tokens.length ≤ n) : operand n (e.tokens ++ ts) = suffixes (n - e.indices) e.code ts := by
  induction e generalizing n ts with
  | name x =>
    obtain ⟨m, rfl⟩ : ∃ m, n = m + 1 := ⟨n - 1, by simp [tokens] at hn; omega⟩
    simp [tokens, operand, indices, code]
  | number b d =>
    cases hneg
    obtain ⟨m, rfl⟩ : ∃ m, n = m + 1 := ⟨n - 1, by simp [tokens] at hn; omega⟩
    simp [tokens, operand, indices, code]
  | unary op e ih =>
    by_cases hclash : op = "-" ∧ e.isNegative = true
    · obtain ⟨rfl, hneg'⟩ := hclash
      obtain ⟨d, rfl⟩ : ∃ d, e = .number true d := ⟨_, eq_number hneg'⟩
      obtain ⟨m, rfl⟩ : ∃ m, n = m + 5 := ⟨n - 5, by simp [tokens, isNegative] at hn; omega⟩
      have hd : operand (m + 2) (.number d.toList :: .sign [')'] :: ts) = some (.number d, .sign [')'] :: ts) := by
        simpa [operand] using suffixes_over (over_sign (by decide))
      have hdecrement := operand_unary (show isUnary ['-', '-'] = true from rfl) (by decide) hd
      have := operand_paren (expression_over hdecrement rfl)
      simpa [tokens, code, indices, isNegative, digits] using this
    · simp only [tokens, if_neg hclash, List.length_append, List.length_cons, List.length_nil] at hn
      obtain ⟨m, rfl⟩ : ∃ m, n = m + 3 := ⟨n - 3, by omega⟩
      have he : operand m (e.tokens ++ .sign [')'] :: ts) = _ :=
        operand_over_of (ih h.2) (by omega) (over_sign (by decide))
      have := operand_paren (expression_over (operand_unary (isUnary_of_mem h.1) (ne_open_of_mem h.1) he) rfl)
      simpa [tokens, code, indices, hclash] using this
  | binary op l r ihl ihr =>
    obtain ⟨m, rfl⟩ : ∃ m, n = m + 2 := ⟨n - 2, by simp [tokens] at hn; omega⟩
    simp only [tokens, List.length_append, List.length_cons, List.length_nil] at hn
    have hl : operand m (l.tokens ++ .sign op.toList :: (r.tokens ++ .sign [')'] :: ts)) = _ :=
      operand_over_of (ihl h.2.1) (by omega) (over_of_mem h.1)
    have hr : operand m (r.tokens ++ .sign [')'] :: ts) = _ :=
      operand_over_of (ihr h.2.2) (by omega) (over_sign (by decide))
    have := operand_paren (expression_binary hl (isBinary_of_mem h.1) hr)
    simpa [tokens, code, indices] using this
  | index p i ihp ihi =>
    simp only [tokens, List.length_append, List.length_cons, List.length_nil] at hn
    have hle := indices_le (e := p)
    have hp : operand n (p.tokens ++ .sign ['['] :: (i.tokens ++ .sign [']'] :: ts)) = _ :=
      ihp h.2.1 h.1 (by omega)
    obtain ⟨m, hm⟩ : ∃ m, n - p.indices = m + 2 := ⟨n - p.indices - 2, by omega⟩
    have hi : operand m (i.tokens ++ .sign [']'] :: ts) = _ :=
      operand_over_of (ihi h.2.2) (by omega) (over_sign (by decide))
    rw [hm, suffixes_index (expression_over hi rfl)] at hp
    have hm' : n - (p.index i).indices = m + 1 := by
      simp only [indices]
      omega
    rw [hm']
    simpa [tokens, code] using hp
  | follow p ih =>
    simp only [tokens, List.length_append, List.length_cons, List.length_nil] at hn
    obtain ⟨m, rfl⟩ : ∃ m, n = m + 3 := ⟨n - 3, by omega⟩
    have hp : operand m (p.tokens ++ .sign [')'] :: ts) = _ :=
      operand_over_of (ih h) (by omega) (over_sign (by decide))
    have hstar := operand_unary (show isUnary ['*'] = true from rfl) (by decide) hp
    have := operand_paren (expression_over hstar rfl)
    simpa [tokens, code, indices] using this

theorem operand_over {n : Nat} (h : e.Proper) (hn : 3 * e.tokens.length ≤ n) (hts : Over ts) :
    operand n (e.tokens ++ ts) = some (e.code, ts) :=
  operand_over_of (operand_tokens h) hn hts

theorem expression_text {n : Nat} {cs : List Char} (h : e.Proper) (hn : 3 * e.tokens.length < n)
    (hcs : isBinary cs = false) (hover : cs ≠ ['['] ∧ cs ≠ ['+', '+']) :
    expression n (e.tokens ++ .sign cs :: ts) = some (e.code, .sign cs :: ts) := by
  obtain ⟨m, rfl⟩ : ∃ m, n = m + 1 := ⟨n - 1, by omega⟩
  exact expression_over (operand_over h (by omega) (over_sign hover)) hcs

theorem lastExpression_text {n : Nat} (h : e.Proper) (hn : 3 * e.tokens.length < n) :
    lastExpression n (e.tokens ++ [.sign [';']]) = some e.code := by
  have : expression n (e.tokens ++ [.sign [';']]) = _ := expression_text h hn rfl (by decide)
  simp [lastExpression, this]

theorem declaration_tokens {cs : List Char} (h : cs ≠ ['*']) : declaration (e.tokens ++ .sign cs :: ts) = none := by
  have hdecl : ∀ {cs : List Char} {ts : List Token}, cs ≠ ['*'] → declarator (.sign cs :: ts) = none := by
    intro cs ts hcs
    unfold declarator
    split <;> simp_all
  induction e generalizing cs ts with
  | name x => exact hdecl h
  | number b d => cases b <;> rfl
  | index p i ihp =>
    have : declaration (p.tokens ++ .sign ['['] :: (i.tokens ++ [.sign [']']] ++ .sign cs :: ts)) = none :=
      ihp (by decide)
    simpa [tokens] using this
  | _ => rfl

section

variable {n : Nat} {cs : List Char}

theorem statement_assign (hl : l.Proper) (hr : r.Proper) (hn : 3 * l.tokens.length < n ∧ 3 * r.tokens.length < n)
    (hcs : isBinary cs = false) (hstar : cs ≠ ['*']) (hover : cs ≠ ['['] ∧ cs ≠ ['+', '+']) (hend : cs ≠ [';'])
    (hassign : assignment? cs = some op) :
    statement n (l.tokens ++ .sign cs :: (r.tokens ++ [.sign [';']])) = some (.assign op l.code r.code) := by
  rw [statement, declaration_tokens hstar]
  simp [expression_text hl hn.1 hcs hover, lastExpression_text hr hn.2, hassign, hend]

end

/-! ## Lines -/

theorem lex_sign (op : String) :
    lexFrom none (' ' :: (op.toList ++ '=' :: ' ' :: rest)) = lex (op ++ "=") ++ lexFrom none rest := by
  have hblank : lexFrom none ((op ++ "=").toList ++ ' ' :: rest) = _ := lexFrom_then_blank
  simpa [lexFrom_blank, lex] using hblank

def assignmentLine (op : String) (l r : Term) : String := l.text ++ " " ++ op ++ "= " ++ r.text ++ ";"

theorem lex_assignmentLine (hl : l.Proper) (hr : r.Proper) :
    lex (assignmentLine op l r) = l.tokens ++ (lex (op ++ "=") ++ (r.tokens ++ [.sign [';']])) := by
  have h1 := text_spells hl (' ' :: (op.toList ++ '=' :: ' ' :: (r.text.toList ++ [';']))) (by simp [closers])
  have h2 : lexFrom none (r.text.toList ++ [';']) = r.tokens ++ [.sign [';']] :=
    text_spells hr [';'] (by simp [closers])
  rw [lex_sign, h2] at h1
  simpa [lex, assignmentLine] using h1

theorem assignment_sign : ∀ op ∈ inPlaceOperators ++ [""],
    lex (op ++ "=") = [.sign (op ++ "=").toList] ∧ isBinary (op ++ "=").toList = false ∧
      (op ++ "=").toList ≠ ['*'] ∧ ((op ++ "=").toList ≠ ['['] ∧ (op ++ "=").toList ≠ ['+', '+']) ∧
      (op ++ "=").toList ≠ [';'] ∧ assignment? (op ++ "=").toList = some op := by
  decide

theorem read_assignment (hl : l.Proper) (hr : r.Proper) (hop : op ∈ inPlaceOperators ++ [""]) :
    read (assignmentLine op l r) = some (.assign op l.code r.code) := by
  obtain ⟨hlex, hbinary, hstar, hover, hend, hassign⟩ := assignment_sign op hop
  rw [read, lex_assignmentLine hl hr, hlex, List.singleton_append]
  exact statement_assign hl hr (by simp; omega) hbinary hstar hover hend hassign

def incrementLine (e : Term) : String := e.text ++ "++" ++ ";"

def incremented (e : Term) : Expr :=
  if e.isNegative then .unary "-" (.advance (.number e.digits)) else .advance e.code

theorem read_increment (h : e.Proper) : read (incrementLine e) = some (.expression e.incremented) := by
  have hlex : lex (incrementLine e) = e.tokens ++ [.sign ['+', '+'], .sign [';']] := by
    have hspells : lexFrom none (e.text.toList ++ ['+', '+', ';']) = e.tokens ++ [.sign ['+', '+'], .sign [';']] :=
      text_spells h ['+', '+', ';'] (by simp [closers])
    simpa [lex, incrementLine] using hspells
  have hend : Over [.sign [';']] := over_sign (by decide)
  rw [read, hlex, statement, declaration_tokens (by decide)]
  by_cases hneg : e.isNegative = true
  · obtain ⟨d, rfl⟩ : ∃ d, e = .number true d := ⟨_, eq_number hneg⟩
    have hd : operand 10 [.number d.toList, .sign ['+', '+'], .sign [';']] =
        some (.advance (.number d), [.sign [';']]) := by
      simp [operand, suffixes]
    have hread := expression_over (operand_unary (show isUnary ['-'] = true from rfl) (by decide) hd) rfl
    simp [tokens, incremented, isNegative, digits, hread]
  · have hle := indices_le (e := e)
    generalize hn : 3 * List.length _ = n
    simp only [List.length_append, List.length_cons, List.length_nil] at hn
    obtain ⟨m, rfl⟩ : ∃ m, n = m + 1 := ⟨n - 1, by omega⟩
    obtain ⟨k, hk⟩ : ∃ k, m - e.indices = k + 2 := ⟨m - e.indices - 2, by omega⟩
    have hread : operand m (e.tokens ++ [.sign ['+', '+'], .sign [';']]) = _ :=
      operand_tokens h (by simpa using hneg) (by omega)
    rw [hk, suffixes, suffixes_over hend] at hread
    simp [expression_over hread rfl, incremented, hneg]

def IsType (s : String) : Prop :=
  ∃ w ts, lex s = .word w :: ts ∧ ∀ t ∈ ts, (∃ x, t = .word x) ∨ t = .sign ['*']

def declarationLine (type x : String) (r : Term) : String := type ++ " " ++ x ++ " = " ++ r.text ++ ";"

theorem read_declaration {type x : String} (ht : IsType type) (hx : IsWord x) (hr : r.Proper) :
    read (declarationLine type x r) = some (.declare x r.code) := by
  obtain ⟨w, ts, hlex, hts⟩ := ht
  have hline : lex (declarationLine type x r) =
      .word w :: (ts ++ .word x.toList :: .sign ['='] :: (r.tokens ++ [.sign [';']])) := by
    have h1 := spells_word hx (' ' :: '=' :: ' ' :: (r.text.toList ++ [';'])) (by simp [closers])
    have h2 : lexFrom none (r.text.toList ++ [';']) = r.tokens ++ [.sign [';']] :=
      text_spells hr [';'] (by simp [closers])
    have h3 : lexFrom none (' ' :: '=' :: ' ' :: (r.text.toList ++ [';'])) =
        .sign ['='] :: lexFrom none (r.text.toList ++ [';']) :=
      lex_sign ""
    have h4 : lexFrom none (type.toList ++ ' ' :: (x.toList ++ ' ' :: '=' :: ' ' :: (r.text.toList ++ [';']))) = _ :=
      lexFrom_then_blank
    rw [h1, h3, h2, show lexFrom none type.toList = _ from hlex] at h4
    simpa [lex, declarationLine] using h4
  have hdecl : declarator (ts ++ .word x.toList :: .sign ['='] :: (r.tokens ++ [.sign [';']])) =
      some (x, r.tokens ++ [.sign [';']]) := by
    clear hline hlex
    induction ts with
    | nil => simp [declarator]
    | cons t ts ih =>
      have hrest := ih fun u hu => hts u (by simp [hu])
      have hsign : ∀ us, ts ++ .word x.toList :: .sign ['='] :: (r.tokens ++ [.sign [';']]) ≠ .sign ['='] :: us := by
        intro us hus
        cases ts with
        | nil => cases hus
        | cons u ts =>
          cases hus
          rcases hts (.sign ['=']) (by simp) with ⟨y, hy⟩ | hy <;> cases hy
      rcases hts t (by simp) with ⟨y, rfl⟩ | rfl
      · rw [List.cons_append, declarator.eq_2 _ _ fun us => hsign us]
        exact hrest
      · exact hrest
  rw [read, hline, statement, declaration, hdecl]
  dsimp only
  rw [lastExpression_text hr (by simp; omega), Option.map_some]

/-! ## What is read means what was meant -/

section

variable {V : Type} {M : Meaning V} {σ : State V}

theorem value?_code (h : e.Proper) : e.code.value? M σ = if e.clashes then none else some (e.value M σ) := by
  induction e with
  | name x => rfl
  | number b d => cases b <;> simp [code, clashes, value, Expr.value?, unaryOperators]
  | unary op e ih =>
    have hstar := ne_star_of_mem h.1
    have hop : op ∈ unaryOperators := h.1
    by_cases hclash : op = "-" ∧ e.isNegative = true
    · simp [code, clashes, hclash, Expr.value?, unaryOperators]
    · have hc : (op == "-" && e.isNegative) = false := by
        simpa using hclash
      simp only [code, if_neg hclash, clashes, hc, Bool.false_or, Expr.value?, ih h.2]
      by_cases he : e.clashes = true <;> simp [he, hstar, hop, value]
  | binary op l r ihl ihr =>
    simp only [code, clashes, value, Expr.value?, ihl h.2.1, ihr h.2.2]
    by_cases hl : l.clashes = true <;> by_cases hr : r.clashes = true <;> simp [hl, hr]
  | index p i ihp ihi =>
    simp only [code, clashes, value, Expr.value?, ihp h.2.1, ihi h.2.2]
    by_cases hp : p.clashes = true <;> by_cases hi : i.clashes = true <;> simp [hp, hi]
  | follow p ih =>
    have hp : p.Proper := h
    simp only [code, clashes, value, Expr.value?, ih hp]
    by_cases hc : p.clashes = true <;> simp [hc]

theorem place?_code (h : e.Proper) : e.code.place? M σ = if e.clashes then none else e.place? M σ := by
  cases e with
  | name x => rfl
  | number b d => cases b <;> simp [code, clashes, place?, Expr.place?]
  | unary op e =>
    have hstar := ne_star_of_mem h.1
    by_cases hclash : op = "-" ∧ e.isNegative = true <;>
      simp [code, hclash, place?, Expr.place?, hstar]
  | binary op l r => simp [code, place?, Expr.place?]
  | index p i =>
    simp only [code, clashes, place?, Expr.place?, value?_code h.2.1, value?_code h.2.2]
    by_cases hp : p.clashes = true <;> by_cases hi : i.clashes = true <;> simp [hp, hi]
  | follow p =>
    have hp : p.Proper := h
    simp only [code, clashes, place?, Expr.place?, value?_code hp]
    by_cases hc : p.clashes = true <;> simp [hc]

end

end Term

end ArrayKernel.C
