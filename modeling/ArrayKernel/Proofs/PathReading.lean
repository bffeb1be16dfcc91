import ArrayKernel.Path.Parse
import Mathlib.Data.List.Basic

/-!
# Reading paths back

A path is a sequence of steps, each with a condition on an attribute or without one. Written as text and read
again, it gives the selectors of its steps, one after the other.
-/

namespace ArrayKernel.Path

/-! ## Steps and their text -/

/-- Where a step goes: to children, to descendants or nowhere. A kind keeps the nodes of that kind only. -/
inductive Move where
  | child (kind : Option String)
  | descendant (kind : Option String)
  | this

/-- An attribute of this name exists and is this text. -/
structure Condition where
  name : String
  text : String

structure Step where
  move : Move
  condition : Option Condition := none

def kindText : Option String → String
  | none => "*"
  | some kind => kind

def Move.text : Move → String
  | .child kind => kindText kind
  | .descendant kind => "//" ++ kindText kind
  | .this => "."

def Condition.inBrackets (c : Condition) : String := "[@" ++ c.name ++ "='" ++ c.text ++ "']"

def Step.text (s : Step) : String := s.move.text ++ s.condition.elim "" Condition.inBrackets

/-- A later step stands after a slash, unless its text begins with two. -/
def Step.afterSlash (s : Step) : Bool :=
  match s.move with
  | .descendant _ => false
  | _ => true

def laterText : List Step → String
  | [] => ""
  | s :: rest => (if s.afterSlash then "/" else "") ++ s.text ++ laterText rest

/-- The text of a path. -/
def pathText : List Step → String
  | [] => ""
  | s :: rest => s.text ++ laterText rest

/-! ## Names -/

/-- The characters with a meaning in paths. -/
def isPathChar (c : Char) : Bool := endsWord c || isMark c || c == '\'' || c == '"'

structure IsName (s : String) : Prop where
  nonempty : s ≠ ""
  free : ∀ c ∈ s.toList, isPathChar c = false

def Move.Readable : Move → Prop
  | .child (some kind) => IsName kind ∧ kind ≠ "not"
  | .descendant (some kind) => IsName kind
  | _ => True

structure Condition.Readable (c : Condition) : Prop where
  name : IsName c.name
  text : '\'' ∉ c.text.toList

/-- The names of a step are free of path characters, a child is not called `not`, and the text of the condition
holds no quote. -/
structure Step.Readable (s : Step) : Prop where
  move : s.move.Readable
  condition : ∀ c ∈ s.condition, c.Readable

/-! ## Tokens -/

variable {c : Char} {cs rest : List Char}

theorem tokens_cons (c : Char) (cs : List Char) :
    tokens (c :: cs) = (firstToken c cs).1.toList ++ tokens (firstToken c cs).2.1 := by
  rw [tokens]

/-- The text goes on with a character that ends a word. -/
def Ends (rest : List Char) : Prop := ∀ c ∈ rest.head?, endsWord c = true

theorem tokens_word {s : String} (hs : IsName s) (hrest : Ends rest) :
    tokens (s.toList ++ rest) = .word s :: tokens rest := by
  obtain ⟨c, cs, hcs⟩ : ∃ c cs, s.toList = c :: cs := List.exists_cons_of_ne_nil (by simpa using hs.nonempty)
  have hfree := hs.free
  rw [hcs] at hfree ⊢
  simp only [isPathChar, Bool.or_eq_false_iff, beq_eq_false_iff_ne, List.forall_mem_cons] at hfree
  obtain ⟨⟨⟨⟨hword, hmark⟩, hquote⟩, hquotes⟩, htail⟩ := hfree
  have htail : ∀ d ∈ cs, (!endsWord d) = true := fun d hd => by simp [(htail d hd).1.1.1]
  have hstop : rest.takeWhile (fun d => !endsWord d) = [] ∧ rest.dropWhile (fun d => !endsWord d) = rest := by
    cases rest with
    | nil => simp
    | cons d ds => simp [hrest d rfl]
  have hne : ∀ d, endsWord d = true → c ≠ d := fun d hd h => by simp [← h, hword] at hd
  have hblank : Text.isBlank c = false := by
    simp only [endsWord, Bool.or_eq_false_iff] at hword
    exact hword.2
  rw [List.cons_append, tokens_cons]
  unfold firstToken
  simp only [beq_eq_false_iff_ne.2 hquote, beq_eq_false_iff_ne.2 hquotes, beq_eq_false_iff_ne.2 (hne '/' (by simp [endsWord])),
    beq_eq_false_iff_ne.2 (hne '(' (by simp [endsWord])), beq_eq_false_iff_ne.2 (hne '=' (by simp [endsWord])), hmark, hblank, hword]
  simp [List.takeWhile_append_of_pos htail, List.dropWhile_append_of_pos htail, hstop, ← hcs]

theorem tokens_mark (hc : c ∈ ['.', '*', '[', ']', '@']) :
    tokens (c :: rest) = .mark (String.singleton c) :: tokens rest := by
  rw [tokens_cons]
  simp only [List.mem_cons, List.not_mem_nil, or_false] at hc
  rcases hc with rfl | rfl | rfl | rfl | rfl <;> simp [firstToken, isMark]

/-- One of the marks that can be doubled. -/
theorem tokens_single (hc : c ∈ ['/', '=']) (h : rest.head? ≠ some c) :
    tokens (c :: rest) = .mark (String.singleton c) :: tokens rest := by
  rw [tokens_cons]
  simp only [List.mem_cons, List.not_mem_nil, or_false] at hc
  rcases hc with rfl | rfl <;> cases rest <;> simp_all [firstToken]

theorem tokens_slashes : tokens ('/' :: '/' :: rest) = .mark "//" :: tokens rest := by
  rw [tokens_cons]
  simp [firstToken]

theorem tokens_quoted {s : String} (hs : '\'' ∉ s.toList) :
    tokens ('\'' :: (s.toList ++ '\'' :: rest)) = .mark ("'" ++ s ++ "'") :: tokens rest := by
  have hquoted : quoted? '\'' (s.toList ++ '\'' :: rest) = some ("'" ++ s ++ "'", rest) := by
    have hfree : ∀ d ∈ s.toList, (d != '\'') = true := fun d hd => by
      rw [bne_iff_ne]
      rintro rfl
      exact hs hd
    simp [quoted?, List.takeWhile_append_of_pos hfree, List.dropWhile_append_of_pos hfree, ← String.toList_inj]
  have hfirst : firstToken '\'' (s.toList ++ '\'' :: rest) =
      (some (.mark ("'" ++ s ++ "'")), ⟨rest, quoted?_shorter hquoted⟩) := by
    simp only [firstToken, beq_self_eq_true, Bool.true_or, if_true]
    split
    · rename_i h
      rw [hquoted] at h
      cases h
      rfl
    · rename_i h
      rw [hquoted] at h
      cases h
  rw [tokens_cons, hfirst]
  rfl

/-! ## The tokens of a path -/

def kindToken : Option String → Token
  | none => .mark "*"
  | some kind => .word kind

def Move.tokens : Move → List Token
  | .child kind => [kindToken kind]
  | .descendant kind => [.mark "//", kindToken kind]
  | .this => [.mark "."]

def Condition.tokens (c : Condition) : List Token :=
  [.mark "[", .mark "@", .word c.name, .mark "=", .mark ("'" ++ c.text ++ "'"), .mark "]"]

def Step.tokens (s : Step) : List Token := s.move.tokens ++ s.condition.elim [] Condition.tokens

def laterTokens : List Step → List Token
  | [] => []
  | s :: rest => (if s.afterSlash then [.mark "/"] else []) ++ s.tokens ++ laterTokens rest

theorem IsName.head_ne {s : String} (h : IsName s) {d : Char} (hd : isPathChar d = true) :
    (s.toList ++ rest).head? ≠ some d := by
  obtain ⟨c, cs, hcs⟩ : ∃ c cs, s.toList = c :: cs := List.exists_cons_of_ne_nil (by simpa using h.nonempty)
  have hc := h.free c (by simp [hcs])
  rw [hcs, List.cons_append, List.head?_cons]
  rintro ⟨⟩
  simp [hc] at hd

theorem tokens_kind {kind : Option String} (h : ∀ k ∈ kind, IsName k) (hrest : Ends rest) :
    tokens ((kindText kind).toList ++ rest) = kindToken kind :: tokens rest := by
  cases kind with
  | none => exact tokens_mark (c := '*') (by simp)
  | some k => exact tokens_word (h k rfl) hrest

theorem tokens_move {m : Move} (hm : m.Readable) (hrest : Ends rest) :
    tokens (m.text.toList ++ rest) = m.tokens ++ tokens rest := by
  cases m with
  | child kind =>
    refine tokens_kind (fun k hk => ?_) hrest
    obtain rfl : kind = some k := hk
    exact hm.1
  | descendant kind =>
    have hkind : ∀ k ∈ kind, IsName k := fun k hk => by
      obtain rfl : kind = some k := hk
      exact hm
    simp only [Move.text, String.toList_append, String.reduceToList, List.cons_append, List.nil_append, tokens_slashes,
      tokens_kind hkind hrest, Move.tokens]
  | this => exact tokens_mark (c := '.') (by simp)

theorem tokens_condition {c : Condition} (hc : c.Readable) :
    tokens (c.inBrackets.toList ++ rest) = c.tokens ++ tokens rest := by
  have hopen : ∀ cs, tokens ('[' :: '@' :: cs) = .mark "[" :: .mark "@" :: tokens cs := fun cs => by
    rw [tokens_mark (by simp), tokens_mark (by simp)]
    rfl
  have hvalue : tokens ('=' :: '\'' :: (c.text.toList ++ '\'' :: ']' :: rest)) =
      .mark "=" :: .mark ("'" ++ c.text ++ "'") :: .mark "]" :: tokens rest := by
    rw [tokens_single (by simp) (by simp), tokens_quoted hc.text, tokens_mark (by simp)]
    rfl
  have hends : Ends ('=' :: '\'' :: (c.text.toList ++ '\'' :: ']' :: rest)) := by simp [Ends, endsWord]
  simp only [Condition.inBrackets, String.toList_append, String.reduceToList, List.append_assoc, List.cons_append,
    List.nil_append, hopen, tokens_word hc.name hends, hvalue, Condition.tokens]

theorem ends_laterText (steps : List Step) : Ends (laterText steps).toList := by
  cases steps with
  | nil => simp [laterText, Ends]
  | cons s rest =>
    obtain ⟨m, c⟩ := s
    cases m <;> simp [laterText, Step.afterSlash, Step.text, Move.text, Ends, endsWord]

theorem tokens_step {s : Step} (hs : s.Readable) (hrest : Ends rest) :
    tokens (s.text.toList ++ rest) = s.tokens ++ tokens rest := by
  obtain ⟨m, c⟩ := s
  cases c with
  | none =>
    simp only [Step.text, Step.tokens, Option.elim_none, String.append_empty, List.append_nil]
    exact tokens_move hs.move hrest
  | some c =>
    have hends : Ends (c.inBrackets.toList ++ rest) := by simp [Condition.inBrackets, Ends, endsWord]
    simp only [Step.text, Step.tokens, Option.elim_some, String.toList_append, List.append_assoc]
    rw [tokens_move hs.move hends, tokens_condition (hs.condition c rfl)]

theorem tokens_laterText {steps : List Step} (h : ∀ s ∈ steps, s.Readable) :
    tokens (laterText steps).toList = laterTokens steps := by
  induction steps with
  | nil => simp [laterText, laterTokens, tokens]
  | cons s rest ih =>
    have hs := h s (by simp)
    have hstep := tokens_step hs (ends_laterText rest)
    rw [ih fun t ht => h t (by simp [ht])] at hstep
    simp only [laterText, laterTokens, String.toList_append, List.append_assoc, ← hstep]
    obtain ⟨m, c⟩ := s
    -- A child or the node itself follows after one slash, which is not the first of two.
    have hslash : ∀ cs : List Char, cs.head? ≠ some '/' → tokens ("/".toList ++ cs) = [.mark "/"] ++ tokens cs :=
      fun cs hcs => tokens_single (c := '/') (by simp) hcs
    cases m with
    | descendant kind => rfl
    | this => exact hslash _ (by simp [Step.text, Move.text])
    | child kind =>
      refine hslash _ ?_
      cases kind with
      | none => simp [Step.text, Move.text, kindText]
      | some k =>
        simp only [Step.text, Move.text, kindText, String.toList_append, List.append_assoc]
        exact hs.move.1.head_ne (by simp [isPathChar, endsWord])

/-- The text of a path is cut into the tokens of its steps. -/
theorem tokenize_pathText {s : Step} {steps : List Step} (h : ∀ t ∈ s :: steps, t.Readable) :
    tokenize (pathText (s :: steps)) = s.tokens ++ laterTokens steps := by
  rw [tokenize, pathText, String.toList_append, tokens_step (h s (by simp)) (ends_laterText steps),
    tokens_laterText fun t ht => h t (by simp [ht])]

/-! ## Reading one piece -/

variable {α β : Type} {m : Reading α} {f : α → Reading β} {ts us vs : List Token} {a : α} {b : β} {t : Token}

/-- Reading from a list of tokens gives a result and leaves a list of tokens. -/
def Reads (m : Reading α) (ts : List Token) (a : α) (rest : List Token) : Prop := m.run ts = .ok (a, rest)

theorem Reads.bind (h : Reads m ts a us) (h' : Reads (f a) us b vs) : Reads (m >>= f) ts b vs := by
  unfold Reads at *
  rw [StateT.run_bind, h]
  exact h'

theorem Reads.tryCatch (h : Reads m ts a us) (handler : Fault → Reading α) : Reads (tryCatch m handler) ts a us := by
  have hrun : (MonadExcept.tryCatch m handler).run ts = MonadExcept.tryCatch (m.run ts) fun e => (handler e).run ts := rfl
  unfold Reads at *
  rw [hrun, h]
  rfl

theorem reads_pure : Reads (pure a) ts a ts := rfl

theorem reads_next? : Reads next? (t :: ts) (some t) ts := rfl

theorem reads_next?_nil : Reads next? [] none [] := rfl

theorem reads_next : Reads next (t :: ts) t ts := rfl

def Move.selector : Move → Selector
  | .child none => .anyChild
  | .child (some kind) => .children kind
  | .descendant kind => .descendants kind
  | .this => .this

def Condition.inner (c : Condition) : Selector := .attribute (.singleton c.name) (some (.text c.text))

def Condition.selector (c : Condition) : Selector := .holds [c.inner]

theorem splitOn_name {s : String} (hs : IsName s) : (s.toList.splitOn '.').map String.ofList = [s] := by
  have hdot : '.' ∉ s.toList := fun h => by simpa [isPathChar, isMark] using hs.free '.' h
  rw [List.splitOn_eq_singleton hdot]
  simp

theorem reads_value (x : String) : Reads readValue (.mark ("'" ++ x ++ "'") :: ts) (.text x) ts := by
  have hstart : ("'" ++ x ++ "'").startsWith "'" = true := by simp [String.startsWith_string_iff]
  have hinner : String.ofList ((("'" ++ x ++ "'").toList.drop 1).dropLast) = x := by simp
  refine reads_next.bind ?_
  simp only [hstart, Bool.true_or, if_true, hinner]
  rfl

theorem reads_attribute {c : Condition} (hc : c.Readable) :
    Reads readAttribute (.word c.name :: .mark "=" :: .mark ("'" ++ c.text ++ "'") :: ts) c.inner ts := by
  refine reads_next.bind (reads_next?.bind ((reads_value c.text).bind (reads_pure.bind ?_)))
  rw [splitOn_name hc.name]
  exact reads_pure

theorem reads_move {m : Move} (hm : m.Readable) (depth : Nat) :
    ∃ t us, m.tokens = t :: us ∧ t ≠ .mark "/" ∧ ∀ ts, Reads (readSelector (depth + 1) t) (us ++ ts) m.selector ts := by
  rcases m with (_ | kind) | (_ | kind) | _
  · exact ⟨.mark "*", [], rfl, by decide, fun ts => by rw [readSelector]; exact reads_pure⟩
  · refine ⟨.word kind, [], rfl, by simp, fun ts => ?_⟩
    rw [readSelector]
    · exact reads_pure
    · exact hm.2
  · exact ⟨.mark "//", [.mark "*"], rfl, by decide, fun ts => by rw [readSelector]; exact reads_next.bind reads_pure⟩
  · exact ⟨.mark "//", [.word kind], rfl, by decide, fun ts => by rw [readSelector]; exact reads_next.bind reads_pure⟩
  · exact ⟨.mark ".", [], rfl, by decide, fun ts => by rw [readSelector]; exact reads_pure⟩

theorem reads_condition {c : Condition} (hc : c.Readable) (depth : Nat) :
    Reads (readSelector (depth + 5) (.mark "[")) (c.tokens.tail ++ ts) c.selector ts := by
  have hattribute : Reads (readSelector (depth + 2) (.mark "@"))
      (.word c.name :: .mark "=" :: .mark ("'" ++ c.text ++ "'") :: .mark "]" :: ts) c.inner (.mark "]" :: ts) := by
    rw [readSelector]
    exact reads_attribute hc
  have hclose : Reads (readChain (depth + 2) [c.inner] (.mark "]")) ts c.selector ts := by
    rw [readChain]
    exact reads_pure
  rw [readSelector, readPredicate]
  refine reads_next.bind ?_
  rw [readChain]
  exact hattribute.bind (reads_next?.bind (reads_pure.bind hclose))

/-! ## Reading all pieces -/

def Step.selectors (s : Step) : List Selector := s.move.selector :: (s.condition.map Condition.selector).toList

variable {limit fuel n : Nat} {selector : Selector} {selectors : List Selector} {s : Step} {steps : List Step}

/-- What may follow a piece of a path: nothing, or tokens that are read to their end, after one slash or at once. -/
def Continues (limit fuel : Nat) (ts : List Token) (selectors : List Selector) : Prop :=
  ts = [] ∧ selectors = [] ∨ ∃ t us, (ts = .mark "/" :: t :: us ∨ ts = t :: us ∧ t ≠ .mark "/") ∧
    ∀ n, fuel ≤ n → Reads (readAll limit n t) us selectors []

theorem reads_piece (h : Reads (readSelector limit t) us selector ts) (hts : Continues limit fuel ts selectors)
    (hn : fuel < n) : Reads (readAll limit n t) us (selector :: selectors) [] := by
  obtain ⟨n, rfl⟩ : ∃ k, n = k + 1 := Nat.exists_eq_add_one.2 (by omega)
  rw [readAll]
  refine (h.tryCatch _).bind ?_
  obtain ⟨rfl, rfl⟩ | ⟨t', us', hnext, hread⟩ := hts
  · exact reads_next?_nil.bind reads_pure
  have hrest := hread n (by omega)
  obtain rfl | ⟨rfl, hne⟩ := hnext
  · exact reads_next?.bind (reads_next?.bind (hrest.bind reads_pure))
  · refine reads_next?.bind ?_
    split
    · rename_i h
      cases h
    · rename_i h
      exact absurd (Option.some.inj h) hne
    · rename_i h
      cases h
      exact hrest.bind reads_pure

theorem reads_step (hlimit : 5 ≤ limit) (hs : s.Readable) (hts : Continues limit fuel ts selectors) :
    ∃ t us, s.tokens = t :: us ∧ t ≠ .mark "/" ∧
      ∀ n, fuel + 2 ≤ n → Reads (readAll limit n t) (us ++ ts) (s.selectors ++ selectors) [] := by
  obtain ⟨depth, rfl⟩ := Nat.exists_eq_add_of_le' hlimit
  obtain ⟨m, c⟩ := s
  obtain ⟨t, us, htokens, hne, hmove⟩ := reads_move hs.move (depth + 4)
  cases c with
  | none =>
    exact ⟨t, us, by simp [Step.tokens, htokens], hne, fun n hn => reads_piece (hmove ts) hts (by omega)⟩
  | some c =>
    have hcondition : Continues (depth + 5) (fuel + 1) (c.tokens ++ ts) (c.selector :: selectors) :=
      .inr ⟨.mark "[", c.tokens.tail ++ ts, .inr ⟨rfl, by decide⟩,
        fun n hn => reads_piece (reads_condition (hs.condition c rfl) depth) hts hn⟩
    refine ⟨t, us ++ c.tokens, by simp [Step.tokens, htokens], hne, fun n hn => ?_⟩
    rw [List.append_assoc]
    exact reads_piece (hmove _) hcondition hn

theorem continues_later (hlimit : 5 ≤ limit) (h : ∀ s ∈ steps, s.Readable) :
    Continues limit (2 * steps.length) (laterTokens steps) (steps.flatMap Step.selectors) := by
  induction steps with
  | nil => exact .inl ⟨rfl, rfl⟩
  | cons s rest ih =>
    obtain ⟨hs, hrest⟩ := List.forall_mem_cons.1 h
    obtain ⟨t, us, htokens, hne, hreads⟩ := reads_step hlimit hs (ih hrest)
    refine .inr ⟨t, us ++ laterTokens rest, ?_, hreads⟩
    rw [laterTokens, htokens]
    cases s.afterSlash with
    | false => exact .inr ⟨rfl, hne⟩
    | true => exact .inl rfl

theorem length_tokens (s : Step) : 1 ≤ s.tokens.length := by
  obtain ⟨m, c⟩ := s
  cases m <;> simp [Step.tokens, Move.tokens]

theorem length_laterTokens (steps : List Step) : steps.length ≤ (laterTokens steps).length := by
  induction steps with
  | nil => exact Nat.zero_le _
  | cons s rest ih =>
    have hs := length_tokens s
    simp only [laterTokens, List.length_cons, List.length_append]
    omega

/-- Reading the text of a path gives the selectors of its steps. -/
theorem parse_pathText (hne : steps ≠ []) (h : ∀ s ∈ steps, s.Readable) :
    parse (pathText steps) = .ok (steps.flatMap Step.selectors) := by
  obtain ⟨s, rest, rfl⟩ := List.exists_cons_of_ne_nil hne
  obtain ⟨hs, hrest⟩ := List.forall_mem_cons.1 h
  obtain ⟨limit, hlimit⟩ : ∃ n, n = 4 * (s.tokens ++ laterTokens rest).length + 4 := ⟨_, rfl⟩
  have hlength := hlimit
  have hfirst := length_tokens s
  have hlater := length_laterTokens rest
  rw [List.length_append] at hlength
  have hdepth : 5 ≤ limit := by omega
  obtain ⟨t, us, htokens, -, hreads⟩ := reads_step hdepth hs (continues_later hdepth hrest)
  have hread : (readAll limit limit t).run (us ++ laterTokens rest) = .ok _ := hreads limit (by omega)
  rw [htokens, List.cons_append] at hlimit
  unfold parse
  simp only [tokenize_pathText h, htokens, List.cons_append, ← hlimit, hread]
  rfl

end ArrayKernel.Path
