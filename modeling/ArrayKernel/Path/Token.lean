import ArrayKernel.Text.Lines

/-! # Tokens of paths -/

namespace ArrayKernel.Path

inductive Token where
  | mark (s : String)
  | word (s : String)
  deriving Repr, DecidableEq

def endsWord (c : Char) : Bool := "/[]()@=".contains c || Text.isBlank c

def isMark (c : Char) : Bool := "/.*[]()@".contains c

theorem dropWhile_shorter (p : Char → Bool) (cs : List Char) :
    (cs.dropWhile p).length ≤ cs.length := by
  induction cs with
  | nil => simp
  | cons c cs ih =>
    rw [List.dropWhile_cons]
    split
    · simp; omega
    · simp

def quoted? (quote : Char) (cs : List Char) : Option (String × List Char) :=
  match cs.dropWhile (· != quote) with
  | [] => none
  | _ :: rest => some (String.ofList ([quote] ++ cs.takeWhile (· != quote) ++ [quote]), rest)

theorem quoted?_shorter {quote : Char} {cs rest : List Char} {s : String}
    (h : quoted? quote cs = some (s, rest)) : rest.length ≤ cs.length := by
  unfold quoted? at h
  split at h
  · cases h
  · rename_i c r heq
    have hr : r = rest := (Prod.mk.inj (Option.some.inj h)).2
    have hl : (cs.dropWhile (· != quote)).length ≤ cs.length := dropWhile_shorter _ _
    rw [heq] at hl
    rw [List.length_cons] at hl
    subst hr
    omega

def firstToken (c : Char) (cs : List Char) : Option Token × { r : List Char // r.length ≤ cs.length } :=
  let wordOrBlank : Option Token × { r : List Char // r.length ≤ cs.length } :=
    if Text.isBlank c then (none, ⟨cs, Nat.le_refl _⟩)
    else if endsWord c then (none, ⟨cs, Nat.le_refl _⟩)
    else (some (.word (String.ofList (c :: cs.takeWhile fun d => !endsWord d))),
      ⟨cs.dropWhile fun d => !endsWord d, dropWhile_shorter _ _⟩)
  if c == '\'' || c == '"' then
    match h : quoted? c cs with
    | some (s, rest) => (some (.mark s), ⟨rest, quoted?_shorter h⟩)
    | none => wordOrBlank
  else if c == '/' then
    match cs with
    | '/' :: rest => (some (.mark "//"), ⟨rest, by simp⟩)
    | rest => (some (.mark "/"), ⟨rest, Nat.le_refl _⟩)
  else if c == '(' then
    match cs with
    | ')' :: rest => (some (.mark "()"), ⟨rest, by simp⟩)
    | rest => (some (.mark "("), ⟨rest, Nat.le_refl _⟩)
  else if c == '=' then
    match cs with
    | '=' :: rest => (some (.mark "=="), ⟨rest, by simp⟩)
    | rest => (some (.mark "="), ⟨rest, Nat.le_refl _⟩)
  else if isMark c then (some (.mark (String.singleton c)), ⟨cs, Nat.le_refl _⟩)
  else wordOrBlank

def tokens : List Char → List Token
  | [] => []
  | c :: cs =>
    match firstToken c cs with
    | (token, ⟨rest, _⟩) => token.toList ++ tokens rest
termination_by cs => cs.length
decreasing_by
  rename_i h
  simp
  omega

def tokenize (s : String) : List Token := tokens s.toList

end ArrayKernel.Path
