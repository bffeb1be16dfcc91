import ArrayKernel.Emit.Request
import Mathlib.Data.List.Lex
import Mathlib.Data.List.Nodup
import Mathlib.Order.WithBot

/-!
# Drafts of documents

A draft is a document in the making in which every writer has a cursor. What a writer writes goes just before
its cursor, and so does the cursor of a new insertion point.
-/

namespace ArrayKernel.Emit

variable {α β : Type}

/-- What can be done with writers, which are counted in the order in which they were opened. -/
inductive Move (α : Type) where
  | write (w : Nat) (a : α)
  | insertionPoint (w : Nat)

namespace Move

def writer : Move α → Nat
  | .write w _ | .insertionPoint w => w

def opens : Move α → Bool
  | .write _ _ => false
  | .insertionPoint _ => true

end Move

def openedBy (moves : List (Move α)) : Nat := 1 + moves.countP Move.opens

def WellFormed (moves : List (Move α)) : Prop :=
  ∀ i (h : i < moves.length), moves[i].writer < openedBy (moves.take i)

instance (moves : List (Move α)) : Decidable (WellFormed moves) :=
  inferInstanceAs (Decidable (∀ i (h : i < moves.length), moves[i].writer < openedBy (moves.take i)))

inductive Below (moves : List (Move α)) (q : Nat) : Nat → Prop where
  | self : Below moves q q
  | inserted {c p : Nat} (h : moves[c]? = some (.insertionPoint p)) (hp : Below moves q p) :
    Below moves q (openedBy (moves.take c))

/-! ## The reference -/

inductive Mark (α : Type) where
  | item (step w : Nat) (a : α)
  | cursor (w : Nat)

def Mark.isCursor (w : Nat) : Mark α → Bool
  | .item _ _ _ => false
  | .cursor v => v == w

def putBefore (isEnd : β → Bool) (b : β) (l : List β) : List β :=
  l.flatMap fun x => if isEnd x then [b, x] else [x]

def Move.mark (done : List (Move α)) : Move α → Mark α
  | .write w a => .item done.length w a
  | .insertionPoint _ => .cursor (openedBy done)

def draftFrom (done : List (Move α)) (marks : List (Mark α)) : List (Move α) → List (Mark α)
  | [] => marks
  | m :: moves => draftFrom (done ++ [m]) (putBefore (Mark.isCursor m.writer) (m.mark done) marks) moves

def draft (moves : List (Move α)) : List (Mark α) := draftFrom [] [.cursor 0] moves

def Mark.item? : Mark α → Option (Nat × α)
  | .item i _ a => some (i, a)
  | .cursor _ => none

def draftItems (moves : List (Move α)) : List (Nat × α) := (draft moves).filterMap Mark.item?

def Move.value? : Move α → Option α
  | .write _ a => some a
  | .insertionPoint _ => none

def writes (moves : List (Move α)) : List (Nat × α) :=
  moves.zipIdx.filterMap fun (m, i) => m.value?.map fun a => (i, a)

/-! ## Moves one after another -/

variable {c i w j : Nat} {moves before after : List (Move α)} {a : α} {isEnd : β → Bool} {tail : List (WithTop Nat)}
variable {m : Move α} {l : List β}

theorem openedBy_concat (moves : List (Move α)) (m : Move α) :
    openedBy (moves ++ [m]) = openedBy moves + (if m.opens then 1 else 0) := by
  unfold openedBy
  rw [List.countP_append, List.countP_singleton]
  omega

theorem openedBy_take_le (moves : List (Move α)) (c : Nat) : openedBy (moves.take c) ≤ openedBy moves := by
  have hle : (moves.take c).countP Move.opens ≤ moves.countP Move.opens :=
    (List.take_sublist c moves).countP_le
  unfold openedBy
  omega

theorem openedBy_take_lt {p : Nat}
    (h : moves[c]? = some (.insertionPoint p)) : openedBy (moves.take c) < openedBy moves := by
  obtain ⟨hc, hm⟩ := List.getElem?_eq_some_iff.mp h
  have hnext : openedBy (moves.take (c + 1)) = openedBy (moves.take c) + 1 := by
    rw [← List.take_append_getElem hc, openedBy_concat, hm]
    rfl
  have hle : openedBy (moves.take (c + 1)) ≤ openedBy moves := openedBy_take_le moves (c + 1)
  omega

theorem getElem?_concat {x : Move α} :
    (moves ++ [m])[i]? = some x ↔ moves[i]? = some x ∨ i = moves.length ∧ x = m := by
  rcases Nat.lt_trichotomy i moves.length with h | h | h
  · rw [List.getElem?_append_left h]
    constructor
    · exact Or.inl
    · rintro (hx | ⟨rfl, _⟩)
      · exact hx
      · omega
  · subst h
    simp [eq_comm]
  · have hnone : moves[i]? = none := List.getElem?_eq_none (by omega)
    rw [List.getElem?_eq_none (by simp; omega), hnone]
    simp
    omega

theorem WellFormed.left (h : WellFormed (before ++ after)) : WellFormed before := by
  intro i hi
  have hw := h i (by rw [List.length_append]; omega)
  rw [List.getElem_append_left hi, List.take_append_of_le_length (by omega)] at hw
  exact hw

theorem WellFormed.next (h : WellFormed (before ++ m :: after)) : m.writer < openedBy before := by
  have hw := h before.length (by simp)
  simpa using hw

theorem WellFormed.writer_lt (h : WellFormed moves)
    (hm : moves[i]? = some m) : m.writer < openedBy (moves.take i) := by
  obtain ⟨hi, rfl⟩ := List.getElem?_eq_some_iff.mp hm
  exact h i hi

theorem mem_writes :
    (i, a) ∈ writes moves ↔ ∃ w, moves[i]? = some (.write w a) := by
  unfold writes
  rw [List.mem_filterMap]
  constructor
  · rintro ⟨⟨m, j⟩, hmem, hv⟩
    cases m with
    | write w b =>
      have hj : moves[j]? = some (.write w b) := List.mk_mem_zipIdx_iff_getElem?.mp hmem
      cases hv
      exact ⟨w, hj⟩
    | insertionPoint w => cases hv
  · rintro ⟨w, hw⟩
    exact ⟨(.write w a, i), List.mk_mem_zipIdx_iff_getElem?.mpr hw, rfl⟩

theorem writes_nodup (moves : List (Move α)) : (writes moves).Nodup := by
  unfold writes
  rw [List.nodup_iff_pairwise_ne, List.pairwise_filterMap]
  have hsteps : moves.zipIdx.Pairwise fun x y => x.2 ≠ y.2 := by
    have hnodup : (moves.zipIdx.map Prod.snd).Nodup := by
      rw [List.zipIdx_map_snd]
      exact List.nodup_range'
    exact List.pairwise_map.mp hnodup
  refine hsteps.imp ?_
  intro x y hne p hp q hq hpq
  obtain ⟨a, _, rfl⟩ := Option.map_eq_some_iff.mp hp
  obtain ⟨b, _, rfl⟩ := Option.map_eq_some_iff.mp hq
  exact hne (congrArg Prod.fst hpq)

/-! ## Putting something before an end -/

theorem putBefore_append (isEnd : β → Bool) (b : β) (l r : List β) :
    putBefore isEnd b (l ++ r) = putBefore isEnd b l ++ putBefore isEnd b r := List.flatMap_append

theorem putBefore_of_none {b : β} (h : ∀ x ∈ l, isEnd x = false) : putBefore isEnd b l = l := by
  induction l with
  | nil => rfl
  | cons x l ih =>
    have hx : isEnd x = false := h x (List.mem_cons_self ..)
    have hl : putBefore isEnd b l = l := ih fun y hy => h y (List.mem_cons_of_mem x hy)
    unfold putBefore at hl ⊢
    rw [List.flatMap_cons, hx, hl]
    rfl

theorem putBefore_cursor {m : Mark α} {l r : List (Mark α)} (hl : .cursor w ∉ l) (hr : .cursor w ∉ r) :
    putBefore (Mark.isCursor w) m (l ++ .cursor w :: r) = l ++ m :: .cursor w :: r := by
  have hnone : ∀ l : List (Mark α), .cursor w ∉ l → ∀ x ∈ l, x.isCursor w = false := by
    intro l hl x hx
    cases x with
    | item => rfl
    | cursor v =>
      have hv : v ≠ w := fun e => hl (e ▸ hx)
      simpa [Mark.isCursor] using hv
  have hend : putBefore (Mark.isCursor w) m [.cursor w] = [m, .cursor w] := by
    simp [putBefore, Mark.isCursor]
  rw [List.append_cons, putBefore_append, putBefore_append, putBefore_of_none (hnone l hl),
    putBefore_of_none (hnone r hr), hend]
  simp

theorem putBefore_map {γ : Type} {isEnd' : γ → Bool} {f : β → γ} {b : β} (h : ∀ x ∈ l, isEnd' (f x) = isEnd x) :
    putBefore isEnd' (f b) (l.map f) = (putBefore isEnd b l).map f := by
  induction l with
  | nil => rfl
  | cons x l ih =>
    have hx : isEnd' (f x) = isEnd x := h x (List.mem_cons_self ..)
    have hl := ih fun y hy => h y (List.mem_cons_of_mem x hy)
    unfold putBefore at hl ⊢
    rw [List.map_cons, List.flatMap_cons, List.flatMap_cons, List.map_append, hl, hx]
    cases isEnd x <;> rfl

/-! ## Drafts are sorted -/

/-- Where a mark stands: the steps that led to its writer, and then its own. A cursor comes last. -/
def Mark.key (path : Nat → List Nat) : Mark α → List (WithTop Nat)
  | .item i w _ => (path w).map WithTop.some ++ [WithTop.some i]
  | .cursor w => (path w).map WithTop.some ++ [⊤]

theorem key_lt_next {n : Nat} {u p : List (WithTop Nat)}
    (hu : ∀ e ∈ u, e < WithTop.some n ∨ e = ⊤) (h : u < p ++ [⊤]) : u < p ++ WithTop.some n :: tail := by
  induction p generalizing u with
  | nil =>
    cases h with
    | nil => exact List.Lex.nil
    | cons h => cases h
    | rel h =>
      rename_i e es
      rcases hu e (by simp) with he | he
      · exact List.Lex.rel he
      · exact absurd h (by simp [he])
  | cons q p ih =>
    cases h with
    | nil => exact List.Lex.nil
    | cons h => exact List.Lex.cons (ih (fun e he => hu e (List.mem_cons_of_mem _ he)) h)
    | rel h => exact List.Lex.rel h

/-- A way to number the writers' places by which the draft of the moves is sorted. -/
structure Charts (path : Nat → List Nat) (moves : List (Move α)) (marks : List (Mark α)) : Prop where
  sorted : marks.Pairwise fun x y => x.key path < y.key path
  cursors : ∀ w, .cursor w ∈ marks ↔ w < openedBy moves
  items : ∀ i w a, .item i w a ∈ marks ↔ moves[i]? = some (.write w a)
  child : ∀ c p, moves[c]? = some (.insertionPoint p) → path (openedBy (moves.take c)) = path p ++ [c]
  steps : ∀ w < openedBy moves, ∀ i ∈ path w, i < moves.length

namespace Charts

variable {path : Nat → List Nat} {marks : List (Mark α)}

variable (h : Charts path moves marks)

include h

theorem nodup : marks.Nodup :=
  h.sorted.imp fun hlt heq => absurd hlt (by rw [heq]; exact lt_irrefl _)

variable (hf : WellFormed moves)

include hf

theorem item_writer (hx : .item i w a ∈ marks) : w < openedBy moves := by
  have hw : w < openedBy (moves.take i) := hf.writer_lt ((h.items i w a).mp hx)
  have hle := openedBy_take_le moves i
  omega

theorem key_steps {x : Mark α} (hx : x ∈ marks) : ∀ e ∈ x.key path, e < WithTop.some moves.length ∨ e = ⊤ := by
  have hpath : ∀ w < openedBy moves, ∀ e ∈ (path w).map WithTop.some, e < WithTop.some moves.length := by
    intro w hw e he
    obtain ⟨j, hj, rfl⟩ := List.mem_map.mp he
    exact WithTop.coe_lt_coe.mpr (h.steps w hw j hj)
  intro e he
  cases x with
  | item i w a =>
    have hi : i < moves.length := (List.getElem?_eq_some_iff.mp ((h.items i w a).mp hx)).1
    rcases List.mem_append.mp he with he | he
    · exact Or.inl (hpath w (h.item_writer hf hx) e he)
    · rw [List.mem_singleton.mp he]
      exact Or.inl (WithTop.coe_lt_coe.mpr hi)
  | cursor w =>
    rcases List.mem_append.mp he with he | he
    · exact Or.inl (hpath w ((h.cursors w).mp hx) e he)
    · exact Or.inr (List.mem_singleton.mp he)

theorem sorted_put (hw : w < openedBy moves) {m : Mark α}
    (hm : m.key path = (path w).map WithTop.some ++ WithTop.some moves.length :: tail) :
    (putBefore (Mark.isCursor w) m marks).Pairwise (fun x y => x.key path < y.key path) ∧
      ∀ x, x ∈ putBefore (Mark.isCursor w) m marks ↔ x = m ∨ x ∈ marks := by
  obtain ⟨l, r, rfl⟩ := List.append_of_mem ((h.cursors w).mpr hw)
  have hnodup := List.nodup_middle.mp h.nodup
  rw [List.nodup_cons, List.mem_append, not_or] at hnodup
  rw [putBefore_cursor hnodup.1.1 hnodup.1.2]
  have hsorted := List.pairwise_append.mp h.sorted
  have hright := List.pairwise_cons.mp hsorted.2.1
  have hend : m.key path < (Mark.cursor w : Mark α).key path := by
    rw [hm]
    exact List.Lex.append_left _ (List.Lex.rel (WithTop.coe_lt_top _)) _
  have hafter : ∀ x ∈ Mark.cursor w :: r, m.key path < x.key path := by
    intro x hx
    rcases List.mem_cons.mp hx with rfl | hx
    · exact hend
    · exact hend.trans (hright.1 x hx)
  have hbefore : ∀ x ∈ l, x.key path < m.key path := by
    intro x hx
    rw [hm]
    exact key_lt_next (h.key_steps hf (List.mem_append_left _ hx))
      (hsorted.2.2 x hx _ (List.mem_cons_self ..))
  constructor
  · refine List.pairwise_append.mpr ⟨hsorted.1, List.pairwise_cons.mpr ⟨hafter, hsorted.2.1⟩, ?_⟩
    intro x hx y hy
    rcases List.mem_cons.mp hy with rfl | hy
    · exact hbefore x hx
    · exact hsorted.2.2 x hx y hy
  · intro x
    simp only [List.mem_append, List.mem_cons]
    tauto

theorem foresee (p : List Nat) : Charts (Function.update path (openedBy moves) p) moves marks := by
  have hother : ∀ w < openedBy moves, Function.update path (openedBy moves) p w = path w :=
    fun w hw => Function.update_of_ne (by omega) _ _
  have hkey : ∀ x ∈ marks, x.key (Function.update path (openedBy moves) p) = x.key path := by
    intro x hx
    cases x with
    | item i w a =>
      have hw := hother w (h.item_writer hf hx)
      simp only [Mark.key, hw]
    | cursor w =>
      have hw := hother w ((h.cursors w).mp hx)
      simp only [Mark.key, hw]
  refine ⟨?_, h.cursors, h.items, ?_, ?_⟩
  · refine h.sorted.imp_of_mem ?_
    intro x y hx hy hlt
    rwa [hkey x hx, hkey y hy]
  · intro c q hc
    have hq : q < openedBy (moves.take c) := hf.writer_lt hc
    have hlt := openedBy_take_lt hc
    rw [hother _ hlt, hother q (by omega)]
    exact h.child c q hc
  · intro w hw i hi
    rw [hother w hw] at hi
    exact h.steps w hw i hi

theorem step (hw : m.writer < openedBy moves)
    (hnew : m.opens = true → path (openedBy moves) = path m.writer ++ [moves.length]) :
    Charts path (moves ++ [m]) (putBefore (Mark.isCursor m.writer) (m.mark moves) marks) := by
  have hkey : ∃ tail, (m.mark moves).key path
      = (path m.writer).map WithTop.some ++ WithTop.some moves.length :: tail := by
    cases m with
    | write w a => exact ⟨[], rfl⟩
    | insertionPoint w =>
      have hp : path (openedBy moves) = path w ++ [moves.length] := hnew rfl
      refine ⟨[⊤], ?_⟩
      simp [Move.mark, Mark.key, hp, Move.writer]
  obtain ⟨tail, hkey⟩ := hkey
  obtain ⟨hsorted, hmem⟩ := h.sorted_put hf hw hkey
  refine ⟨hsorted, ?_, ?_, ?_, ?_⟩
  · intro v
    rw [hmem, h.cursors, openedBy_concat]
    cases m with
    | write => simp [Move.mark, Move.opens]
    | insertionPoint =>
      simp only [Move.mark, Move.opens, Mark.cursor.injEq, if_true]
      omega
  · intro i v b
    rw [hmem, h.items, getElem?_concat]
    cases m with
    | write =>
      simp only [Move.mark, Mark.item.injEq, Move.write.injEq]
      tauto
    | insertionPoint => simp [Move.mark]
  · intro c p hc
    rcases getElem?_concat.mp hc with hc | ⟨rfl, rfl⟩
    · have hlt : c < moves.length := (List.getElem?_eq_some_iff.mp hc).1
      rw [List.take_append_of_le_length (by omega)]
      exact h.child c p hc
    · rw [List.take_left]
      exact hnew rfl
  · intro v hv i hi
    rw [List.length_append, List.length_singleton]
    rw [openedBy_concat] at hv
    by_cases hold : v < openedBy moves
    · have hlt := h.steps v hold i hi
      omega
    · have hopens : m.opens = true := by
        by_contra hno
        rw [if_neg hno] at hv
        omega
      have hv' : v = openedBy moves := by
        rw [if_pos hopens] at hv
        omega
      rw [hv', hnew hopens, List.mem_append, List.mem_singleton] at hi
      rcases hi with hi | rfl
      · have hlt := h.steps m.writer hw i hi
        omega
      · omega

end Charts

theorem charts_start : Charts (fun _ => []) ([] : List (Move α)) [.cursor 0] := by
  refine ⟨List.pairwise_singleton _ _, ?_, ?_, ?_, ?_⟩
  · intro w
    simp [openedBy]
  · intro i w a
    simp
  · intro c p hc
    simp at hc
  · intro w _ i hi
    simp at hi

theorem charts_draftFrom {done : List (Move α)} {marks : List (Mark α)}
    {path : Nat → List Nat} (h : Charts path done marks) (hf : WellFormed (done ++ moves)) :
    ∃ path', Charts path' (done ++ moves) (draftFrom done marks moves) := by
  induction moves generalizing done marks path with
  | nil => exact ⟨path, by simpa [draftFrom] using h⟩
  | cons m moves ih =>
    have hw : m.writer < openedBy done := hf.next
    have hfirst := h.foresee hf.left (path m.writer ++ [done.length])
    have hstep := hfirst.step hf.left hw (by
      intro _
      rw [Function.update_self, Function.update_of_ne (by omega)])
    rw [List.append_cons] at hf ⊢
    exact ih hstep hf

theorem charts_draft (hf : WellFormed moves) : ∃ path, Charts path moves (draft moves) :=
  charts_draftFrom charts_start hf

/-! ## What stands before what -/

namespace Charts

variable {path : Nat → List Nat} {marks : List (Mark α)}

variable (h : Charts path moves marks)

include h

theorem below_path {q : Nat} (hb : Below moves q w) : path q <+: path w := by
  induction hb with
  | self => exact List.prefix_refl _
  | inserted hc _ ih =>
    rw [h.child _ _ hc]
    exact ih.trans (List.prefix_append _ _)

theorem precedes {x y : Mark α} (hx : x ∈ marks) (hy : y ∈ marks)
    (hlt : x.key path < y.key path) : [x, y].Sublist marks := by
  obtain ⟨l, r, rfl⟩ := List.append_of_mem hx
  have hsorted := List.pairwise_append.mp h.sorted
  have hyr : y ∈ r := by
    rcases List.mem_append.mp hy with hy | hy
    · exact absurd (hsorted.2.2 y hy x (List.mem_cons_self ..)) hlt.asymm
    · rcases List.mem_cons.mp hy with rfl | hy
      · exact absurd hlt (lt_irrefl _)
      · exact hy
  exact (List.Sublist.cons_cons x (List.singleton_sublist.mpr hyr)).trans (List.sublist_append_right l _)

theorem items_nodup : (marks.filterMap Mark.item?).Nodup := by
  rw [List.nodup_iff_pairwise_ne, List.pairwise_filterMap]
  refine h.sorted.imp_of_mem ?_
  intro x y hx hy hlt p hp q hq hpq
  cases x with
  | cursor => cases hp
  | item i v a =>
    cases y with
    | cursor => cases hq
    | item j w b =>
      cases hp
      cases hq
      cases hpq
      have hv := (h.items i v a).mp hx
      have hw := (h.items i w a).mp hy
      rw [hv, Option.some.injEq, Move.write.injEq] at hw
      rw [hw.1] at hlt
      exact lt_irrefl _ hlt

theorem mem_items :
    (i, a) ∈ marks.filterMap Mark.item? ↔ ∃ w, moves[i]? = some (.write w a) := by
  rw [List.mem_filterMap]
  constructor
  · rintro ⟨x, hx, hi⟩
    cases x with
    | cursor => cases hi
    | item j w b =>
      cases hi
      exact ⟨w, (h.items i w a).mp hx⟩
  · rintro ⟨w, hw⟩
    exact ⟨.item i w a, (h.items i w a).mpr hw, rfl⟩

end Charts

theorem draftItems_perm_writes (hf : WellFormed moves) : (draftItems moves).Perm (writes moves) := by
  obtain ⟨path, h⟩ := charts_draft hf
  refine (List.perm_ext_iff_of_nodup h.items_nodup (writes_nodup moves)).mpr ?_
  rintro ⟨i, a⟩
  rw [h.mem_items, mem_writes]

theorem draftItems_same_writer (hf : WellFormed moves) {b : α}
    (hi : moves[i]? = some (.write w a)) (hj : moves[j]? = some (.write w b)) (hlt : i < j) :
    [(i, a), (j, b)].Sublist (draftItems moves) := by
  obtain ⟨path, h⟩ := charts_draft hf
  have hkey : (Mark.item i w a).key path < (Mark.item j w b).key path :=
    List.Lex.append_left _ (List.Lex.rel (WithTop.coe_lt_coe.mpr hlt)) _
  have hsub := h.precedes ((h.items i w a).mpr hi) ((h.items j w b).mpr hj) hkey
  exact hsub.filterMap Mark.item?

/-- All that is written below an insertion point stands after what its parent wrote before, and before
what its parent writes later. -/
theorem draftItems_below (hf : WellFormed moves) {p : Nat} {b : α}
    (hc : moves[c]? = some (.insertionPoint p)) (hw : Below moves (openedBy (moves.take c)) w)
    (hi : moves[i]? = some (.write w a)) (hj : moves[j]? = some (.write p b)) :
    (j < c → [(j, b), (i, a)].Sublist (draftItems moves)) ∧
      (c < j → [(i, a), (j, b)].Sublist (draftItems moves)) := by
  obtain ⟨path, h⟩ := charts_draft hf
  obtain ⟨rest, hrest⟩ := h.below_path hw
  have hpath : path w = path p ++ c :: rest := by
    rw [← hrest, h.child c p hc, List.append_assoc]
    rfl
  have hkey : (Mark.item i w a).key path
      = (path p).map WithTop.some ++ WithTop.some c :: (rest.map WithTop.some ++ [WithTop.some i]) := by
    simp [Mark.key, hpath]
  have hmi := (h.items i w a).mpr hi
  have hmj := (h.items j p b).mpr hj
  constructor
  · intro hlt
    have hbefore : (Mark.item j p b).key path < (Mark.item i w a).key path := by
      rw [hkey]
      exact List.Lex.append_left _ (List.Lex.rel (WithTop.coe_lt_coe.mpr hlt)) _
    exact (h.precedes hmj hmi hbefore).filterMap Mark.item?
  · intro hlt
    have hafter : (Mark.item i w a).key path < (Mark.item j p b).key path := by
      rw [hkey]
      exact List.Lex.append_left _ (List.Lex.rel (WithTop.coe_lt_coe.mpr hlt)) _
    exact (h.precedes hmi hmj hafter).filterMap Mark.item?

end ArrayKernel.Emit
