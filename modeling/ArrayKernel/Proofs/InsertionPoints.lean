import ArrayKernel.Proofs.Sections
import ArrayKernel.Proofs.WriterDraft
import Mathlib.Data.List.GetD

/-!
# Insertion points

A document with sections holds what the draft of the same moves holds. The sections are laid out in
reading order with the end of each section as a mark of its own: adding to a section puts the new piece
just before its end.
-/

namespace ArrayKernel.Emit

variable {α : Type}
variable {p : Piece α} {w id : Nat}

/-! ## The layout of a document -/

namespace Document

variable {k : Nat} {s : Workshop} {moves : List (Move Datum)} {d e : Document α}

def layoutWithin (d : Document α) : Nat → Nat → List (α ⊕ Nat)
  | 0, _ => []
  | depth + 1, s =>
    ((d.pieces s).flatMap fun
      | .item a => [.inl a]
      | .place t => layoutWithin d depth t) ++ [.inr s]

def layout (d : Document α) (s : Nat) : List (α ⊕ Nat) := d.layoutWithin d.sections.size s

def pieceLayout (d : Document α) (depth : Nat) : Piece α → List (α ⊕ Nat)
  | .item a => [.inl a]
  | .place t => d.layoutWithin depth t

def isEndOf (s : Nat) : α ⊕ Nat → Bool
  | .inl _ => false
  | .inr t => t == s

def Forward (d : Document α) (bound : Nat) : Prop := ∀ s t, .place t ∈ d.pieces s → s < t ∧ t < bound

theorem layoutWithin_succ (d : Document α) (n s : Nat) :
    d.layoutWithin (n + 1) s = (d.pieces s).flatMap (d.pieceLayout n) ++ [.inr s] := by
  congr 2

theorem itemsWithin_eq (d : Document α) (n s : Nat) :
    d.itemsWithin n s = (d.layoutWithin n s).filterMap Sum.getLeft? := by
  induction n generalizing s with
  | zero => rfl
  | succ n ih =>
    rw [layoutWithin_succ, List.filterMap_append, List.filterMap_flatMap, itemsWithin_succ]
    simp only [List.filterMap_cons, List.filterMap_nil, Sum.getLeft?_inr, List.append_nil]
    congr 1
    funext p
    cases p with
    | item a => rfl
    | place t => exact ih t

theorem layoutWithin_stable (hf : d.Forward k) {n s : Nat} (hs : s < k)
    (hn : k - s ≤ n) : d.layoutWithin (n + 1) s = d.layoutWithin n s := by
  induction n generalizing s with
  | zero => omega
  | succ n ih =>
    rw [layoutWithin_succ, layoutWithin_succ d n]
    congr 1
    refine List.flatMap_congr fun p hp => ?_
    cases p with
    | item a => rfl
    | place t =>
      obtain ⟨hst, htk⟩ := hf s t hp
      exact ih htk (by omega)

/-! ## Adding to a document -/

theorem pieces_addSection (d : Document α) (s : Nat) : d.addSection.1.pieces s = d.pieces s := by
  unfold pieces addSection
  rw [Array.getElem?_push]
  by_cases hs : s = d.sections.size
  · subst hs
    simp
  · rw [if_neg hs]

theorem layoutWithin_congr {e : Document α} (h : ∀ s, d.pieces s = e.pieces s) (n s : Nat) :
    d.layoutWithin n s = e.layoutWithin n s := by
  induction n generalizing s with
  | zero => rfl
  | succ n ih =>
    rw [layoutWithin_succ, layoutWithin_succ, h s]
    congr 2
    funext p
    cases p with
    | item a => rfl
    | place t => exact ih t

theorem Adds.layoutWithin {s least : Nat} {mark : α ⊕ Nat} (h : Adds d e s p) (hf : d.Forward k)
    (hp : ∀ n, least ≤ n → e.pieceLayout n p = [mark]) {n t : Nat} (ht : t < k)
    (hn : least + (k - t) ≤ n) :
    e.layoutWithin n t = putBefore (isEndOf s) mark (d.layoutWithin n t) := by
  induction n generalizing t with
  | zero => omega
  | succ n ih =>
    have hold : ∀ q ∈ d.pieces t, e.pieceLayout n q = putBefore (isEndOf s) mark (d.pieceLayout n q) := by
      intro q hq
      cases q with
      | item a => exact (putBefore_of_none (by simp [pieceLayout, isEndOf])).symm
      | place u =>
        obtain ⟨htu, huk⟩ := hf t u hq
        exact ih huk (by omega)
    have hpieces : (d.pieces t).flatMap (e.pieceLayout n) =
        putBefore (isEndOf s) mark ((d.pieces t).flatMap (d.pieceLayout n)) := by
      unfold putBefore
      rw [List.flatMap_assoc]
      exact List.flatMap_congr hold
    rw [layoutWithin_succ, layoutWithin_succ, putBefore_append, h.pieces_eq, List.flatMap_append, hpieces,
      List.append_assoc]
    congr 1
    by_cases hts : t = s
    · subst hts
      rw [if_pos rfl, List.flatMap_singleton, hp n (by omega)]
      simp [putBefore, isEndOf]
    · rw [if_neg hts]
      simp [putBefore, isEndOf, hts]

theorem size_addSection (d : Document α) : d.addSection.1.sections.size = d.sections.size + 1 :=
  Array.size_push _

theorem Adds.forward {s : Nat} (h : Adds d e s p) (hf : d.Forward k) (hp : ∀ t, p = .place t → s < t ∧ t < k) :
    e.Forward k := by
  intro u t ht
  rw [h.pieces_eq, List.mem_append] at ht
  rcases ht with ht | ht
  · exact hf u t ht
  · by_cases hu : u = s
    · subst hu
      rw [if_pos rfl, List.mem_singleton] at ht
      exact hp t ht.symm
    · rw [if_neg hu] at ht
      cases ht

end Document

/-! ## Documents and drafts -/

/-- A mark as it stands in a document in which each writer writes to its section. -/
def Mark.placed (sections : List Nat) : Mark α → α ⊕ Nat
  | .item _ _ a => .inl a
  | .cursor w => .inr (sections.getD w 0)

/-- A document holds a draft: it is laid out like the draft, and each writer has a section of its own. -/
structure Document.Holds (d : Document α) (sections : List Nat) (marks : List (Mark α)) : Prop where
  nodup : sections.Nodup
  inside : ∀ s ∈ sections, s < d.sections.size
  root : 0 < sections.length
  forward : d.Forward d.sections.size
  cursors : ∀ w, .cursor w ∈ marks → w < sections.length
  layout : d.layout (sections.getD 0 0) = marks.map (Mark.placed sections)

namespace Document.Holds

open Document

variable {d : Document α} {sections : List Nat} {marks : List (Mark α)}

theorem start {s : Nat} (hs : s < d.sections.size) (hempty : ∀ t, d.pieces t = []) :
    d.Holds [s] [.cursor 0] := by
  refine ⟨List.nodup_singleton s, ?_, Nat.one_pos, ?_, ?_, ?_⟩
  · intro t ht
    rwa [List.mem_singleton.mp ht]
  · intro u t ht
    rw [hempty u] at ht
    cases ht
  · intro w hw
    cases List.mem_singleton.mp hw
    exact Nat.one_pos
  · obtain ⟨n, hn⟩ := Nat.exists_eq_add_of_lt hs
    unfold Document.layout
    rw [hn, layoutWithin_succ]
    show (d.pieces s).flatMap _ ++ _ = _
    rw [hempty s]
    rfl

theorem section_lt (h : d.Holds sections marks) (hw : w < sections.length) :
    sections.getD w 0 < d.sections.size := by
  rw [List.getD_eq_getElem _ _ hw]
  exact h.inside _ (List.getElem_mem hw)

theorem isEnd_placed (h : d.Holds sections marks) (hw : w < sections.length) {x : Mark α}
    (hx : x ∈ marks) : isEndOf (sections.getD w 0) (x.placed sections) = x.isCursor w := by
  cases x with
  | item => rfl
  | cursor v =>
    have hv := h.cursors v hx
    have hiff : sections.getD v 0 = sections.getD w 0 ↔ v = w := by
      rw [List.getD_eq_getElem _ _ hv, List.getD_eq_getElem _ _ hw]
      exact h.nodup.getElem_inj_iff
    simp only [Mark.placed, isEndOf, Mark.isCursor, beq_eq_beq]
    exact hiff

theorem placed_put (h : d.Holds sections marks) (hw : w < sections.length) (m : Mark α) :
    putBefore (isEndOf (sections.getD w 0)) (m.placed sections) (marks.map (Mark.placed sections))
      = (putBefore (Mark.isCursor w) m marks).map (Mark.placed sections) :=
  putBefore_map fun _ hx => h.isEnd_placed hw hx

theorem mem_put {m x : Mark α} (hx : x ∈ putBefore (Mark.isCursor w) m marks) : x = m ∨ x ∈ marks := by
  obtain ⟨y, hy, hxy⟩ := List.mem_flatMap.mp hx
  split at hxy
  · rcases List.mem_cons.mp hxy with rfl | hxy
    · exact Or.inl rfl
    · exact Or.inr (List.mem_singleton.mp hxy ▸ hy)
  · exact Or.inr (List.mem_singleton.mp hxy ▸ hy)

section

variable (h : d.Holds sections marks)

include h

theorem write (hw : w < sections.length) (i : Nat) (a : α) :
    (d.write (sections.getD w 0) a).Holds sections (putBefore (Mark.isCursor w) (.item i w a) marks) := by
  have hadds : Adds d (d.write (sections.getD w 0) a) (sections.getD w 0) (.item a) :=
    adds_update (h.section_lt hw) fun x => x.pieces_write a
  refine ⟨h.nodup, ?_, h.root, ?_, ?_, ?_⟩
  · rw [hadds.size]
    exact h.inside
  · rw [hadds.size]
    exact hadds.forward h.forward (by simp)
  · intro v hv
    rcases mem_put hv with hv | hv
    · cases hv
    · exact h.cursors v hv
  · rw [← h.placed_put hw, ← h.layout]
    unfold Document.layout
    rw [hadds.size]
    have hitem : ∀ n, 0 ≤ n → (d.write (sections.getD w 0) a).pieceLayout n (.item a) = [.inl a] := fun _ _ => rfl
    exact hadds.layoutWithin h.forward hitem (h.section_lt h.root) (by omega)

theorem addSection : d.addSection.1.Holds sections marks := by
  have hsize := size_addSection d
  have hroot := h.section_lt h.root
  refine ⟨h.nodup, ?_, h.root, ?_, h.cursors, ?_⟩
  · intro s hs
    have hlt := h.inside s hs
    omega
  · intro s t ht
    rw [pieces_addSection] at ht
    have hlt := h.forward s t ht
    omega
  · rw [← h.layout]
    unfold Document.layout
    rw [hsize, layoutWithin_congr (pieces_addSection d)]
    exact layoutWithin_stable h.forward hroot (by omega)

theorem placed_concat (s : Nat) :
    marks.map (Mark.placed (sections ++ [s])) = marks.map (Mark.placed sections) := by
  refine List.map_congr_left fun x hx => ?_
  cases x with
  | item => rfl
  | cursor w =>
    have hw := h.cursors w hx
    simp only [Mark.placed, List.getD_append _ _ _ _ hw]

theorem addWriter {s : Nat} (hs : s < d.sections.size) (hnew : s ∉ sections) :
    d.Holds (sections ++ [s]) marks := by
  refine ⟨?_, ?_, ?_, h.forward, ?_, ?_⟩
  · exact List.nodup_append.mpr ⟨h.nodup, List.nodup_singleton s, by
      intro a ha b hb hab
      rw [List.mem_singleton.mp hb] at hab
      exact hnew (hab ▸ ha)⟩
  · intro t ht
    rcases List.mem_append.mp ht with ht | ht
    · exact h.inside t ht
    · rwa [List.mem_singleton.mp ht]
  · rw [List.length_append]
    have hroot := h.root
    omega
  · intro w hw
    have hlt := h.cursors w hw
    rw [List.length_append]
    omega
  · rw [h.placed_concat, List.getD_append _ _ _ _ h.root]
    exact h.layout

theorem insertionPoint (hw : w < sections.length) :
    (d.insertionPoint (sections.getD w 0)).1.Holds (sections ++ [d.sections.size])
      (putBefore (Mark.isCursor w) (.cursor sections.length) marks) := by
  have hsize := size_addSection d
  have hfresh : d.sections.size ∉ sections := fun hmem => by
    have hlt := h.inside _ hmem
    omega
  have hadded := h.addSection.addWriter (by omega) hfresh
  have hw' : w < (sections ++ [d.sections.size]).length := by
    rw [List.length_append]
    omega
  have hs : sections.getD w 0 < d.sections.size := h.section_lt hw
  have hsec : (sections ++ [d.sections.size]).getD w 0 = sections.getD w 0 :=
    List.getD_append _ _ _ _ hw
  have hroot : (sections ++ [d.sections.size]).getD 0 0 = sections.getD 0 0 :=
    List.getD_append _ _ _ _ h.root
  have hcursor : (Mark.cursor sections.length : Mark α).placed (sections ++ [d.sections.size])
      = .inr d.sections.size := by
    simp [Mark.placed]
  have hadds : Adds d.addSection.1 (d.insertionPoint (sections.getD w 0)).1 (sections.getD w 0) (.place d.sections.size) :=
    adds_update (by omega) fun x => x.pieces_insert d.sections.size
  refine ⟨hadded.nodup, ?_, hadded.root, ?_, ?_, ?_⟩
  · rw [hadds.size]
    exact hadded.inside
  · rw [hadds.size]
    refine hadds.forward hadded.forward ?_
    intro t ht
    cases ht
    omega
  · intro v hv
    rcases mem_put hv with hv | hv
    · cases hv
      simp
    · exact hadded.cursors v hv
  · rw [← hadded.placed_put hw', ← hadded.layout, hsec, hroot, hcursor]
    unfold Document.layout
    rw [hadds.size, hsize]
    have hforward : d.addSection.1.Forward d.sections.size := by
      intro s t ht
      rw [pieces_addSection] at ht
      exact h.forward s t ht
    have hplace : ∀ n, 1 ≤ n → (d.insertionPoint (sections.getD w 0)).1.pieceLayout n (.place d.sections.size) =
        [.inr d.sections.size] := by
      intro n hn
      obtain ⟨n, rfl⟩ := Nat.exists_eq_add_of_le' hn
      have hempty : d.pieces d.sections.size = [] := by simp [pieces, Section.pieces]
      show layoutWithin _ (n + 1) _ = _
      rw [layoutWithin_succ, hadds.pieces_eq, pieces_addSection, hempty, if_neg (by omega)]
      rfl
    exact hadds.layoutWithin hforward hplace (h.section_lt h.root) (by omega)

theorem items :
    d.items (sections.getD 0 0) = (marks.filterMap Mark.item?).map Prod.snd := by
  have hlayout := h.layout
  unfold Document.layout at hlayout
  unfold Document.items
  rw [itemsWithin_eq, hlayout, List.filterMap_map, List.map_filterMap]
  refine List.filterMap_congr fun x _ => ?_
  cases x <;> rfl

end

end Document.Holds

/-! ## Writers and drafts -/

structure Desk.Holds (d : Desk α) (opened : List Nat) (marks : List (Mark α)) : Prop where
  writers : ∀ w ∈ opened, w < d.writers.size
  document : d.document.Holds (opened.map fun w => (d.writer w).sectionId) marks

namespace Desk

theorem writer_addWriter (d : Desk α) (n : Writer) (hw : w < d.writers.size) :
    (d.addWriter n).1.writer w = d.writer w := by
  simp [addWriter, writer, Array.getElem?_push, Nat.ne_of_lt hw]

theorem writer_added (d : Desk α) (n : Writer) : (d.addWriter n).1.writer d.writers.size = n := by
  simp [addWriter, writer]

namespace Holds

variable {d : Desk α} {opened : List Nat} {marks : List (Mark α)}

theorem section_eq (d : Desk α) (hid : opened[w]? = some id) :
    (opened.map fun w => (d.writer w).sectionId).getD w 0 = (d.writer id).sectionId := by
  simp [List.getD_eq_getElem?_getD, hid]

theorem write (h : d.Holds opened marks) (hid : opened[w]? = some id) (i : Nat) (a : α) :
    (d.write id a).Holds opened (putBefore (Mark.isCursor w) (.item i w a) marks) := by
  have hw : w < opened.length := (List.getElem?_eq_some_iff.mp hid).1
  refine ⟨h.writers, ?_⟩
  have hdoc := h.document.write (by rwa [List.length_map]) i a
  rw [section_eq d hid] at hdoc
  exact hdoc

theorem sections_addWriter (n : Writer) (hw : ∀ w ∈ opened, w < d.writers.size) :
    (opened.map fun w => ((d.addWriter n).1.writer w).sectionId) = opened.map fun w => (d.writer w).sectionId :=
  List.map_congr_left fun w hmem => by rw [writer_addWriter d n (hw w hmem)]

theorem writers_addWriter (n : Writer) (hw : ∀ w ∈ opened, w < d.writers.size) :
    ∀ w ∈ opened, w < (d.addWriter n).1.writers.size := by
  intro w hmem
  have hlt := hw w hmem
  show w < (d.writers.push n).size
  rw [Array.size_push]
  omega

theorem openWriter {n : Writer} (hw : ∀ w ∈ opened, w < d.writers.size)
    (hdoc : d.document.Holds ((opened.map fun w => (d.writer w).sectionId) ++ [n.sectionId]) marks) :
    (d.addWriter n).1.Holds (opened ++ [(d.addWriter n).2]) marks := by
  refine ⟨?_, ?_⟩
  · intro w hmem
    rcases List.mem_append.mp hmem with hmem | hmem
    · exact writers_addWriter n hw w hmem
    · cases List.mem_singleton.mp hmem
      show d.writers.size < (d.writers.push n).size
      rw [Array.size_push]
      omega
  · have hnew : (d.addWriter n).1.writer (d.addWriter n).2 = n := writer_added d n
    rw [List.map_append, sections_addWriter n hw, List.map_singleton, hnew]
    exact hdoc

theorem insertionPoint (h : d.Holds opened marks) (hid : opened[w]? = some id) :
    (d.insertionPoint id).1.Holds (opened ++ [(d.insertionPoint id).2])
      (putBefore (Mark.isCursor w) (.cursor opened.length) marks) := by
  have hw : w < opened.length := (List.getElem?_eq_some_iff.mp hid).1
  have hdoc := h.document.insertionPoint (by rwa [List.length_map])
  rw [section_eq d hid, List.length_map] at hdoc
  let e : Desk α := { d with document := (d.document.insertionPoint (d.writer id).sectionId).1 }
  cases hp : (d.writer id).proto with
  | none =>
    have heq : d.insertionPoint id
        = e.addWriter { d.writer id with sectionId := d.document.sections.size } := by
      unfold Desk.insertionPoint
      simp only [hp]
      rfl
    rw [heq]
    exact openWriter h.writers hdoc
  | some q =>
    -- The writer of prototypes takes a section and a number of its own first.
    have heq : d.insertionPoint id = e.openPlain.1.addWriter { d.writer id with
        sectionId := d.document.sections.size, proto := some e.openPlain.2 } := by
      unfold Desk.insertionPoint
      simp only [hp]
      rfl
    have hwriters : ∀ w ∈ opened, w < e.openPlain.1.writers.size :=
      writers_addWriter _ h.writers
    have hsections : (opened.map fun w => (e.openPlain.1.writer w).sectionId)
        = opened.map fun w => (d.writer w).sectionId :=
      sections_addWriter _ h.writers
    rw [heq]
    refine openWriter hwriters ?_
    rw [hsections]
    exact hdoc.addSection

end Holds

end Desk

/-! ## Requests -/

namespace Workshop

def Answers {β : Type} (act : Step β) (s : Workshop) (r : β) (t : Workshop) : Prop :=
  act.run s = (.ok r, t)

theorem answers_bind {β γ : Type} {act : Step β} {f : β → Step γ} {t u : Workshop} {x : β} {r : γ}
    (ha : Answers act s x u) (hf : Answers (f x) u r t) : Answers (act >>= f) s r t := by
  unfold Answers at ha hf ⊢
  rw [← hf]
  show (StateT.bind act.run (ExceptT.bindCont f)) s = _
  simp only [StateT.bind, ha]
  rfl

theorem answers_writerAt (hid : s.opened[w]? = some id) : Answers (writerAt w) s id s := by
  have hplace : ¬ ((w : Int) < 0) := by omega
  have hget : Answers get s s s := rfl
  refine answers_bind hget ?_
  simp only [hplace, if_false, Int.toNat_natCast, hid]
  rfl

theorem answers_write {a : Datum} :
    Answers (answer "write" id [a]) s .nothing { s with desk := s.desk.write id (.datum a) } := rfl

theorem answers_insertionPoint :
    Answers (answer "insertion_point" id []) s (.number s.opened.length)
      { s with desk := (s.desk.insertionPoint id).1, opened := s.opened ++ [(s.desk.insertionPoint id).2] } :=
  rfl

theorem answers_format :
    Answers (answer "format" id [.text "CodeFormatter"]) s (.items (s.desk.contents id)) s := rfl

end Workshop

def Move.perform : Move Datum → Workshop.Step Unit
  | .write w a => do
    let _ ← Workshop.answer "write" (← Workshop.writerAt w) [a]
  | .insertionPoint w => do
    let _ ← Workshop.answer "insertion_point" (← Workshop.writerAt w) []

def performAll : List (Move Datum) → Workshop.Step Unit
  | [] => return ()
  | m :: moves => do
    m.perform
    performAll moves

def readRoot : Workshop.Step Workshop.Reply := do
  Workshop.answer "format" (← Workshop.writerAt 0) [.text "CodeFormatter"]

def Mark.asWritten : Mark Datum → Mark Written
  | .item i w a => .item i w (.datum a)
  | .cursor w => .cursor w

theorem asWritten_put (w : Nat) (m : Mark Datum) (marks : List (Mark Datum)) :
    putBefore (Mark.isCursor w) m.asWritten (marks.map Mark.asWritten)
      = (putBefore (Mark.isCursor w) m marks).map Mark.asWritten := by
  refine putBefore_map fun x _ => ?_
  cases x <;> rfl

namespace Workshop

variable {marks : List (Mark Datum)}

structure Follows (s : Workshop) (moves : List (Move Datum)) (marks : List (Mark Datum)) : Prop where
  count : s.opened.length = openedBy moves
  desk : s.desk.Holds s.opened (marks.map Mark.asWritten)

theorem start_follows (style : Style) : (start style).Follows [] [.cursor 0] := by
  have hplain : (Desk.openPlain {}).1.Holds [0] [(.cursor 0 : Mark Written)] := by
    refine ⟨by simp [Desk.openPlain, Desk.addWriter], Document.Holds.start Nat.one_pos ?_⟩
    rintro (_ | t) <;> rfl
  have hcode : (Desk.openCode {}).1.Holds [1] [(.cursor 0 : Mark Written)] := by
    refine ⟨by simp [Desk.openCode, Desk.openPlain, Desk.addWriter], Document.Holds.start Nat.one_lt_two ?_⟩
    rintro (_ | _ | t) <;> rfl
  cases style with
  | plain => exact ⟨rfl, hplain⟩
  | code => exact ⟨rfl, hcode⟩
  | template => exact ⟨rfl, hplain⟩

theorem Follows.step (h : s.Follows moves marks) {m : Move Datum} (hw : m.writer < openedBy moves) :
    ∃ t, Answers m.perform s () t ∧
      t.Follows (moves ++ [m]) (putBefore (Mark.isCursor m.writer) (m.mark moves) marks) := by
  have hlt : m.writer < s.opened.length := by rw [h.count]; exact hw
  have hid : s.opened[m.writer]? = some (s.opened[m.writer]) := List.getElem?_eq_getElem hlt
  have hat := answers_writerAt hid
  have hcount := h.count
  cases m with
  | write w a =>
    refine ⟨_, answers_bind hat (answers_bind answers_write rfl), ?_, ?_⟩
    · rw [openedBy_concat]
      exact hcount
    · rw [← asWritten_put]
      exact h.desk.write hid moves.length (.datum a)
  | insertionPoint w =>
    refine ⟨_, answers_bind hat (answers_bind answers_insertionPoint rfl), ?_, ?_⟩
    · rw [openedBy_concat, List.length_append, hcount]
      rfl
    · have hdesk := h.desk.insertionPoint hid
      rw [hcount] at hdesk
      rw [← asWritten_put]
      exact hdesk

theorem Follows.run {done : List (Move Datum)} (h : s.Follows done marks) (hf : WellFormed (done ++ moves)) :
    ∃ t, Answers (performAll moves) s () t ∧ t.Follows (done ++ moves) (draftFrom done marks moves) := by
  induction moves generalizing done marks s with
  | nil =>
    refine ⟨s, rfl, ?_⟩
    rw [List.append_nil]
    exact h
  | cons m moves ih =>
    obtain ⟨u, hmove, hu⟩ := h.step hf.next
    rw [List.append_cons] at hf ⊢
    obtain ⟨t, hrest, ht⟩ := ih hu hf
    exact ⟨t, answers_bind hmove hrest, ht⟩

theorem Follows.readRoot (h : s.Follows moves marks) :
    Answers readRoot s (.items ((marks.filterMap Mark.item?).map fun p => .datum p.2)) s := by
  have hroot : 0 < s.opened.length := by
    rw [h.count]
    unfold openedBy
    omega
  have hid : s.opened[0]? = some (s.opened[0]) := List.getElem?_eq_getElem hroot
  have hitems := h.desk.document.items
  have hread : Answers Emit.readRoot s (.items (s.desk.contents s.opened[0])) s :=
    answers_bind (answers_writerAt hid) answers_format
  rw [Desk.Holds.section_eq s.desk hid] at hitems
  unfold Desk.contents at hread
  rw [hitems] at hread
  have hsame : ((marks.map Mark.asWritten).filterMap Mark.item?).map Prod.snd
      = (marks.filterMap Mark.item?).map fun p => Written.datum p.2 := by
    rw [List.filterMap_map, List.map_filterMap, List.map_filterMap]
    refine List.filterMap_congr fun x _ => ?_
    cases x <;> rfl
  rwa [hsame] at hread

/-- Whatever is written to writers and insertion points, in any order, what comes out is the draft with a
cursor for each writer. In it all that was written stands once, what was written to one writer stands in the
order in which it was written, and what was written to an insertion point or below it stands between what
its parent had written before and what its parent wrote later. -/
theorem insertion_points_follow_draft (style : Style) (moves : List (Move Datum)) (hf : WellFormed moves) :
    (∃ t, Answers (performAll moves) (start style) () t ∧
      Answers Emit.readRoot t (.items ((draftItems moves).map fun p => .datum p.2)) t) ∧
    (draftItems moves).Perm (writes moves) ∧
    (∀ w i j a b, moves[i]? = some (.write w a) → moves[j]? = some (.write w b) → i < j →
      [(i, a), (j, b)].Sublist (draftItems moves)) ∧
    ∀ c p w i j a b, moves[c]? = some (.insertionPoint p) → Below moves (openedBy (moves.take c)) w →
      moves[i]? = some (.write w a) → moves[j]? = some (.write p b) →
      (j < c → [(j, b), (i, a)].Sublist (draftItems moves)) ∧
        (c < j → [(i, a), (j, b)].Sublist (draftItems moves)) := by
  refine ⟨?_, draftItems_perm_writes hf, ?_, ?_⟩
  · obtain ⟨t, hrun, ht⟩ := (start_follows style).run hf
    exact ⟨t, hrun, ht.readRoot⟩
  · intro w i j a b hi hj hlt
    exact draftItems_same_writer hf hi hj hlt
  · intro c p w i j a b hc hw hi hj
    exact draftItems_below hf hc hw hi hj

/-- Two insertion points, one below the other, filled in after their parent. -/
theorem nested_points_follow_draft :
    ∃ t, Answers (performAll [.insertionPoint 0, .insertionPoint 1, .write 0 (.text "c"), .write 1 (.text "b"),
        .write 2 (.text "a")]) (start .plain) () t ∧
      Answers Emit.readRoot t (.items [.datum (.text "a"), .datum (.text "b"), .datum (.text "c")]) t :=
  (insertion_points_follow_draft .plain _ (by decide)).1

end Workshop

end ArrayKernel.Emit
