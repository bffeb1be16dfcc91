import ArrayKernel.Proofs.Scripts
import ArrayKernel.Proofs.Sections

/-!
# Writing with and without disposal

Two pages are written in step, one for a client that disposes of foreign nodes and one for a client that does not.
They differ in the sections that only disposal writes to, and those stay empty on the second page.
-/

namespace ArrayKernel.Emit

open Ast Stateful

variable {d : Desk String} {i w : Nat}

/-! ## Documents -/

section

variable {d : Desk String} {v w i : Nat} {line : String}

theorem Writer.width_pos (w : Writer) : 0 < w.width := by
  unfold Writer.width
  split <;> omega

def Desk.section? (d : Desk String) (i : Nat) : Option (Array (Piece String)) :=
  d.document.sections[i]?.map (·.pieces.toArray)

@[simp] theorem size_putLine : (d.putLine id w line).writers.size = d.writers.size := by simp [Desk.putLine, Desk.write]

@[simp] theorem sections_putLine :
    (d.putLine id w line).document.sections.size = d.document.sections.size := by
  simp [Desk.putLine, Desk.write, Document.write, Document.update]

theorem writer_putLine (hw : w < d.writers.size) : (d.putLine id w line).writer v =
      if v = w then { d.writer w with indent := (indented (d.writer w).indent line).2 } else d.writer v := by
  split
  · subst v
    rw [Desk.putLine, writer_update (by exact hw)]
    rfl
  · rename_i hv
    rw [Desk.putLine, writer_update_ne hv]
    rfl

theorem section?_putLine : (d.putLine id w line).section? i =
    if i = (d.writer w).sectionId then (d.section? i).map (·.push (.item (indented (d.writer w).indent line).1))
    else d.section? i := by
  simp only [Desk.section?, Desk.putLine, document_update, Desk.write, Document.write, Document.update,
    Array.getElem?_modify]
  by_cases hi : i = (d.writer w).sectionId
  · subst hi
    simp [Function.comp_def, Section.pieces_write]
  · rw [if_neg (Ne.symm hi), if_neg hi]

theorem document_insertionPoint : (d.insertionPoint w).1.document.sections =
    (d.document.sections.push {}).modify (d.writer w).sectionId (·.insert d.document.sections.size) ++
      (if (d.writer w).proto.isSome then #[{ children := #[] }] else #[]) := by
  unfold Desk.insertionPoint
  dsimp only
  split <;> simp [*, Desk.addWriter, Desk.openPlain, Document.insertionPoint, Document.addSection, Document.update]

theorem section?_insertionPoint (hs : (d.writer w).sectionId < d.document.sections.size) :
    (d.insertionPoint w).1.section? i =
      if i < d.document.sections.size then
        if i = (d.writer w).sectionId then (d.section? i).map (·.push (.place d.document.sections.size)) else d.section? i
      else if i < d.document.sections.size + (d.writer w).width then some #[] else none := by
  have hempty : ({} : Section String).pieces.toArray = #[] := rfl
  rw [Desk.section?, document_insertionPoint, Array.getElem?_append, Array.size_modify, Array.size_push,
    Array.getElem?_modify, Array.getElem?_push]
  unfold Writer.width Desk.section?
  by_cases hi : i = (d.writer w).sectionId
  · subst hi
    simp [hs, Nat.lt_succ_of_lt hs, Nat.ne_of_lt hs, Section.pieces_insert]
  · grind

theorem writer_addWriter (x : Writer) : (d.addWriter x).1.writer (d.addWriter x).2 = x := by
  simp [Desk.addWriter, Desk.writer]

theorem writer_newWriter : (d.insertionPoint w).1.writer (d.insertionPoint w).2 = { d.writer w with
      sectionId := d.document.sections.size
      proto := if (d.writer w).proto.isSome then some d.writers.size else none } := by
  unfold Desk.insertionPoint
  dsimp only
  split
  all_goals
    rename_i hproto
    rw [writer_addWriter]
    simp [hproto, Desk.openPlain, Desk.addWriter, Document.insertionPoint, Document.addSection]

theorem newWriter_lt : (d.insertionPoint w).2 < (d.insertionPoint w).1.writers.size := by
  have hwidth := (d.writer w).width_pos
  rw [newWriter_insertionPoint, size_insertionPoint]
  omega

end

/-! ## Desks -/

/-- Desks that differ in some spare sections only: on the second desk these are empty. The live writers do not write
to them. -/
structure Paired (live spare : List Nat) (d d' : Desk String) : Prop where
  writers : d'.writers.size = d.writers.size
  sections : d'.document.sections.size = d.document.sections.size
  writer_eq : ∀ w ∈ live, d'.writer w = d.writer w
  live_lt : ∀ w ∈ live, w < d.writers.size
  section_lt : ∀ w ∈ live, (d.writer w).sectionId < d.document.sections.size
  apart : ∀ w ∈ live, (d.writer w).sectionId ∉ spare
  spare_lt : ∀ i ∈ spare, i < d.document.sections.size
  same : ∀ i ∉ spare, d'.section? i = d.section? i
  empty : ∀ i ∈ spare, d'.section? i = some #[]

namespace Paired

variable {live live' spare : List Nat} {d d' : Desk String} {w : Nat} {line : String} {g : Writer → Writer}

section

variable (h : Paired live spare d d')
include h

theorem mono (hlive : ∀ w ∈ live', w ∈ live) : Paired live' spare d d' :=
  { h with
    writer_eq := fun w hw => h.writer_eq w (hlive w hw)
    live_lt := fun w hw => h.live_lt w (hlive w hw)
    section_lt := fun w hw => h.section_lt w (hlive w hw)
    apart := fun w hw => h.apart w (hlive w hw) }

theorem rewritten {e e' : Desk String} (hwriters : e.writers.size = d.writers.size ∧ e'.writers.size = d'.writers.size)
    (hsections : e.document.sections.size = d.document.sections.size ∧
      e'.document.sections.size = d'.document.sections.size) (heq : ∀ v ∈ live, e'.writer v = e.writer v)
    (hid : ∀ v ∈ live, (e.writer v).sectionId = (d.writer v).sectionId) (hsame : ∀ i ∉ spare, e'.section? i = e.section? i)
    (hempty : ∀ i ∈ spare, e'.section? i = some #[]) : Paired live spare e e' where
  writers := by rw [hwriters.1, hwriters.2, h.writers]
  sections := by rw [hsections.1, hsections.2, h.sections]
  writer_eq := heq
  live_lt v hv := hwriters.1 ▸ h.live_lt v hv
  section_lt v hv := by rw [hid v hv, hsections.1]; exact h.section_lt v hv
  apart v hv := hid v hv ▸ h.apart v hv
  spare_lt i hi := hsections.1 ▸ h.spare_lt i hi
  same := hsame
  empty := hempty

variable (hw : w ∈ live)
include hw

theorem live_lt' : w < d'.writers.size := by
  rw [h.writers]
  exact h.live_lt w hw

theorem section_lt' : (d'.writer w).sectionId < d'.document.sections.size := by
  rw [h.writer_eq w hw, h.sections]
  exact h.section_lt w hw

theorem putLine : Paired live spare (d.putLine id w line) (d'.putLine id w line) := by
  have hlt := h.live_lt w hw
  refine h.rewritten (by simp) (by simp) (fun v hv => ?_) (fun v hv => ?_) (fun i hi => ?_) fun i hi => ?_
  · rw [writer_putLine hlt, writer_putLine (h.live_lt' hw), h.writer_eq w hw, h.writer_eq v hv]
  · rw [writer_putLine hlt]
    split
    · subst v
      rfl
    · rfl
  · rw [section?_putLine, section?_putLine, h.writer_eq w hw, h.same i hi]
  · rw [section?_putLine, if_neg, h.empty i hi]
    rintro rfl
    exact h.apart w hw (h.writer_eq w hw ▸ hi)

theorem section?_putLine (hi : i ∈ spare) : (d.putLine id w line).section? i = d.section? i := by
  rw [Emit.section?_putLine, if_neg]
  rintro rfl
  exact h.apart w hw hi

theorem update (hg : ∀ x, (g x).sectionId = x.sectionId) : Paired live spare (d.update w g) (d'.update w g) := by
  refine h.rewritten (by simp) ⟨rfl, rfl⟩ (fun v hv => ?_) (fun v hv => ?_) h.same h.empty
  · by_cases hv' : v = w
    · subst v
      rw [writer_update (h.live_lt w hw), writer_update (h.live_lt' hw), h.writer_eq _ hw]
    · rw [writer_update_ne hv', writer_update_ne hv', h.writer_eq v hv]
  · by_cases hv' : v = w
    · subst v
      rw [writer_update (h.live_lt w hw), hg]
    · rw [writer_update_ne hv']

theorem newWriter_eq : (d'.insertionPoint w).2 = (d.insertionPoint w).2 := by
  rw [newWriter_insertionPoint, newWriter_insertionPoint, h.writer_eq w hw, h.writers]

theorem insertionPoint :
    Paired ((d.insertionPoint w).2 :: live) spare (d.insertionPoint w).1 (d'.insertionPoint w).1 := by
  have hs := h.section_lt w hw
  have hs' := h.section_lt' hw
  have hwidth := (d.writer w).width_pos
  have hold : ∀ v ∈ live, (d.insertionPoint w).1.writer v = d.writer v := fun v hv => writer_insertionPoint (h.live_lt v hv)
  refine ⟨by simp [h.writers, h.writer_eq w hw], by simp [h.sections, h.writer_eq w hw],
    List.forall_mem_cons.2 ⟨?_, fun v hv => ?_⟩, List.forall_mem_cons.2 ⟨newWriter_lt, fun v hv => ?_⟩,
    List.forall_mem_cons.2 ⟨?_, fun v hv => ?_⟩, List.forall_mem_cons.2 ⟨?_, fun v hv => ?_⟩, fun i hi => ?_,
    fun i hi => ?_, fun i hi => ?_⟩
  · rw [← h.newWriter_eq hw, writer_newWriter, h.newWriter_eq hw, writer_newWriter, h.writer_eq w hw, h.sections, h.writers]
  · rw [hold v hv, writer_insertionPoint (h.live_lt' hv), h.writer_eq v hv]
  · have := h.live_lt v hv
    rw [size_insertionPoint]
    omega
  · rw [writer_newWriter, sections_insertionPoint]
    simpa using hwidth
  · have := h.section_lt v hv
    rw [hold v hv, sections_insertionPoint]
    omega
  · rw [writer_newWriter]
    exact fun hmem => absurd (h.spare_lt _ hmem) (lt_irrefl _)
  · rw [hold v hv]
    exact h.apart v hv
  · have := h.spare_lt i hi
    rw [sections_insertionPoint]
    omega
  · rw [section?_insertionPoint hs, section?_insertionPoint hs', h.writer_eq w hw, h.sections, h.same i hi]
  · have hlt := h.spare_lt i hi
    rw [section?_insertionPoint hs', h.sections, if_pos hlt, if_neg, h.empty i hi]
    rintro rfl
    exact h.apart w hw (h.writer_eq w hw ▸ hi)

theorem section?_insertionPoint (hi : i ∈ spare) : (d.insertionPoint w).1.section? i = d.section? i := by
  rw [Emit.section?_insertionPoint (h.section_lt w hw), if_pos (h.spare_lt i hi), if_neg]
  rintro rfl
  exact h.apart w hw hi

end

end Paired

def typeset : Int → List String → List (Piece String)
  | _, [] => []
  | indent, line :: lines => .item (indented indent line).1 :: typeset (indented indent line).2 lines

theorem section?_putLines {a : Array (Piece String)} (lines : List String)
    (hw : w < d.writers.size) (hsec : d.section? (d.writer w).sectionId = some a) :
    (putLines d (lines.map fun x => (w, x))).section? (d.writer w).sectionId =
      some (a ++ (typeset (d.writer w).indent lines).toArray) := by
  induction lines generalizing d a with
  | nil => simpa [putLines, typeset] using hsec
  | cons line lines ih =>
    have hwriter : (d.putLine id w line).writer w = _ := writer_putLine hw
    rw [if_pos rfl] at hwriter
    have hnext := ih (d := d.putLine id w line) (a := a.push (.item (indented (d.writer w).indent line).1))
      (by simpa using hw) (by rw [hwriter, section?_putLine, if_pos rfl, hsec, Option.map_some])
    rw [hwriter] at hnext
    simpa [putLines, typeset] using hnext

theorem section?_putLines_ne (lines : List String) (hw : w < d.writers.size)
    (hi : i ≠ (d.writer w).sectionId) : (putLines d (lines.map fun x => (w, x))).section? i = d.section? i := by
  induction lines generalizing d with
  | nil => rfl
  | cons line lines ih =>
    have hwriter : (d.putLine id w line).writer w = _ := writer_putLine hw
    rw [if_pos rfl] at hwriter
    have hnext := ih (d := d.putLine id w line) (by simpa using hw) (by rw [hwriter]; exact hi)
    rw [section?_putLine, if_neg hi] at hnext
    exact hnext

theorem writer_putLines_ne {v : Nat} (lines : List String) (hw : w < d.writers.size) (hv : v ≠ w) :
    (putLines d (lines.map fun x => (w, x))).writer v = d.writer v := by
  induction lines generalizing d with
  | nil => rfl
  | cons line lines ih =>
    have hnext := ih (d := d.putLine id w line) (by simpa using hw)
    rw [writer_putLine hw, if_neg hv] at hnext
    exact hnext

theorem sections_putLines (lines : List (Nat × String)) :
    (putLines d lines).document.sections.size = d.document.sections.size := by
  induction lines generalizing d with
  | nil => rfl
  | cons line lines ih => exact ih.trans sections_putLine

namespace Paired

variable {live spare : List Nat} {d d' : Desk String} {w : Nat}

section

variable (h : Paired live spare d d')

include h

theorem putLines (hw : (d.writer w).sectionId ∈ spare) (hlt : w < d.writers.size)
    (lines : List String) : Paired live spare (Emit.putLines d (lines.map fun x => (w, x))) d' := by
  induction lines generalizing d with
  | nil => exact h
  | cons line lines ih =>
    have hwriter : ∀ v ∈ live, (d.putLine id w line).writer v = d.writer v := by
      intro v hv
      rw [writer_putLine hlt, if_neg]
      rintro rfl
      exact h.apart v hv hw
    refine ih (h.rewritten (by simp) (by simp) (fun v hv => ?_) (fun v hv => by rw [hwriter v hv])
      (fun i hi => ?_) h.empty) ?_ (by simpa using hlt)
    · rw [hwriter v hv, h.writer_eq v hv]
    · rw [Emit.section?_putLine, if_neg, h.same i hi]
      rintro rfl
      exact hi hw
    · rw [writer_putLine hlt, if_pos rfl]
      exact hw

theorem addSpare (hi : i < d.document.sections.size)
    (hlive : ∀ w ∈ live, (d.writer w).sectionId ≠ i) (hempty : d'.section? i = some #[]) :
    Paired live (i :: spare) d d' :=
  { h with
    apart := fun w hw hmem => (List.mem_cons.1 hmem).elim (hlive w hw) (h.apart w hw)
    spare_lt := List.forall_mem_cons.2 ⟨hi, h.spare_lt⟩
    same := fun j hj => h.same j fun hmem => hj (List.mem_cons_of_mem _ hmem)
    empty := List.forall_mem_cons.2 ⟨hempty, h.empty⟩ }

theorem disposed (hw : w ∈ live) (lines : List String) : Paired live (d.document.sections.size :: spare)
      (Emit.putLines (d.insertionPoint w).1 (lines.map fun x => ((d.insertionPoint w).2, x))) (d'.insertionPoint w).1 := by
  have hwidth := (d.writer w).width_pos
  have hpoint := (h.insertionPoint hw).mono fun v hv => List.mem_cons_of_mem _ hv
  refine (hpoint.addSpare ?_ (fun v hv => ?_) ?_).putLines ?_ newWriter_lt lines
  · rw [sections_insertionPoint]
    omega
  · have := h.section_lt v hv
    rw [writer_insertionPoint (h.live_lt v hv)]
    omega
  · rw [Emit.section?_insertionPoint (h.section_lt' hw), h.sections, h.writer_eq w hw, if_neg (lt_irrefl _), if_pos (by omega)]
  · rw [writer_newWriter]
    exact List.mem_cons_self

theorem section?_disposed (hw : w ∈ live) (lines : List String) :
    (Emit.putLines (d.insertionPoint w).1 (lines.map fun x => ((d.insertionPoint w).2, x))).section?
      d.document.sections.size = some (typeset (d.writer w).indent lines).toArray := by
  have hwidth := (d.writer w).width_pos
  have hsec : (d.insertionPoint w).1.section? d.document.sections.size = some #[] := by
    rw [Emit.section?_insertionPoint (h.section_lt w hw), if_neg (lt_irrefl _), if_pos (by omega)]
  have hnew := writer_newWriter (d := d) (w := w)
  have hlines := section?_putLines lines
    newWriter_lt (by rw [hnew]; exact hsec)
  rw [hnew] at hlines
  simpa using hlines

theorem unwritten_disposed (hw : w ∈ live) (lines : List String) (hi : i ∈ spare) :
    (Emit.putLines (d.insertionPoint w).1 (lines.map fun x => ((d.insertionPoint w).2, x))).section? i = d.section? i := by
  rw [section?_putLines_ne lines newWriter_lt, h.section?_insertionPoint hw hi]
  rw [writer_newWriter]
  exact Nat.ne_of_lt (h.spare_lt i hi)

end

end Paired

/-! ## Twins -/

/-- The writers that are written to: that of the code, that of the prototypes, and those of the blocks that are open. -/
def live (p : Page) : List Nat := p.2.main :: (p.writer.proto.toList ++ p.writer.declarationLevels)

/-- Pages of clients that dispose of foreign nodes and of nothing: they differ in spare sections only. -/
structure Twin (spare : List Nat) (p q : Page) : Prop where
  session : q.1 = hushed p.1
  main : q.2.main = p.2.main
  declared : q.2.declared = p.2.declared
  names : q.2.names = p.2.names
  labels : q.2.labels = p.2.labels
  desk : Paired (live p) spare p.2.desk q.2.desk

def Page.size (p : Page) : Nat := p.2.desk.document.sections.size

theorem Page.size_enter (p : Page) : p.size ≤ p.enter.size := by
  simp [Page.size, Page.enter, Page.tune, Page.point]

def Unwritten (spare : List Nat) (p q : Page) : Prop := ∀ i ∈ spare, q.2.desk.section? i = p.2.desk.section? i

namespace Twin

def withDesk (p : Page) (d : Desk String) : Page := (p.1, { p.2 with desk := d })

variable {spare : List Nat} {p q : Page} {w : Nat} {line : String} (h : Twin spare p q)
include h

theorem writer : q.writer = p.writer := by
  have hmain := h.desk.writer_eq p.2.main List.mem_cons_self
  rw [Page.writer, h.main, hmain, Page.writer]

theorem agree : Agree p q where
  session := h.session
  main := h.main
  declared := h.declared
  names := h.names
  labels := h.labels
  writer := h.writer
  writers := h.desk.writers
  sections := h.desk.sections
  valid := h.desk.live_lt _ List.mem_cons_self

theorem ofDesk {d' : Desk String} (hd : Paired (live (withDesk p d)) spare d d') :
    Twin spare (withDesk p d) (withDesk q d') :=
  ⟨h.session, h.main, h.declared, h.names, h.labels, hd⟩

theorem main_lt : p.2.main < p.2.desk.writers.size := h.desk.live_lt _ List.mem_cons_self

theorem live_putLine (hw : w ∈ live p) : live (p.putLine w line) = live p := by
  have hwriter : (p.putLine w line).writer = if p.2.main = w then
      { p.2.desk.writer w with indent := (indented (p.2.desk.writer w).indent line).2 } else p.writer :=
    writer_putLine (h.desk.live_lt w hw)
  unfold live
  rw [hwriter]
  split
  · subst w
    rfl
  · rfl

theorem putLine (hw : w ∈ live p) : Twin spare (p.putLine w line) (q.putLine w line) := by
  refine h.ofDesk ((h.desk.putLine hw).mono fun v hv => ?_)
  rw [← h.live_putLine hw]
  exact hv

theorem writer_point : p.point.writer = p.writer := writer_insertionPoint h.main_lt

theorem live_point : live p.point = live p := by
  unfold live
  rw [h.writer_point]
  rfl

theorem point : Twin spare p.point q.point := by
  have hd : q.point = withDesk q (q.2.desk.insertionPoint p.2.main).1 := by rw [← h.main]; rfl
  rw [hd]
  refine h.ofDesk ((h.desk.insertionPoint List.mem_cons_self).mono fun v hv => List.mem_cons_of_mem _ ?_)
  rw [← h.live_point]
  exact hv

theorem writer_tune (g : Writer → Writer) : (p.tune g).writer = g p.writer := writer_update h.main_lt

theorem tune {g : Writer → Writer} (hid : ∀ x, (g x).sectionId = x.sectionId)
    (hproto : ∀ x, (g x).proto = x.proto)
    (hlevels : ∀ v ∈ (g p.writer).declarationLevels, v ∈ p.writer.declarationLevels) :
    Twin spare (p.tune g) (q.tune g) := by
  have hd : q.tune g = withDesk q (q.2.desk.update p.2.main g) := by rw [← h.main]; rfl
  rw [hd]
  refine h.ofDesk ((h.desk.update List.mem_cons_self hid).mono fun v hv => ?_)
  have hv' : v ∈ live (p.tune g) := hv
  rw [live, h.writer_tune, hproto] at hv'
  rcases List.mem_cons.1 hv' with rfl | hv'
  · exact List.mem_cons_self
  · refine List.mem_cons_of_mem _ ((List.mem_append.1 hv').elim (fun hv => List.mem_append_left _ hv) fun hv => ?_)
    exact List.mem_append_right _ (hlevels v hv)

theorem leave : Twin spare p.leave q.leave :=
  h.tune (fun _ => rfl) (fun _ => rfl) fun _ hv => (List.dropLast_sublist _).subset hv

theorem enter : Twin spare p.enter q.enter := by
  have hpoint := h.point
  have hnew : q.newWriter = p.newWriter := h.agree.newWriter
  have hd : q.enter = withDesk q ((q.2.desk.insertionPoint p.2.main).1.update p.2.main
      fun m => { m with declarationLevels := m.declarationLevels ++ [p.newWriter] }) := by
    rw [← hnew, ← h.main]
    rfl
  rw [hd]
  have hpaired := (h.desk.insertionPoint List.mem_cons_self).update
    (g := fun m => { m with declarationLevels := m.declarationLevels ++ [p.newWriter] })
    (List.mem_cons_of_mem _ List.mem_cons_self) fun _ => rfl
  refine h.ofDesk (hpaired.mono fun v hv => ?_)
  have hv' : v ∈ live p.enter := hv
  rw [live, Page.enter, hpoint.writer_tune, h.writer_point] at hv'
  simp only [List.mem_cons, List.mem_append, List.not_mem_nil, or_false] at hv'
  rcases hv' with rfl | hv' | hv' | rfl
  · exact List.mem_cons_of_mem _ List.mem_cons_self
  · exact List.mem_cons_of_mem _ (List.mem_cons_of_mem _ (List.mem_append_left _ hv'))
  · exact List.mem_cons_of_mem _ (List.mem_cons_of_mem _ (List.mem_append_right _ hv'))
  · exact List.mem_cons_self

theorem unwritten_enter : Unwritten spare p p.enter := fun _ hi =>
  h.desk.section?_insertionPoint List.mem_cons_self hi

theorem congr {spare' : List Nat} (hs : ∀ i, i ∈ spare' ↔ i ∈ spare) : Twin spare' p q :=
  ⟨h.session, h.main, h.declared, h.names, h.labels, { h.desk with
      apart := fun w hw hi => h.desk.apart w hw ((hs _).1 hi)
      spare_lt := fun i hi => h.desk.spare_lt i ((hs i).1 hi)
      same := fun i hi => h.desk.same i fun hi' => hi ((hs i).2 hi')
      empty := fun i hi => h.desk.empty i ((hs i).1 hi) }⟩

end Twin

/-! ## Acts on twins -/

section

variable {spare : List Nat} {p q p' : Page} {a : Act}

theorem Does.twin (h : Does a p q) (ht : Twin spare p p') (ha : ∀ o, a ≠ .dispose o) :
    ∃ q', Does a p' q' ∧ Twin spare q q' ∧ Unwritten spare p q ∧ p.size ≤ q.size := by
  have hform : ∀ id, p'.1.form? id = p.1.form? id := fun id => by rw [ht.session]; rfl
  cases h with
  | put line =>
    have hmain : p.2.main ∈ live p := List.mem_cons_self
    refine ⟨_, .put line p', ?_, fun i hi => ht.desk.section?_putLine hmain hi, by simp [Page.size, Page.putLine, putLines]⟩
    rw [ht.main]
    exact ht.putLine hmain
  | @prototype line p w hw =>
    have hlive : w ∈ live p := List.mem_cons_of_mem _ (List.mem_append_left _ (by rw [hw]; simp))
    exact ⟨_, .prototype (by rw [ht.writer, hw]), ht.putLine hlive, fun i hi => ht.desk.section?_putLine hlive hi,
      by simp [Page.size, Page.putLine, putLines]⟩
  | @declare id line p w hw hline =>
    have hlive : w ∈ live p := List.mem_cons_of_mem _ (List.mem_append_right _ (List.mem_of_getLast? hw))
    refine ⟨_, .declare (by rw [ht.writer, hw]) ?_, ht.putLine hlive, fun i hi => ht.desk.section?_putLine hlive hi,
      by simp [Page.size, Page.putLine, putLines]⟩
    obtain ⟨t, v, type, x, value, ht', htype, hv, hx, rfl⟩ := hline
    rw [ht.session]
    exact ⟨t, v, type, x, value, ht', htype, hv, (reads_shownName _ hx).2, rfl⟩
  | point =>
    exact ⟨_, .point _, ht.point, fun i hi => ht.desk.section?_insertionPoint List.mem_cons_self hi,
      by simp [Page.size, Page.point]⟩
  | loops f => exact ⟨_, .loops f _, ht.tune (fun _ => rfl) (fun _ => rfl) fun _ hv => hv, fun _ _ => rfl, le_refl _⟩
  | name hv hrole hid =>
    refine ⟨_, .name ((hform _).trans hv) hrole (by rw [ht.declared]; exact hid), ?_, fun _ _ => rfl, le_refl _⟩
    refine ⟨?_, ht.main, ?_, ?_, ht.labels, ht.desk⟩
    · simp only [Page.name, Page.freshName, ht.names, ht.declared, ht.session]
      rfl
    · simp only [Page.name, ht.declared]
    · simp only [Page.name, Page.freshName, ht.names, ht.declared]
  | title hf htitle =>
    refine ⟨_, .title ((hform _).trans hf) htitle, ?_, fun _ _ => rfl, le_refl _⟩
    exact ⟨by simp only [Page.reform, ht.session]; rfl, ht.main, ht.declared, ht.names, ht.labels, ht.desk⟩
  | count => exact ⟨_, .count _, ⟨ht.session, ht.main, ht.declared, ht.names, congrArg (· + 1) ht.labels, ht.desk⟩, fun _ _ => rfl, le_refl _⟩
  | mark id =>
    refine ⟨_, .mark id _, ?_, fun _ _ => rfl, le_refl _⟩
    exact ⟨by simp only [ht.session]; rfl, ht.main, ht.declared, ht.names, ht.labels, ht.desk⟩
  | dispose => exact absurd rfl (ha _)

theorem disposedIn_skeleton (inner : Operand → Option (List (Path × String))) (f : Form) :
    disposedIn inner (skeleton f) = disposedIn inner f := by
  cases f <;> rfl

theorem disposed_congr {s t : Session} (h : ∀ id, (t.form? id).map skeleton = (s.form? id).map skeleton) (depth : Nat)
    (o : Operand) : disposed t depth o = disposed s depth o := by
  induction depth generalizing o with
  | zero => rfl
  | succ depth ih =>
    have hinner : disposed t depth = disposed s depth := funext ih
    cases o with
    | node id =>
      have hform := h id
      simp only [disposed, hinner]
      cases hs : s.form? id <;> cases ht : t.form? id <;> rw [hs, ht] at hform <;> simp at hform
      rw [Option.bind_some, Option.bind_some, ← disposedIn_skeleton, hform, disposedIn_skeleton]
    | _ => rfl

theorem twin_dispose {o : Operand} (h : Does (.dispose o) p q) (ht : Twin spare p p') (hd : p.1.settings.disposes = true) :
    ∃ q' xs, disposed p.1 depthLimit o = some xs ∧ Does (.dispose o) p' q' ∧ Twin (p.size :: spare) q q' ∧
      q.2.desk.section? p.size = some (typeset p.writer.indent (xs.map fun x => disposal x.2)).toArray ∧
      Unwritten spare p q ∧ p.size < q.size := by
  cases h with
  | dispose h =>
    obtain ⟨xs, hxs, rfl⟩ := ends_disposeWithin.1 h
    have hmain : p.2.main ∈ live p := List.mem_cons_self
    have hxs' : disposed p'.point.1 depthLimit o = some xs := by
      rw [← hxs]
      refine disposed_congr (fun id => ?_) _ _
      show (p'.1.form? id).map _ = _
      rw [ht.session]
      rfl
    have hquiet : p'.point.1.settings.disposes = false := by
      show p'.1.settings.disposes = false
      rw [ht.session]
      rfl
    have hlines : (p.point.disposed p.newWriter (xs.map (·.2))).2.desk = putLines (p.2.desk.insertionPoint p.2.main).1
        ((xs.map fun x => disposal x.2).map fun x => ((p.2.desk.insertionPoint p.2.main).2, x)) := by
      have hd' : p.point.1.settings.disposes = true := hd
      simp only [Page.disposed, hd', if_true, List.map_map]
      rfl
    have hwriter : (p.point.disposed p.newWriter (xs.map (·.2))).writer = p.writer := by
      have hnew : p.2.main ≠ (p.2.desk.insertionPoint p.2.main).2 := by
        have := ht.main_lt
        rw [newWriter_insertionPoint]
        have := (p.2.desk.writer p.2.main).width_pos
        omega
      have hlt : (p.2.desk.insertionPoint p.2.main).2 < (p.2.desk.insertionPoint p.2.main).1.writers.size := by
        have := (p.2.desk.writer p.2.main).width_pos
        rw [newWriter_insertionPoint, size_insertionPoint]
        omega
      rw [Page.writer, hlines]
      exact (writer_putLines_ne _ hlt hnew).trans ht.writer_point
    refine ⟨p'.point, xs, hxs, .dispose (ends_disposeWithin.2 ⟨xs, hxs', ?_⟩), ?_, ?_, ?_, ?_⟩
    · simp [Page.disposed, hquiet, putLines]
    · refine ⟨ht.session, ht.main, ht.declared, ht.names, ht.labels, ?_⟩
      have hlive : live (p.point.disposed p.newWriter (xs.map (·.2))) = live p := by
        unfold live
        rw [hwriter]
        rfl
      have hdesk : p'.point.2.desk = (p'.2.desk.insertionPoint p.2.main).1 := by rw [← ht.main]; rfl
      rw [hlive, hlines, hdesk]
      exact ht.desk.disposed hmain _
    · rw [hlines]
      exact ht.desk.section?_disposed hmain _
    · intro i hi
      rw [hlines]
      exact ht.desk.unwritten_disposed hmain _ hi
    · have := (p.2.desk.writer p.2.main).width_pos
      rw [Page.size, Page.size, hlines, sections_putLines, sections_insertionPoint]
      omega

end

end ArrayKernel.Emit
