import ArrayKernel.Proofs.Naming

/-!
# The temporaries of one builder

A temporary is shown under its name without the digits at the end, followed by the number of its call. The
number can be read back from what is shown, so a builder never shows two temporaries alike.
-/

namespace ArrayKernel.Build

open Ast

/-- How many temporaries the builder at work has made. -/
def drawn (s : Session) : Nat := (s.builders[s.builder]?.map (·.temporaries)).getD 0

/-- What is asked for: a type, and a name if one is given. -/
structure Request where
  type : CType
  name : Option String

namespace Request

variable {s t u : Session}

def title (q : Request) : String :=
  match q.name with
  | some x => if x.isEmpty then "temp" else x
  | none => "temp"

def draw (q : Request) : Action Operand := temporaryNamed q.type ((q.name.map Datum.text).getD .null)

/-- What is shown of the temporaries drawn from number `n` on. -/
def shownFrom (n : Nat) (qs : List Request) : List String :=
  (qs.zipIdx n).map fun (q, i) => shownTemporary q.title i

theorem nodup_shownFrom (n : Nat) (qs : List Request) : (shownFrom n qs).Nodup := by
  have hnumbers : ((qs.zipIdx n).map Prod.snd).Nodup := by
    rw [List.zipIdx_map_snd]
    exact List.nodup_range'
  refine List.pairwise_map.2 ((List.pairwise_map.1 hnumbers).imp ?_)
  rintro ⟨q, i⟩ ⟨q', j⟩ hij hshown
  exact hij (IsStem.number_inj (isStem_withoutDigits _) (isStem_withoutDigits _) hshown).2

theorem runs_draw {q : Request} {n : Nat} {o : Operand} (hn : Runs nextTemporary s n u)
    (hc : Runs (create (.var { role := .temporary (shownTemporary q.title n), name := .ofString q.title })
      (some q.type)) u o t) : Runs q.draw s o t := by
  obtain ⟨type, _ | x⟩ := q
  · exact runs_bind.2 ⟨"temp", s, runs_pure.2 ⟨rfl, rfl⟩, runs_bind.2 ⟨n, u, hn, hc⟩⟩
  · exact runs_bind.2 ⟨_, s, runs_pure.2 ⟨rfl, rfl⟩, runs_bind.2 ⟨n, u, hn, hc⟩⟩

theorem create_runs (s : Session) (f : Form) (type : Option CType) :
    ∃ p, Runs (create f type) s (.node s.next) (s.add { form := f, type, position := p }) := by
  simp only [create, runs_bind]
  exact ⟨_, _, _, runs_position.2 ⟨rfl, rfl⟩, _, _, runs_addNode.2 ⟨rfl, rfl⟩, runs_pure.2 ⟨rfl, rfl⟩⟩

/-- One call adds one node. It is shown with the number of the call, and the next call has the next number. -/
theorem draw_runs (q : Request) (hb : s.builder < s.builders.size) :
    ∃ t, Runs q.draw s (.node s.next) t ∧ t.nodes.size = s.nodes.size + 1 ∧
      t.builder < t.builders.size ∧ drawn t = drawn s + 1 ∧
      shown? t s.next = some (shownTemporary q.title (drawn s)) ∧
      ∀ id, id.index < s.nodes.size → shown? t id = shown? s id := by
  obtain ⟨u, hn⟩ : ∃ u, Runs nextTemporary s (drawn s) u := ⟨_, runs_nextTemporary.2 ⟨rfl, rfl⟩⟩
  obtain ⟨p, hc⟩ := create_runs u
    (.var { role := .temporary (shownTemporary q.title (drawn s)), name := .ofString q.title }) (some q.type)
  have hrun := runs_draw hn hc
  obtain ⟨-, rfl⟩ := runs_nextTemporary.1 hn
  refine ⟨_, hrun, by simp, by simpa [Session.add] using hb, ?_, ?_, ?_⟩
  · simp [drawn, Session.add, Array.getElem_modify, hb]
  · unfold shown?
    rw [form?_add, if_pos (by rfl)]
  · intro id hid
    unfold shown?
    rw [form?_add, if_neg (by rintro rfl; simp [Session.next] at hid)]
    rfl

theorem drawAll_runs (qs : List Request) (hb : s.builder < s.builders.size) :
    ∃ (ids : List NodeId) (t : Session), Runs (qs.mapM draw) s (ids.map .node) t ∧
      ids.map (shown? t) = (shownFrom (drawn s) qs).map some ∧
      ∀ id, id.index < s.nodes.size → shown? t id = shown? s id := by
  induction qs generalizing s with
  | nil => exact ⟨[], s, runs_mapM_nil.2 ⟨rfl, rfl⟩, rfl, fun _ _ => rfl⟩
  | cons q qs ih =>
    obtain ⟨u, hdraw, hsize, hbu, hdrawn, hshown, hkept⟩ := draw_runs q hb
    obtain ⟨ids, t, hrest, hnames, hlater⟩ := ih hbu
    refine ⟨s.next :: ids, t, runs_mapM_cons.2 ⟨_, u, _, hdraw, hrest, rfl⟩, ?_, ?_⟩
    · have hfirst : shown? t s.next = some (shownTemporary q.title (drawn s)) := by
        rw [hlater s.next (by simp [hsize, Session.next]), hshown]
      rw [List.map_cons, hnames, hfirst, hdrawn]
      rfl
    · intro id hid
      rw [hlater id (by omega), hkept id hid]

end Request

/-- Whatever names are asked for, all calls succeed, each makes a node of its own, and no two of the nodes are
shown alike. -/
theorem temporaries_shown_apart (s : Session) (hb : s.builder < s.builders.size) (qs : List Request) :
    ∃ (ids : List NodeId) (t : Session) (names : List String),
      Runs (qs.mapM Request.draw) s (ids.map .node) t ∧ ids.length = qs.length ∧ ids.Nodup ∧
      ids.map (shown? t) = names.map some ∧ names.Nodup := by
  obtain ⟨ids, t, hruns, hnames, -⟩ := Request.drawAll_runs qs hb
  have hnodup := Request.nodup_shownFrom (drawn s) qs
  refine ⟨ids, t, _, hruns, ?_, ?_, hnames, hnodup⟩
  · have hlength := congrArg List.length hnames
    simpa [Request.shownFrom] using hlength
  · have hshown := hnodup.map (Option.some_injective _)
    rw [← hnames] at hshown
    exact hshown.of_map

theorem temporaries_shown_apart_digits :
    ∃ (ids : List NodeId) (t : Session) (names : List String),
      Runs ([⟨.int, none⟩, ⟨.int, some ""⟩, ⟨.int, some "temp10"⟩, ⟨.float64, some "7"⟩].mapM Request.draw) {}
        (ids.map .node) t ∧ ids.length = 4 ∧ ids.Nodup ∧ ids.map (shown? t) = names.map some ∧ names.Nodup :=
  temporaries_shown_apart {} (by decide) _

end ArrayKernel.Build
