import ArrayKernel.Proofs.Scripts
import Mathlib.Data.List.Nodup

/-!
# Occurrences

A node may stand in several places below another. An occurrence is a way down through the children that
traversals visit.
-/

namespace ArrayKernel.Emit

open Ast Stateful

variable {os : List (Path × Operand)} {x : Path × NodeId} {β : Type} {xs : List (Path × String)} {h : Handler}
variable {root : NodeId} {m n : Node} {as bs : List Operand} {pick : Form → Option β} {depth : Nat} {o : Operand}

/-! ## Ways down -/

inductive Leads (s : Session) : NodeId → Path → NodeId → Prop where
  | here (id : NodeId) : Leads s id [] id
  | step {id child j : NodeId} {f : Form} {place : Place} {path : Path} (hf : s.form? id = some f)
    (hc : ([place], child) ∈ places f) (h : Leads s child path j) : Leads s id (place :: path) j

section

variable {s : Session} {id j k : NodeId} {f : Form} {place : Place} {path path' : Path}

theorem Leads.trans (h : Leads s id path j) (h' : Leads s j path' k) : Leads s id (path ++ path') k := by
  induction h with
  | here => exact h'
  | step hf hc _ ih => exact .step hf hc (ih h')

theorem Leads.split (h : Leads s id (path ++ path') k) : ∃ j, Leads s id path j ∧ Leads s j path' k := by
  induction path generalizing id with
  | nil => exact ⟨id, .here id, h⟩
  | cons place path ih =>
    cases h with
    | step hf hc h =>
      obtain ⟨j, hj, hk⟩ := ih h
      exact ⟨j, .step hf hc hj, hk⟩

theorem mem_nodesAmong : x ∈ nodesAmong os ↔ (x.1, .node x.2) ∈ os := by
  simp only [nodesAmong, List.mem_filterMap, Option.map_eq_some_iff]
  constructor
  · rintro ⟨⟨path, o⟩, ho, id, hid, rfl⟩
    cases o <;> cases hid
    exact ho
  · intro h
    exact ⟨_, h, x.2, rfl, rfl⟩

theorem mem_placed {name : String} {x : Path × Operand} (h : x ∈ placed name o) : ∃ i, x.1 = [(name, i)] := by
  unfold placed at h
  split at h
  · cases h
  · obtain ⟨⟨o, i⟩, -, rfl⟩ := List.mem_map.1 h
    exact ⟨i, rfl⟩
  · rw [List.mem_singleton.1 h]
    exact ⟨0, rfl⟩

theorem nodup_placed (name : String) (o : Operand) : ((placed name o).map (·.1)).Nodup := by
  unfold placed
  split
  · exact .nil
  · rename_i items
    have hpaths : (items.zipIdx.map fun y => (([(name, y.2)] : Path), y.1)).map (·.1) =
        (List.range' 0 items.length).map fun i => [(name, i)] := by
      rw [← List.zipIdx_map_snd 0 items, List.map_map, List.map_map]
      rfl
    have hrange : (List.range' 0 items.length).Nodup := List.nodup_range'
    rw [hpaths]
    exact hrange.map fun i j h => by simpa using h
  · exact List.nodup_singleton _

theorem nodup_operands (f : Form) : ((operands f).map (·.1)).Nodup := by
  rw [operands, List.map_flatMap, List.nodup_flatMap]
  refine ⟨fun c _ => nodup_placed c.1 c.2, ?_⟩
  refine (List.pairwise_map.1 names_nodup).imp fun {a b} hne x hx hx' => ?_
  obtain ⟨o, ho, rfl⟩ := List.mem_map.1 hx
  obtain ⟨o', ho', heq⟩ := List.mem_map.1 hx'
  obtain ⟨i, hi⟩ := mem_placed ho
  obtain ⟨i', hi'⟩ := mem_placed ho'
  rw [hi, hi'] at heq
  simp only [List.cons.injEq, Prod.mk.injEq] at heq
  exact hne heq.1.1.symm

theorem nodesAmong_sublist (os : List (Path × Operand)) : ((nodesAmong os).map (·.1)).Sublist (os.map (·.1)) := by
  induction os with
  | nil => exact .slnil
  | cons o os ih =>
    obtain ⟨path, o⟩ := o
    cases o with
    | node id => exact ih.cons_cons path
    | datum d | group items => exact ih.cons path

theorem nodup_places (f : Form) : ((places f).map (·.1)).Nodup := (nodup_operands f).sublist (nodesAmong_sublist _)

theorem mem_places (h : x ∈ places f) :
    ∃ name i o, x.1 = [(name, i)] ∧ (name, o) ∈ f.children ∧ x ∈ nodesAmong (placed name o) := by
  obtain ⟨⟨name, o⟩, hc, hx⟩ := List.mem_flatMap.1 (mem_nodesAmong.1 h)
  obtain ⟨i, hi⟩ := mem_placed hx
  exact ⟨name, i, o, hi, hc, mem_nodesAmong.2 hx⟩

theorem Leads.unique (h : Leads s id path j) (h' : Leads s id path k) : j = k := by
  induction h with
  | here =>
    cases h'
    rfl
  | step hf hc _ ih =>
    cases h' with
    | step hf' hc' h' =>
      obtain rfl := Option.some.inj (hf.symm.trans hf')
      have heq := List.inj_on_of_nodup_map (nodup_places _) hc hc' rfl
      cases heq
      exact ih h'

def Occurs (s : Session) (id : NodeId) (path : Path) (P : Form → Prop) : Prop :=
  ∃ j f, Leads s id path j ∧ s.form? j = some f ∧ P f

variable {P : Form → Prop}

theorem occurs_nil (hf : s.form? id = some f) : Occurs s id [] P ↔ P f := by
  constructor
  · rintro ⟨j, f', hl, hf', hP⟩
    cases hl
    cases hf.symm.trans hf'
    exact hP
  · exact fun hP => ⟨id, f, .here id, hf, hP⟩

theorem occurs_cons (hf : s.form? id = some f) :
    Occurs s id (place :: path) P ↔ ∃ c, ([place], c) ∈ places f ∧ Occurs s c path P := by
  constructor
  · rintro ⟨j, f', hl, hf', hP⟩
    cases hl with
    | step hf'' hc hl =>
      cases hf.symm.trans hf''
      exact ⟨_, hc, j, f', hl, hf', hP⟩
  · rintro ⟨c, hc, j, f', hl, hf', hP⟩
    exact ⟨j, f', .step hf hc hl, hf', hP⟩

theorem Leads.occurs_append (h : Leads s id path j) : Occurs s id (path ++ path') P ↔ Occurs s j path' P := by
  constructor
  · rintro ⟨k, f', hl, hf', hP⟩
    obtain ⟨j', hj', hk⟩ := hl.split
    obtain rfl := h.unique hj'
    exact ⟨k, f', hk, hf', hP⟩
  · rintro ⟨k, f', hl, hf', hP⟩
    exact ⟨k, f', h.trans hl, hf', hP⟩

end

/-! ## Handlers and foreign nodes -/

def HandlerAt (s : Session) (id : NodeId) (path : Path) : Prop := Occurs s id path fun f => ∃ h, f = .handler h

def ForeignAt (s : Session) (id : NodeId) (path : Path) (text : String) : Prop :=
  Occurs s id path fun f => ∃ owned, f = .foreign text owned

def InBody (handler path : Path) : Prop := ∃ k rest, path = handler ++ ("body", k) :: rest

/-- The innermost of the handlers in whose bodies an occurrence is. -/
structure Innermost (s : Session) (root : NodeId) (handler path : Path) : Prop where
  handlerAt : HandlerAt s root handler
  inBody : InBody handler path
  inner : ∀ other, HandlerAt s root other → InBody other path → other <+: handler

theorem Innermost.unique {s : Session} {h h' path : Path} (hi : Innermost s root h path)
    (hi' : Innermost s root h' path) : h = h' := by
  have hle := hi'.inner h hi.handlerAt hi.inBody
  have hge := hi.inner h' hi'.handlerAt hi'.inBody
  exact hle.eq_of_length (le_antisymm hle.length_le hge.length_le)

def Uncovered (s : Session) (id : NodeId) (path : Path) (text : String) : Prop :=
  ForeignAt s id path text ∧ ∀ other, other <+: path → ¬HandlerAt s id other

section

variable {s : Session} {id j k : NodeId} {f : Form} {place : Place} {path path' : Path} {text : String}

theorem uncovered_cons (hf : s.form? id = some f) (hpassed : isPassed f) :
    Uncovered s id (place :: path) text ↔ ∃ c, ([place], c) ∈ places f ∧ Uncovered s c path text := by
  unfold Uncovered ForeignAt HandlerAt
  rw [occurs_cons hf]
  constructor
  · rintro ⟨⟨c, hc, hforeign⟩, hnone⟩
    refine ⟨c, hc, hforeign, fun other hother hat => hnone (place :: other) ?_ ((occurs_cons hf).2 ⟨c, hc, hat⟩)⟩
    exact List.cons_prefix_cons.2 ⟨rfl, hother⟩
  · rintro ⟨c, hc, hforeign, hnone⟩
    refine ⟨⟨c, hc, hforeign⟩, fun other hother hat => ?_⟩
    rcases List.prefix_cons_iff.1 hother with rfl | ⟨rest, rfl, hrest⟩
    · obtain ⟨h, rfl⟩ := (occurs_nil hf).1 hat
      exact hpassed
    · obtain ⟨c', hc', hat⟩ := (occurs_cons hf).1 hat
      cases List.inj_on_of_nodup_map (nodup_places f) hc hc' rfl
      exact hnone rest hrest hat

theorem mem_below {b : β} {xs : List (Path × β)} :
    (path, b) ∈ below path' xs ↔ ∃ rest, path = path' ++ rest ∧ (rest, b) ∈ xs := by
  simp only [below, List.mem_map, Prod.mk.injEq]
  constructor
  · rintro ⟨x, hx, rfl, rfl⟩
    exact ⟨x.1, rfl, hx⟩
  · rintro ⟨rest, rfl, hx⟩
    exact ⟨(rest, b), hx, rfl, rfl⟩

theorem gathered_mapM {inner : Operand → Option (List (Path × β))}
    {xss : List (List (Path × β))} (h : os.mapM (fun o => (inner o.2).map (below o.1)) = some xss) :
    (∀ o ∈ os, ∃ xs, inner o.2 = some xs) ∧ ∀ x, x ∈ xss.flatten ↔ ∃ o ∈ os, ∃ xs, inner o.2 = some xs ∧ x ∈ below o.1 xs := by
  induction os generalizing xss with
  | nil =>
    cases h
    simp
  | cons o os ih =>
    simp only [List.mapM_cons, Option.pure_def, Option.bind_eq_bind, Option.bind_eq_some_iff, Option.map_eq_some_iff,
      Option.some.injEq] at h
    obtain ⟨_, ⟨xs, hxs, rfl⟩, yss, hyss, rfl⟩ := h
    obtain ⟨hall, hmem⟩ := ih hyss
    refine ⟨List.forall_mem_cons.2 ⟨⟨xs, hxs⟩, hall⟩, fun x => ?_⟩
    rw [List.flatten_cons, List.mem_append, hmem]
    simp [hxs]

theorem nodup_mapM {inner : Operand → Option (List (Path × String))}
    {xss : List (List (Path × String))} (h : os.mapM (fun o => (inner o.2).map (below o.1)) = some xss)
    (hpaths : (os.map (·.1)).Nodup) (hplace : ∀ o ∈ os, ∃ place, o.1 = [place])
    (hinner : ∀ o ∈ os, ∀ xs, inner o.2 = some xs → (xs.map (·.1)).Nodup) : (xss.flatten.map (·.1)).Nodup := by
  induction os generalizing xss with
  | nil =>
    cases h
    exact .nil
  | cons o os ih =>
    simp only [List.mapM_cons, Option.pure_def, Option.bind_eq_bind, Option.bind_eq_some_iff, Option.map_eq_some_iff,
      Option.some.injEq] at h
    obtain ⟨_, ⟨xs, hxs, rfl⟩, yss, hyss, rfl⟩ := h
    rw [List.map_cons, List.nodup_cons] at hpaths
    rw [List.flatten_cons, List.map_append]
    refine List.Nodup.append ?_ (ih hyss hpaths.2 (fun o ho => hplace o (.tail _ ho)) fun o ho => hinner o (.tail _ ho)) ?_
    · have hbelow : (below o.1 xs).map (·.1) = (xs.map (·.1)).map (o.1 ++ ·) := by simp [below]
      rw [hbelow]
      exact (hinner o (.head _) xs hxs).map fun _ _ => List.append_cancel_left
    · intro path hpath hpath'
      obtain ⟨x, hx, rfl⟩ := List.mem_map.1 hpath
      obtain ⟨y, hy, heq⟩ := List.mem_map.1 hpath'
      obtain ⟨o', ho', ys, -, hy⟩ := ((gathered_mapM hyss).2 y).1 hy
      obtain ⟨rest, hrest, -⟩ := mem_below.1 hx
      obtain ⟨rest', hrest', -⟩ := mem_below.1 hy
      obtain ⟨place, hplace1⟩ := hplace o (.head _)
      obtain ⟨place', hplace2⟩ := hplace o' (.tail _ ho')
      refine hpaths.1 (List.mem_map.2 ⟨o', ho', ?_⟩)
      rw [hrest, hrest', hplace1, hplace2] at heq
      rw [hplace1, hplace2]
      simpa using (List.cons.inj heq).1

/-- The client disposes of the foreign nodes below an operand that no handler on the way covers, each once. -/
theorem mem_disposed (h : disposed s depth (.node id) = some xs) :
    (∀ path text, (path, text) ∈ xs ↔ Uncovered s id path text) ∧ (xs.map (·.1)).Nodup := by
  induction depth generalizing id xs with
  | zero => cases h
  | succ depth ih =>
    obtain ⟨f, hf, h⟩ := Option.bind_eq_some_iff.1 h
    by_cases hpassed : isPassed f
    · rw [disposedIn_of_isPassed _ hpassed] at h
      obtain ⟨xss, hxss, rfl⟩ := Option.map_eq_some_iff.1 h
      obtain ⟨hall, hmem⟩ := gathered_mapM hxss
      have hnode : ∀ o ∈ operands f, ∃ c, o.2 = .node c := by
        intro o ho
        obtain ⟨xs, hxs⟩ := hall o ho
        cases hdepth : depth <;> cases ho2 : o.2 <;> rw [hdepth, ho2] at hxs <;> first | exact ⟨_, rfl⟩ | cases hxs
      have hplace : ∀ o ∈ operands f, ∃ place, o.1 = [place] := by
        intro o ho
        obtain ⟨c, -, ho⟩ := List.mem_flatMap.1 ho
        obtain ⟨i, hi⟩ := mem_placed ho
        exact ⟨_, hi⟩
      refine ⟨fun path text => ?_, nodup_mapM hxss (nodup_operands f) hplace fun o ho xs hxs => ?_⟩
      · rw [hmem]
        constructor
        · rintro ⟨⟨path', o⟩, ho, xs, hxs, hx⟩
          obtain ⟨c, rfl⟩ := hnode _ ho
          obtain ⟨place, rfl⟩ := hplace _ ho
          obtain ⟨rest, rfl, hrest⟩ := mem_below.1 hx
          exact (uncovered_cons hf hpassed).2 ⟨c, mem_nodesAmong.2 ho, ((ih hxs).1 rest text).1 hrest⟩
        · intro hun
          cases path with
          | nil =>
            obtain ⟨owned, rfl⟩ := (occurs_nil hf).1 hun.1
            cases hpassed
          | cons place path =>
            obtain ⟨c, hc, hun⟩ := (uncovered_cons hf hpassed).1 hun
            have ho := mem_nodesAmong.1 hc
            obtain ⟨xs, hxs⟩ := hall _ ho
            exact ⟨_, ho, xs, hxs, mem_below.2 ⟨path, rfl, ((ih hxs).1 path text).2 hun⟩⟩
      · obtain ⟨c, hc⟩ := hnode o ho
        exact (ih (hc ▸ hxs)).2
    · cases f <;> first | exact absurd trivial hpassed | skip
      case handler h' =>
        cases h
        refine ⟨fun path text => ⟨fun hx => (by cases hx), fun hun => ?_⟩, .nil⟩
        exact absurd ((occurs_nil hf).2 ⟨h', rfl⟩) (hun.2 [] path.nil_prefix)
      case foreign text' owned =>
        cases h
        refine ⟨fun path text => ?_, List.nodup_singleton _⟩
        rw [List.mem_singleton, Prod.mk.injEq]
        constructor
        · rintro ⟨rfl, rfl⟩
          refine ⟨(occurs_nil hf).2 ⟨owned, rfl⟩, fun other hother hat => ?_⟩
          obtain rfl := List.prefix_nil.1 hother
          obtain ⟨h, hh⟩ := (occurs_nil hf).1 hat
          cases hh
        · rintro ⟨hforeign, -⟩
          cases path with
          | nil =>
            obtain ⟨owned', hform⟩ := (occurs_nil hf).1 hforeign
            cases hform
            exact ⟨rfl, rfl⟩
          | cons place path =>
            obtain ⟨c, hc, -⟩ := (occurs_cons hf).1 hforeign
            cases hc

end

section

variable {j : NodeId} {f : Form}

def heads : Operand → List NodeId
  | .node id => [id]
  | .group items => items.filterMap Operand.id?
  | .datum _ => []

theorem map_nodesAmong_placed (name : String) (o : Operand) : (nodesAmong (placed name o)).map (·.2) = heads o := by
  cases o with
  | node id => rfl
  | datum d => cases d <;> rfl
  | group items =>
    simp only [placed, nodesAmong, heads, List.filterMap_map, List.map_filterMap]
    conv_rhs => rw [← List.zipIdx_map_fst 0 items, List.filterMap_map]
    refine List.filterMap_congr fun x _ => ?_
    simp [Option.map_map, Function.comp_def]

theorem mem_heads (name : String) (ho : (name, o) ∈ f.children) (hj : j ∈ heads o) :
    ∃ x ∈ places f, x.2 = j := by
  rw [← map_nodesAmong_placed name o] at hj
  obtain ⟨x, hx, rfl⟩ := List.mem_map.1 hj
  exact ⟨x, mem_nodesAmong.2 (List.mem_flatMap.2 ⟨_, ho, mem_nodesAmong.1 hx⟩), rfl⟩

theorem heads_of_mem_places (hx : x ∈ places f) : ∃ name o, (name, o) ∈ f.children ∧ x.2 ∈ heads o := by
  obtain ⟨name, i, o, -, ho, hmem⟩ := mem_places hx
  refine ⟨name, o, ho, ?_⟩
  rw [← map_nodesAmong_placed name o]
  exact List.mem_map.2 ⟨x, hmem, rfl⟩

end

/-! ## Orderly nodes -/

def Clear (s : Session) (id : NodeId) : Prop := ∀ path, ¬HandlerAt s id path

def AllClear (s : Session) (xs : List (Path × NodeId)) : Prop := ∀ x ∈ xs, Clear s x.2

def Bare (s : Session) (o : Operand) : Prop := ∀ k ∈ heads o, Clear s k

/-- Handlers occur only where writing a node visits them once: not in arguments, in what a loop starts with, in the
target of an assignment or in a variable. Next to its body, a handler has labels and code without foreign nodes. -/
def Tidy (s : Session) : Form → Prop
  | .function f => Bare s f.arguments ∧ Bare s f.scalarArguments
  | .argument _ vs _ _ => Bare s vs
  | .arrayArgument _ _ d st _ _ => Bare s d ∧ Bare s st
  | .loop l => Bare s l.start
  | .assign l _ _ => Bare s l
  | .var v => ∀ c ∈ (Form.var v).children, Bare s c.2
  | .handler h =>
    (∀ k ∈ heads h.errorLabel ++ heads h.cleanupLabel, ∃ n text, s.form? k = some (.label n text)) ∧
    ∀ place c, ([place], c) ∈ places (.handler h) → place.1 ≠ "body" → ∀ path text, ¬ForeignAt s c path text
  | _ => True

def Orderly (s : Session) (id : NodeId) : Prop := ∀ ⦃path j f⦄, Leads s id path j → s.form? j = some f → Tidy s f

section

variable {s t : Session} {id j c : NodeId} {f : Form} {path : Path}

theorem Orderly.tidy (h : Orderly s id) (hf : s.form? id = some f) : Tidy s f := h (.here id) hf

theorem Orderly.child (h : Orderly s id) (hf : s.form? id = some f) (hx : x ∈ places f) : Orderly s x.2 := by
  obtain ⟨name, i, -, hpath, -, -⟩ := mem_places hx
  obtain ⟨path, c⟩ := x
  obtain rfl := hpath
  exact fun _ _ _ hl hf' => h (.step hf hx hl) hf'

theorem Clear.child (h : Clear s id) (hf : s.form? id = some f) (hx : x ∈ places f) : Clear s x.2 := by
  obtain ⟨name, i, -, hpath, -, -⟩ := mem_places hx
  obtain ⟨path, c⟩ := x
  obtain rfl := hpath
  exact fun path hat => h _ ((occurs_cons hf).2 ⟨c, hx, hat⟩)

theorem Bare.allClear (h : Bare s o) (name : String) : AllClear s (nodesAmong (placed name o)) := by
  intro x hx
  refine h x.2 ?_
  rw [← map_nodesAmong_placed name o]
  exact List.mem_map_of_mem hx

theorem allClear_places (h : ∀ c ∈ f.children, Bare s c.2) : AllClear s (places f) := by
  intro x hx
  obtain ⟨name, o, hc, hx⟩ := heads_of_mem_places hx
  exact h _ hc x.2 hx

theorem clear_of_places (hf : s.form? id = some f) (hh : ∀ h, f ≠ .handler h) (hx : AllClear s (places f)) : Clear s id := by
  intro path hat
  cases path with
  | nil =>
    obtain ⟨h, rfl⟩ := (occurs_nil hf).1 hat
    exact hh h rfl
  | cons place path =>
    obtain ⟨c, hc, hat⟩ := (occurs_cons hf).1 hat
    exact hx _ hc path hat

theorem node_of_disposed (h : disposed s depth o = some xs) : ∃ b, o = .node b := by
  cases depth <;> cases o <;> first | exact ⟨_, rfl⟩ | cases h

theorem mem_places_body {b : NodeId} (hb : h.body = .node b) {k : Nat} :
    ([("body", k)], c) ∈ places (.handler h) ↔ k = 0 ∧ c = b := by
  have hchild : ("body", h.body) ∈ (Form.handler h).children := .tail _ (.head _)
  constructor
  · intro hc
    obtain ⟨name, i, o, hpath, ho, hmem⟩ := mem_places hc
    obtain ⟨⟨rfl, -⟩, -⟩ := hpath
    have hlookup := lookup_of_mem_children ho
    rw [lookup_of_mem_children hchild, hb] at hlookup
    cases hlookup
    have hmem := mem_nodesAmong.1 hmem
    rw [placed, List.mem_singleton] at hmem
    · simpa using hmem
    · simp
    · simp
  · rintro ⟨rfl, rfl⟩
    refine mem_nodesAmong.2 (List.mem_flatMap.2 ⟨_, hchild, ?_⟩)
    rw [hb]
    exact .head _

theorem mem_items (ho : Orderly s root) {hpath : Path}
    (hl : Leads s root hpath j) (hf : s.form? j = some (.handler h)) (hxs : disposed s depthLimit h.body = some xs)
    {text : String} : (path, text) ∈ below (hpath ++ [("body", 0)]) xs ↔
      ForeignAt s root path text ∧ Innermost s root hpath path := by
  obtain ⟨b, hb⟩ := node_of_disposed hxs
  have hmem := (mem_disposed (hb ▸ hxs)).1
  have hlb : Leads s root (hpath ++ [("body", 0)]) b := hl.trans (.step hf ((mem_places_body hb).2 ⟨rfl, rfl⟩) (.here b))
  have hat : HandlerAt s root hpath := ⟨j, _, hl, hf, h, rfl⟩
  rw [mem_below]
  constructor
  · rintro ⟨rest, rfl, hrest⟩
    obtain ⟨hforeign, hnone⟩ := (hmem rest text).1 hrest
    refine ⟨hlb.occurs_append.2 hforeign, hat, ⟨0, rest, by simp⟩, ?_⟩
    rintro other hother ⟨k, rest', heq⟩
    have hle : hpath <+: other ++ ("body", k) :: rest' := ⟨("body", 0) :: rest, by rw [← heq]; simp⟩
    rcases List.prefix_or_prefix_of_prefix (List.prefix_append other _) hle with hle | ⟨tail, rfl⟩
    · exact hle
    · cases tail with
      | nil => simp
      | cons place tail =>
        simp only [List.append_assoc, List.cons_append, List.append_cancel_left_eq, List.cons.injEq, List.nil_append] at heq
        obtain ⟨rfl, rfl⟩ := heq
        refine absurd ?_ (hnone tail (List.prefix_append ..))
        rw [HandlerAt, ← hlb.occurs_append, List.append_assoc]
        exact hother
  · rintro ⟨hforeign, -, ⟨k, rest, rfl⟩, hinner⟩
    obtain ⟨c, hc, hbody⟩ := (occurs_cons hf).1 (hl.occurs_append.1 hforeign)
    obtain ⟨rfl, rfl⟩ := (mem_places_body hb).1 hc
    refine ⟨rest, by simp, (hmem rest text).2 ⟨hbody, ?_⟩⟩
    -- A handler on the way would have the foreign node in its body, and would be further in.
    rintro other ⟨tail, rfl⟩ ⟨j', f', hl', hf', h', rfl⟩
    have hforeign' := hl'.occurs_append.1 hbody
    cases tail with
    | nil =>
      obtain ⟨owned, hform⟩ := (occurs_nil hf').1 hforeign'
      cases hform
    | cons place tail =>
      obtain ⟨c', hc', hbelow⟩ := (occurs_cons hf').1 hforeign'
      have hname : place.1 = "body" := by
        by_contra hne
        exact (ho (hlb.trans hl') hf').2 place c' hc' hne tail text hbelow
      have hle := hinner _ ⟨j', _, hlb.trans hl', hf', h', rfl⟩ ⟨place.2, tail, by simp [← hname]⟩
      have hlen := hle.length_le
      simp only [List.length_append, List.length_cons, List.length_nil] at hlen
      omega

theorem Redrawn.places (h : Redrawn s t) (hf : t.form? id = some f) : ∃ f', s.form? id = some f' ∧ skeleton f' = skeleton f ∧
    Emit.places f' = Emit.places f := by
  obtain ⟨f', hf', hskel⟩ := h.symm.exists_form hf
  refine ⟨f', hf', hskel, ?_⟩
  have hchildren : f'.children = f.children := by rw [← children_skeleton, hskel, children_skeleton]
  simp only [Emit.places, operands, hchildren]

theorem comparison_operands (h : m.comparison n = .operands as bs) :
    (∀ o ∈ as, ∃ name, (name, o) ∈ m.form.children) ∧
    (∀ name o, (name, o) ∈ n.form.children → o.isAbsent = false → o ∈ bs) ∧
    ((∃ h, n.form = .handler h) → ∃ h, m.form = .handler h) := by
  have hpresent : ∀ {f : Form}, (∀ o ∈ (f.children.map (·.2)).filter fun o => !o.isAbsent, ∃ name, (name, o) ∈ f.children) ∧
      ∀ name o, (name, o) ∈ f.children → o.isAbsent = false → o ∈ (f.children.map (·.2)).filter fun o => !o.isAbsent := by
    intro f
    refine ⟨fun o ho => ?_, fun name o ho habsent => ?_⟩
    · obtain ⟨c, hc, rfl⟩ := List.mem_map.1 (List.mem_filter.1 ho).1
      exact ⟨c.1, hc⟩
    · exact List.mem_filter.2 ⟨List.mem_map.2 ⟨_, ho, rfl⟩, by simp [habsent]⟩
  have hkind : ∀ {f : Form}, f.kindName = "ErrorHandler" → ∃ h, f = .handler h := by
    intro f hf
    cases f with
    | handler h => exact ⟨h, rfl⟩
    | var v =>
      obtain ⟨role, n, e, d, st⟩ := v
      cases role <;> simp [Form.kindName] at hf
    | _ => simp [Form.kindName] at hf
  unfold Node.comparison at h
  split at h
  case h_1 v w hm hn =>
    split at h <;> cases h
    rename_i e e' hv hw
    simp only [hm, hn, Form.children, hv, hw]
    simp
  case h_2 => cases h
  case h_3 => cases h
  case h_8 =>
    split at h
    · cases h
    · rename_i hne
      have heq : m.form.kindName = n.form.kindName := by simpa using hne
      have hhandler : (∃ h, n.form = .handler h) → ∃ h, m.form = .handler h := by
        rintro ⟨h, hn⟩
        exact hkind (by rw [heq, hn]; rfl)
      split at h
      · cases h
        exact ⟨hpresent.1, hpresent.2, hhandler⟩
      · split at h <;> cases h
        exact ⟨hpresent.1, hpresent.2, hhandler⟩
      · cases h
  all_goals
    rename_i hm hn
    split at h <;> cases h
    refine ⟨by simp [hm, Form.children], fun name o ho _ => ?_, by simp [hn]⟩
    simp only [hn, Form.children] at ho
    grind

theorem comparison_names {x y : Name} (h : m.comparison n = .names x y) : ∃ w, n.form = .var w := by
  unfold Node.comparison at h
  split at h
  case h_1 hn => exact ⟨_, hn⟩
  case h_2 => cases h
  case h_3 => cases h
  case h_8 =>
    split at h
    · cases h
    · split at h
      · cases h
      · split at h <;> cases h
      · cases h
  all_goals split at h <;> cases h

theorem handler_of_skeleton (hf : skeleton f = skeleton (.handler h)) : f = .handler h := by
  cases f <;> cases hf
  rfl

theorem allSame_mem {same : Operand → Operand → Except Fault Bool} (h : allSame same as bs = .ok true)
    {b : Operand} (hb : b ∈ bs) : ∃ a ∈ as, same a b = .ok true := by
  induction as generalizing bs with
  | nil => cases bs <;> cases hb <;> cases h
  | cons a as ih =>
    cases bs with
    | nil => cases hb
    | cons b' bs =>
      rw [allSame] at h
      cases hsame : same a b' with
      | error e => rw [hsame] at h; cases h
      | ok r =>
        rw [hsame] at h
        cases r with
        | false => cases h
        | true =>
          rcases List.mem_cons.1 hb with rfl | hb
          · exact ⟨a, .head _, hsame⟩
          · obtain ⟨a', ha', h'⟩ := ih h hb
            exact ⟨a', .tail _ ha', h'⟩

theorem bare_of_sameWithin (hr : Redrawn s t) {a b : Operand} (h : sameWithin t.nodes depth a b = .ok true)
    (ho : ∀ j ∈ heads b, Orderly s j) (ha : Bare s a) : Bare s b := by
  induction depth generalizing a b with
  | zero =>
    cases b with
    | datum d => simp [Bare, heads]
    | _ => cases a <;> cases h
  | succ depth ih =>
    cases b with
    | datum d => simp [Bare, heads]
    | group items =>
      cases a with
      | group items' =>
        simp only [sameWithin] at h
        split at h
        · intro j hj
          obtain ⟨b, hb, hid⟩ := List.mem_filterMap.1 hj
          cases b <;> cases hid
          obtain ⟨a, ha', hsame⟩ := allSame_mem h hb
          refine ih hsame (fun k hk => ho k ?_) (fun k hk => ha k ?_) j (.head _)
          · rw [List.mem_singleton.1 hk]
            exact hj
          · cases a with
            | node i =>
              rw [List.mem_singleton.1 hk]
              exact List.mem_filterMap.2 ⟨_, ha', rfl⟩
            | _ => cases depth <;> cases hsame
        · cases h
      | _ => cases h
    | node j =>
      cases a with
      | node i =>
        simp only [Bare, heads, List.mem_singleton, forall_eq] at ho ha ⊢
        simp only [sameWithin] at h
        split at h
        · rename_i heq
          rwa [← eq_of_beq heq]
        · split at h
          · rename_i m n hm hn
            have hform : t.form? i = some m.form := form?_of_node? hm
            have hform' : t.form? j = some n.form := form?_of_node? hn
            obtain ⟨f, hf, hskel, hplaces⟩ := hr.places hform
            obtain ⟨g, hg, hskel', hplaces'⟩ := hr.places hform'
            split at h
            · cases h
            · rename_i hnames
              obtain ⟨w, hw⟩ := comparison_names hnames
              obtain ⟨w', rfl, -⟩ := var_of_skeleton (hw ▸ hskel')
              exact clear_of_places hg (by simp) (allClear_places (ho.tidy hg))
            · rename_i hops
              obtain ⟨has, hbs, hhandler⟩ := comparison_operands hops
              refine clear_of_places hg ?_ fun x hx => ?_
              · rintro h' rfl
                obtain ⟨h'', hm'⟩ := hhandler ⟨h', handler_of_skeleton hskel'.symm⟩
                obtain rfl := handler_of_skeleton (hm' ▸ hskel)
                exact ha [] ((occurs_nil hf).2 ⟨h'', rfl⟩)
              · obtain ⟨name, o, hchild, hx⟩ := heads_of_mem_places (hplaces' ▸ hx)
                have habsent : o.isAbsent = false := by
                  cases o with
                  | datum d => cases hx
                  | _ => rfl
                obtain ⟨a, ha', hsame⟩ := allSame_mem h (hbs name o hchild habsent)
                obtain ⟨name', hchild'⟩ := has a ha'
                refine ih hsame (fun k hk => ?_) (fun k hk => ?_) x.2 hx
                · obtain ⟨y, hy, rfl⟩ := mem_heads name hchild hk
                  exact ho.child hg (hplaces' ▸ hy)
                · obtain ⟨y, hy, rfl⟩ := mem_heads name' hchild' hk
                  exact ha.child hf (hplaces ▸ hy)
          · cases h
      | _ => cases h

end

/-! ## Looking for occurrences -/

def found {β : Type} (s : Session) (pick : Form → Option β) : Nat → Operand → Option (List (Path × β))
  | _, .datum _ | _, .group _ => some []
  | 0, _ => none
  | depth + 1, .node id =>
    match s.form? id with
    | none => some []
    | some f => ((operands f).mapM fun o => (found s pick depth o.2).map (below o.1)).map fun xss =>
      (pick f).toList.map (fun b => ([], b)) ++ xss.flatten

theorem mem_found {s : Session} {id : NodeId} {xs : List (Path × β)}
    (h : found s pick depth (.node id) = some xs) (path : Path) (b : β) :
    (path, b) ∈ xs ↔ Occurs s id path fun f => pick f = some b := by
  induction depth generalizing id xs path with
  | zero => cases h
  | succ depth ih =>
    simp only [found] at h
    split at h
    · rename_i hnone
      cases h
      refine ⟨fun hx => (by cases hx), ?_⟩
      rintro ⟨j, f, hl, hf, -⟩
      cases hl with
      | here => rw [hnone] at hf; cases hf
      | step hf' => rw [hnone] at hf'; cases hf'
    · rename_i f hf
      obtain ⟨xss, hxss, rfl⟩ := Option.map_eq_some_iff.1 h
      obtain ⟨hall, hmem⟩ := gathered_mapM hxss
      have hhere : (path, b) ∈ (pick f).toList.map (fun b => (([] : Path), b)) ↔ path = [] ∧ pick f = some b := by
        simp [and_comm, eq_comm]
      rw [List.mem_append, hmem, hhere]
      cases path with
      | nil =>
        rw [occurs_nil hf]
        constructor
        · rintro (⟨-, hpick⟩ | ⟨o, ho, ys, -, hy⟩)
          · exact hpick
          · obtain ⟨rest, heq, -⟩ := mem_below.1 hy
            obtain ⟨c, -, ho⟩ := List.mem_flatMap.1 ho
            obtain ⟨i, hi⟩ := mem_placed ho
            rw [hi] at heq
            cases heq
        · exact fun hpick => .inl ⟨rfl, hpick⟩
      | cons place path =>
        rw [occurs_cons hf]
        constructor
        · rintro (⟨heq, -⟩ | ⟨⟨path', o⟩, ho, ys, hys, hy⟩)
          · cases heq
          · obtain ⟨rest, heq, hrest⟩ := mem_below.1 hy
            obtain ⟨c, -, hc⟩ := List.mem_flatMap.1 ho
            obtain ⟨i, hi⟩ := mem_placed hc
            cases o with
            | node k =>
              rw [hi] at heq
              cases heq
              exact ⟨k, mem_nodesAmong.2 (hi ▸ ho), (ih hys rest).1 hrest⟩
            | _ =>
              cases depth <;> cases hys <;> cases hrest
        · rintro ⟨c, hc, hoccurs⟩
          have ho := mem_nodesAmong.1 hc
          obtain ⟨ys, hys⟩ := hall _ ho
          exact .inr ⟨_, ho, ys, hys, mem_below.2 ⟨path, rfl, (ih hys path).2 hoccurs⟩⟩

def lacks {β : Type} (s : Session) (pick : Form → Option β) (depth : Nat) (id : NodeId) : Bool :=
  (found s pick depth (.node id)).any List.isEmpty

def handler? : Form → Option Handler
  | .handler h => some h
  | _ => none

def foreign? : Form → Option String
  | .foreign text _ => some text
  | _ => none

def isBare (s : Session) (depth : Nat) (o : Operand) : Bool := (heads o).all (lacks s handler? depth)

def isTidy (s : Session) (depth : Nat) : Form → Bool
  | .function f => isBare s depth f.arguments && isBare s depth f.scalarArguments
  | .argument _ vs _ _ => isBare s depth vs
  | .arrayArgument _ _ d st _ _ => isBare s depth d && isBare s depth st
  | .loop l => isBare s depth l.start
  | .assign l _ _ => isBare s depth l
  | .var v => (Form.var v).children.all fun c => isBare s depth c.2
  | .handler h =>
    ((heads h.errorLabel ++ heads h.cleanupLabel).all fun k => match s.form? k with
      | some (.label ..) => true
      | _ => false) &&
    (places (.handler h)).all fun x => (x.1.head?.map (·.1) == some "body") || lacks s foreign? depth x.2
  | _ => true

def isOrderly (s : Session) (depth : Nat) (id : NodeId) : Bool :=
  lacks s (fun f => if isTidy s depth f then none else some ()) depth id

section

variable {s : Session} {depth : Nat} {id : NodeId} {f : Form} {o : Operand}

theorem not_occurs_of_lacks (h : lacks s pick depth id = true) (path : Path) (b : β) :
    ¬Occurs s id path fun f => pick f = some b := by
  unfold lacks at h
  cases hxs : found s pick depth (.node id) with
  | none => simp [hxs] at h
  | some xs =>
    obtain rfl : xs = [] := by simpa [hxs] using h
    rw [← mem_found hxs path b]
    exact List.not_mem_nil

theorem bare_of_isBare (h : isBare s depth o = true) : Bare s o := by
  rintro k hk path ⟨j, f, hl, hf, h', rfl⟩
  exact not_occurs_of_lacks (List.all_eq_true.1 h k hk) path h' ⟨j, _, hl, hf, rfl⟩

theorem tidy_of_isTidy (h : isTidy s depth f = true) : Tidy s f := by
  cases f with
  | function f | arrayArgument v n d st vs u => exact (Bool.and_eq_true_iff.1 h).imp bare_of_isBare bare_of_isBare
  | argument v vs n u | loop l | assign l r m => exact bare_of_isBare h
  | var v => exact fun c hc => bare_of_isBare (List.all_eq_true.1 h c hc)
  | handler h' =>
    obtain ⟨hlabels, hrest⟩ := Bool.and_eq_true_iff.1 h
    refine ⟨fun k hk => ?_, fun place c hc hne path text hat => ?_⟩
    · have hlabel := List.all_eq_true.1 hlabels k hk
      split at hlabel
      · exact ⟨_, _, ‹_›⟩
      · cases hlabel
    · rcases Bool.or_eq_true_iff.1 (List.all_eq_true.1 hrest _ hc) with hbody | hlacks
      · exact hne (by simpa using hbody)
      · obtain ⟨j, f, hl, hf, owned, rfl⟩ := hat
        exact not_occurs_of_lacks hlacks path text ⟨j, _, hl, hf, rfl⟩
  | _ => trivial

theorem orderly_of_isOrderly (h : isOrderly s depth id = true) : Orderly s id := by
  intro path j f hl hf
  have htidy : isTidy s depth f = true := by
    by_contra hnot
    exact not_occurs_of_lacks h path () ⟨j, f, hl, hf, by simp [hnot]⟩
  exact tidy_of_isTidy htidy

end

end ArrayKernel.Emit
