import ArrayKernel.Path.Select
import ArrayKernel.Proofs.PathReading
import ArrayKernel.Proofs.Run
import Mathlib.Data.Fintype.Card

/-!
# What paths select

Nodes are shared, so what stands below a node is a tree of occurrences. A path is followed on such trees step by step:
each step replaces every tree by its children or by all trees below it, and keeps those of a kind and with an attribute.
Finding all nodes of a path gives the nodes at the roots of these trees, in order and as often as they occur.
-/

namespace ArrayKernel.Path

open Ast

/-! ## Trees of occurrences -/

/-- A node with the trees below it, in order. -/
inductive Tree where
  | mk (id : NodeId) (children : List Tree)

namespace Tree

def id : Tree → NodeId
  | .mk id _ => id

def children : Tree → List Tree
  | .mk _ children => children

def value (t : Tree) : Value := .operand (.node t.id)

mutual

/-- All trees strictly below a tree, each before those below it. -/
def descendants : Tree → List Tree
  | .mk _ children => allDescendants children

def allDescendants : List Tree → List Tree
  | [] => []
  | t :: rest => t :: (descendants t ++ allDescendants rest)

end

mutual

def height : Tree → Nat
  | .mk _ children => heights children + 1

def heights : List Tree → Nat
  | [] => 0
  | t :: rest => max (height t) (heights rest)

end

theorem allDescendants_eq (ts : List Tree) : allDescendants ts = ts.flatMap fun t => t :: t.descendants := by
  induction ts with
  | nil => rw [allDescendants, List.flatMap_nil]
  | cons t rest ih => rw [allDescendants, ih, List.flatMap_cons, List.cons_append]

theorem eq_of_map_id {ts us : List Tree} (h : ∀ t ∈ ts, ∀ u ∈ us, t.id = u.id → t = u)
    (hids : ts.map id = us.map id) : ts = us := by
  induction ts generalizing us with
  | nil => simpa [eq_comm] using hids
  | cons t rest ih =>
    cases us with
    | nil => simp at hids
    | cons u others =>
      simp only [List.map_cons, List.cons.injEq] at hids
      rw [h t (by simp) u (by simp) hids.1,
        ih (fun a ha b hb => h a (by simp [ha]) b (by simp [hb])) hids.2]

theorem height_le_heights {t : Tree} {ts : List Tree} (h : t ∈ ts) : t.height ≤ heights ts := by
  induction ts with
  | nil => cases h
  | cons u rest ih =>
    rw [heights]
    rcases List.mem_cons.1 h with rfl | h
    · exact Nat.le_max_left ..
    · exact (ih h).trans (Nat.le_max_right ..)

theorem exists_height_eq_heights {ts : List Tree} (h : 0 < heights ts) : ∃ t ∈ ts, t.height = heights ts := by
  induction ts with
  | nil => simp [heights] at h
  | cons u rest ih =>
    rw [heights] at h ⊢
    rcases Nat.le_total (heights rest) u.height with hle | hle
    · exact ⟨u, by simp, (Nat.max_eq_left hle).symm⟩
    · rw [Nat.max_eq_right hle] at h ⊢
      obtain ⟨t, ht, heq⟩ := ih h
      exact ⟨t, by simp [ht], heq⟩

end Tree

/-- The operands below a node, position by position: nothing for an empty one, each item for a list. -/
def listed (n : Node) : List Operand :=
  n.form.children.flatMap fun (_, o) =>
    match o with
    | .datum .null => []
    | .group items => items
    | o => [o]

/-- A store holds a tree: every node of it is there, and the trees below it stand for its operands in order. -/
inductive Depicts (nodes : Array Node) : Tree → Prop where
  | mk {id : NodeId} {n : Node} {children : List Tree} (hn : nodes[id.index]? = some n)
      (hlisted : listed n = children.map fun t => .node t.id) (h : ∀ t ∈ children, Depicts nodes t) :
      Depicts nodes (.mk id children)

variable {nodes : Array Node} {t u : Tree}

theorem Depicts.children (h : Depicts nodes t) : ∀ u ∈ t.children, Depicts nodes u := by
  cases h with
  | mk _ _ h => exact h

theorem Depicts.descendants (h : Depicts nodes t) : ∀ u ∈ t.descendants, Depicts nodes u := by
  induction h with
  | mk _ _ h ih =>
    intro u hu
    rw [Tree.descendants, Tree.allDescendants_eq] at hu
    obtain ⟨c, hc, hu⟩ := List.mem_flatMap.1 hu
    rcases List.mem_cons.1 hu with rfl | hu
    · exact h u hc
    · exact ih c hc u hu

theorem Depicts.index_lt (h : Depicts nodes t) : t.id.index < nodes.size := by
  cases h with
  | mk hn _ _ => exact (Array.getElem?_eq_some_iff.1 hn).1

/-- The store and the node at the root fix the tree. -/
theorem Depicts.eq_of_id (h : Depicts nodes t) : ∀ {u}, Depicts nodes u → t.id = u.id → t = u := by
  induction h with
  | @mk id n children hn hlisted _ ih =>
    intro u hu hid
    cases hu with
    | @mk id' n' children' hn' hlisted' h' =>
      obtain rfl : id = id' := hid
      obtain rfl : n = n' := Option.some.inj (hn.symm.trans hn')
      have hids : children.map Tree.id = children'.map Tree.id := by
        have hnodes := congrArg (List.filterMap Operand.id?) (hlisted.symm.trans hlisted')
        simpa [List.filterMap_map, Function.comp_def, Operand.id?, List.filterMap_eq_map] using hnodes
      rw [Tree.eq_of_map_id (fun t ht u hu => ih t ht (h' u hu)) hids]

/-- Below a tree there are trees of every height up to its own. -/
theorem Depicts.exists_height (h : Depicts nodes t) {k : Nat} (hpos : 0 < k) (hk : k ≤ t.height) :
    ∃ u, Depicts nodes u ∧ u.height = k := by
  induction h with
  | @mk id n children hn hlisted h ih =>
    rcases Nat.lt_or_eq_of_le hk with hlt | heq
    · rw [Tree.height] at hlt
      obtain ⟨c, hc, hheight⟩ := Tree.exists_height_eq_heights (by omega : 0 < Tree.heights children)
      exact ih c hc (by omega)
    · exact ⟨_, .mk hn hlisted h, heq.symm⟩

/-- Trees of different heights have different roots, so a tree is no higher than the store has nodes. -/
theorem Depicts.height_le (h : Depicts nodes t) : t.height ≤ nodes.size := by
  have hlevel : ∀ k : Fin t.height, ∃ u, Depicts nodes u ∧ u.height = k.val + 1 :=
    fun k => h.exists_height (Nat.succ_pos _) k.isLt
  choose level hlevel hheight using hlevel
  have hinjective : Function.Injective fun k => (⟨(level k).id.index, (hlevel k).index_lt⟩ : Fin nodes.size) := by
    intro j k hjk
    have hid : (level j).id = (level k).id := congrArg NodeId.mk (congrArg Fin.val hjk)
    have hsame := congrArg Tree.height ((hlevel j).eq_of_id (hlevel k) hid)
    rw [hheight, hheight] at hsame
    exact Fin.ext (by omega)
  simpa using Fintype.card_le_of_injective _ hinjective

/-! ## Following a path -/

section Following

variable (nodes)

def isOfKind (kind : Option String) (t : Tree) : Bool :=
  match kind with
  | none => true
  | some k => nodes[t.id.index]?.any (·.form.kindName == k)

def Move.apply (m : Move) (t : Tree) : List Tree :=
  match m with
  | .child kind => t.children.filter (isOfKind nodes kind)
  | .descendant kind => t.descendants.filter (isOfKind nodes kind)
  | .this => [t]

/-- The node has an attribute of that name, and it is that text. -/
def Condition.holds (c : Condition) (t : Tree) : Bool :=
  match nodes[t.id.index]?.bind (nodeAttribute? · c.name) with
  | some (.operand (.datum (.text s))) => s == c.text
  | _ => false

def Step.apply (s : Step) (ts : List Tree) : List Tree :=
  (ts.flatMap (s.move.apply nodes)).filter fun t => s.condition.all (·.holds nodes t)

/-- Applies the steps one after the other. -/
def follow (steps : List Step) (ts : List Tree) : List Tree := steps.foldl (fun ts s => s.apply nodes ts) ts

end Following

theorem follow_cons (s : Step) (steps : List Step) (ts : List Tree) :
    follow nodes (s :: steps) ts = follow nodes steps (s.apply nodes ts) := rfl

/-- What is found from several trees is what is found from each of them. -/
theorem follow_flatMap (steps : List Step) (ts : List Tree) :
    follow nodes steps ts = ts.flatMap fun t => follow nodes steps [t] := by
  induction steps generalizing ts with
  | nil => simp [follow]
  | cons s rest ih =>
    simp only [follow_cons]
    rw [ih, Step.apply, List.filter_flatMap, List.flatMap_assoc]
    refine List.flatMap_congr fun t _ => ?_
    rw [ih (s.apply nodes [t]), Step.apply, List.flatMap_singleton]

theorem Depicts.apply_move (h : Depicts nodes t) (m : Move) : ∀ u ∈ m.apply nodes t, Depicts nodes u := by
  intro u hu
  cases m with
  | child kind => exact h.children u (List.mem_filter.1 hu).1
  | descendant kind => exact h.descendants u (List.mem_filter.1 hu).1
  | this =>
    obtain rfl := List.mem_singleton.1 hu
    exact h

/-! ## Selecting -/

theorem childValues_eq (h : Depicts nodes t) : childValues nodes t.value = .ok (t.children.map Tree.value) := by
  cases h with
  | @mk id n children hn hlisted _ =>
    have hvalues := congrArg (List.map Value.operand) hlisted
    simp only [childValues, Tree.value, Tree.id, hn]
    exact congrArg Except.ok (hvalues.trans (by simp [Tree.value, Tree.children]))

theorem hasKind_eq (h : Depicts nodes t) (kind : String) :
    hasKind nodes kind t.value = isOfKind nodes (some kind) t := by
  cases h with
  | mk hn _ _ => simp [hasKind, Tree.value, Tree.id, isOfKind, hn]

/-- Trees are found, without a fault: their values. -/
def found (ts : List Tree) : Found := { values := ts.map Tree.value }

theorem found_bind {f : Value → Found} {g : Tree → List Tree} {ts : List Tree}
    (h : ∀ t ∈ ts, f t.value = found (g t)) : (found ts).bind f = found (ts.flatMap g) := by
  induction ts with
  | nil => rfl
  | cons t rest ih =>
    have hrest : Found.extend f (rest.map Tree.value) none = found (rest.flatMap g) := ih fun u hu => h u (by simp [hu])
    show (f t.value).append (Found.extend f (rest.map Tree.value) none) = _
    rw [h t (by simp), hrest]
    simp [found, Found.append]

theorem descendants_eq {test : Value → Bool} {p : Tree → Bool} (htest : ∀ u, Depicts nodes u → test u.value = p u)
    (h : Depicts nodes t) {depth : Nat} (hdepth : t.height ≤ depth) :
    descendants nodes test depth t.value = found (t.descendants.filter p) := by
  induction h generalizing depth with
  | @mk id n children hn hlisted h ih =>
    rw [Tree.height] at hdepth
    obtain ⟨depth, rfl⟩ : ∃ n, depth = n + 1 := Nat.exists_eq_add_one.2 (by omega)
    rw [descendants, childValues_eq (.mk hn hlisted h), Tree.descendants, Tree.allDescendants_eq, List.filter_flatMap]
    refine found_bind fun c hc => ?_
    have hheight : c.height ≤ Tree.heights children := Tree.height_le_heights hc
    rw [ih c hc (by omega), htest c (h c hc)]
    cases hp : p c <;> simp [Found.one, found, Found.append, hp]

theorem select_move (h : Depicts nodes t) (m : Move) :
    select nodes t.value m.selector = found (m.apply nodes t) := by
  have hheight := h.height_le
  rcases m with (_ | kind) | (_ | kind) | _
  · have hany : t.children.filter (isOfKind nodes none) = t.children := List.filter_eq_self.2 fun _ _ => rfl
    simp [Move.selector, select, childValues_eq h, Move.apply, found, Found.ofExcept, hany]
  · have hkinds : t.children.filter (hasKind nodes kind ∘ Tree.value) = t.children.filter (isOfKind nodes (some kind)) :=
      List.filter_congr fun u hu => hasKind_eq (h.children u hu) kind
    simp [Move.selector, select, childValues_eq h, Move.apply, found, Found.ofExcept, bind, Except.bind, pure,
      Except.pure, List.filter_map, hkinds]
  · exact descendants_eq (fun _ _ => rfl) h (by omega)
  · exact descendants_eq (fun u hu => hasKind_eq hu kind) h (by omega)
  · rfl

theorem isDatum_text {v : Value} {x : String} (h : v.isDatum (.text x) = true) : v = .operand (.datum (.text x)) := by
  unfold Value.isDatum at h
  split at h
  · rename_i d
    cases d with
    | text y => rw [show x = y from by simpa [BEq.beq, Datum.same] using h]
    | _ => simp [BEq.beq, Datum.same] at h
  · cases h

theorem select_condition (h : Depicts nodes t) (c : Condition) :
    select nodes t.value c.selector = found (if c.holds nodes t then [t] else []) := by
  cases h with
  | @mk id n children hn _ _ =>
    simp only [Condition.selector, Condition.inner, List.singleton, select, selectChain, attributeChain, List.foldlM_cons,
      List.foldlM_nil, bind_pure, attributeIn, Tree.value, Condition.holds, Tree.id, hn, Option.bind_some]
    cases hattribute : nodeAttribute? n c.name with
    | none => rfl
    | some v =>
      by_cases hv : v.isDatum (.text c.text) = true
      · obtain rfl := isDatum_text hv
        simp [hv, Found.bind, Found.extend, Found.first, Found.one, Found.append, found, Value.isNull, Operand.isAbsent,
          Tree.value, Tree.id]
      · have hnot : (match some v with
            | some (.operand (.datum (.text s))) => s == c.text
            | _ => false) = false := by
          split
          · rename_i s hs
            cases hs
            simpa [Value.isDatum, BEq.beq, Datum.same, eq_comm] using hv
          · rfl
        simp [hv, hnot, Found.bind, Found.extend, Found.first, found]

theorem flatMap_filter {p : Tree → Bool} {f : Tree → List Tree} (ts : List Tree) :
    (ts.filter p).flatMap f = ts.flatMap fun t => if p t then f t else [] := by
  induction ts with
  | nil => rfl
  | cons t rest ih => by_cases hp : p t = true <;> simp [hp, ih]

/-- Selecting by the selectors of the steps follows them. -/
theorem selectChain_steps (h : Depicts nodes t) (steps : List Step) :
    selectChain nodes t.value (steps.flatMap Step.selectors) = found (follow nodes steps [t]) := by
  induction steps generalizing t with
  | nil => simp [selectChain, follow, found, Found.one]
  | cons s rest ih =>
    obtain ⟨m, c⟩ := s
    have hfollow : follow nodes ({ move := m, condition := c } :: rest) [t] =
        (m.apply nodes t).flatMap fun u => if c.all (·.holds nodes u) then follow nodes rest [u] else [] := by
      rw [follow_cons, follow_flatMap, Step.apply, List.flatMap_singleton, flatMap_filter]
    rw [hfollow, List.flatMap_cons, Step.selectors, List.cons_append, selectChain, select_move h]
    refine found_bind fun u hu => ?_
    have hdepicts : Depicts nodes u := h.apply_move m u hu
    cases c with
    | none => simpa using ih hdepicts
    | some c =>
      simp only [Option.map_some, Option.toList_some, List.cons_append, List.nil_append, selectChain, Option.all_some]
      rw [select_condition hdepicts c]
      by_cases hc : c.holds nodes u = true
      · rw [if_pos hc, if_pos hc]
        have hone : ∀ w ∈ [u], selectChain nodes w.value (rest.flatMap Step.selectors) = found (follow nodes rest [w]) :=
          fun w hw => by
            obtain rfl := List.mem_singleton.1 hw
            exact ih hdepicts
        rw [found_bind hone, List.flatMap_singleton]
      · rw [if_neg hc, if_neg hc]
        rfl

/-- Whatever the steps, finding all nodes of the path they write, below the root of any tree of the session, gives the
nodes that the steps lead to from the root, one after the other, in order and as often as they occur. -/
theorem path_finds_followed {s : Session} {steps : List Step} (h : Depicts s.nodes t) (hne : steps ≠ [])
    (hreadable : ∀ step ∈ steps, step.Readable) :
    Runs (findAll (.node t.id) (pathText steps)) s ((follow s.nodes steps [t]).map Tree.value) s := by
  have hselect : (selectChain s.nodes t.value (steps.flatMap Step.selectors)).all =
      .ok ((follow s.nodes steps [t]).map Tree.value) := by
    rw [selectChain_steps h]
    rfl
  rw [findAll, runs_bind]
  refine ⟨_, s, runs_ofExcept.2 ⟨parse_pathText hne hreadable, rfl⟩, ?_⟩
  rw [runs_get_bind]
  exact runs_ofExcept.2 ⟨hselect, rfl⟩

/-- The negated sum of a variable with itself: one node that occurs twice. -/
def negatedSum : Session :=
  let forms : List Form := [.var { role := .plain, name := .ofString "x" }, .binop "+" (.node ⟨0⟩) (.node ⟨0⟩),
    .unop "-" (.node ⟨1⟩)]
  { nodes := (forms.map fun f => ⟨f, some CType.float64, .unknown, {}⟩).toArray }

def negatedSumTree : Tree := .mk ⟨2⟩ [.mk ⟨1⟩ [.mk ⟨0⟩ [], .mk ⟨0⟩ []]]

/-- The operands of the sums, found by their operator. -/
def sumOperands : List Step :=
  [{ move := .descendant (some "BinopNode"), condition := some ⟨"operator", "+"⟩ }, { move := .child none }]

theorem shared_operand_found_twice : pathText sumOperands = "//BinopNode[@operator='+']/*" ∧
    Depicts negatedSum.nodes negatedSumTree ∧
    Runs (findAll (.node ⟨2⟩) "//BinopNode[@operator='+']/*") negatedSum
      [.operand (.node ⟨0⟩), .operand (.node ⟨0⟩)] negatedSum := by
  have hdepicts : Depicts negatedSum.nodes negatedSumTree := by
    have hvariable : Depicts negatedSum.nodes (.mk ⟨0⟩ []) := .mk rfl rfl (by simp)
    have hsum : Depicts negatedSum.nodes (.mk ⟨1⟩ [.mk ⟨0⟩ [], .mk ⟨0⟩ []]) := .mk rfl rfl (by simp [hvariable])
    exact .mk rfl rfl (by simp [hsum])
  have hreadable : ∀ step ∈ sumOperands, step.Readable := by
    have hkind : IsName "BinopNode" := ⟨by decide, by simp [isPathChar, endsWord, isMark, Text.isBlank]⟩
    have hname : IsName "operator" := ⟨by decide, by simp [isPathChar, endsWord, isMark, Text.isBlank]⟩
    have htext : Condition.Readable ⟨"operator", "+"⟩ := ⟨hname, by simp⟩
    simp only [sumOperands, List.forall_mem_cons, List.not_mem_nil, false_implies, implies_true, and_true]
    exact ⟨⟨hkind, by simp [htext]⟩, trivial, by simp⟩
  have hpath : pathText sumOperands = "//BinopNode[@operator='+']/*" := by decide
  have hfollow : (follow negatedSum.nodes sumOperands [negatedSumTree]).map Tree.value =
      [.operand (.node ⟨0⟩), .operand (.node ⟨0⟩)] := rfl
  have hfound := path_finds_followed hdepicts (by simp [sumOperands]) hreadable
  rw [hfollow, hpath] at hfound
  exact ⟨hpath, hdepicts, hfound⟩

end ArrayKernel.Path
