import ArrayKernel.Proofs.Repeating

/-!
# Visits that promote

A visit changes nodes of its own tree only and adds wrappers, so what an earlier visit made of one child still stands
when the others are done.
-/

namespace ArrayKernel.Ast

variable {s t u : Session} {i k id : NodeId} {o r : Operand} {n m : Node} {f : Form} {h : Nat} {D D' : NodeId → Prop}

/-! ## Changes -/

/-- A change to some nodes of a session: the others stay, none changes its kind, and what is added are wrappers. -/
structure Rewrites (D : NodeId → Prop) (s t : Session) : Prop where
  spared : ∀ j n, s.node? j = some n → ¬ D j → t.node? j = some n
  kinds : ∀ j f, s.form? j = some f → ∃ f', t.form? j = some f' ∧ f'.kindName = f.kindName
  added : ∀ j f, t.form? j = some f → s.form? j = none → f.kindName = "PromotionNode"

theorem form?_eq_none : s.form? i = none ↔ s.node? i = none := by
  unfold Session.form?
  rw [Option.map_eq_none_iff]

namespace Rewrites

theorem refl (D : NodeId → Prop) (s : Session) : Rewrites D s s where
  spared _ _ hn _ := hn
  kinds _ f hf := ⟨f, hf, rfl⟩
  added _ f hf hnone := by
    rw [hnone] at hf
    cases hf

theorem mono (hr : Rewrites D s t) (hD : ∀ j, D j → D' j) : Rewrites D' s t :=
  ⟨fun j n hn hj => hr.spared j n hn fun hd => hj (hD j hd), hr.kinds, hr.added⟩

theorem trans (hr : Rewrites D s t) (hr' : Rewrites D t u) : Rewrites D s u where
  spared j n hn hj := hr'.spared j n (hr.spared j n hn hj) hj
  kinds j f hf := by
    obtain ⟨f', hf', hkind⟩ := hr.kinds j f hf
    obtain ⟨f'', hf'', hkind'⟩ := hr'.kinds j f' hf'
    exact ⟨f'', hf'', hkind'.trans hkind⟩
  added j f hf hnone := by
    cases ht : t.form? j with
    | none => exact hr'.added j f hf ht
    | some f' =>
      obtain ⟨f'', hf'', hkind⟩ := hr'.kinds j f' ht
      cases hf.symm.trans hf''
      exact hkind.trans (hr.added j f' ht hnone)

theorem none_before (hr : Rewrites D s t) (j : NodeId) (hj : t.node? j = none) : s.node? j = none := by
  rw [← form?_eq_none] at hj ⊢
  cases hf : s.form? j with
  | none => rfl
  | some f =>
    obtain ⟨f', hf', -⟩ := hr.kinds j f hf
    rw [hj] at hf'
    cases hf'

theorem alter (id : NodeId) {g : Node → Node}
    (hg : ∀ n, s.node? id = some n → (g n).form.kindName = n.form.kindName) : Rewrites (· = id) s (s.alter id g) where
  spared j n hn hj := by
    rw [node?_alter, if_neg hj, hn]
  kinds j f hf := by
    obtain ⟨n, hn, rfl⟩ := node?_of_form? hf
    rw [form?_alter_of]
    by_cases hj : j = id
    · subst hj
      rw [if_pos rfl, hn]
      exact ⟨_, rfl, hg n hn⟩
    · rw [if_neg hj, hf]
      exact ⟨_, rfl, rfl⟩
  added j f hf hnone := by
    rcases form?_alter_cases hf with hf | ⟨n, rfl, hn, -⟩
    · rw [hnone] at hf
      cases hf
    · rw [form?_of_node? hn] at hnone
      cases hnone

theorem add {n : Node} (hn : n.form.kindName = "PromotionNode") : Rewrites D s (s.add n) where
  spared j m hm _ := by
    rw [node?_add, if_neg, hm]
    rintro rfl
    exact Nat.lt_irrefl _ (node?_lt hm)
  kinds j f hf := ⟨f, form?_add_of_some hf, rfl⟩
  added j f hf hnone := by
    rcases form?_add_cases hf with rfl | hf
    · exact hn
    · rw [hnone] at hf
      cases hf

end Rewrites

/-! ## What stands for an operand -/

/-- A promoted operand whose tree has no nodes but those of the earlier tree and new ones. -/
structure StandsFor (s t : Session) (h : Nat) (o r : Operand) : Prop where
  promoted : Promoted s t h o r
  reach : ∀ j, Under t r.ids j → Under s o.ids j ∨ s.node? j = none

def Seen (s t : Session) (o r : Operand) : Prop :=
  ∀ i k, o = .node i → r = .node k → Sees s (.node i) (t.type? k)

theorem form?_congr {j : NodeId} (hj : t.node? j = s.node? j) : t.form? j = s.form? j :=
  congrArg (Option.map Node.form) hj

namespace StandsFor

theorem mono {h' : Nat} (hs : StandsFor s t h o r) (hle : h ≤ h') : StandsFor s t h' o r := ⟨hs.promoted.mono hle, hs.reach⟩

theorem absent : StandsFor s t h .absent .absent := ⟨.absent, fun _ hj => absurd hj not_under_absent⟩

theorem later (hs : StandsFor s u h o r) (hsame : ∀ j, Under u r.ids j → t.node? j = u.node? j) : StandsFor s t h o r where
  promoted := hs.promoted.congr (fun _ _ => rfl) (fun _ hj => hj) hsame
  reach j hj := hs.reach j ((under_congr fun j hj => form?_congr (hsame j hj)).1 hj)

theorem earlier (hs : StandsFor u t h o r) (hsame : ∀ j, Under u o.ids j → s.node? j = u.node? j)
    (hnone : ∀ j, u.node? j = none → s.node? j = none) : StandsFor s t h o r where
  promoted := hs.promoted.congr hsame hnone fun _ _ => rfl
  reach j hj := by
    rcases hs.reach j hj with hj | hj
    · exact .inl ((under_congr fun j hj => form?_congr (hsame j hj)).2 hj)
    · exact .inr (hnone j hj)

/-- A change to nodes that were there, but not below the operand, leaves the tree that stands for it alone. -/
theorem same (hs : StandsFor s u h o r) (hr : Rewrites D u t) (hD : ∀ j, D j → ¬ Under s o.ids j ∧ s.node? j ≠ none) (j : NodeId)
    (hj : Under u r.ids j) : t.node? j = u.node? j := by
  obtain ⟨n, hn⟩ := hs.promoted.stored hj
  rw [hn]
  refine hr.spared j n hn fun hd => ?_
  rcases hs.reach j hj with hj | hj
  · exact (hD j hd).1 hj
  · exact (hD j hd).2 hj

end StandsFor

theorem Seen.later (hs : Seen s u o r) (hsame : ∀ c ∈ r.ids, t.node? c = u.node? c) : Seen s t o r := by
  intro i k ho hr
  have hk : t.type? k = u.type? k := congrArg (Option.bind · Node.type) (hsame k (by simp [hr, Operand.ids]))
  rw [hk]
  exact hs i k ho hr

theorem Seen.earlier (hs : Seen u t o r) (hsame : ∀ j, Under u o.ids j → s.node? j = u.node? j) : Seen s t o r := by
  intro i k ho hr
  subst ho
  exact (hs i k rfl hr).congr hsame

theorem under_self {c : NodeId} (hc : c ∈ r.ids) : Under t r.ids c := ⟨c, hc, .refl⟩

/-! ## Visits -/

/-- Array types below a node have types of elements. -/
def Flat (s : Session) (i : NodeId) : Prop :=
  ∀ j, Below s i j → ∀ type, s.type? j = some type → type.isArray = true → type.resolved.IsElement

/-- Trees that are apart. -/
structure Forest (s : Session) (ids : List NodeId) : Prop where
  tree : ∀ c ∈ ids, IsTree s c
  flat : ∀ c ∈ ids, Flat s c
  apart : ids.Pairwise fun c c' => ∀ j, Below s c j → ¬ Below s c' j

namespace Forest

variable {a b ids : List NodeId}

theorem stored (hf : Forest s ids) {j : NodeId} (hj : Under s ids j) : s.node? j ≠ none := by
  obtain ⟨c, hc, hj⟩ := hj
  obtain ⟨f, hf, -⟩ := (hf.tree c hc).stored j hj
  obtain ⟨n, hn, -⟩ := node?_of_form? hf
  rw [hn]
  exact Option.some_ne_none n

theorem congr (hf : Forest s ids) (hsame : ∀ j, Under s ids j → t.node? j = s.node? j) : Forest t ids := by
  have hforms : ∀ c ∈ ids, ∀ j, Below s c j → t.form? j = s.form? j :=
    fun c hc j hj => form?_congr (hsame j ⟨c, hc, hj⟩)
  refine ⟨fun c hc => (hf.tree c hc).congr (hforms c hc), fun c hc j hj type htype => ?_, ?_⟩
  · have hj' := (below_congr (hforms c hc)).1 hj
    have heq : t.type? j = s.type? j := congrArg (Option.bind · Node.type) (hsame j ⟨c, hc, hj'⟩)
    exact hf.flat c hc j hj' type (heq ▸ htype)
  · refine hf.apart.imp_of_mem fun {c c'} hc hc' hapart j hj hj' => ?_
    exact hapart j ((below_congr (hforms c hc)).1 hj) ((below_congr (hforms c' hc')).1 hj')

theorem not_both (hf : Forest s (a ++ b)) {j : NodeId} (ha : Under s a j) : ¬ Under s b j := by
  obtain ⟨c, hc, hj⟩ := ha
  rintro ⟨c', hc', hj'⟩
  exact (List.pairwise_append.1 hf.apart).2.2 c hc c' hc' j hj hj'

theorem left (hf : Forest s (a ++ b)) : Forest s a where
  tree c hc := hf.tree c (List.mem_append_left b hc)
  flat c hc := hf.flat c (List.mem_append_left b hc)
  apart := (List.pairwise_append.1 hf.apart).1

theorem right (hf : Forest s (a ++ b)) : Forest s b where
  tree c hc := hf.tree c (List.mem_append_right a hc)
  flat c hc := hf.flat c (List.mem_append_right a hc)
  apart := (List.pairwise_append.1 hf.apart).2.1

/-- A change below the first trees leaves the others alone. -/
theorem same (hf : Forest s (a ++ b)) (hr : Rewrites (Under s a) s u) (j : NodeId) (hj : Under s b j) :
    u.node? j = s.node? j := by
  obtain ⟨n, hn⟩ := Option.ne_none_iff_exists'.1 (hf.right.stored hj)
  rw [hn]
  exact hr.spared j n hn fun ha => hf.not_both ha hj

end Forest

/-- What a visit of an operand did. -/
structure Outcome (s t : Session) (h : Nat) (o r : Operand) : Prop where
  rewrites : Rewrites (Under s o.ids) s t
  stands : StandsFor s t h o r
  seen : Seen s t o r

section

variable {a b : List NodeId}

theorem Forest.under_same (hf : Forest s (a ++ b)) (hr : Rewrites (Under s a) s u) {j : NodeId} :
    Under u b j ↔ Under s b j :=
  under_congr fun j hj => form?_congr (hf.same hr j hj)

/-- Visits of other trees leave the outcome of a visit. -/
theorem Outcome.followed (hfirst : Outcome s u h o r) (hf : Forest s (o.ids ++ b)) (hr : Rewrites (Under u b) u t) :
    Rewrites (Under s (o.ids ++ b)) s t ∧ StandsFor s t h o r ∧ Seen s t o r := by
  have hunder {j : NodeId} : Under u b j ↔ Under s b j := hf.under_same hfirst.rewrites
  have hsame : ∀ j, Under u r.ids j → t.node? j = u.node? j := hfirst.stands.same hr fun j hj =>
    ⟨fun ho => hf.not_both ho (hunder.1 hj), hf.right.stored (hunder.1 hj)⟩
  refine ⟨(hfirst.rewrites.mono ?_).trans (hr.mono ?_), hfirst.stands.later hsame, ?_⟩
  · rintro j ⟨c, hc, hj⟩
    exact ⟨c, List.mem_append_left b hc, hj⟩
  · intro j hj
    obtain ⟨c, hc, hj⟩ := hunder.1 hj
    exact ⟨c, List.mem_append_right _ hc, hj⟩
  · exact hfirst.seen.later fun c hc => hsame c (under_self hc)

/-- A visit of trees that earlier visits left alone. -/
theorem Forest.following (hf : Forest s (a ++ b)) (hfirst : Rewrites (Under s a) s u) (hs : StandsFor u t h o r)
    (hseen : Seen u t o r) (hb : ∀ c ∈ o.ids, c ∈ b) : StandsFor s t h o r ∧ Seen s t o r := by
  have hsame : ∀ j, Under u o.ids j → s.node? j = u.node? j := by
    rintro j ⟨c, hc, hj⟩
    exact (hf.same hfirst j ((hf.under_same hfirst).1 ⟨c, hb c hc, hj⟩)).symm
  exact ⟨hs.earlier hsame hfirst.none_before, hseen.earlier hsame⟩

end

variable {visit : Operand → Action Operand} {os rs : List Operand} {news : List (String × Operand)}

/-- A visit goes to nodes only, and promotes what stands below. -/
def Promotes (visit : Operand → Action Operand) (h : Nat) : Prop :=
  ∀ {s o r t}, Runs (visit o) s r t → (∃ i, o = .node i) ∧ (Forest s o.ids → (∃ k, r = .node k) ∧ Outcome s t h o r)

theorem Promotes.visitsAll (hv : Promotes visit h) (hall : VisitsAll visit os s rs t) (hf : Forest s (Operand.group os).ids) :
    (∀ r ∈ rs, ∃ k, r = .node k) ∧ Outcome s t h (.group os) (.group rs) := by
  have hseen {os rs : List Operand} {s t : Session} : Seen s t (.group os) (.group rs) := by
    intro i k ho
    cases ho
  induction hall with
  | nil p =>
    refine ⟨by simp, .refl _ p, ⟨.nil, ?_⟩, hseen⟩
    rintro j ⟨c, hc, -⟩
    cases hc
  | @cons o r os rs p u q hrun hrest ih =>
    obtain ⟨⟨i, rfl⟩, hout⟩ := hv hrun
    obtain ⟨⟨k, rfl⟩, hfirst⟩ := hout hf.left
    obtain ⟨hnodes, hrest⟩ := ih (hf.right.congr (hf.same hfirst.rewrites))
    obtain ⟨hrewrites, hstands, -⟩ := hfirst.followed hf hrest.rewrites
    obtain ⟨hothers, -⟩ := hf.following hfirst.rewrites hrest.stands hrest.seen fun c hc => hc
    refine ⟨by simpa using hnodes, hrewrites, ⟨.cons hstands.promoted hothers.promoted, ?_⟩, hseen⟩
    rintro j ⟨c, hc, hj⟩
    rcases List.mem_append.1 hc with hc | hc
    · rcases hstands.reach j ⟨c, hc, hj⟩ with ⟨c', hc', hj'⟩ | hnone
      · exact .inl ⟨c', List.mem_append_left _ hc', hj'⟩
      · exact .inr hnone
    · rcases hothers.reach j ⟨c, hc, hj⟩ with ⟨c', hc', hj'⟩ | hnone
      · exact .inl ⟨c', List.mem_append_right _ hc', hj'⟩
      · exact .inr hnone

/-- What visits of positions did: what they gave for each, and which they skipped. -/
structure Supplied (s t : Session) (h : Nat) (cs news : List (String × Operand)) : Prop where
  rewrites : Rewrites (Under s (cs.flatMap (·.2.ids))) s t
  names : ∀ new ∈ news, new.1 ∈ cs.map (·.1)
  given : ∀ c ∈ cs, ∀ r, (c.1, r) ∈ news → StandsFor s t h c.2 r ∧ Seen s t c.2 r
  skipped : ∀ c ∈ cs, c.1 ∉ news.map (·.1) → c.2 = .absent

namespace Supplied

variable {cs : List (String × Operand)} {name : String}

theorem skip (hfill : Supplied s t h cs news) (hname : name ∉ cs.map (·.1)) : Supplied s t h ((name, .absent) :: cs) news where
  rewrites := hfill.rewrites
  names new hnew := List.mem_cons_of_mem _ (hfill.names new hnew)
  given c hc r hr := by
    rcases List.mem_cons.1 hc with rfl | hc
    · exact absurd (hfill.names _ hr) hname
    · exact hfill.given c hc r hr
  skipped c hc hnot := by
    rcases List.mem_cons.1 hc with rfl | hc
    · rfl
    · exact hfill.skipped c hc hnot

theorem cons (hfirst : Outcome s u h o r) (hrest : Supplied u t h cs news) (hf : Forest s (o.ids ++ cs.flatMap (·.2.ids)))
    (hname : name ∉ cs.map (·.1)) : Supplied s t h ((name, o) :: cs) ((name, r) :: news) := by
  obtain ⟨hrewrites, hstands, hseen⟩ := hfirst.followed hf hrest.rewrites
  refine ⟨hrewrites, fun new hnew => ?_, fun c hc x hx => ?_, fun c hc hnot => ?_⟩
  · rcases List.mem_cons.1 hnew with rfl | hnew
    · exact .head _
    · exact .tail _ (hrest.names new hnew)
  · rcases List.mem_cons.1 hc with rfl | hc
    · rcases List.mem_cons.1 hx with hx | hx
      · cases hx
        exact ⟨hstands, hseen⟩
      · exact absurd (hrest.names _ hx) hname
    · rcases List.mem_cons.1 hx with hx | hx
      · have hin : c.1 ∈ cs.map (·.1) := List.mem_map_of_mem hc
        rw [(Prod.mk.inj hx).1] at hin
        exact absurd hin hname
      · obtain ⟨hs, hseen⟩ := hrest.given c hc x hx
        exact hf.following hfirst.rewrites hs hseen fun y hy => List.mem_flatMap.2 ⟨c, hc, hy⟩
  · simp only [List.map_cons, List.mem_cons, not_or] at hnot
    rcases List.mem_cons.1 hc with rfl | hc
    · exact absurd rfl hnot.1
    · exact hrest.skipped c hc hnot.2

end Supplied

/-- After a visit of one position the others are as they were. -/
theorem Outcome.next {ids : List NodeId} (hfirst : Outcome s u h o r) (hf : s.form? id = some f)
    (hforest : Forest s (o.ids ++ ids)) (hid : ¬ Under s (o.ids ++ ids) id) :
    u.form? id = some f ∧ Forest u ids ∧ ¬ Under u ids id := by
  obtain ⟨n, hn, rfl⟩ := node?_of_form? hf
  have hn' : u.node? id = some n := by
    refine hfirst.rewrites.spared id n hn ?_
    rintro ⟨c, hc, hj⟩
    exact hid ⟨c, List.mem_append_left _ hc, hj⟩
  refine ⟨form?_of_node? hn', hforest.right.congr (hforest.same hfirst.rewrites), fun hunder => ?_⟩
  obtain ⟨c, hc, hj⟩ := (hforest.under_same hfirst.rewrites).1 hunder
  exact hid ⟨c, List.mem_append_right _ hc, hj⟩

theorem Promotes.visits (hv : Promotes visit h) {names : List String} (hvis : Visits visit id names s news t)
    {cs : List (String × Operand)} (hnames : cs.map (·.1) = names) (hnodup : names.Nodup) (hf : s.form? id = some f)
    (hcs : ∀ c ∈ cs, f.children.lookup c.1 = some c.2) (hforest : Forest s (cs.flatMap (·.2.ids)))
    (hid : ¬ Under s (cs.flatMap (·.2.ids)) id) : Supplied s t h cs news := by
  induction hvis generalizing cs with
  | nil p =>
    obtain rfl := List.map_eq_nil_iff.1 hnames
    exact ⟨.refl _ p, by simp, by simp, by simp⟩
  | @none name names f' news p q hf' hl _ ih =>
    obtain ⟨⟨name', o⟩, cs, rfl, rfl, rfl⟩ := List.map_eq_cons_iff.1 hnames
    cases hf.symm.trans hf'
    have habsent : o = .absent := by
      have ho := hcs _ (.head _)
      rcases hl with hl | hl
      · cases ho.symm.trans hl
      · cases ho.symm.trans hl
        rfl
    subst habsent
    rw [List.nodup_cons] at hnodup
    exact (ih rfl hnodup.2 hf (fun c hc => hcs c (.tail _ hc)) hforest hid).skip hnodup.1
  | @one name names f' news o r p p' q hf' hl hrun _ _ ih =>
    obtain ⟨⟨name', o'⟩, cs, rfl, rfl, rfl⟩ := List.map_eq_cons_iff.1 hnames
    cases hf.symm.trans hf'
    cases hl.symm.trans (hcs _ (.head _))
    rw [List.nodup_cons] at hnodup
    obtain ⟨⟨i, rfl⟩, hout⟩ := hv hrun
    obtain ⟨-, hfirst⟩ := hout hforest.left
    obtain ⟨hf', hforest', hid'⟩ := hfirst.next hf hforest hid
    have hrest := ih rfl hnodup.2 hf' (fun c hc => hcs c (.tail _ hc)) hforest' hid'
    exact .cons hfirst hrest hforest hnodup.1
  | @many name names f' news os rs p p' q hf' hl hall _ ih =>
    obtain ⟨⟨name', o'⟩, cs, rfl, rfl, rfl⟩ := List.map_eq_cons_iff.1 hnames
    cases hf.symm.trans hf'
    cases hl.symm.trans (hcs _ (.head _))
    rw [List.nodup_cons] at hnodup
    obtain ⟨hnodes, hfirst⟩ := hv.visitsAll hall hforest.left
    rw [flattened_nodes hnodes]
    obtain ⟨hf', hforest', hid'⟩ := hfirst.next hf hforest hid
    have hrest := ih rfl hnodup.2 hf' (fun c hc => hcs c (.tail _ hc)) hforest' hid'
    exact .cons hfirst hrest hforest hnodup.1

end ArrayKernel.Ast
