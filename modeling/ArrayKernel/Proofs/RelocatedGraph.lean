import ArrayKernel.Proofs.Relocation

/-! # Reading a session inside another one -/

namespace ArrayKernel.Ast

variable {E : Frame}
variable {n n' a a' b b' : Ast.Node}
variable {f f' : Ast.Form} {w v : Session}

/-! ## Forms -/

theorem Frame.Form.kindName (h : E.Form f f') : f'.kindName = f.kindName := by
  cases h with
  | other f h => exact Ast.Form.kindName_moved f
  | _ => rfl

theorem Frame.Form.children (h : E.Form f f') : f'.children = f.children.map fun c => (c.1, E.operand c.2) := by
  cases h with
  | constant h => rfl
  | function h =>
    cases h
    rfl
  | other f h => exact Ast.Form.children_moved f

theorem Frame.Form.isExpression (h : E.Form f f') : f'.isExpression = f.isExpression := by
  cases h with
  | other f h => cases f <;> rfl
  | _ => rfl

theorem Frame.Form.isBinop (h : E.Form f f') : f'.isBinop = f.isBinop := by
  cases h with
  | other f h => cases f <;> rfl
  | _ => rfl

theorem Frame.Form.operator? (h : E.Form f f') : f'.operator? = f.operator? := by
  cases h with
  | other f h => cases f <;> rfl
  | _ => rfl

theorem lookup_map_snd {α β γ : Type} [BEq α] (f : β → γ) (ps : List (α × β)) (a : α) :
    (ps.map fun p => (p.1, f p.2)).lookup a = (ps.lookup a).map f := by
  induction ps with
  | nil => rfl
  | cons p ps ih =>
    rw [List.map_cons, List.lookup_cons, List.lookup_cons]
    cases a == p.1 with
    | true => rfl
    | false => exact ih

/-! ## Equality -/

def Comparison.moved (E : Frame) : Comparison → Comparison
  | .never => .never
  | .names a b => .names a b
  | .operands as bs => .operands (as.map E.operand) (bs.map E.operand)

def Node.shallow (a b : Node) : Comparison :=
  if a.form.kindName != b.form.kindName then .never
  else match a.comparedType, b.comparedType with
    | none, none => .operands a.presentChildren b.presentChildren
    | some t, some u => if t == u then .operands a.presentChildren b.presentChildren else .never
    | _, _ => .never

theorem Frame.Node.presentChildren (h : E.Node n n') :
    n'.presentChildren = n.presentChildren.map E.operand := by
  obtain ⟨f, hf, rfl⟩ := h
  simp only [Ast.Node.presentChildren, hf.children, List.map_map, List.filter_map]
  refine congrArg₂ List.map rfl (List.filter_congr ?_)
  intro c _
  simp [Function.comp_def]

theorem Frame.Node.shallow (ha : E.Node a a') (hb : E.Node b b') : a'.shallow b' = (a.shallow b).moved E := by
  have hac := ha.presentChildren
  have hbc := hb.presentChildren
  obtain ⟨f, hf, rfl⟩ := ha
  obtain ⟨g, hg, rfl⟩ := hb
  simp only [Ast.Node.shallow, hac, hbc, hf.kindName, hg.kindName, Ast.Node.comparedType]
  split
  · rfl
  · split
    · rfl
    · split <;> rfl
    · rfl

theorem Frame.Node.comparison (ha : E.Node a a') (hb : E.Node b b') :
    a'.comparison b' = (a.comparison b).moved E := by
  have hshallow := ha.shallow hb
  obtain ⟨form, type, x, k⟩ := a
  obtain ⟨form', type', x', k'⟩ := b
  obtain ⟨f, hf, rfl⟩ := ha
  obtain ⟨g, hg, rfl⟩ := hb
  obtain h | h | ⟨_, h⟩ := hf
  on_goal 3 => cases form
  case var v =>
    obtain h' | h' | ⟨_, h'⟩ := hg
    on_goal 3 => cases form'
    case var w =>
      rcases v with ⟨_ | _ | _ | _ | _ | _, _, _, _, _⟩ <;>
        rcases w with ⟨_ | _ | _ | _ | _ | _, _, _, _, _⟩ <;> rfl
    all_goals rfl
  case foreign t o => rfl
  case binop | vectorStore | vectorBinop | unop =>
    obtain h' | h' | ⟨_, h'⟩ := hg
    on_goal 3 => cases form'
    all_goals
      first
        | exact hshallow
        | simp only [Ast.Node.comparison, Form.moved]
          split <;> rfl
  all_goals exact hshallow

theorem allSame_map {f g : Operand → Operand → Except Fault Bool} {k : Operand → Operand}
    (h : ∀ a b, g (k a) (k b) = f a b) (as bs : List Operand) :
    allSame g (as.map k) (bs.map k) = allSame f as bs := by
  induction as generalizing bs with
  | nil => cases bs <;> rfl
  | cons a as ih =>
    cases bs with
    | nil => rfl
    | cons b bs => simp only [List.map_cons, allSame, h, ih]

theorem Frame.Holds.sameWithin (h : E.Holds w v) (depth : Nat) (a b : Operand) :
    sameWithin v.nodes depth (E.operand a) (E.operand b) = sameWithin w.nodes depth a b := by
  induction depth generalizing a b with
  | zero => cases a <;> cases b <;> rfl
  | succ depth ih =>
    cases a with
    | datum d => cases b <;> rfl
    | group as =>
      cases b with
      | group bs =>
        simp only [Frame.operand, Operand.rename_group, Ast.sameWithin, List.length_map]
        rw [allSame_map ih]
      | _ => rfl
    | node i =>
      cases b with
      | datum d | group bs => rfl
      | node j =>
        have hi : ∀ k : NodeId, w.nodes[k.index]? = w.node? k := fun _ => rfl
        have hi' : ∀ k : NodeId, v.nodes[k.index]? = v.node? k := fun _ => rfl
        simp only [Frame.operand, Operand.rename_node, Ast.sameWithin, beq_iff_eq, Frame.name_eq_iff, hi, hi']
        split
        · rfl
        · cases hm : w.node? i with
          | none => simp only [h.node?_none hm]
          | some m =>
            obtain ⟨m', hm', hmm⟩ := h.node i m hm
            cases hn : w.node? j with
            | none => simp only [hm', h.node?_none hn]
            | some n =>
              obtain ⟨n', hn', hnn⟩ := h.node j n hn
              simp only [hm', hn', hmm.comparison hnn]
              cases m.comparison n with
              | never | names x y => rfl
              | operands as bs => exact allSame_map ih as bs

section

variable {E : Guard}

theorem moves_same : Mirrors E same same := by
  refine fun a b => moves_read (fun w => sameWithin w.nodes depthLimit a b) _ runs_same runs_same fun w v h => ?_
  rw [h.sameWithin]
  cases sameWithin w.nodes depthLimit a b <;> rfl

theorem moves_isAmong : Mirrors E isAmong isAmong := by
  intro o os
  induction os with
  | nil => exact moves_pure false
  | cons x xs ih =>
    refine (moves_same x o).bind fun b => tracks_ite (fun _ => moves_pure true) fun _ => ih

end

/-! ## Keys -/

def KeyParts.moved (E : Frame) : KeyParts → KeyParts
  | .refused => .refused
  | .operands os => .operands (os.map E.operand)

theorem Frame.Node.keyParts (h : E.Node n n') : n'.keyParts = n.keyParts.moved E := by
  have hchildren := h.presentChildren
  obtain ⟨form, type, x, k⟩ := n
  obtain ⟨f, hf, rfl⟩ := h
  obtain h | h | ⟨_, h⟩ := hf
  on_goal 3 => cases form
  case var v =>
    rcases v with ⟨_ | _ | _ | _ | _ | _, _, _, _, _⟩
    all_goals
      simp only [Ast.Node.keyParts, Form.moved, Variable.moved, VariableRole.moved]
      first | rfl | (split <;> rfl)
  case foreign | binop | vectorStore | vectorBinop | unop => rfl
  all_goals
    simp only [Ast.Node.keyParts, Form.moved, Ast.Node.comparedType] at hchildren ⊢
    rw [hchildren]
    split
    · split <;> rfl
    · rfl

theorem Frame.Holds.checkKeyWithin (h : E.Holds w v) (depth : Nat) (o : Operand) :
    checkKeyWithin v.nodes depth (E.operand o) = checkKeyWithin w.nodes depth o := by
  induction depth generalizing o with
  | zero => rfl
  | succ depth ih =>
    cases o with
    | datum d | group os => rfl
    | node i =>
      have hi : w.nodes[i.index]? = w.node? i := rfl
      have hi' : v.nodes[(E.name i).index]? = v.node? (E.name i) := rfl
      simp only [Frame.operand, Operand.rename_node, Ast.checkKeyWithin, hi, hi']
      cases hm : w.node? i with
      | none => simp only [h.node?_none hm]
      | some m =>
        obtain ⟨m', hm', hmm⟩ := h.node i m hm
        simp only [hm', hmm.keyParts]
        cases m.keyParts with
        | refused => rfl
        | operands os =>
          simp only [KeyParts.moved, List.forM_eq_forM, List.forM_map]
          exact congrArg (os.forM ·) (funext ih)

variable {E : Guard}

theorem moves_checkKey : Mirrors E checkKey checkKey := by
  have hread {w t : Session} {o : Operand} {r : Unit} :
      Runs (checkKey o) w r t ↔ checkKeyWithin w.nodes depthLimit o = .ok r ∧ t = w := by
    rw [checkKey, runs_get_bind, runs_ofExcept]
  refine fun o => moves_read (fun w => checkKeyWithin w.nodes depthLimit o) _ hread hread fun w v h => ?_
  rw [h.checkKeyWithin]
  cases checkKeyWithin w.nodes depthLimit o <;> rfl

/-! ## Searches -/

theorem moves_kindOf : Mirrors E kindOf kindOf := by
  intro o
  cases o with
  | node i =>
    refine (tracks_node i).bind ?_
    rintro n _ ⟨f, hf, rfl⟩
    exact tracks_pure hf.kindName
  | datum d => exact moves_pure _
  | group os =>
    exact moves_pure _

theorem flatMap_children_moved {E : Frame} (os : List Operand) : ((os.map E.operand).flatMap fun
      | .datum .null => []
      | .group items => items
      | c => [c]) = (os.flatMap fun
      | .datum .null => []
      | .group items => items
      | c => [c]).map E.operand := by
  rw [List.flatMap_map, List.map_flatMap]
  refine congrArg (os.flatMap ·) (funext fun o => ?_)
  cases o with
  | node i => rfl
  | group items => rw [Frame.operand, Operand.rename_group]
  | datum d => cases d <;> rfl

theorem moves_childrenOf : Mirrors E childrenOf childrenOf := by
  refine fun o => (tracks_nodeOf o).bind ?_
  rintro n _ ⟨f, hf, rfl⟩
  refine tracks_pure ?_
  have hmoved := flatMap_children_moved (E := E.toFrame) (n.form.children.map (·.2))
  simp only [hf.children, List.map_map] at hmoved ⊢
  exact hmoved

theorem moves_descendantsOfKind : Mirrors E descendantsOfKind descendantsOfKind := by
  intro kind depth o
  induction depth generalizing o with
  | zero => exact tracks_throw _ _
  | succ depth ih =>
    refine (moves_childrenOf o).bind fun children => ?_
    refine (moves_mapM (l := List.map E.operand) (fun c => ?_) children).bind fun parts => ?_
    · refine (moves_kindOf c).bind fun k => (ih c).bind fun below => tracks_pure ?_
      split <;> simp_all
    · exact tracks_pure List.map_flatten.symm

theorem moves_firstAmong (kind : String) {below below' : Operand → Action (Option Operand)}
    (hbelow : Mirrors E below below') :
    Mirrors E (firstOfKind.firstAmong kind below) (firstOfKind.firstAmong kind below') := by
  intro os
  induction os with
  | nil => exact moves_pure none
  | cons c cs ih =>
    refine (moves_kindOf c).bind fun k => tracks_ite (fun _ => moves_pure (some c)) fun _ => ?_
    refine (hbelow c).bind fun found => ?_
    cases found with
    | none => exact ih
    | some found => exact moves_pure (some found)

theorem moves_firstOfKind : Mirrors E firstOfKind firstOfKind := by
  intro kind depth o
  induction depth generalizing o with
  | zero => exact tracks_throw _ _
  | succ depth ih => exact (moves_childrenOf o).bind fun children => moves_firstAmong kind ih children

theorem moves_mayFailAmong {depth : Nat} {found : Bool} {f f' : Form} (hf : E.Form f f')
    (hvisit : Mirrors E (mayFailWithin depth) (mayFailWithin depth)) : Moves E id
      ((f.children.flatMap fun (_, o) => match o with
        | .datum .null => []
        | .group items => items
        | o => [o]).foldlM (mayFailWithin depth) found)
      ((f'.children.flatMap fun (_, o) => match o with
        | .datum .null => []
        | .group items => items
        | o => [o]).foldlM (mayFailWithin depth) found) := by
  have hmoved := flatMap_children_moved (E := E.toFrame) (f.children.map (·.2))
  rw [List.map_map, List.flatMap_map, List.flatMap_map] at hmoved
  rw [hf.children, List.flatMap_map]
  exact hmoved ▸ moves_foldlM hvisit _ found

theorem moves_mayFailWithin : Mirrors E mayFailWithin mayFailWithin := by
  intro depth found o
  induction depth generalizing found o with
  | zero => exact tracks_throw _ _
  | succ depth ih =>
    cases o with
    | datum d => exact tracks_throw _ _
    | group os =>
      exact tracks_throw _ _
    | node i =>
      refine (tracks_node i).bind ?_
      rintro ⟨form, type, x, k⟩ _ ⟨f, hf, rfl⟩
      obtain h | h | ⟨_, h⟩ := hf
      on_goal 3 => cases form
      case constant => exact moves_mayFailAmong (.constant h) ih
      case function => exact moves_mayFailAmong (.function h) ih
      case foreign text owned =>
        refine tracks_ite (fun _ => moves_pure true) fun _ => moves_settings.bind fun s => ?_
        dsimp only [id]
        cases s.failing with
        | none => exact tracks_throw _ _
        | some texts => exact moves_pure _
      case loop l => exact (ih found l.start).bind fun b => (ih b l.condition).bind fun b' => ih b' l.step
      all_goals exact moves_mayFailAmong (.other _ h) ih

theorem moves_mayFail : Mirrors E mayFail mayFail := fun o =>
  (moves_identity o).bind fun _ => moves_mayFailWithin depthLimit false o

theorem tracks_mayFail (hw : ∀ K, E.keeps K → Warns K) (o : Operand) :
    Tracks E (fun x y => y = x ∧ (x = true → E.Reports)) (mayFail o) (mayFail (E.operand o)) := by
  refine (moves_mayFail o).fact fun hg hr hx K _ hK => ?_
  subst hx
  exact hw K hK.kept o _ _ (hg K hK.kept).holds hr

/-! ## Traversals -/

section

variable {m : Type → Type} [Monad m] [LawfulMonad m] [MonadLiftT Action m] [MonadExceptOf Fault m]
variable {σ : Type} [S : Stateful m σ] [F : Framed m]
variable {α β : Type} {Q : α → β → Prop} {visit' : String → Option Nat → Operand → m β}
variable {visit : String → Option Nat → Operand → m α}

inductive Visited.Rel (Q : α → β → Prop) : Visited α → Visited β → Prop where
  | one {a : α} {b : β} (h : Q a b) : Rel Q (.one a) (.one b)
  | many {as : List α} {bs : List β} (h : List.Forall₂ Q as bs) : Rel Q (.many as) (.many bs)

theorem tracks_visitPosition
    (hvisit : ∀ name i o, Tracks E Q (visit name i o) (visit' name i (E.operand o))) (i : NodeId) (name : String) :
    Tracks E (Option.Rel fun r r' => r'.1 = r.1 ∧ Visited.Rel Q r.2 r'.2) (visitPosition visit i name)
      (visitPosition visit' (E.name i) name) := by
  refine (Tracks.lift (tracks_node i)).bind ?_
  rintro n _ ⟨f, hf, rfl⟩
  have hlookup : f.children.lookup name = (n.form.children.lookup name).map E.operand := by
    rw [hf.children, lookup_map_snd]
  simp only [hlookup]
  cases n.form.children.lookup name with
  | none => exact tracks_pure .none
  | some o =>
    cases o with
    | node j => exact (hvisit name none (.node j)).bind fun a b hab => tracks_pure (.some ⟨rfl, .one hab⟩)
    | datum d =>
      cases d
      case null => exact tracks_pure .none
      all_goals exact (hvisit name none (.datum _)).bind fun a b hab => tracks_pure (.some ⟨rfl, .one hab⟩)
    | group items =>
      simp only [Option.map_some, Frame.operand, Operand.rename_group]
      have hpairs : List.Forall₂ (fun x y : Operand × Nat => y = (E.operand x.1, x.2)) items.zipIdx
          (items.map E.operand).zipIdx := by
        rw [forall₂_graph, List.zipIdx_map]
        rfl
      refine (tracks_mapM ?_ hpairs).bind fun as bs hab => tracks_pure (.some ⟨rfl, .many hab⟩)
      rintro ⟨o, j⟩ _ rfl
      exact hvisit name (some j) o

theorem tracks_visitChildren
    (hvisit : ∀ name i o, Tracks E Q (visit name i o) (visit' name i (E.operand o))) (i : NodeId) :
    Tracks E (List.Forall₂ fun r r' => r'.1 = r.1 ∧ Visited.Rel Q r.2 r'.2) (visitChildren visit i)
      (visitChildren visit' (E.name i)) := by
  refine (Tracks.lift (tracks_node i)).bind ?_
  rintro n _ ⟨f, hf, rfl⟩
  simp only [hf.children, List.map_map, Function.comp_def]
  generalize n.form.children.map (·.1) = names
  induction names with
  | nil =>
    exact tracks_pure .nil
  | cons name names ih =>
    rw [List.filterMapM_cons, List.filterMapM_cons]
    refine (tracks_visitPosition hvisit i name).bind ?_
    rintro _ _ (⟨hab⟩ | _)
    · exact ih.bind fun rs rs' hrs => tracks_pure (.cons hab hrs)
    · exact ih

theorem flattened_moved (os : List Operand) : flattened (os.map E.operand) = (flattened os).map E.operand :=
  flatMap_children_moved os

/-! ### Children -/

variable {p q : σ} {i : NodeId} {news : List (String × Operand)} {visit visit' : Operand → m Operand}

/-- Visits that do the same in two places, and give constants back. -/
structure Visiting (E : Guard) (visit visit' : Operand → m Operand) : Prop where
  mirrors : Mirrors E visit visit'
  constant : ∀ {p q r c d}, S.Ends (visit (.node c)) p r q →
    (S.session p).form? c = some (.constant d) → r = .node c

instance : CoeFun (Visiting E visit visit') fun _ => ∀ o, Moves E E.operand (visit o) (visit' (E.operand o)) :=
  ⟨Visiting.mirrors⟩

omit [LawfulMonad m] in
theorem Visiting.since (h : Visiting E visit visit') (s : Session) : Visiting (E.since s) visit visit' :=
  ⟨fun o => (h o).since s, h.constant⟩

omit [LawfulMonad m] in
/-- After a visit of what a node returns, it is left as it is, or replaced by what the visit gave, which is
the same for a constant. -/
theorem Visiting.yield (h : Visiting E visit visit') {o : Operand}
    (hv : Visits visit i ["operand"] p news q) (hf : (S.session p).form? i = some (.yield o)) :
    news = [] ∨ ∃ o', news = [("operand", o')] ∧
      ∀ c d, o = .node c → (S.session p).form? c = some (.constant d) → o' = o := by
  cases hv with
  | none hf' hl' hrest =>
    cases hrest
    exact .inl rfl
  | one hf' hl' hv _ hrest =>
    cases hrest
    rw [hf] at hf'
    cases hf'
    cases hl'
    refine .inr ⟨_, rfl, ?_⟩
    rintro c d rfl hc
    exact h.constant hv hc
  | many hf' hl' hv hrest =>
    cases hrest
    rw [hf] at hf'
    cases hf'
    cases hl'
    exact .inr ⟨_, rfl, fun c d hc => nomatch hc⟩

omit [LawfulMonad m] in
theorem Visiting.keeps (h : Visiting E visit visit') (hg : E.Good (S.session p))
    (hf : (S.session p).form? i = some f) (hv : Visits visit i (f.children.map (·.1)) p news q)
    (hpq : E.Keeps (S.session p) (S.session q)) :
    E.Keeps (S.session p) ((S.session q).alter i (Node.reform (setChildren news))) := by
  intro K hK
  obtain ⟨hl, hs⟩ := hpq K hK
  refine ⟨?_, hs.trans (.alter fun n _ => kept_setChildren n.form news)⟩
  by_cases hreturns : f.kept = .returning
  · obtain ⟨o, rfl⟩ := eq_yield_of_kept hreturns
    rcases h.yield hv hf with rfl | ⟨o', rfl, hsame⟩
    · exact K.alter hl fun n _ => .refl _
    · obtain ⟨f', hf', hkept⟩ := hs.kept i _ hf
      obtain ⟨o2, rfl⟩ := eq_yield_of_kept hkept
      have halter : (S.session q).alter i (Node.reform (setChildren [("operand", o')]))
          = (S.session q).alter i (Node.reform fun _ => .yield o') := by
        refine alter_congr fun n hn => ?_
        rw [form?_of_node? hn] at hf'
        unfold Node.reform
        rw [Option.some.inj hf']
        rfl
      rw [halter]
      exact K.returned (hg K hK).holds hf hs hl hsame
  · refine K.alter hl fun n hn => soft_setChildren ?_ news
    obtain ⟨f', hf', hkept⟩ := hs.kept i f hf
    rw [form_of_node? hn hf', hkept]
    exact hreturns

/-- The children are put in place in a guard that keeps nothing: what is kept depends on all visits. -/
theorem moves_transformChildren (hvisit : Visiting E visit visit') :
    Mirrors E (transformChildren visit) (transformChildren visit') := by
  intro i
  have hone name (place : Option Nat) o : Moves E E.operand (visitOne visit name place o)
      (visitOne visit' name place (E.operand o)) := by
    refine (hvisit o).bind fun r => ?_
    cases place with
    | some j => exact moves_pure r
    | none =>
      cases r with
      | node j => exact moves_pure (Operand.node j)
      | datum d => exact moves_pure (Operand.datum d)
      | group os => exact tracks_throw _ _
  have hvisits := tracks_visitChildren hone i
  have hset {rs rs' : List (String × Visited Operand)}
      (hrs : List.Forall₂ (fun r r' => r'.1 = r.1 ∧ Visited.Rel (fun x y => y = E.operand x) r.2 r'.2) rs rs') :
      Moves E.loose id
        (rs.forM fun r => (liftM (updateForm i (·.setChild r.1 r.2.operand)) : m PUnit))
        (rs'.forM fun r => (liftM (updateForm (E.name i) (·.setChild r.1 r.2.operand)) : m PUnit)) := by
    refine tracks_forM ?_ hrs
    rintro ⟨name, result⟩ ⟨name', result'⟩ ⟨hname, hresult⟩
    obtain rfl : name' = name := hname
    have hoperand : result'.operand = E.operand result.operand := by
      cases hresult with
      | one h => exact h
      | many h =>
        obtain rfl := forall₂_graph.1 h
        rw [Visited.operand, flattened_moved, ← Operand.rename_group]
        rfl
    dsimp only
    rw [hoperand]
    exact Moves.lift (moves_loosely i fun _ _ h => h.setChild name' _)
  refine ⟨fun hg hp ha => ?_, fun hg hp hb => ?_, fun hg hp ha => ?_⟩
  · obtain ⟨rs, p1, h1, h2⟩ := S.ends_bind.1 ha
    obtain ⟨rs', q1, h1', hrs, hp1⟩ := hvisits.forth hg hp h1
    obtain ⟨x, q2, h2', hx, hp2⟩ := (hset hrs).forth (fun _ h => h.elim) hp1 h2
    exact ⟨x, q2, S.ends_bind.2 ⟨rs', q1, h1', h2'⟩, hx, hp2⟩
  · obtain ⟨rs', q1, h1, h2⟩ := S.ends_bind.1 hb
    obtain ⟨rs, p1, h1', hrs, hp1⟩ := hvisits.back hg hp h1
    obtain ⟨x, p2, h2', hx, hp2⟩ := (hset hrs).back (fun _ h => h.elim) hp1 h2
    exact ⟨x, p2, S.ends_bind.2 ⟨rs, p1, h1', h2'⟩, hx, hp2⟩
  · obtain ⟨rs, p1, h1, h2⟩ := S.ends_bind.1 ha
    have hkeeps := hvisits.keeps hg hp h1
    simp only [S.ends_bind, visitChildren, ends_node] at h1
    obtain ⟨n, _, ⟨hn, rfl⟩, hv⟩ := h1
    rw [ends_setChildren h2, S.session_put]
    exact hvisit.keeps hg (form?_of_node? hn) (visits_of_filterMapM hv) hkeeps

theorem moves_passed (hvisit : Visiting E visit visit') (i : NodeId) :
    Moves E E.operand (do transformChildren visit i; return .node i)
      (do transformChildren visit' (E.name i); return .node (E.name i)) :=
  (moves_transformChildren hvisit i).bind fun _ => moves_pure (Operand.node i)

omit [LawfulMonad m] in
theorem moves_atPosition {visit visit' : NodeId → m Operand} (hvisit : Mirrors E visit visit') :
    Mirrors E (atPosition visit) (atPosition visit') := by
  refine fun o => (Moves.lift (moves_identity o)).bind fun i => (Moves.lift moves_position).bind fun previous => ?_
  refine (Tracks.lift (tracks_node i)).bind ?_
  rintro n _ ⟨f, hf, rfl⟩
  refine (Moves.lift (moves_setPosition n.position)).bind fun _ => (hvisit i).bind fun r => ?_
  refine (Moves.lift (moves_setPosition previous)).bind fun _ => ?_
  cases r with
  | node j => exact tracks_then (Moves.lift (moves_updateMarks j fun _ => rfl)) (moves_pure (Operand.node j))
  | datum d => exact moves_pure (Operand.datum d)
  | group os =>
    exact tracks_pure (by rw [Frame.operand, Operand.rename_group])

omit [LawfulMonad m] F in
theorem ends_constant {γ : Type} {c : NodeId} {d : Datum} {r : Operand} {a : m γ} {rest : Node → m Operand}
    (h : S.Ends (liftM (node c) >>= rest) p r q) (hc : (S.session p).form? c = some (.constant d))
    (hrest : ∀ n, n.form = .constant d → rest n = a >>= fun _ => pure (.node c)) : r = .node c := by
  obtain ⟨n, p', hn, h1⟩ := S.ends_bind.1 h
  obtain ⟨hn, rfl⟩ := ends_node.1 hn
  rw [hrest n (form_of_node? hn hc)] at h1
  obtain ⟨_, _, -, h2⟩ := S.ends_bind.1 h1
  exact (S.ends_pure.1 h2).1

omit [LawfulMonad m] in
theorem visiting_atPosition {act act' : NodeId → m Operand} (hact : Mirrors E act act')
    (hc : ∀ {p q r c d}, S.Ends (act c) p r q → (S.session p).form? c = some (.constant d) → r = .node c) :
    Visiting E (atPosition act) (atPosition act') := by
  refine ⟨moves_atPosition hact, ?_⟩
  intro p q r c d hr hform
  obtain ⟨id, s, p', t, hid, hbefore, hends, -, -⟩ := atPosition_visit hr
  cases hid
  refine hc (d := d) hends ?_
  rw [S.session_put, hbefore.form?]
  exact hform

end

end ArrayKernel.Ast
