import ArrayKernel.Proofs.TiledNest

/-!
# Tiling runs every element once

A tiled nest runs its body once for each tuple of indices of the shape, whatever the edge of the tiles is.
-/

namespace ArrayKernel.Running

open Ast

variable {m : Machine} {τ τ' : Temporaries} {β : Type} {E : Temporaries → List β}
variable {D T ends : List Int} {d : Int}
variable {v : Int → Int} {y : β} {e : Int → Temporaries → Int} {t : Int → NodeId} {b : Int → Limits}

/-! ## Nests by dimension -/

/-- The temporaries that a nest passes on, if its bounds do not depend on the temporaries it counts. -/
theorem fills_iff (ht : (D.map t).Nodup)
    (hb : ∀ d ∈ D, ∀ {τ τ'}, (∀ x, x ∉ D.map t → τ' x = τ x) → (b d).lower τ' = (b d).lower τ ∧
      (b d).upper τ' = (b d).upper τ ∧ (b d).step τ' = (b d).step τ) :
    Fills (D.map fun d => (t d, b d)) τ τ' ↔
      (∀ d ∈ D, τ' (t d) ∈ Position.range ((b d).lower τ) ((b d).upper τ) ((b d).step τ)) ∧
        ∀ x, x ∉ D.map t → τ' x = τ x := by
  induction D generalizing τ' with
  | nil =>
    simp only [List.map_nil, Fills, List.not_mem_nil, false_implies, implies_true, true_and, not_false_eq_true,
      true_implies]
    exact ⟨fun h _ => by rw [h], fun h => funext h⟩
  | cons d D ih =>
    simp only [List.map_cons, List.nodup_cons] at ht
    have hrest : ∀ {τ'}, Fills (D.map fun d => (t d, b d)) τ τ' ↔ _ := fun {_} =>
      ih ht.2 fun e he {τ τ'} h => hb e (by simp [he]) fun x hx => h x fun hm => hx (by simp [hm])
    have hne : ∀ e ∈ D, t e ≠ t d := fun e he heq => ht.1 (heq ▸ List.mem_map_of_mem he)
    simp only [List.map_cons, Fills, hrest]
    constructor
    · rintro ⟨τ1, ⟨hv, hoff⟩, i, hi, rfl⟩
      obtain ⟨h1, h2, h3⟩ := hb d (by simp) fun x hx => hoff x fun hm => hx (by simp [hm])
      refine ⟨fun e he => ?_, fun x hx => ?_⟩
      · rcases List.mem_cons.1 he with rfl | he
        · rw [Function.update_self, ← h1, ← h2, ← h3]
          exact hi
        · rw [Function.update_of_ne (hne e he)]
          exact hv e he
      · simp only [List.mem_cons, not_or] at hx
        rw [Function.update_of_ne hx.1, hoff x hx.2]
    · rintro ⟨hv, hoff⟩
      -- Before the innermost loop its temporary has the value it had before the nest.
      have hoff1 : ∀ x, x ∉ D.map t → Function.update τ' (t d) (τ (t d)) x = τ x := fun x hx => by
        by_cases hxd : x = t d
        · rw [hxd, Function.update_self]
        · rw [Function.update_of_ne hxd]
          exact hoff x (by simp [hxd, hx])
      obtain ⟨h1, h2, h3⟩ := hb d (by simp) fun x hx => hoff1 x fun hm => hx (by simp [hm])
      refine ⟨Function.update τ' (t d) (τ (t d)), ⟨fun e he => ?_, hoff1⟩, τ' (t d), ?_, ?_⟩
      · rw [Function.update_of_ne (hne e he)]
        exact hv e (by simp [he])
      · rw [h1, h2, h3]
        exact hv d (by simp)
      · simp

variable {seen : Temporaries → β} {W : NodeId → Prop} {first : Nat} {x : Name} {edge : Operand} {n : Int}

theorem performs_dims {k : Int → Counter} {body o : Operand} (hleaf : m.leaf.index < first)
    (hc : Chain first m.store body (D.map k) o) (hin : ∀ d ∈ D, (k d).In first m.store)
    (hb : ∀ d ∈ D, (k d).Bounded m (b d) fun y => W y ∨ y ∈ D.map fun d => (k d).temp)
    (hbody : Performs m seen [.run body] W E) (hW : ∀ d ∈ D, ¬ W (k d).temp)
    (ht : (D.map fun d => (k d).temp).Nodup) :
    Performs m seen [.run o] (fun y => W y ∨ y ∈ D.map fun d => (k d).temp)
      (nested E (D.map fun d => ((k d).temp, b d))) := by
  have htemps : (D.map k).map (·.temp) = D.map fun d => (k d).temp := List.map_map ..
  have hbs : List.Forall₂ (fun c l => Counter.Bounded c m l fun y => W y ∨ y ∈ (D.map k).map (·.temp))
      (D.map k) (D.map b) := by
    rw [List.forall₂_map_left_iff, List.forall₂_map_right_iff, List.forall₂_same, htemps]
    exact hb
  have hp := performs_chain hleaf hc (by simpa using hin) hbs hbody (fun _ h => h) (by simpa using hW)
    (by rw [htemps]; exact ht)
  rw [htemps, List.zip_map'] at hp
  exact hp

def assignAll (t : Int → NodeId) (v : Int → Int) (D : List Int) (τ : Temporaries) : Temporaries :=
  D.foldr (fun d τ => Function.update τ (t d) (v d)) τ

theorem assignAll_mem (ht : (D.map t).Nodup) (hd : d ∈ D) : assignAll t v D τ (t d) = v d := by
  induction D with
  | nil => cases hd
  | cons e D ih =>
    simp only [List.map_cons, List.nodup_cons] at ht
    simp only [assignAll, List.foldr_cons]
    rcases List.mem_cons.1 hd with rfl | hd
    · rw [Function.update_self]
    · rw [Function.update_of_ne fun heq : t d = t e => ht.1 (heq ▸ List.mem_map_of_mem hd)]
      exact ih ht.2 hd

theorem assignAll_not_mem {x : NodeId} (hx : x ∉ D.map t) : assignAll t v D τ x = τ x := by
  induction D with
  | nil => rfl
  | cons e D ih =>
    simp only [List.map_cons, List.mem_cons, not_or] at hx
    simp only [assignAll, List.foldr_cons]
    rw [Function.update_of_ne hx.1]
    exact ih hx.2

section Assigned

variable {t : Int → NodeId} {b : Int → Limits} (ht : (D.map t).Nodup)
  (hb : ∀ d ∈ D, ∀ {τ τ'}, (∀ x, x ∉ D.map t → τ' x = τ x) → (b d).lower τ' = (b d).lower τ ∧
    (b d).upper τ' = (b d).upper τ ∧ (b d).step τ' = (b d).step τ)

include ht hb

theorem fills_iff_assigned : Fills (D.map fun d => (t d, b d)) τ τ' ↔
    ∃ v, (∀ d ∈ D, v d ∈ Position.range ((b d).lower τ) ((b d).upper τ) ((b d).step τ)) ∧
      τ' = assignAll t v D τ := by
  rw [fills_iff ht hb]
  constructor
  · rintro ⟨hv, hoff⟩
    refine ⟨fun d => τ' (t d), hv, funext fun x => ?_⟩
    by_cases hx : x ∈ D.map t
    · obtain ⟨d, hd, rfl⟩ := List.mem_map.1 hx
      rw [assignAll_mem ht hd]
    · rw [hoff x hx, assignAll_not_mem hx]
  · rintro ⟨v, hv, rfl⟩
    refine ⟨fun d hd => ?_, fun x hx => assignAll_not_mem hx⟩
    rw [assignAll_mem ht hd]
    exact hv d hd

theorem mem_nested_assigned : y ∈ nested E (D.map fun d => (t d, b d)) τ ↔
    ∃ v, (∀ d ∈ D, v d ∈ Position.range ((b d).lower τ) ((b d).upper τ) ((b d).step τ)) ∧
      y ∈ E (assignAll t v D τ) := by
  simp only [mem_nested, fills_iff_assigned ht hb]
  constructor
  · rintro ⟨_, ⟨v, hv, rfl⟩, hy⟩
    exact ⟨v, hv, hy⟩
  · rintro ⟨v, hv, hy⟩
    exact ⟨_, ⟨v, hv, rfl⟩, hy⟩

theorem nested_assigned_nodup (hstep : ∀ d ∈ D, ∀ τ, 0 < (b d).step τ)
    (hE : ∀ v, (∀ d ∈ D, v d ∈ Position.range ((b d).lower τ) ((b d).upper τ) ((b d).step τ)) →
      (E (assignAll t v D τ)).Nodup)
    (hkey : ∀ d ∈ D, ∃ key : β → Int, ∀ v,
      (∀ d ∈ D, v d ∈ Position.range ((b d).lower τ) ((b d).upper τ) ((b d).step τ)) →
        ∀ y ∈ E (assignAll t v D τ), key y = v d) :
    (nested E (D.map fun d => (t d, b d)) τ).Nodup := by
  have htemps : (D.map fun d => (t d, b d)).map (·.1) = D.map t := by simp [Function.comp_def]
  refine nested_nodup (fun τ' hf => ?_) (fun x hx => ?_) (by simpa using hstep) (by rw [htemps]; exact ht)
  · obtain ⟨v, hv, rfl⟩ := (fills_iff_assigned ht hb).1 hf
    exact hE v hv
  · rw [htemps] at hx
    obtain ⟨d, hd, rfl⟩ := List.mem_map.1 hx
    obtain ⟨key, hkey⟩ := hkey d hd
    refine ⟨key, fun τ' hf y hy => ?_⟩
    obtain ⟨v, hv, rfl⟩ := (fills_iff_assigned ht hb).1 hf
    rw [hkey v hv y hy, assignAll_mem ht hd]

end Assigned

/-! ## The ends of tiles -/

def setEnds (t : Int → NodeId) (e : Int → Temporaries → Int) : List Int → Temporaries → Temporaries
  | [], τ => τ
  | d :: ds, τ => setEnds t e ds (Function.update τ (t d) (e d τ))

theorem setEnds_not_mem {x : NodeId} (hx : x ∉ D.map t) : setEnds t e D τ x = τ x := by
  induction D generalizing τ with
  | nil => rfl
  | cons d D ih =>
    simp only [List.map_cons, List.mem_cons, not_or] at hx
    rw [setEnds, ih hx.2, Function.update_of_ne hx.1]

theorem setEnds_mem (ht : (D.map t).Nodup)
    (he : ∀ d ∈ D, ∀ {τ τ'}, (∀ x, x ∉ D.map t → τ' x = τ x) → e d τ' = e d τ) (hd : d ∈ D) :
    setEnds t e D τ (t d) = e d τ := by
  induction D generalizing τ with
  | nil => cases hd
  | cons c D ih =>
    simp only [List.map_cons, List.nodup_cons] at ht
    rw [setEnds]
    rcases List.mem_cons.1 hd with rfl | hd
    · rw [setEnds_not_mem ht.1, Function.update_self]
    · rw [ih ht.2 (fun b hb {τ τ'} h => he b (by simp [hb]) fun x hx => h x fun hm => hx (by simp [hm])) hd]
      refine he d (by simp [hd]) fun x hx => Function.update_of_ne ?_ ..
      rintro rfl
      exact hx (by simp)

theorem value_least {l : Limit} {ix : NodeId} (h : l.In first m.store x edge d ix)
    (hix : HasValue m τ (.node ix) (τ ix))
    (hv : ∃ v shown, m.store.form? ix = some (.var v) ∧ v.role = .temporary shown)
    (hty : ∃ ty, m.store.type? ix = some ty ∧ ty.isPointer = false) (hedge : HasValue m τ edge n) (hn : 0 < n) :
    HasValue m τ (.node l.least) (min (τ ix + n) (m.inputs.item x d)) := by
  have hstop : HasValue m τ l.stop (τ ix + n) := by
    rcases h.stop_sum with ⟨-, id, w, hid, hw, -⟩ | ⟨-, id, w, hid, hw, hz⟩ | ⟨id, hid, hf⟩
    · obtain ⟨v, shown, hv, -⟩ := hv
      cases hid
      simp [hv] at hw
    · rw [hid] at hedge
      cases hedge with
      | constant h =>
        rw [hw] at h
        cases h
        exact absurd (eq_zero_of_same hz) (by omega)
      | _ => simp_all
    · obtain ⟨ty, hty, hp⟩ := hty
      have hscale : m.inputs.scale (m.store.type? ix) = 1 := by
        cases ty <;> simp_all [Inputs.scale, CType.isPointer]
      rw [hid]
      simpa [hscale] using HasValue.sum hf hix hedge
  have hext := value_extent (τ := τ) h.extent_is
  have hmin := HasValue.chosen h.least_form (.less h.test_form hstop hext) hstop hext
  have heq : (if (if τ ix + n < m.inputs.item x d then (1 : Int) else 0) ≠ 0 then τ ix + n
      else m.inputs.item x d) = min (τ ix + n) (m.inputs.item x d) := by
    split <;> split at * <;> omega
  rwa [heq] at hmin

theorem Performs.ended {lim : Int → Limit} {ix : Int → NodeId} {ks : List Step} (hleaf : m.leaf.index < first)
    (hlim : ∀ d ∈ D, (lim d).In first m.store x edge d (ix d))
    (hval : ∀ d ∈ D, ∀ τ, HasValue m τ (.node (lim d).least) (e d τ))
    (hs : ∀ d ∈ D, ∀ {τ τ'}, AgreeOff (fun y => W y ∨ y ∈ D.map fun d => (lim d).temp) τ τ' → e d τ' = e d τ)
    (h : Performs m seen ks W E) :
    Performs m seen (D.map (fun d => .run (.node (lim d).statement)) ++ ks)
      (fun y => W y ∨ y ∈ D.map fun d => (lim d).temp)
      fun τ => E (setEnds (fun d => (lim d).temp) e D τ) := by
  induction D with
  | nil => simpa [setEnds] using h
  | cons d D ih =>
    have hd := hlim d (by simp)
    obtain ⟨r, ha⟩ := hd.assignment_form
    have hne : ∀ {i : NodeId}, first ≤ i.index → i ≠ m.leaf := fun hle heq => by rw [heq] at hle; omega
    have hrest := ih (fun b hb => hlim b (by simp [hb])) (fun b hb => hval b (by simp [hb]))
      (fun b hb {τ τ'} ha => hs b (by simp [hb]) (ha.weaken fun y hy => hy.imp id fun hm => by simp [hm]))
    have hsets : (fun y => W y ∨ y ∈ (d :: D).map fun d => (lim d).temp) =
        fun y => y = (lim d).temp ∨ (W y ∨ y ∈ D.map fun d => (lim d).temp) := by
      funext y
      simp [or_left_comm]
    rw [hsets]
    refine Performs.opened (hne hd.new.2.1) hd.statement_form rfl ?_
    exact Performs.assigned (hne hd.new.2.2) ha rfl (hval d (by simp)) hrest
      fun {τ τ'} ha => hs d (by simp) (by rw [hsets]; exact ha)

/-! ## What a tiled nest records -/

theorem value_or {o r : Operand} {i : Int} (h : IsOr m.store o i r) (ha : o.isAbsent = true → i = n)
    (hv : o.isAbsent = false → HasValue m τ o n) : HasValue m τ r n := by
  unfold IsOr at h
  split at h
  · obtain ⟨id, rfl, hf⟩ := h
    rw [← ha ‹_›]
    exact .constant hf
  · rw [h]
    exact hv (Bool.eq_false_iff.2 ‹_›)

theorem bounded_extent {c : Counter} {step : Operand}
    (h : CountsDim m.store first step (fun _ o => o = .absent) (IsExtent x d) d c)
    (ha : step.isAbsent = true → 1 = n) (hv : step.isAbsent = false → ∀ τ, HasValue m τ step n) (hn : 0 < n) :
    c.Bounded m ⟨fun _ => 0, fun _ => m.inputs.item x d, fun _ => n⟩ W where
  lower τ := by
    obtain ⟨lo, rfl, hor⟩ := h.lower
    exact value_or hor (fun _ => rfl) (fun hf => by cases hf)
  upper τ := value_extent h.upper
  step τ := value_or h.step ha fun hf => hv hf τ
  step_pos _ := hn
  stable _ := ⟨rfl, rfl, rfl⟩

theorem bounded_given {c : Counter} {lo up : NodeId}
    (h : CountsDim m.store first .absent (fun _ o => o = .node lo) (fun _ o => o = .node up) d c)
    (hlo : ∀ τ, HasValue m τ (.node lo) (τ lo)) (hup : ∀ τ, HasValue m τ (.node up) (τ up))
    (hne : lo ≠ c.temp ∧ up ≠ c.temp) (hW : ¬ W lo ∧ ¬ W up) :
    c.Bounded m ⟨(· lo), (· up), fun _ => 1⟩ W where
  lower τ := by
    obtain ⟨_, rfl, hor⟩ := h.lower
    exact value_or hor (fun hf => by cases hf) fun _ => hlo τ
  upper τ := by
    rw [h.upper]
    exact hup τ
  step τ := value_or h.step (fun _ => rfl) fun hf => by cases hf
  step_pos _ := Int.one_pos
  stable ha := ⟨ha lo (not_or.2 ⟨hne.1, hW.1⟩), ha up (not_or.2 ⟨hne.2, hW.2⟩), rfl⟩

def whole (extent : Int → Int) (n : Int) (d : Int) : Limits := ⟨fun _ => 0, fun _ => extent d, fun _ => n⟩

def inside (k : Tiles) (d : Int) : Limits :=
  ⟨(· (k.controlling d).temp), (· (k.limit d).temp), fun _ => 1⟩

def ending (k : Tiles) (extent : Int → Int) (n : Int) (d : Int) (τ : Temporaries) : Int :=
  min (τ (k.controlling d).temp + n) (extent d)

def inTile (k : Tiles) (seen : Temporaries → β) (extent : Int → Int) (n : Int) (D ends : List Int)
    (τ : Temporaries) : List β :=
  nested (fun τ => [seen τ]) (D.map fun d => ((k.inner d).temp, inside k d))
    (setEnds (fun d => (k.limit d).temp) (ending k extent n) ends τ)

def tiledRecords (k : Tiles) (seen : Temporaries → β) (extent : Int → Int) (n : Int)
    (T D ends : List Int) : Temporaries → List β :=
  nested (nested (inTile k seen extent n D ends) (D.map fun d => ((k.controlling d).temp, whole extent n d)))
    (T.map fun d => ((k.outer d).temp, whole extent 1 d))

theorem performs_tiles {k : Tiles} (hleaf : m.leaf.index < first)
    (hc : k.Counts first m.store x edge T D) (hh : k.Hangs first m.store (.node m.leaf) T D ends)
    (ha : k.Apart T D) (hends : ends.Perm D) (hedge : ∀ τ, HasValue m τ edge n) (hn : 0 < n)
    (hedge' : edge.isAbsent = false) (hW : ∀ y, Assigns m.store m.leaf y → y.index < first)
    (hseen : ∀ {τ τ'}, AgreeOff (fun y => y.index < first) τ τ' → seen τ' = seen τ) :
    ∃ W, Performs m seen [.run (.node k.root)] W (tiledRecords k seen (m.inputs.item x) n T D ends) := by
  obtain ⟨inside', middle, outer, c, vs, ps, h1, h2, h3, h4, h5⟩ := hh.loops
  have hne : ∀ {i : NodeId}, first ≤ i.index → i ≠ m.leaf := fun hle heq => by rw [heq] at hle; omega
  have hctl : ∀ d ∈ D, ∀ τ, HasValue m τ (.node (k.controlling d).temp) (τ (k.controlling d).temp) :=
    fun d hd τ => value_temp (hc.controlling d hd).stored
  have hlim : ∀ d ∈ D, ∀ τ, HasValue m τ (.node (k.limit d).temp) (τ (k.limit d).temp) := fun d hd τ => by
    obtain ⟨v, shown, hf, hr⟩ := (hc.limit d hd).temp_form
    exact .temporary hf hr
  have hold : ∀ {y : NodeId}, first ≤ y.index → ¬ y.index < first := fun h h' => absurd h' (Nat.not_lt.2 h)
  -- Inside a tile.
  have p1 := performs_dims hleaf h1 (fun d hd => (hc.inner d hd).stored)
    (fun d hd => bounded_given (hc.inner d hd) (hctl d hd) (hlim d hd)
      ⟨ha.controlling_inner d hd d hd, ha.limit_inner d hd d hd⟩
      ⟨not_or.2 ⟨hold (hc.controlling d hd).stored.new.2.1, by
          simpa using fun d' hd' heq => ha.controlling_inner d hd d' hd' heq.symm⟩,
        not_or.2 ⟨hold (hc.limit d hd).new.1, by
          simpa using fun d' hd' heq => ha.limit_inner d hd d' hd' heq.symm⟩⟩)
    (performs_leaf hW hseen) (fun d hd => hold (hc.inner d hd).stored.new.2.1) ha.inner
  -- A tile, from the computation of its ends on.
  have hends' : ∀ {d}, d ∈ ends → d ∈ D := fun hd => hends.mem_iff.1 hd
  have hfree : ∀ d ∈ D, ¬ (((k.controlling d).temp.index < first ∨
      (k.controlling d).temp ∈ D.map fun d => (k.inner d).temp) ∨
        (k.controlling d).temp ∈ ends.map fun d => (k.limit d).temp) := by
    rintro d hd ((h | h) | h)
    · exact hold (hc.controlling d hd).stored.new.2.1 h
    · obtain ⟨d', hd', heq⟩ := List.mem_map.1 h
      exact ha.controlling_inner d hd d' hd' heq.symm
    · obtain ⟨d', hd', heq⟩ := List.mem_map.1 h
      exact ha.controlling_limit d hd d' (hends' hd') heq.symm
  have p2 := Performs.ended hleaf (fun d hd => hc.limit d (hends' hd))
    (fun d hd τ => value_least (hc.limit d (hends' hd)) (hctl d (hends' hd) τ)
      (hc.controlling d (hends' hd)).stored.temp_form
      (hc.controlling d (hends' hd)).stored.temp_type (hedge τ) hn)
    (fun d hd {τ τ'} hoff => by rw [hoff _ (hfree d (hends' hd))]) p1
  have hsteps : effect m.parallel (.sequence (.group (ends.map
      (fun d => Operand.node (k.limit d).statement) ++ [inside']))) =
      .steps (ends.map (fun d => Step.run (.node (k.limit d).statement)) ++ [.run inside']) := by
    simp [effect, Function.comp_def]
  have p3 := Performs.opened (hne hh.new.1) h2 hsteps (by rw [List.append_nil]; exact p2)
  -- All tiles.
  have p4 := performs_dims hleaf h3 (fun d hd => (hc.controlling d hd).stored)
    (fun d hd => bounded_extent (hc.controlling d hd) (by simp [hedge']) (fun _ => hedge) hn) p3 hfree
    ha.controlling
  have p5 := performs_dims hleaf h4 (fun d hd => (hc.outer d hd).stored)
    (fun d hd => bounded_extent (hc.outer d hd) (fun _ => rfl) (by intro hf; cases hf) Int.one_pos) p4
    (by
      rintro d hd (((h | h) | h) | h)
      · exact hold (hc.outer d hd).stored.new.2.1 h
      · obtain ⟨d', hd', heq⟩ := List.mem_map.1 h
        exact (ha.outer_others d hd d' hd').2.2 heq.symm
      · obtain ⟨d', hd', heq⟩ := List.mem_map.1 h
        exact (ha.outer_others d hd d' (hends' hd')).2.1 heq.symm
      · obtain ⟨d', hd', heq⟩ := List.mem_map.1 h
        exact (ha.outer_others d hd d' hd').1 heq.symm) ha.outer
  exact ⟨_, Performs.opened (hne hh.new.2) h5 rfl p5⟩

/-! ## Tuples of indices -/

theorem mem_range_one {a b i : Int} : i ∈ Position.range a b 1 ↔ a ≤ i ∧ i < b := by
  rw [mem_range Int.one_pos]
  constructor
  · rintro ⟨k, rfl, hk⟩
    omega
  · intro h
    exact ⟨(i - a).toNat, by omega, h.2⟩

def tuples : List Int → List (List Int)
  | [] => [[]]
  | e :: es => (Position.range 0 e 1).flatMap fun i => (tuples es).map (i :: ·)

theorem mem_tuples {y es : List Int} : y ∈ tuples es ↔ List.Forall₂ (fun i e => 0 ≤ i ∧ i < e) y es := by
  induction es generalizing y with
  | nil => simp [tuples]
  | cons e es ih =>
    simp only [tuples, List.mem_flatMap, mem_range_one, List.mem_map, ih, List.forall₂_cons_right_iff]
    constructor
    · rintro ⟨i, hi, z, hz, rfl⟩
      exact ⟨i, z, hi, hz, rfl⟩
    · rintro ⟨i, z, hi, hz, rfl⟩
      exact ⟨i, hi, z, hz, rfl⟩

theorem tuples_nodup (es : List Int) : (tuples es).Nodup := by
  induction es with
  | nil => simp [tuples]
  | cons e es ih =>
    refine List.nodup_flatMap.2 ⟨fun i _ => ih.map fun _ _ h => (List.cons.inj h).2, ?_⟩
    refine (range_nodup Int.one_pos).imp fun {i j} hij y hi hj => ?_
    obtain ⟨_, _, rfl⟩ := List.mem_map.1 hi
    obtain ⟨_, _, hy⟩ := List.mem_map.1 hj
    exact hij (List.cons.inj hy).1.symm

/-! ## Each tuple once -/

section Coverage

variable {k : Tiles} {extent : Int → Int} {n : Int}

def indexOf (k : Tiles) (D : List Int) (d : Int) : NodeId :=
  if d ∈ D then (k.inner d).temp else (k.outer d).temp

def inTileAt (k : Tiles) (extent : Int → Int) (n : Int) (D ends : List Int) (v : Int → Int)
    (τ : Temporaries) : Temporaries :=
  assignAll (fun d => (k.inner d).temp) v D (setEnds (fun d => (k.limit d).temp) (ending k extent n) ends τ)

theorem ending_stable {ds : List Int} (ha : k.Apart T D) (hds : ∀ {d}, d ∈ ds → d ∈ D) (hd : d ∈ D)
    (h : ∀ x, x ∉ ds.map (fun d => (k.limit d).temp) → τ' x = τ x) :
    ending k extent n d τ' = ending k extent n d τ := by
  unfold ending
  rw [h]
  intro hm
  obtain ⟨d', hd', heq⟩ := List.mem_map.1 hm
  exact ha.controlling_limit d hd d' (hds hd') heq.symm

theorem inside_stable (ha : k.Apart T D) (hd : d ∈ D) {τ τ' : Temporaries}
    (h : ∀ x, x ∉ D.map (fun d => (k.inner d).temp) → τ' x = τ x) :
    (inside k d).lower τ' = (inside k d).lower τ ∧ (inside k d).upper τ' = (inside k d).upper τ ∧
      (inside k d).step τ' = (inside k d).step τ := by
  refine ⟨h _ fun hm => ?_, h _ fun hm => ?_, rfl⟩
  · obtain ⟨d', hd', heq⟩ := List.mem_map.1 hm
    exact ha.controlling_inner d hd d' hd' heq.symm
  · obtain ⟨d', hd', heq⟩ := List.mem_map.1 hm
    exact ha.limit_inner d hd d' hd' heq.symm

theorem mem_inTile (ha : k.Apart T D) (hends : ends.Perm D) :
    y ∈ inTile k seen extent n D ends τ ↔ ∃ v, (∀ d ∈ D, τ (k.controlling d).temp ≤ v d ∧
      v d < min (τ (k.controlling d).temp + n) (extent d)) ∧
      y = seen (inTileAt k extent n D ends v τ) := by
  have hlower : ∀ d ∈ D, setEnds (fun d => (k.limit d).temp) (ending k extent n) ends τ (k.controlling d).temp =
      τ (k.controlling d).temp := fun d hd => setEnds_not_mem fun hm => by
    obtain ⟨d', hd', heq⟩ := List.mem_map.1 hm
    exact ha.controlling_limit d hd d' (hends.mem_iff.1 hd') heq.symm
  have hupper : ∀ d ∈ D, setEnds (fun d => (k.limit d).temp) (ending k extent n) ends τ (k.limit d).temp =
      min (τ (k.controlling d).temp + n) (extent d) := fun d hd =>
    setEnds_mem ((hends.map _).nodup_iff.2 ha.limit)
      (fun d hd {_ _} h => ending_stable ha (hends.mem_iff.1 ·) (hends.mem_iff.1 hd) h) (hends.mem_iff.2 hd)
  rw [inTile, mem_nested_assigned ha.inner fun d hd => inside_stable ha hd]
  simp only [inside, mem_range_one, List.mem_singleton]
  refine exists_congr fun v => and_congr_left fun _ => forall₂_congr fun d hd => ?_
  rw [hlower d hd, hupper d hd]

theorem whole_stable (n : Int) (d : Int) {ds : List NodeId} {τ τ' : Temporaries}
    (_ : ∀ x, x ∉ ds → τ' x = τ x) :
    (whole extent n d).lower τ' = (whole extent n d).lower τ ∧
      (whole extent n d).upper τ' = (whole extent n d).upper τ ∧
      (whole extent n d).step τ' = (whole extent n d).step τ :=
  ⟨rfl, rfl, rfl⟩

variable (ha : k.Apart T D) (hends : ends.Perm D)

include ha in
theorem outer_apart (hd : d ∈ T) : (k.outer d).temp ∉ (D.map fun d => (k.controlling d).temp) ∧
    (k.outer d).temp ∉ (D.map fun d => (k.limit d).temp) ∧
      (k.outer d).temp ∉ D.map fun d => (k.inner d).temp := by
  refine ⟨fun hm => ?_, fun hm => ?_, fun hm => ?_⟩ <;> obtain ⟨d', hd', heq⟩ := List.mem_map.1 hm
  · exact (ha.outer_others d hd d' hd').1 heq.symm
  · exact (ha.outer_others d hd d' hd').2.1 heq.symm
  · exact (ha.outer_others d hd d' hd').2.2 heq.symm

include ha in
theorem inTileAt_inner (hd : d ∈ D) : inTileAt k extent n D ends v τ (indexOf k D d) = v d := by
  simp only [inTileAt, indexOf, hd, if_true]
  exact assignAll_mem ha.inner hd

include ha hends

theorem inTileAt_outer {v1 v2 v3 : Int → Int} (hd : d ∈ T) (hD : d ∉ D) :
    inTileAt k extent n D ends v3 (assignAll (fun d => (k.controlling d).temp) v2 D
      (assignAll (fun d => (k.outer d).temp) v1 T τ)) (indexOf k D d) = v1 d := by
  obtain ⟨h1, h2, h3⟩ := outer_apart ha hd
  simp only [inTileAt, indexOf, hD, if_false]
  rw [assignAll_not_mem h3, setEnds_not_mem fun hm => h2 ((hends.map _).mem_iff.1 hm), assignAll_not_mem h1,
    assignAll_mem ha.outer hd]

/-- What the tiles record at one iteration of the loops outside them: tiles start at multiples of the
edge. -/
theorem mem_tiles (hn : 0 < n) :
    y ∈ nested (inTile k seen extent n D ends) (D.map fun d => ((k.controlling d).temp, whole extent n d)) τ ↔
      ∃ v2 v3 : Int → Int, (∀ d ∈ D, (∃ j : Nat, v2 d = n * j) ∧ v2 d < extent d) ∧
        (∀ d ∈ D, v2 d ≤ v3 d ∧ v3 d < min (v2 d + n) (extent d)) ∧
        y = seen (inTileAt k extent n D ends v3 (assignAll (fun d => (k.controlling d).temp) v2 D τ)) := by
  have hcontrolling : ∀ (v : Int → Int), ∀ d ∈ D,
      assignAll (fun d => (k.controlling d).temp) v D τ (k.controlling d).temp = v d :=
    fun v d hd => assignAll_mem ha.controlling hd
  have hrange : ∀ d i, i ∈ Position.range 0 (extent d) n ↔ (∃ j : Nat, i = n * j) ∧ i < extent d := by
    intro d i
    simp [mem_range hn]
  simp only [mem_nested_assigned ha.controlling fun d _ => whole_stable n d, mem_inTile ha hends]
  simp only [whole, hrange]
  constructor
  · rintro ⟨v2, h2, v3, h3, rfl⟩
    refine ⟨v2, v3, h2, fun d hd => ?_, rfl⟩
    simpa only [hcontrolling v2 d hd] using h3 d hd
  · rintro ⟨v2, v3, h2, h3, rfl⟩
    refine ⟨v2, h2, v3, fun d hd => ?_, rfl⟩
    simpa only [hcontrolling v2 d hd] using h3 d hd

/-! ### Tuples in the order of the dimensions -/

def indicesOf (k : Tiles) (D ds : List Int) (τ : Temporaries) : List Int := ds.map fun d => τ (indexOf k D d)

def readAt (ds : List Int) (d : Int) (y : List Int) : Int := ((ds.zip y).lookup d).getD 0

variable {ds : List Int}

omit ha hends in
theorem readAt_map {f : Int → Int} (hd : d ∈ ds) : readAt ds d (ds.map f) = f d := by
  have hzip : ds.zip (ds.map f) = ds.map fun d => (d, f d) := by
    rw [List.zip_map_right, List.zip, List.zipWith_self, List.map_map]
    rfl
  rw [readAt, hzip, lookup_pairs f hd]
  rfl

variable (hds : ds.Perm (T ++ D)) (hnd : ds.Nodup)

include hds hnd

theorem mem_tiledRecords (hn : 0 < n) {y : List Int} :
    y ∈ tiledRecords k (indicesOf k D ds) extent n T D ends τ ↔ y ∈ tuples (ds.map extent) := by
  have hTD : ∀ d ∈ T, d ∉ D := fun d hT hD => (List.nodup_append.1 (hds.nodup_iff.1 hnd)).2.2 d hT d hD rfl
  rw [tiledRecords, mem_nested_assigned ha.outer fun d _ => whole_stable 1 d, mem_tuples]
  simp only [mem_tiles ha hends hn]
  simp only [whole, mem_range_one]
  constructor
  · rintro ⟨v1, h1, v2, v3, h2, h3, rfl⟩
    rw [indicesOf, List.forall₂_map_left_iff, List.forall₂_map_right_iff, List.forall₂_same]
    intro d hd
    rcases List.mem_append.1 (hds.mem_iff.1 hd) with hT | hD
    · rw [inTileAt_outer ha hends hT (hTD d hT)]
      exact h1 d hT
    · rw [inTileAt_inner ha hD]
      obtain ⟨⟨j, hj⟩, -⟩ := h2 d hD
      have := h3 d hD
      have := Int.mul_nonneg (Int.le_of_lt hn) (Int.natCast_nonneg j)
      omega
  · intro hy
    obtain ⟨v, rfl⟩ := exists_map_eq hnd (by simpa using hy.length_eq.symm)
    rw [List.forall₂_map_left_iff, List.forall₂_map_right_iff, List.forall₂_same] at hy
    -- The tile of an index starts at the largest multiple of the edge that is not above it.
    refine ⟨v, fun d hd => hy d (hds.mem_iff.2 (by simp [hd])), fun d => n * (v d / n), v, fun d hd => ?_,
      fun d hd => ?_, List.map_congr_left fun d hd => ?_⟩
    · have h := hy d (hds.mem_iff.2 (by simp [hd]))
      have hle : n * (v d / n) ≤ v d := Int.mul_ediv_self_le (by omega)
      have hdiv := Int.ediv_nonneg h.1 (Int.le_of_lt hn)
      exact ⟨⟨(v d / n).toNat, by rw [Int.toNat_of_nonneg hdiv]⟩, Int.lt_of_le_of_lt hle h.2⟩
    · have h := hy d (hds.mem_iff.2 (by simp [hd]))
      have hlt := Int.lt_mul_ediv_self_add (x := v d) hn
      exact ⟨Int.mul_ediv_self_le (by omega), lt_min hlt h.2⟩
    · rcases List.mem_append.1 (hds.mem_iff.1 hd) with hT | hD
      · rw [inTileAt_outer ha hends hT (hTD d hT)]
      · rw [inTileAt_inner ha hD]

theorem tiledRecords_nodup (hn : 0 < n) : (tiledRecords k (indicesOf k D ds) extent n T D ends τ).Nodup := by
  have hTD : ∀ d ∈ T, d ∉ D := fun d hT hD => (List.nodup_append.1 (hds.nodup_iff.1 hnd)).2.2 d hT d hD rfl
  have hread : ∀ {d v τ}, d ∈ D → readAt ds d (indicesOf k D ds (inTileAt k extent n D ends v τ)) = v d := by
    intro d v τ hD
    rw [indicesOf, readAt_map (hds.mem_iff.2 (by simp [hD])), inTileAt_inner ha hD]
  refine nested_assigned_nodup ha.outer (fun d _ => whole_stable 1 d) (fun _ _ _ => Int.one_pos)
    (fun v1 _ => ?_) (fun d hd => ⟨readAt ds d, fun v1 _ y hy => ?_⟩)
  · refine nested_assigned_nodup ha.controlling (fun d _ => whole_stable n d) (fun _ _ _ => hn)
      (fun v2 h2 => ?_) (fun d hd => ⟨fun y => n * (readAt ds d y / n), fun v2 h2 y hy => ?_⟩)
    · refine nested_assigned_nodup ha.inner (fun d hd => inside_stable ha hd) (fun _ _ _ => Int.one_pos)
        (fun _ _ => List.nodup_singleton _) (fun d hd => ⟨readAt ds d, fun v3 _ y hy => ?_⟩)
      rw [List.mem_singleton.1 hy]
      exact hread hd
    · obtain ⟨v3, h3, rfl⟩ := (mem_inTile ha hends).1 hy
      have h3 := h3 d hd
      rw [assignAll_mem ha.controlling hd] at h3
      obtain ⟨j, hj, -⟩ := (mem_range hn).1 (h2 d hd)
      simp only [whole, Int.zero_add] at hj
      have htile : v3 d / n = j := by
        rw [Int.ediv_eq_iff_of_pos hn]
        constructor <;> grind
      simp only [hread hd, htile, hj]
  · obtain ⟨v2, v3, -, -, rfl⟩ := (mem_tiles ha hends hn).1 hy
    rw [indicesOf, readAt_map (hds.mem_iff.2 (by simp [hd])), inTileAt_outer ha hends hd (hTD d hd)]

theorem tiledRecords_perm (hn : 0 < n) :
    (tiledRecords k (indicesOf k D ds) extent n T D ends τ).Perm (tuples (ds.map extent)) :=
  (List.perm_ext_iff_of_nodup (tiledRecords_nodup ha hends hds hnd hn) (tuples_nodup _)).2 fun _ =>
    mem_tiledRecords ha hends hds hnd hn

end Coverage

end ArrayKernel.Running
