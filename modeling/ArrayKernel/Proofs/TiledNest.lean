import ArrayKernel.Proofs.Dimensions
import ArrayKernel.Proofs.LoopMarks
import ArrayKernel.Proofs.TileParts

/-! # The loops that tiling makes -/

namespace ArrayKernel.Ast

open Running

variable {s s₀ t u : Session} {o edge body : Operand} {id fid shape tile : NodeId} {g : Region}
variable {cs : List Counter} {s₂ s₃ : Session} {β : Type} {items : List Operand} {visit : Operand → Action Operand}
variable {first sp : Nat} {x : Name} {d : Int} {order : Layout.Order} {D : List Int} {b : Layout.Bounds}
variable {r : Layout.Nest} {k : Int → Counter}
variable {dims : Layout.DimRange} {s₁ : Session} {F : Function} {σ : Specializer}

/-! ## Tiled nests -/

structure Tiles where
  outer : Int → Counter
  controlling : Int → Counter
  inner : Int → Counter
  limit : Int → Limit
  tile : NodeId
  root : NodeId

/-- Which counters there are: outside the tiles over `U`, and over `D` in steps of a tile and inside a
tile. -/
structure Tiles.Counts (k : Tiles) (first : Nat) (s : Session) (x : Name) (edge : Operand)
    (U D : List Int) : Prop where
  outer : ∀ d ∈ U, CountsDim s first .absent (fun _ o => o = .absent) (IsExtent x d) d (k.outer d)
  controlling : ∀ d ∈ D, CountsDim s first edge (fun _ o => o = .absent) (IsExtent x d) d (k.controlling d)
  limit : ∀ d ∈ D, (k.limit d).In first s x edge d (k.controlling d).temp
  inner : ∀ d ∈ D, CountsDim s first .absent (fun _ o => o = .node (k.controlling d).temp)
    (fun _ o => o = .node (k.limit d).temp) d (k.inner d)

/-- How the loops hang together. A tile first computes its ends. -/
structure Tiles.Hangs (k : Tiles) (first : Nat) (s : Session) (body : Operand) (U D ends : List Int) :
    Prop where
  new : first ≤ k.tile.index ∧ first ≤ k.root.index
  loops : ∃ inside inner outer c vs ps, Chain first s body (D.map k.inner) inside ∧
    s.form? k.tile = some (.sequence (.group (ends.map (fun d => .node (k.limit d).statement) ++ [inside]))) ∧
    Chain first s (.node k.tile) (D.map k.controlling) inner ∧
    Chain first s inner (U.map k.outer) outer ∧ s.form? k.root = some (.parallelLoop outer c vs ps)

structure Tiles.Apart (k : Tiles) (U D : List Int) : Prop where
  outer : (U.map fun d => (k.outer d).temp).Nodup
  controlling : (D.map fun d => (k.controlling d).temp).Nodup
  limit : (D.map fun d => (k.limit d).temp).Nodup
  inner : (D.map fun d => (k.inner d).temp).Nodup
  controlling_limit : ∀ d ∈ D, ∀ d' ∈ D, (k.controlling d).temp ≠ (k.limit d').temp
  controlling_inner : ∀ d ∈ D, ∀ d' ∈ D, (k.controlling d).temp ≠ (k.inner d').temp
  limit_inner : ∀ d ∈ D, ∀ d' ∈ D, (k.limit d).temp ≠ (k.inner d').temp
  outer_others : ∀ d ∈ U, ∀ d' ∈ D, (k.outer d).temp ≠ (k.controlling d').temp ∧
    (k.outer d).temp ≠ (k.limit d').temp ∧ (k.outer d).temp ≠ (k.inner d').temp

variable {tiles : Tiles} {T ends : List Int}

theorem Steady.tileCounts (h : Steady s t) (hk : tiles.Counts first s x edge T D) :
    tiles.Counts first t x edge T D where
  outer d hd := h.countsDim id h.extent (hk.outer d hd)
  controlling d hd := h.countsDim id h.extent (hk.controlling d hd)
  limit d hd := h.limit (hk.limit d hd)
  inner d hd := h.countsDim id id (hk.inner d hd)

theorem Dressed.hangs (h : Dressed first s t) (hk : tiles.Hangs first s body T D ends) :
    tiles.Hangs first t body T D ends where
  new := hk.new
  loops := by
    obtain ⟨inside, inner, outer, c, vs, ps, h1, h2, h3, h4, h5⟩ := hk.loops
    obtain ⟨_, htile, hdress⟩ := h.form? h2
    rw [dress_other (by simp)] at hdress
    subst hdress
    exact ⟨inside, inner, outer, c, vs, ps, h.chain h1, htile, h.chain h3, h.chain h4, h.steady.form? h5 rfl⟩

/-! ## Making the parts -/

theorem NestOf.earlier {first' : Nat} (h : NestOf s first order D body b L U r cs)
    (hle : first' ≤ first) : NestOf s first' order D body b L U r cs :=
  { h with counts := h.counts.imp fun _ _ hc => hc.imp hle id id }

theorem NestOf.noted (specializers : Array Specializer)
    (h : NestOf s first order D body b (fun _ _ o => o = .absent) (fun d => IsExtent x d) r cs) :
    NestOf { s with specializers } first order D body b (fun _ _ o => o = .absent) (fun d => IsExtent x d) r cs :=
  have hs := (Keeps.noted (X := fun _ => False) specializers)
  { h with
    chain := fun first => hs.chain (h.chain first)
    counts := h.counts.imp fun _ _ hc => hs.steady.countsDim id hs.steady.extent hc }

theorem controlling_spec {s4 : Session} {h1 h2 : Specializer → Specializer}
    (hs1 : s₁ = { s with specializers := s.specializers.modify sp h1 }) (hedge : Runs (Layout.blocksize sp) s₁ edge s₂)
    (htile : Runs Layout.emptyTile s₂ o s₃)
    (hnest : Runs (Layout.nest order o dims { Layout.wholeShape (.node fid) with step := edge }) s₃ r s4)
    (ht : t = { s4 with specializers := s4.specializers.modify sp h2 }) (hs : Site g fid shape x s) (hd : dims.dims.Nodup) :
    g.HasAll t edge ∧ IsEdge s.settings t edge ∧ t.specializers[sp]? = s.specializers[sp]?.map (h2 ∘ h1) ∧
      ∃ tile k items, o = .node tile ∧ HasTile g s tile items t ∧
      NestOf t s.nodes.size order dims.dims (.node tile) { Layout.wholeShape (.node fid) with step := edge }
        (fun _ _ o => o = .absent) (fun d => IsExtent x d) r (dims.dims.map k) := by
  have hx1 : Extends g s s₁ := by
    rw [hs1]
    exact Extends.refl.noted _
  replace hs := hx1.site hs
  obtain ⟨g1, he, hedge'⟩ := blocksize_spec hedge hs.start_le
  simp only [Layout.emptyTile, runs_bind] at htile
  obtain ⟨zero, s5, hz, hseq⟩ := htile
  obtain ⟨g2, _, hm2⟩ := constant_spec hz
  have hzero := hm2.hasAll (Nat.le_trans hs.start_le g1.size_le)
  obtain ⟨g3, hm3⟩ := sequence_spec hseq fun y hy => by
    rw [List.mem_singleton.1 hy]
    exact hzero
  have g13 := (g1.trans g2).trans g3
  have htile := hm3.hasAll (Nat.le_trans hs.start_le (g1.trans g2).size_le)
  obtain ⟨tile, rfl, hle, hf, -⟩ := hm3
  have hs3 := g13.extends.site hs
  obtain ⟨g4, k, hk⟩ := nest_by_dim hnest hs3.shaped Grows.shaped (fun d _ => wholeShape_ok edge) hs3 htile
    (he.mono (g2.trans g3).size_le) hd
  have g24 := (g2.trans g3).trans g4
  subst ht hs1
  refine ⟨he.mono g24.size_le, g24.steady.isEdge hedge', ?_, tile, k, _, rfl, ⟨(hx1.grows (g13.trans g4)).noted _,
    Nat.le_trans (g1.trans g2).size_le hle, g4.form? hf⟩, (hk.earlier g13.size_le).noted _⟩
  simp [(g13.trans g4).specializers, Array.getElem?_modify, Function.comp_def]

theorem Tiles.apart_of_lt {n1 n2 : Nat} (ho : (T.map fun d => (tiles.outer d).temp).Nodup)
    (hc : (D.map fun d => (tiles.controlling d).temp).Nodup)
    (hl : (D.map fun d => (tiles.limit d).temp).Nodup) (hi : (D.map fun d => (tiles.inner d).temp).Nodup)
    (h1 : ∀ d ∈ D, (tiles.controlling d).temp.index < n1) (h2 : ∀ d ∈ D, n1 ≤ (tiles.limit d).temp.index)
    (h3 : ∀ d ∈ D, ∀ d' ∈ D, (tiles.limit d).temp.index < (tiles.inner d').temp.index)
    (h4 : ∀ d ∈ D, (tiles.inner d).temp.index < n2) (h5 : ∀ d ∈ T, n2 ≤ (tiles.outer d).temp.index) :
    tiles.Apart T D := by
  have hne : ∀ {a b : NodeId}, a.index < b.index → a ≠ b := fun hlt heq => by rw [heq] at hlt; omega
  have hcl : ∀ d ∈ D, ∀ d' ∈ D, (tiles.controlling d).temp.index < (tiles.limit d').temp.index :=
    fun d hd d' hd' => Nat.lt_of_lt_of_le (h1 d hd) (h2 d' hd')
  have hio : ∀ d ∈ T, ∀ d' ∈ D, (tiles.inner d').temp.index < (tiles.outer d).temp.index :=
    fun d hd d' hd' => Nat.lt_of_lt_of_le (h4 d' hd') (h5 d hd)
  exact ⟨ho, hc, hl, hi, fun d hd d' hd' => hne (hcl d hd d' hd'),
    fun d hd d' hd' => hne (Nat.lt_trans (hcl d hd d' hd') (h3 d' hd' d' hd')),
    fun d hd d' hd' => hne (h3 d hd d' hd'),
    fun d hd d' hd' => ⟨(hne (Nat.lt_trans (Nat.lt_trans (hcl d' hd' d' hd') (h3 d' hd' d' hd'))
        (hio d hd d' hd'))).symm,
      (hne (Nat.lt_trans (h3 d' hd' d' hd') (hio d hd d' hd'))).symm, (hne (hio d hd d' hd')).symm⟩⟩

/-- A tile that is filled: it computes its ends, and then runs the loops inside it. -/
structure Filled (s t : Session) (x : Name) (edge body : Operand) (order : Layout.Order) (tile : NodeId)
    (D ends : List Int) (controlling : Int → Counter) (lim : Int → Limit) (inner : Int → Counter)
    (r : Layout.Nest) : Prop where
  keeps : Keeps (· = tile) s t
  form? : ∀ {id f}, id ≠ tile → s.form? id = some f → t.form? id = some f
  size_le : s.nodes.size ≤ t.nodes.size
  limit : ∀ d ∈ D, (lim d).In s.nodes.size t x edge d (controlling d).temp
  counts : ∀ d ∈ D, CountsDim t s.nodes.size .absent (fun _ o => o = .node (controlling d).temp)
    (fun _ o => o = .node (lim d).temp) d (inner d)
  limit_nodup : (D.map fun d => (lim d).temp).Nodup
  inner_nodup : (D.map fun d => (inner d).temp).Nodup
  limit_inner : ∀ d ∈ D, ∀ d' ∈ D, (lim d).temp.index < (inner d').temp.index
  loops : r.loops = (D.map fun d => .node (inner d).loop).reverse
  indices : r.indices = order.arrange (D.map fun d => .node (inner d).temp)
  chain : ∀ first, Chain first t body (D.map inner) r.statement
  filled : t.form? tile = some (.sequence (.group (ends.map (fun d => .node (lim d).statement) ++ [r.statement])))

section Filling

variable {act : Int → Action β} {pack : Int → Operand → β} {limits : List β} {r₁ : Unit}
variable (hclear : Runs (Layout.clear (.node tile)) s r₁ s₁)
variable (hact : ∀ d ∈ ends, ∀ s r t, Runs (act d) s r t → ∃ o, r = pack d o ∧
  Runs (Layout.tileLimit (.node fid) (.node tile) edge d (.node (k d).temp)) s o t)
variable (hlimits : Runs (ends.mapM act) s₁ limits s₂) (ht : HasTile g s₀ tile items s) (hs : Site g fid shape x s₀)
variable (hedge : g.HasAll s edge)

include hclear hact hlimits ht hs hedge

theorem tileEnds_spec (hk : ∀ d ∈ ends, (k d).In s₀.nodes.size s) (hends : ends.Nodup) :
    ∃ lim : Int → Limit, HasTile g s₀ tile (ends.map fun d => .node (lim d).statement) s₂ ∧ Refills tile s s₂ ∧
      limits = ends.map (fun d => pack d (.node (lim d).temp)) ∧
      (∀ d ∈ ends, (lim d).In s.nodes.size s₂ x edge d (k d).temp) ∧
      (ends.map fun d => (lim d).temp).Nodup := by
  simp only [Layout.clear, runs_bind, runs_identity, runs_updateForm] at hclear
  obtain ⟨_, s₁, ⟨hid, rfl⟩, rfl⟩ := hclear
  cases hid
  have hnone : ∀ o ∈ ([] : List Operand), g.HasAll s₁ o := by simp
  obtain ⟨ht1, hr1⟩ := ht.refill hnone
  obtain ⟨ls, ht2, hr2, hrs, hls, hpair⟩ := limits_spec hact hlimits ht1 hs
    (fun d hd => ⟨.inr (Nat.le_trans hs.start_le (hk d hd).new.2.1), by simpa using (hk d hd).temp_lt⟩)
    (fun d hd => hr1.keeps.steady.scalar (hk d hd).temp_type) (hedge.mono hr1.size_le)
  obtain ⟨lim, rfl⟩ := exists_map_eq hends hls.length_eq
  refine ⟨lim, by simpa [Function.comp_def] using ht2, hr1.trans hr2, ?_, fun d hd => ?_, ?_⟩
  · rw [hrs, List.zipWith_map_right, List.zipWith_self]
  · exact (List.forall₂_same.1 (List.forall₂_map_right_iff.1 hls) d hd).earlier hr1.size_le
  · have hnodup : ((ends.map lim).map (·.temp)).Nodup :=
      List.Pairwise.map _ (fun l l' hlt heq => by rw [heq] at hlt; omega) hpair
    simpa [Function.comp_def] using hnodup

theorem fill_spec {r2 : Unit} {notes : Array Specializer} (hnest : Runs (Layout.nest order body dims b) s₂ r s₃)
    (happend : Runs (appendTo (.node tile) r.statement) { s₃ with specializers := notes } r2 t)
    (hstep : b.step = .absent) (hlower : ∀ d ∈ dims.dims, b.lower d = pure (.node (k d).temp))
    (hupper : ∀ lim : Int → Limit, limits = ends.map (fun d => pack d (.node (lim d).temp)) →
      ∀ d ∈ dims.dims, b.upper d = pure (.node (lim d).temp))
    (hk : ∀ d ∈ dims.dims, (k d).In s₀.nodes.size s) (hbody : g.HasAll s body)
    (hne : dims.dims ≠ []) (hdims : dims.dims.Nodup) (hends : ends.Perm dims.dims) :
    Extends g s₀ t ∧ t.specializers = notes ∧ s₂.specializers = s.specializers ∧ s₃.specializers = s.specializers ∧
      ∃ lim inner, limits = ends.map (fun d => pack d (.node (lim d).temp)) ∧
        Filled s t x edge body order tile dims.dims ends k lim inner r := by
  obtain ⟨lim, ht2, hr2, hlim, hin, hnodup⟩ := tileEnds_spec hclear hact hlimits ht hs hedge
    (fun d hd => hk d (hends.mem_iff.1 hd)) (hends.nodup_iff.2 hdims)
  have hin' : ∀ d ∈ dims.dims, (lim d).In s.nodes.size s₂ x edge d (k d).temp :=
    fun d hd => hin d (hends.mem_iff.2 hd)
  have hs2 := ht2.grown.site hs
  have hstart : g.start ≤ s.nodes.size := (ht.grown.site hs).start_le
  obtain ⟨g3, inner, hn⟩ := nest_by_dim hnest
    (fun d hd => ⟨⟨.inr (Nat.le_trans hs.start_le (hk d hd).new.2.1),
        Nat.lt_of_lt_of_le (hk d hd).temp_lt hr2.size_le⟩,
      ⟨.inr (Nat.le_trans hstart (hin' d hd).new.1), (hin' d hd).temp_lt⟩, (hin' d hd).temp_type⟩)
    (fun hgr hI d hd => ⟨(hI d hd).1.mono hgr.size_le, (hI d hd).2.1.mono hgr.size_le,
      hgr.steady.scalar (hI d hd).2.2⟩)
    (fun d hd => given_ok hd (hlower d hd) (hupper lim hlim d hd)) hs2 (hbody.mono hr2.size_le)
    (by rw [hstep]; exact Region.hasAll_datum _) hdims
  have ht3 := ht2.grows g3
  obtain ⟨c, hc, hstmt, inside, hstands⟩ := chain_last (hn.chain 0) (by simpa using hne)
  have hinside : g.HasAll { s₃ with specializers := notes } r.statement := by
    rw [hstmt]
    obtain ⟨d, hd, rfl⟩ := List.mem_map.1 hc
    exact hstands.hasAll (Nat.le_trans hs2.start_le (hn.count hd).stored.new.1)
  obtain ⟨ht5, hr5⟩ := appendTo_spec happend ⟨ht3.grown.noted notes, ht3.new, ht3.form⟩ hinside
  have hkeeps : Keeps (· = tile) s₃ t := ⟨hr5.keeps.form?, hr5.keeps.type?⟩
  refine ⟨ht5.grown, hr5.specializers, hr2.specializers, g3.specializers.trans hr2.specializers, lim, inner, hlim, {
    keeps := (hr2.keeps.trans g3.keeps.weaken).trans hkeeps
    form? := fun hne hj => hr5.form? hne (g3.form? (hr2.form? hne hj))
    size_le := Nat.le_trans (Nat.le_trans hr2.size_le g3.size_le) hr5.size_le
    limit := fun d hd => hkeeps.steady.limit (g3.steady.limit (hin' d hd))
    counts := fun d hd => ?_
    limit_nodup := ((hends.map _).nodup_iff).1 hnodup
    inner_nodup := by simpa [Function.comp_def] using hn.temps_nodup
    limit_inner := fun d hd d' hd' => Nat.lt_of_lt_of_le (hin' d hd).temp_lt (hn.count hd').stored.new.2.1
    loops := by simpa [Function.comp_def] using hn.loops
    indices := by simpa [Function.comp_def] using hn.indices
    chain := fun first => hkeeps.chain (hn.chain first)
    filled := ht5.form }⟩
  refine hkeeps.steady.countsDim id id ?_
  rw [← hstep]
  exact (hn.count hd).imp hr2.size_le id fun ho => ho.1

end Filling

/-! ## Loops outside the tiles -/

theorem outer_spec {σ1 : Specializer} {c : Counter} {inside : Operand}
    (hnest : Runs (Layout.nest order (.node c.loop) dims (Layout.wholeShape (.node fid))) s r s₁)
    (hpar : Runs (Layout.parallelAboveThreshold sp r.statement) s₁ o t) (hx : Extends g s₀ s)
    (hK : Kernel g sp fid shape x F σ s₀) (hσ : s.specializers[sp]? = some σ1)
    (hf : σ1.function = some fid) (hd : dims.dims.Nodup) (hc : c.In s₀.nodes.size s)
    (hst : Stands 0 c s inside) :
    Grows g s t ∧ ∃ k root cond vs ps, o = .node root ∧ s.nodes.size ≤ root.index ∧ g.Has t root ∧
      t.form? root = some (.parallelLoop r.statement cond vs ps) ∧
      NestOf t s.nodes.size order dims.dims (.node c.loop) (Layout.wholeShape (.node fid))
        (fun _ _ o => o = .absent) (fun d => IsExtent x d) r (dims.dims.map k) := by
  have hs := hx.site hK.site
  obtain ⟨g1, k, hn⟩ := nest_by_dim hnest hs.shaped Grows.shaped (fun d _ => wholeShape_ok .absent) hs
    (hst.hasAll (Nat.le_trans hK.site.start_le hc.new.1)) (Region.hasAll_datum _) hd
  have hx1 := hx.grows g1
  have hs1 := hx1.site hK.site
  -- The outermost loop is one of the nest, or the loop it was to be put around.
  obtain ⟨c', hstmt, hin, inside', hst'⟩ : ∃ c : Counter, r.statement = .node c.loop ∧
      c.In s₀.nodes.size s₁ ∧ ∃ inside, Stands 0 c s₁ inside := by
    by_cases hnil : dims.dims = []
    · have hchain := hn.chain 0
      rw [hnil] at hchain
      exact ⟨c, hchain, g1.steady.counter hc, _, g1.keeps.stands hst⟩
    · obtain ⟨c', hc', hcs, hst'⟩ := chain_last (hn.chain 0) (by simpa using hnil)
      obtain ⟨d, hd, rfl⟩ := List.mem_map.1 hc'
      exact ⟨k d, hcs, (hn.count hd).stored.earlier hx.size_le, hst'⟩
  rw [hstmt] at hpar
  have hle : g.start ≤ s₀.nodes.size := hK.site.start_le
  have hloop := Region.hasAll_node.1 (hst'.hasAll (Nat.le_trans hle hin.new.1))
  obtain ⟨g2, ho, root, cond, vs, ps, rfl, hroot, hform⟩ := parallelAboveThreshold_spec hpar
    (by rw [g1.specializers]; exact hσ) hf (hx1.form? hK.function) hs1.start_le
    (fun o ho => (hK.total o ho).mono hx1.size_le) (hK.threshold.mono hx1.size_le) hloop hin
    ⟨.inr (Nat.le_trans hle hin.new.2.1), hin.temp_lt⟩ hst'
  refine ⟨g1.trans g2, k, root, cond, vs, ps, rfl, Nat.le_trans g1.size_le hroot,
    Region.hasAll_node.1 ho, by rw [hstmt]; exact hform, hn.grows g2 id g2.steady.extent⟩

/-! ## The whole nest -/

section Whole

variable {kc ki ko : Int → Counter} {lim : Int → Limit} {root : NodeId} {inner : Layout.Nest}

variable (h : Filled s t x edge body order tile D ends kc lim ki inner)

include h

theorem Filled.tileCounts (hk : Keeps (fun _ => False) t u) (hle : first ≤ s.nodes.size)
    (hc : ∀ d ∈ D, CountsDim t first edge (fun _ o => o = .absent) (IsExtent x d) d (kc d))
    (ho : ∀ d ∈ T, CountsDim u first .absent (fun _ o => o = .absent) (IsExtent x d) d (ko d)) :
    Tiles.Counts ⟨ko, kc, ki, lim, tile, root⟩ first u x edge T D where
  outer := ho
  controlling d hd := hk.steady.countsDim id hk.steady.extent (hc d hd)
  limit d hd := hk.steady.limit ((h.limit d hd).earlier hle)
  inner d hd := hk.steady.countsDim id id ((h.counts d hd).imp hle id id)

theorem Filled.hangs {middle out c vs ps : Operand} (hk : Keeps (fun _ => False) t u)
    (htile : first ≤ tile.index) (hroot : first ≤ root.index)
    (hc : Chain first t (.node tile) (D.map kc) middle) (ho : Chain first u middle (T.map ko) out)
    (hf : u.form? root = some (.parallelLoop out c vs ps)) :
    Tiles.Hangs ⟨ko, kc, ki, lim, tile, root⟩ first u body T D ends where
  new := ⟨htile, hroot⟩
  loops := by
    obtain ⟨_, hform, _, rfl, hsame⟩ := hk.form? h.filled
    rw [hsame not_false] at hform
    exact ⟨_, _, _, _, _, _, hk.chain (h.chain _), hform, hk.chain hc, ho, hf⟩

theorem Filled.apart (hc : (D.map fun d => (kc d).temp).Nodup) (hlt : ∀ d ∈ D, (kc d).temp.index < s.nodes.size)
    (ho : (T.map fun d => (ko d).temp).Nodup) (hge : ∀ d ∈ T, t.nodes.size ≤ (ko d).temp.index) :
    Tiles.Apart ⟨ko, kc, ki, lim, tile, root⟩ T D :=
  Tiles.apart_of_lt ho hc h.limit_nodup h.inner_nodup hlt (fun d hd => (h.limit d hd).new.1) h.limit_inner
    (fun d hd => (h.counts d hd).stored.temp_lt) hge

end Whole

/-! ## Both ways of tiling -/

/-- The session in which the loops of a tiled nest are there and the specializer comes to visit them. -/
structure Tiles.Stand (k : Tiles) (g : Region) (sp : Nat) (x : Name) (F : Function) (σ : Specializer)
    (body edge : Operand) (T D : List Int) (s u : Session) : Prop where
  counts : k.Counts s.nodes.size u x edge T D
  hangs : k.Hangs s.nodes.size u body T D (σ.scheme.order.arrange D)
  apart : k.Apart T D
  edge_is : IsEdge s.settings u edge
  root : g.Has u k.root
  closed : g.Closed u
  keeps : Keeps (fun _ => False) s u
  size_le : s.nodes.size ≤ u.nodes.size
  specializer : ∃ σ', u.specializers[sp]? = some σ' ∧ σ'.scheme = σ.scheme ∧ σ'.function = σ.function ∧
    σ'.indices = some ((ascending 0 F.ndim).map fun d =>
      .node (if d ∈ D then (k.inner d).temp else (k.outer d).temp))

theorem loops_new {loops : List Operand} (h : loops = (D.map fun d => .node (k d).loop).reverse)
    (hk : ∀ d ∈ D, first ≤ (k d).loop.index) : ∀ id, .node id ∈ loops → first ≤ id.index := by
  intro id hid
  simp only [h, List.mem_reverse, List.mem_map, Operand.node.injEq] at hid
  obtain ⟨d, hd, rfl⟩ := hid
  exact hk d hd

theorem tileTwo_spec (h : Runs (Layout.tileTwo sp visit body) s o t) (hK : Kernel g sp fid shape x F σ s)
    (hn : 2 ≤ F.ndim) (hbody : g.HasAll s body) :
    ∃ k edge u, Runs (visit (.node (k : Tiles).root)) u o t ∧
      k.Stand g sp x F σ body edge (σ.scheme.order.untiledDims F.ndim).dims
        (σ.scheme.order.tiledDims F.ndim).dims s u := by
  have hT : (σ.scheme.order.untiledDims F.ndim).dims.Nodup := by
    rw [← (arrange_perm σ.scheme.order _).nodup_iff, arrange_untiledDims _ hn]
    exact ascending_nodup _ _
  have hD : (σ.scheme.order.tiledDims F.ndim).dims.Nodup := by
    rw [← (arrange_perm σ.scheme.order _).nodup_iff, arrange_tiledDims]
    exact ascending_nodup _ _
  have hne : (σ.scheme.order.tiledDims F.ndim).dims ≠ [] := by
    intro hnil
    have := arrange_tiledDims σ.scheme.order F.ndim
    rw [hnil] at this
    cases hord : σ.scheme.order <;> simp [hord, Layout.Order.arrange, ascending] at this
  have hperm := arrange_perm σ.scheme.order (σ.scheme.order.tiledDims F.ndim).dims
  unfold Layout.tileTwo at h
  simp only [runs_bind, runs_identity, runs_specializer, runs_functionOf, runs_updateSpecializer] at h
  obtain ⟨_, _, hcur, _, _, ⟨rfl, rfl⟩, σ', _, ⟨hσ, rfl⟩, F', s, ⟨_, hid, hF, rfl⟩, h⟩ := h
  obtain ⟨_, s₁, hs1, edge, a1, hedge, h⟩ := h
  obtain ⟨tileO, a2, htile, ctl, a3, hctl, _, a4, ha4, _, b1, hclear, h⟩ := h
  obtain ⟨limits, b2, hlimits, inner, b3, hinner, _, b4, hb4, h⟩ := h
  obtain ⟨_, b5, happend, outer, b6, houter, statement, b7, hpar, _, b8, hb8, h⟩ := h
  obtain ⟨_, c1, hc1, _, c2, hc2, _, c3, hc3, h⟩ := h
  obtain ⟨_, c4, hc4, _, u, hu, hvisit⟩ := h
  obtain ⟨hcur', rfl⟩ := runs_currentFunction hK.specializer hK.at_work hcur
  cases hcur'
  cases hid
  cases hK.specializer.symm.trans hσ
  cases hK.function.symm.trans hF
  -- The controlling loops.
  obtain ⟨he, hedge', hsp4, tile, kc, items, rfl, ht, hnest⟩ := controlling_spec hs1 hedge htile hctl ha4 hK.site hD
  have hx4 := ht.grown
  rw [hK.specializer, Option.map_some] at hsp4
  -- Filling the tile.
  have hstarts : (σ.scheme.order.tiledDims F.ndim).sorted.zip ctl.indices =
      (σ.scheme.order.arrange (σ.scheme.order.tiledDims F.ndim).dims).map
        fun d => (d, Operand.node (kc d).temp) := by
    rw [hnest.indices, List.map_map, arrange_map, sorted_tiledDims, List.zip_map_right, List.zip, List.zipWith_self, List.map_map]
    rfl
  rw [hstarts] at hlimits hinner
  rw [List.mapM_map] at hlimits
  rw [hb4] at happend
  obtain ⟨hx5, hsp5, hsp2, hsp3, lim, ki, hlim, hfill⟩ := fill_spec hclear
    (fun d _ s r t h => by
      simp only [Function.comp, runs_bind, runs_pure] at h
      obtain ⟨o, _, ho, rfl, rfl⟩ := h
      exact ⟨o, rfl, ho⟩)
    hlimits ht hK.site he hinner happend rfl
    (fun d hd => by simp [lookup_pairs _ (hperm.mem_iff.2 hd)])
    (fun lim hlim d hd => by simp [hlim, lookup_pairs _ (hperm.mem_iff.2 hd)])
    (fun d hd => (hnest.count hd).stored) (hbody.mono hx4.size_le) hne hD hperm
  -- The loops outside the tiles.
  have hctlchain : ∀ first, Chain first b5 (.node tile)
      ((σ.scheme.order.tiledDims F.ndim).dims.map kc) ctl.statement :=
    fun first => hfill.keeps.chain (hnest.chain first)
  have hctlcount : ∀ d ∈ (σ.scheme.order.tiledDims F.ndim).dims, CountsDim b5 s.nodes.size edge
      (fun _ o => o = .absent) (IsExtent x d) d (kc d) := fun d hd =>
    hfill.keeps.steady.countsDim id hfill.keeps.steady.extent (hnest.count hd)
  obtain ⟨c, hc, hcstmt, _, hcst⟩ := chain_last (hctlchain 0) (by simpa using hne)
  obtain ⟨d0, hd0, rfl⟩ := List.mem_map.1 hc
  rw [hcstmt] at houter
  have hsp : b5.specializers[sp]? = some { σ with
      indices := some inner.indices, tiledIndices := some ctl.indices } := by
    simp [hsp5, hsp3, Array.getElem?_modify, hsp4]
  obtain ⟨g7, ko, root, cond, vs, ps, rfl, hroot, hrootg, hrootf, hn7⟩ := outer_spec houter hpar hx5 hK
    hsp hK.at_work hT (hctlcount d0 hd0).stored hcst
  have hx8 : Extends g s b8 := by
    rw [hb8]
    exact (hx5.grows g7).noted _
  have hn78 : Keeps (fun _ => False) b7 b8 := by
    rw [hb8]
    exact .noted _
  have hnewc := loops_new (hnest.loops.trans (by rw [List.map_map]; rfl)) fun d hd => (hnest.count hd).stored.new.1
  have hnewi := loops_new hfill.loops fun d hd => Nat.le_trans hx4.size_le (hfill.counts d hd).stored.new.1
  have hm : Remarked g s b8 c4 :=
    (((markAll_spec hc1 (fun _ => ⟨rfl, rfl, rfl, rfl, rfl, rfl⟩) hnewc).trans
      (markAll_spec hc2 (fun _ => ⟨rfl, rfl, rfl, rfl, rfl, rfl⟩) hnewi)).trans
      (setDims_spec hc3 hnewc)).trans (setDims_spec hc4 hnewi)
  have hgrown := hm.grown hx8
  rw [runs_updateFunction] at hu
  have hn4u : Keeps (fun _ => False) c4 u := by
    rw [hu]
    exact .onFunction
  have hn7u := (hn78.trans hm.keeps).trans hn4u
  have hn5u := g7.keeps.trans hn7u
  have hsize : c4.nodes.size = u.nodes.size := by rw [hu, size_alter]
  have hσu : u.specializers[sp]? = some { σ with
      indices := some ((ascending 0 F.ndim).map fun d => .node
        (if d ∈ (σ.scheme.order.tiledDims F.ndim).dims then (ki d).temp else (ko d).temp))
      tiledIndices := some ctl.indices } := by
    have hspecs : u.specializers = b8.specializers := by
      rw [hu]
      exact hm.specializers
    rw [hspecs, hb8]
    simp only [Array.getElem?_modify, g7.specializers, hsp, if_true, Option.map_some, Option.some.injEq]
    rw [hn7.indices, hfill.indices, List.map_map]
    exact congrArg (fun l => { σ with indices := some l, tiledIndices := some ctl.indices })
      (tiledIndices_eq σ.scheme.order hn (fun d => (ko d).temp) (fun d => (ki d).temp))
  refine ⟨⟨ko, kc, ki, lim, tile, root⟩, edge, u, hvisit, {
    counts := hfill.tileCounts hn5u hx4.size_le hctlcount fun d hd =>
      hn7u.steady.countsDim id hn7u.steady.extent ((hn7.count hd).imp hx5.size_le id id)
    hangs := hfill.hangs hn5u ht.new (Nat.le_trans hx5.size_le hroot) (hctlchain _)
      (by rw [hcstmt]; exact hn7u.chain (hn7.chain _)) (hn7u.steady.form? hrootf rfl)
    apart := hfill.apart (by simpa [Function.comp_def] using hnest.temps_nodup)
      (fun d hd => (hnest.count hd).stored.temp_lt)
      (by simpa [Function.comp_def] using hn7.temps_nodup) fun d hd => (hn7.count hd).stored.new.2.1
    edge_is := hn5u.steady.isEdge (hfill.keeps.steady.isEdge hedge')
    root := hrootg.mono (by rw [← hsize, hm.size, hb8])
    closed := by
      rw [hu]
      exact (hgrown.closed hK.closed).outside hK.outside
    keeps := hgrown.keeps.trans hn4u
    size_le := by rw [← hsize]; exact hgrown.size_le
    specializer := ⟨_, hσu, rfl, rfl, rfl⟩ }⟩

theorem tileAll_spec (h : Runs (Layout.tileAll sp visit body) s o t) (hK : Kernel g sp fid shape x F σ s)
    (hn : 1 ≤ F.ndim) (hbody : g.HasAll s body) :
    σ.scheme.isTiled = true ∧ ∃ k edge u, Runs (visit (.node (k : Tiles).root)) u o t ∧
      k.Stand g sp x F σ body edge [] (σ.scheme.order.dims F.ndim).dims s u := by
  have hasc := arrange_dims σ.scheme.order F.ndim
  have hperm := arrange_perm σ.scheme.order (σ.scheme.order.dims F.ndim).dims
  rw [hasc] at hperm
  have hD : (σ.scheme.order.dims F.ndim).dims.Nodup := hperm.nodup_iff.1 (ascending_nodup _ _)
  have hne : (σ.scheme.order.dims F.ndim).dims ≠ [] := fun hnil => by
    have := hperm.length_eq
    simp [hnil, ascending] at this
    omega
  unfold Layout.tileAll at h
  rw [runs_bind] at h
  obtain ⟨_, _, hspec, h⟩ := h
  obtain ⟨hσ0, hs⟩ := runs_specializer.1 hspec
  rw [hK.specializer] at hσ0
  cases hσ0
  rw [hs] at h
  split at h
  · simp [runs_throw] at h
  rename_i htiled
  simp only [runs_bind, runs_identity, runs_specializer, runs_functionOf, runs_updateSpecializer] at h
  obtain ⟨_, _, hcur, _, _, ⟨rfl, rfl⟩, σ', _, ⟨hσ, rfl⟩, F', s, ⟨_, hid, hF, rfl⟩, h⟩ := h
  obtain ⟨_, s₁, hs1, edge, a1, hedge, h⟩ := h
  obtain ⟨tileO, a2, htile, ctl, a3, hctl, _, a4, ha4, statement, a5, hpar, _, b1, hclear, h⟩ := h
  obtain ⟨limits, b2, hlimits, inner, b3, hinner, _, b4, hb4, h⟩ := h
  obtain ⟨_, b5, happend, _, u, hu, hvisit⟩ := h
  obtain ⟨hcur', rfl⟩ := runs_currentFunction hK.specializer hK.at_work hcur
  cases hcur'
  cases hid
  cases hK.specializer.symm.trans hσ
  cases hK.function.symm.trans hF
  -- The controlling loops.
  obtain ⟨he, hedge', hsp4, tile, kc, items, rfl, ht, hnest⟩ := controlling_spec hs1 hedge htile hctl ha4 hK.site hD
  have hx4 := ht.grown
  rw [hK.specializer, Option.map_some] at hsp4
  obtain ⟨c, hc, hcstmt, _, hcst⟩ := chain_last (hnest.chain 0) (by simpa using hne)
  obtain ⟨d0, hd0, rfl⟩ := List.mem_map.1 hc
  have hs4 := hx4.site hK.site
  have hin := (hnest.count hd0).stored
  have hle : g.start ≤ s.nodes.size := hK.site.start_le
  rw [hcstmt] at hpar
  obtain ⟨g5, hstmt, root, cond, vs, ps, rfl, hroot, hrootf⟩ := parallelAboveThreshold_spec hpar hsp4 hK.at_work
    (hx4.form? hK.function) hs4.start_le (fun o ho => (hK.total o ho).mono hx4.size_le)
    (hK.threshold.mono hx4.size_le) (Region.hasAll_node.1 (hcst.hasAll (Nat.le_trans hle hin.new.1))) hin
    ⟨.inr (Nat.le_trans hle hin.new.2.1), hin.temp_lt⟩ hcst
  have hx5 := hx4.grows g5
  -- Filling the tile.
  have hindices : ctl.indices = (ascending 0 F.ndim).map fun d => Operand.node (kc d).temp := by
    rw [hnest.indices, List.map_map, arrange_map, hasc]
    rfl
  rw [hindices] at hlimits hinner
  rw [zipIdx_ascending, List.mapM_map] at hlimits
  rw [hb4] at happend
  obtain ⟨hxb, hspb, -, hsp3, lim, ki, hlim, hfill⟩ := fill_spec hclear
    (fun d hd s r t h => ⟨r, rfl, by
      obtain ⟨h0, -⟩ := mem_ascending.1 hd
      simpa [Function.comp, Int.toNat_of_nonneg h0] using h⟩)
    hlimits (ht.grows g5) hK.site (he.mono g5.size_le) hinner happend rfl
    (fun d hd => by simp [getElem?_ascending _ (hperm.mem_iff.2 hd)])
    (fun lim hlim d hd => by simp [hlim, getElem?_ascending _ (hperm.mem_iff.2 hd)])
    (fun d hd => g5.steady.counter (hnest.count hd).stored) (hbody.mono hx5.size_le) hne hD hperm
  rw [runs_updateFunction] at hu
  have hnbu : Keeps (fun _ => False) b5 u := by
    rw [hu]
    exact .onFunction
  have hσu : u.specializers[sp]? = some { σ with
      indices := some inner.indices, tiledIndices := some ctl.indices } := by
    have hspecs : u.specializers = b5.specializers := by rw [hu]; rfl
    simp [hspecs, hspb, hsp3, g5.specializers, Array.getElem?_modify, hsp4]
  have h45 := g5.steady.trans hfill.keeps.steady
  refine ⟨by simpa using htiled, ⟨kc, kc, ki, lim, tile, root⟩, edge, u, hvisit, {
    counts := hfill.tileCounts hnbu hx5.size_le
      (fun d hd => h45.countsDim id h45.extent (hnest.count hd)) (by simp)
    hangs := by
      rw [hasc]
      exact hfill.hangs hnbu ht.new (Nat.le_trans hx4.size_le hroot)
        (hfill.keeps.chain (g5.keeps.chain (hnest.chain _))) rfl
        (hnbu.steady.form? (hfill.keeps.steady.form? (hcstmt ▸ hrootf) rfl) rfl)
    apart := hfill.apart (by simpa [Function.comp_def] using hnest.temps_nodup)
      (fun d hd => (g5.steady.counter (hnest.count hd).stored).temp_lt) (by simp) (by simp)
    edge_is := hnbu.steady.isEdge (h45.isEdge hedge')
    root := (Region.hasAll_node.1 hstmt).mono (Nat.le_trans hfill.size_le (by rw [hu, size_alter]))
    closed := by
      rw [hu]
      exact (hxb.closed hK.closed).outside hK.outside
    keeps := hxb.keeps.trans hnbu
    size_le := by
      rw [hu, size_alter]
      exact hxb.size_le
    specializer := ⟨_, hσu, rfl, rfl, ?_⟩ }⟩
  rw [hfill.indices, arrange_map, hasc]
  refine congrArg some (List.map_congr_left fun d hd => ?_)
  rw [if_pos (hperm.mem_iff.1 hd)]

end ArrayKernel.Ast
