import ArrayKernel.Tiling.TileSize
import Mathlib.Data.Rat.Floor
import Mathlib.Tactic.Linarith
import Mathlib.Tactic.Positivity

/-!
# The tile that is chosen

Over exact numbers every array has tiles to try, and the tile that is chosen is not empty and lies within a tile
of each array. The search keeps the last common part it found: where a tile shares nothing, that part is taken
again, and it fits because it did so before.
-/

namespace ArrayKernel.Tiling

variable {cache row column rest area p q : Rat}

/-! ## Exact numbers -/

theorem div_exact (hq : 0 < q) : Measure.div p q = .ok (p / q) := if_neg hq.ne'

def remainder (p q : Rat) : Rat := p - q * (p / q).floor

theorem mod_exact (hq : 0 < q) : Measure.mod p q = .ok (remainder p q) := if_neg hq.ne'

theorem remainder_nonneg (hq : 0 < q) : 0 ≤ remainder p q := by
  have hfloor : q * (p / q).floor ≤ q * (p / q) := mul_le_mul_of_nonneg_left (Rat.floor_le _) hq.le
  rw [mul_div_cancel₀ p hq.ne'] at hfloor
  exact sub_nonneg.2 hfloor

theorem remainder_lt (hq : 0 < q) : remainder p q < q := by
  have hfloor : q * (p / q - 1) < q * (p / q).floor := mul_lt_mul_of_pos_left Rat.lt_floor hq
  rw [mul_sub, mul_div_cancel₀ p hq.ne'] at hfloor
  unfold remainder
  linarith

theorem remainder_lt_half (hq : 0 < q) (hp : q ≤ p) : remainder p q < p / 2 := by
  have hone : ((1 : Int) : Rat) ≤ (p / q).floor := by
    exact_mod_cast Rat.le_floor_iff.2 (by simpa using (one_le_div hq).2 hp)
  have hless : q * 1 ≤ q * (p / q).floor := mul_le_mul_of_nonneg_left (by simpa using hone) hq.le
  have hlt : remainder p q < q := remainder_lt hq
  unfold remainder at *
  linarith

theorem floor_nonneg (hp : 0 ≤ p) : (0 : Rat) ≤ p.floor := by
  exact_mod_cast Rat.le_floor_iff.2 (by simpa using hp)

theorem truncateRat_nonneg (hp : 0 ≤ p) : (0 : Rat) ≤ truncateRat p := by
  rw [truncateRat, if_neg hp.not_gt]
  exact floor_nonneg hp

/-! ## The tiles of an array -/

theorem rowsOf_nonneg (hcolumn : 0 < column) (hcache : 0 < cache) (hrow : 0 < row) :
    ∃ rows, rowsOf column cache row = .ok rows ∧ 0 ≤ rows := by
  have hrest : 0 ≤ remainder cache row := remainder_nonneg hrow
  have hdifference : 0 < row - remainder cache row := sub_pos.2 (remainder_lt hrow)
  have hgap : 0 ≤ remainder row (row - remainder cache row) := remainder_nonneg hdifference
  unfold rowsOf
  simp only [div_exact hrow, mod_exact hrow, bind, Except.bind, Measure.sub, div_exact hdifference,
    mod_exact hdifference, div_exact hcolumn, Measure.floor, Measure.mul, Measure.add, Measure.truncate]
  split
  · exact ⟨_, rfl, by positivity⟩
  split
  · exact ⟨_, rfl, by simp only [Measure.ofInt]; positivity⟩
  have hwide := floor_nonneg (div_pos hdifference hcolumn).le
  have hnarrow := floor_nonneg (div_nonneg hgap hcolumn.le)
  have hagain := floor_nonneg (div_nonneg hrest hdifference.le)
  refine ⟨_, rfl, truncateRat_nonneg ?_⟩
  positivity

def NonNeg (tiles : List (Rat × Rat)) : Prop := ∀ c ∈ tiles, 0 ≤ c.1 ∧ 0 ≤ c.2

def Tried (cache row : Rat) (steps : Nat) (column rest : Rat) : Prop :=
  ∃ tiles, furtherTiles cache row steps column rest = .ok tiles ∧ NonNeg tiles

theorem tried_succ {steps : Nat} (hcache : 0 < cache) (hrow : 0 < row) (hrest : 0 ≤ rest)
    (hnext : 4 < column → 0 < rest → Tried cache row steps rest (remainder column rest)) :
    Tried cache row (steps + 1) column rest := by
  unfold Tried furtherTiles
  split
  next hgoes =>
    simp only [Measure.below, Measure.same, Measure.ofInt, Bool.and_eq_true, decide_eq_true_eq,
      Bool.not_eq_true', beq_eq_false_iff_ne] at hgoes
    have hpos : 0 < rest := lt_of_le_of_ne hrest (by simpa using hgoes.2.symm)
    obtain ⟨tiles, htiles, hnonneg⟩ := hnext (by simpa using hgoes.1) hpos
    obtain ⟨rows, hrows, hle⟩ := rowsOf_nonneg hpos hcache hrow
    simp only [mod_exact hpos, hrows, htiles, bind, Except.bind, pure, Except.pure]
    refine ⟨_, rfl, ?_⟩
    intro c hc
    rcases List.mem_cons.1 hc with rfl | hc
    · exact ⟨hle, hpos.le⟩
    · exact hnonneg c hc
  next => exact ⟨[], rfl, nofun⟩

/-- A remainder is halved in every second step, so the steps suffice. -/
theorem tried (hcache : 0 < cache) (hrow : 0 < row) {k steps : Nat} (hsteps : 2 * k < steps)
    (hcolumn : column ≤ 4 * 2 ^ k) (hrest : 0 ≤ rest) (hlt : rest < column) : Tried cache row steps column rest := by
  induction k generalizing steps column rest with
  | zero =>
    obtain ⟨n, rfl⟩ : ∃ n, steps = n + 1 := ⟨steps - 1, by omega⟩
    exact tried_succ hcache hrow hrest fun hwide => absurd hcolumn (by simpa using hwide)
  | succ k ih =>
    obtain ⟨n, rfl⟩ : ∃ n, steps = n + 1 + 1 := ⟨steps - 2, by omega⟩
    refine tried_succ hcache hrow hrest fun _ hpos => ?_
    refine tried_succ hcache hrow (remainder_nonneg hpos) fun _ hpos' => ?_
    have hhalf := remainder_lt_half hpos hlt.le
    refine ih (by omega) ?_ (remainder_nonneg hpos') (remainder_lt hpos')
    rw [pow_succ] at hcolumn
    linarith

/-- Tiles to choose from: the first of them is not empty. -/
structure Offered (tiles : List (Rat × Rat)) : Prop where
  nonneg : NonNeg tiles
  first : ∃ c ∈ tiles.head?, 0 < c.1 ∧ 0 < c.2

theorem Offered.swap {tiles : List (Rat × Rat)} (h : Offered tiles) :
    Offered (tiles.map fun (x, y) => (y, x)) where
  nonneg c hc := by
    obtain ⟨d, hd, rfl⟩ := List.mem_map.1 hc
    exact (h.nonneg d hd).symm
  first := by
    obtain ⟨c, hc, hpos⟩ := h.first
    exact ⟨c.swap, by simp only [List.head?_map, hc.out]; rfl, hpos.symm⟩

/-- An array of at least two dimensions, with items of a size and a stride that is positive. -/
structure Footprint.Spread (f : Footprint) : Prop where
  plane : 2 ≤ f.strides.length
  itemsize : 0 < f.itemsize
  widest : ∃ w, largest? f.strides = some w ∧ 0 < w

theorem candidates_offered {f : Footprint} (hcache : 0 < cache) (hf : f.Spread) :
    ∃ tiles, candidates cache f = .ok tiles ∧ Offered tiles := by
  obtain ⟨w, hw, hpos⟩ := hf.widest
  have hsize : (1 : Rat) ≤ f.itemsize := by exact_mod_cast hf.itemsize
  have hwide : (0 : Rat) < w := by exact_mod_cast hpos
  have hrow : 0 < (w : Rat) / f.itemsize := by positivity
  have hbound : (w : Rat) / f.itemsize ≤ 4 * 2 ^ w.natAbs.log2 := by
    have hlog : (w : Rat) < 2 ^ (w.natAbs.log2 + 1) := by
      have hnat := Nat.lt_log2_self (n := w.natAbs)
      have habs : (w.natAbs : Rat) = w := by
        rw [Nat.cast_natAbs, abs_of_pos hpos]
      rw [← habs]
      exact_mod_cast hnat
    have hle := div_le_self hwide.le hsize
    rw [pow_succ] at hlog
    have htwo : (0 : Rat) < 2 ^ w.natAbs.log2 := by positivity
    linarith
  have hsteps : 2 * w.natAbs.log2 < 2 * w.natAbs.log2 + 8 := by omega
  obtain ⟨tiles, htiles, hnonneg⟩ := tried hcache hrow hsteps hbound (remainder_nonneg hrow)
    (remainder_lt (p := cache) hrow)
  have hoffered : Offered ((cache / (w / f.itemsize), (w : Rat) / f.itemsize) :: tiles) :=
    ⟨fun c hc => by
      rcases List.mem_cons.1 hc with rfl | hc
      · exact ⟨by positivity, hrow.le⟩
      · exact hnonneg c hc, _, rfl, by positivity, hrow⟩
  obtain ⟨a, b, strides, hstrides⟩ : ∃ a b strides, f.strides = a :: b :: strides := by
    match hs : f.strides, hf.plane with
    | a :: b :: strides, _ => exact ⟨a, b, strides, rfl⟩
  have hitem : 0 < (Measure.ofInt f.itemsize : Rat) := lt_of_lt_of_le one_pos hsize
  have hdiv : Measure.div (Measure.ofInt w) (Measure.ofInt f.itemsize) = .ok ((w : Rat) / f.itemsize) := div_exact hitem
  unfold candidates
  simp only [hw, hdiv, div_exact hrow, mod_exact hrow, htiles, bind, Except.bind, pure, Except.pure]
  rw [hstrides]
  refine ⟨_, rfl, ?_⟩
  split
  · exact hoffered.swap
  · exact hoffered

/-! ## The search -/

variable {tile : Rat × Rat} {last best : Option (Rat × Rat)} {tiles first : List (Rat × Rat)}
variable {sets others : List (List (Rat × Rat))}

def NotEmpty (t : Rat × Rat) : Prop := 0 < t.1 ∧ 0 < t.2

def Within (t c : Rat × Rat) : Prop := t.1 ≤ c.1 ∧ t.2 ≤ c.2

/-- A tile that can be used for all arrays. -/
structure Fits (sets : List (List (Rat × Rat))) (t : Rat × Rat) : Prop where
  notEmpty : NotEmpty t
  within : ∀ tiles ∈ sets, ∃ c ∈ tiles, Within t c

def common (t c : Rat × Rat) : Rat × Rat := (least t.1 c.1, least t.2 c.2)

theorem least_eq_min (p q : Rat) : least p q = min p q := by
  simp only [least, Measure.below, decide_eq_true_eq]
  rcases lt_or_ge q p with h | h
  · rw [if_pos h, min_eq_right h.le]
  · rw [if_neg h.not_gt, min_eq_left h]

theorem common_within (t c : Rat × Rat) : Within (common t c) t ∧ Within (common t c) c := by
  simp only [Within, common, least_eq_min]
  exact ⟨⟨min_le_left _ _, min_le_left _ _⟩, min_le_right _ _, min_le_right _ _⟩

def size (t : Rat × Rat) : Rat := t.1 * t.2

theorem notEmpty_of_size {t : Rat × Rat} (ht : 0 ≤ t.1 ∧ 0 ≤ t.2) (h : 0 < size t) : NotEmpty t := by
  refine ⟨lt_of_le_of_ne ht.1 ?_, lt_of_le_of_ne ht.2 ?_⟩
  all_goals
    intro hzero
    simp [size, ← hzero] at h

theorem common_nonneg {t c : Rat × Rat} (ht : 0 ≤ t.1 ∧ 0 ≤ t.2) (hc : 0 ≤ c.1 ∧ 0 ≤ c.2) :
    0 ≤ (common t c).1 ∧ 0 ≤ (common t c).2 := by
  simp only [common, least_eq_min, le_min_iff]
  exact ⟨⟨ht.1, hc.1⟩, ht.2, hc.2⟩

theorem shareWith_cases (tile : Rat × Rat) (area : Rat) (last : Option (Rat × Rat)) (tiles : List (Rat × Rat)) :
    ∃ r, shareWith tile area last tiles = .ok r ∧
      (r = last ∧ (∀ c ∈ tiles, size (common tile c) ≤ area) ∨
        ∃ c ∈ tiles, r = some (common tile c) ∧ area < size (common tile c)) := by
  induction tiles generalizing area last with
  | nil => exact ⟨last, rfl, .inl ⟨rfl, nofun⟩⟩
  | cons c tiles ih =>
    simp only [shareWith, Measure.mul, Measure.below, bind, Except.bind, decide_eq_true_eq]
    split
    next hlt =>
      obtain ⟨r, hr, ⟨rfl, -⟩ | ⟨d, hd, rfl, hd'⟩⟩ := ih (size (common tile c)) (some (common tile c))
      · exact ⟨_, hr, .inr ⟨c, by simp, rfl, hlt⟩⟩
      · exact ⟨_, hr, .inr ⟨d, by simp [hd], rfl, lt_trans hlt hd'⟩⟩
    next hle =>
      obtain ⟨r, hr, ⟨rfl, hall⟩ | ⟨d, hd, rfl, hd'⟩⟩ := ih area last
      · exact ⟨_, hr, .inl ⟨rfl, List.forall_mem_cons.2 ⟨not_lt.1 hle, hall⟩⟩⟩
      · exact ⟨_, hr, .inr ⟨d, by simp [hd], rfl, hd'⟩⟩

theorem Offered.notEmpty (h : Offered tiles) : ∃ c ∈ tiles, NotEmpty c := by
  obtain ⟨c, hc, hpos⟩ := h.first
  exact ⟨c, List.mem_of_mem_head? hc, hpos⟩

theorem size_pos {t : Rat × Rat} (h : NotEmpty t) : 0 < size t := mul_pos h.1 h.2

theorem NotEmpty.common {c : Rat × Rat} (ht : NotEmpty tile) (hc : NotEmpty c) : NotEmpty (common tile c) := by
  simp only [NotEmpty, Tiling.common, least_eq_min, lt_min_iff]
  exact ⟨⟨ht.1, hc.1⟩, ht.2, hc.2⟩

theorem NotEmpty.mono {t : Rat × Rat} (h : NotEmpty t) (hw : Within t tile) : NotEmpty tile :=
  ⟨lt_of_lt_of_le h.1 hw.1, lt_of_lt_of_le h.2 hw.2⟩

theorem Within.trans {t u c : Rat × Rat} (h : Within t u) (h' : Within u c) : Within t c :=
  ⟨h.1.trans h'.1, h.2.trans h'.2⟩

/-- A tile that is not empty shares something with every set of tiles. -/
theorem shareWithAll_notEmpty (hsets : ∀ tiles ∈ others, Offered tiles) (htile : NotEmpty tile)
    (last : Option (Rat × Rat)) : ∃ t l, shareWithAll tile last others = .ok (t, l) ∧ Fits others t ∧
      Within t tile ∧ (l = some t ∨ others = [] ∧ t = tile ∧ l = last) := by
  induction others generalizing tile last with
  | nil => exact ⟨tile, last, rfl, ⟨htile, nofun⟩, ⟨le_rfl, le_rfl⟩, .inr ⟨rfl, rfl, rfl⟩⟩
  | cons tiles others ih =>
    obtain ⟨htiles, hothers⟩ := List.forall_mem_cons.1 hsets
    obtain ⟨r, hr, ⟨-, hall⟩ | ⟨c, hc, rfl, hpos⟩⟩ := shareWith_cases tile (Measure.ofInt 0) last tiles
    · obtain ⟨c, hc, hfull⟩ := htiles.notEmpty
      exact absurd (hall c hc) (not_le.2 (size_pos (htile.common hfull)))
    · have hnonneg := common_nonneg ⟨htile.1.le, htile.2.le⟩ (htiles.nonneg c hc)
      obtain ⟨hleft, hright⟩ := common_within tile c
      obtain ⟨t, l, hrest, hfits, hwithin, hl⟩ := ih hothers (notEmpty_of_size hnonneg hpos) (some (common tile c))
      refine ⟨t, l, ?_, ⟨hfits.notEmpty, ?_⟩, hwithin.trans hleft, .inl ?_⟩
      · simp only [shareWithAll, hr, bind, Except.bind, hrest]
      · exact List.forall_mem_cons.2 ⟨⟨c, hc, hwithin.trans hright⟩, hfits.within⟩
      · rcases hl with hl | ⟨-, rfl, rfl⟩
        · exact hl
        · rfl

/-- A tile that is empty shares nothing, so the search goes on with the last common part. -/
theorem shareWithAll_stale {l : Rat × Rat} (htiles : Offered tiles)
    (htile : 0 ≤ tile.1 ∧ 0 ≤ tile.2) (hempty : ¬ NotEmpty tile) :
    shareWithAll tile (some l) (tiles :: others) = shareWithAll l (some l) others := by
  obtain ⟨r, hr, ⟨rfl, -⟩ | ⟨c, hc, rfl, hpos⟩⟩ := shareWith_cases tile (Measure.ofInt 0) (some l) tiles
  · simp only [shareWithAll, hr, bind, Except.bind]
  · have hnonneg := common_nonneg htile (htiles.nonneg c hc)
    exact absurd ((notEmpty_of_size hnonneg hpos).mono (common_within tile c).1) hempty

theorem fits_own (h : NotEmpty tile) (htile : tile ∈ first) : Fits [first] tile where
  notEmpty := h
  within := List.forall_mem_cons.2 ⟨⟨tile, htile, le_rfl, le_rfl⟩, nofun⟩

theorem shareWithAll_fits (hsets : ∀ tiles ∈ first :: others, Offered tiles) (htile : tile ∈ first)
    (hlast : NotEmpty tile ∨ others = [] ∨ ∃ l, last = some l ∧ Fits (first :: others) l) :
    ∃ t l, shareWithAll tile last others = .ok (t, l) ∧
      (t = tile ∧ others = [] ∨ Fits (first :: others) t ∧ (others = [] ∨ l = some t)) := by
  obtain ⟨hfirst, hothers⟩ := List.forall_mem_cons.1 hsets
  by_cases hfull : NotEmpty tile
  · obtain ⟨t, l, hrun, hfits, hwithin, hl⟩ := shareWithAll_notEmpty hothers hfull last
    refine ⟨t, l, hrun, .inr ⟨⟨hfits.notEmpty, ?_⟩, hl.symm.imp_left And.left⟩⟩
    exact List.forall_mem_cons.2 ⟨⟨tile, htile, hwithin⟩, hfits.within⟩
  · cases others with
    | nil => exact ⟨tile, last, rfl, .inl ⟨rfl, rfl⟩⟩
    | cons tiles others =>
      obtain ⟨l, rfl, hl⟩ := (hlast.resolve_left hfull).resolve_left (List.cons_ne_nil _ _)
      rw [shareWithAll_stale (List.forall_mem_cons.1 hothers).1 (hfirst.nonneg tile htile) hfull]
      obtain ⟨t, l', hrun, hfits, hwithin, hl'⟩ :=
        shareWithAll_notEmpty (List.forall_mem_cons.1 hothers).2 hl.notEmpty (some l)
      refine ⟨t, l', hrun, .inr ⟨⟨hfits.notEmpty, fun set hset => ?_⟩, .inr ?_⟩⟩
      · obtain ⟨c, hc, hlc⟩ := hl.within set hset
        exact ⟨c, hc, hwithin.trans hlc⟩
      · rcases hl' with hl' | ⟨-, rfl, rfl⟩
        · exact hl'
        · rfl

theorem largestOf_fits (hsets : ∀ tiles ∈ first :: others, Offered tiles) (htiles : ∀ c ∈ tiles, c ∈ first)
    (harea : 0 ≤ area) (hbest : Fits (first :: others) tile)
    (hlast : others = [] ∨ ∃ l, last = some l ∧ Fits (first :: others) l) :
    ∃ t, largestOf others area (some tile) last tiles = .ok (some t) ∧ Fits (first :: others) t := by
  induction tiles generalizing area tile last with
  | nil => exact ⟨tile, rfl, hbest⟩
  | cons c tiles ih =>
    obtain ⟨hc, hrest⟩ := List.forall_mem_cons.1 htiles
    obtain ⟨t, l, hrun, ht⟩ := shareWithAll_fits hsets hc (.inr hlast)
    simp only [largestOf, hrun, bind, Except.bind, Measure.mul, Measure.below, decide_eq_true_eq]
    have hlast' : others = [] ∨ ∃ l', l = some l' ∧ Fits (first :: others) l' := by
      rcases ht with ⟨-, hnil⟩ | ⟨hfits, hl⟩
      · exact .inl hnil
      · exact hl.imp_right fun hl => ⟨t, hl, hfits⟩
    split
    next hlarger =>
      refine ih hrest (harea.trans hlarger.le) ?_ hlast'
      rcases ht with ⟨rfl, rfl⟩ | ⟨hfits, -⟩
      · have hnonneg := (hsets first (by simp)).nonneg t hc
        exact fits_own (notEmpty_of_size hnonneg (lt_of_le_of_lt harea hlarger)) hc
      · exact hfits
    next => exact ih hrest harea hbest hlast'

theorem largestTile_fits (hsets : ∀ tiles ∈ first :: others, Offered tiles) :
    ∃ t, largestTile (first :: others) = .ok (some t) ∧ Fits (first :: others) t := by
  obtain ⟨hfirst, -⟩ := List.forall_mem_cons.1 hsets
  obtain ⟨c, hc, hfull⟩ := hfirst.first
  obtain ⟨rest, rfl⟩ : ∃ rest, first = c :: rest := List.head?_eq_some_iff.1 hc
  obtain ⟨t, l, hrun, ht⟩ := @shareWithAll_fits _ none _ _ hsets List.mem_cons_self (.inl hfull)
  have hfits : Fits ((c :: rest) :: others) t := by
    rcases ht with ⟨rfl, rfl⟩ | ⟨hfits, -⟩
    · exact fits_own hfull List.mem_cons_self
    · exact hfits
  have hlarger : ((0 : Int) : Rat) < t.1 * t.2 := size_pos hfits.notEmpty
  simp only [largestTile, largestOf, hrun, bind, Except.bind, Measure.mul, Measure.below, Measure.ofInt,
    decide_eq_true_eq]
  rw [if_pos hlarger]
  refine largestOf_fits hsets (fun d hd => List.mem_cons_of_mem c hd) (size_pos hfits.notEmpty).le hfits ?_
  rcases ht with ⟨-, hnil⟩ | ⟨hfits, hl⟩
  · exact .inl hnil
  · exact hl.imp_right fun hl => ⟨t, hl, hfits⟩

theorem mapM_candidates (hcache : 0 < cache) (fs : List Footprint) (hfs : ∀ f ∈ fs, f.Spread) :
    ∃ sets, fs.mapM (candidates cache) = .ok sets ∧ (∀ tiles ∈ sets, Offered tiles) ∧
      ∀ f ∈ fs, ∃ tiles ∈ sets, candidates cache f = .ok tiles := by
  induction fs with
  | nil => exact ⟨[], rfl, nofun, nofun⟩
  | cons f fs ih =>
    obtain ⟨hf, hrest⟩ := List.forall_mem_cons.1 hfs
    obtain ⟨tiles, htiles, hoffered⟩ := candidates_offered hcache hf
    obtain ⟨sets, hsets, hall, hown⟩ := ih hrest
    refine ⟨tiles :: sets, ?_, List.forall_mem_cons.2 ⟨hoffered, hall⟩, List.forall_mem_cons.2 ⟨?_, ?_⟩⟩
    · rw [List.mapM_cons, htiles, hsets]
      rfl
    · exact ⟨tiles, List.mem_cons_self, htiles⟩
    · intro g hg
      obtain ⟨tiles', hmem, htiles'⟩ := hown g hg
      exact ⟨tiles', List.mem_cons_of_mem _ hmem, htiles'⟩

/-- A tile is found for every cache and all arrays: it is not empty, and lies within a tile of each array. -/
theorem chosen_tile_fits (fs : List Footprint) (hne : fs ≠ []) (hfs : ∀ f ∈ fs, f.Spread) (hcache : 0 < cache) :
    ∃ sets t, fs.mapM (candidates cache) = .ok sets ∧ largestTile sets = .ok (some t) ∧ 0 < t.1 ∧ 0 < t.2 ∧
      ∀ f ∈ fs, ∃ tiles, candidates cache f = .ok tiles ∧ ∃ c ∈ tiles, t.1 ≤ c.1 ∧ t.2 ≤ c.2 := by
  obtain ⟨sets, hsets, hoffered, hown⟩ := mapM_candidates hcache fs hfs
  obtain ⟨f, hf⟩ := List.exists_mem_of_ne_nil fs hne
  obtain ⟨tiles, htiles, -⟩ := hown f hf
  obtain ⟨first, others, rfl⟩ := List.exists_cons_of_ne_nil (List.ne_nil_of_mem htiles)
  obtain ⟨t, ht, hfits⟩ := largestTile_fits hoffered
  refine ⟨_, t, hsets, ht, hfits.notEmpty.1, hfits.notEmpty.2, fun g hg => ?_⟩
  obtain ⟨tiles', hmem, htiles'⟩ := hown g hg
  exact ⟨tiles', htiles', hfits.within tiles' hmem⟩

/-- A square stored by rows and one stored by columns; the third tile of the latter has no rows. -/
theorem squares_tile_fits : ∃ (sets : List (List (Rat × Rat))) (t : Rat × Rat),
    [⟨[800, 4], 4⟩, ⟨[4, 800], 4⟩].mapM (candidates 1024) = .ok sets ∧ largestTile sets = .ok (some t) ∧
      0 < t.1 ∧ 0 < t.2 ∧ ∀ f ∈ ([⟨[800, 4], 4⟩, ⟨[4, 800], 4⟩] : List Footprint),
        ∃ tiles, candidates 1024 f = .ok tiles ∧ ∃ c ∈ tiles, t.1 ≤ c.1 ∧ t.2 ≤ c.2 := by
  refine chosen_tile_fits _ (by simp) ?_ (by norm_num)
  intro f hf
  rcases List.mem_pair.1 hf with rfl | rfl
  · exact ⟨by decide, by decide, 800, by decide, by decide⟩
  · exact ⟨by decide, by decide, 800, by decide, by decide⟩

end ArrayKernel.Tiling
