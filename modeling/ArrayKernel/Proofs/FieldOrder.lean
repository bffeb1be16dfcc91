import ArrayKernel.Proofs.TypeEquality
import Mathlib.Algebra.Order.Ring.Rat
import Mathlib.Data.List.Nodup
import Mathlib.Data.List.Perm.Basic
import Mathlib.Data.Prod.Lex
import Mathlib.Data.String.Basic

/-!
# The order of unordered fields

Fields that are given without an order are sorted by decreasing key, and by name where keys are equal. Names are
distinct, so this leaves one order only: the struct does not depend on the order in which its fields were given.
-/

namespace ArrayKernel.CType

/-! ## Comparing two fields -/

/-- A field stands before another one by its larger key, or by its name if the keys are equal. -/
def Precedes (a b : String × CType) : Prop :=
  ∃ j k, sortKey a.2 = .ok j ∧ sortKey b.2 = .ok k ∧ (k.value < j.value ∨ j.value = k.value ∧ a.1 < b.1)

/-- What a field is compared by: keys from large to small, then names. -/
def place (k : Rank) (name : String) : ℚᵒᵈ ×ₗ String := toLex (.toDual k.value, name)

theorem place_lt_place {j k : Rank} {a b : String} :
    place j a < place k b ↔ k.value < j.value ∨ j.value = k.value ∧ a < b := by
  simp only [place, Prod.Lex.toLex_lt_toLex, OrderDual.toDual_lt_toDual, OrderDual.toDual_inj]

theorem Precedes.asymm {a b : String × CType} (h : Precedes a b) : ¬ Precedes b a := by
  obtain ⟨j, k, hj, hk, h⟩ := h
  rintro ⟨k', j', hk', hj', h'⟩
  obtain rfl : k = k' := Except.ok.inj (hk.symm.trans hk')
  obtain rfl : j = j' := Except.ok.inj (hj.symm.trans hj')
  exact lt_asymm (place_lt_place.2 h) (place_lt_place.2 h')

/-! ## Fields with a key -/

variable {fields fields' sorted : List (String × CType)}

def Sortable (fields : List (String × CType)) : Prop := ∀ f ∈ fields, ∃ k, sortKey f.2 = .ok k

theorem Sortable.perm (h : Sortable fields) (hperm : fields'.Perm fields) : Sortable fields' :=
  fun f hf => h f (hperm.mem_iff.1 hf)

theorem sortKeys_of_sortable (h : Sortable fields) : ∃ r, sortKeys fields = .ok r := by
  suffices hsum : ∀ total, ∃ r, sumKeys total fields = .ok r by
    simpa only [sortKeys] using hsum .zero
  induction fields with
  | nil => exact fun total => ⟨total, by rw [sumKeys]⟩
  | cons f rest ih =>
    intro total
    obtain ⟨k, hk⟩ := h f (by simp)
    obtain ⟨r, hr⟩ := ih (fun g hg => h g (by simp [hg])) (total.add k)
    refine ⟨r, ?_⟩
    rw [sumKeys, hk]
    exact hr

/-- Numbers with a rank, complex numbers, pointers, objects, and structs of these. -/
inductive Ranked : CType → Prop where
  | number {s : Scalar} {q : List String} {r : Rank} (h : (CType.scalar s q).isNumeric = true)
      (hr : s.rank = some r) : Ranked (.scalar s q)
  | complex {s p : Scalar} {q : List String} {r : Rank} (hr : p.rank = some r) : Ranked (.complex s p q)
  | pointer {b : CType} {q : List String} : Ranked (.pointer b q)
  | object {q : List String} : Ranked (.object q)
  | struct {fs : List (String × CType)} {name : Option String} {packed readonly : Bool}
      (h : ∀ f ∈ fs, Ranked f.2) : Ranked (.struct fs name packed readonly)

theorem Ranked.exists_sortKey {t : CType} (h : Ranked t) : ∃ k, sortKey t = .ok k := by
  induction h with
  | @number s q r h hr => exact ⟨r, by simp [sortKey, h, hr]⟩
  | @complex s p q r hr => exact ⟨r.double, by simp [sortKey, hr]⟩
  | pointer | object => exact ⟨.ofInt 8, by rw [sortKey]⟩
  | @struct fs name packed readonly _ ih =>
    obtain ⟨k, hk⟩ := sortKeys_of_sortable ih
    exact ⟨k, by rw [sortKey, hk]⟩

/-! ## Buckets -/

/-- The fields so far are in the buckets, those of one key in one bucket. -/
structure Bucketed (buckets : Buckets) (fields : List (String × CType)) : Prop where
  apart : buckets.Pairwise fun a b => a.1.value ≠ b.1.value
  fields_perm : (buckets.flatMap (·.2)).Perm fields
  keyed : ∀ b ∈ buckets, ∀ f ∈ b.2, ∃ k, sortKey f.2 = .ok k ∧ k.value = b.1.value

variable {buckets : Buckets} {field : String × CType} {key : Rank}

theorem put_perm : ((buckets.put key field).flatMap (·.2)).Perm (buckets.flatMap (·.2) ++ [field]) := by
  induction buckets with
  | nil => exact .refl _
  | cons b rest ih =>
    rw [Buckets.put]
    split
    · simp only [List.flatMap_cons, List.append_assoc]
      exact List.perm_append_comm.append_left _
    · simpa only [List.flatMap_cons, List.append_assoc] using ih.append_left b.2

/-- No key is new but the one of the field. -/
theorem mem_put_key {b : Rank × List (String × CType)} (hb : b ∈ buckets.put key field) :
    b.1.value = key.value ∨ ∃ b' ∈ buckets, b'.1 = b.1 := by
  induction buckets with
  | nil =>
    rw [List.mem_singleton.1 hb]
    exact .inl rfl
  | cons c rest ih =>
    rw [Buckets.put] at hb
    split at hb
    · rcases List.mem_cons.1 hb with rfl | hb
      · exact .inr ⟨c, by simp, rfl⟩
      · exact .inr ⟨b, by simp [hb], rfl⟩
    · rcases List.mem_cons.1 hb with rfl | hb
      · exact .inr ⟨c, by simp, rfl⟩
      · exact (ih hb).imp_right fun ⟨b', hb', heq⟩ => ⟨b', by simp [hb'], heq⟩

theorem put_apart (h : buckets.Pairwise fun a b => a.1.value ≠ b.1.value) :
    (buckets.put key field).Pairwise fun a b => a.1.value ≠ b.1.value := by
  induction buckets with
  | nil => simp [Buckets.put]
  | cons c rest ih =>
    rw [List.pairwise_cons] at h
    rw [Buckets.put]
    split
    · exact List.pairwise_cons.2 h
    · rename_i hne
      refine List.pairwise_cons.2 ⟨fun b hb => ?_, ih h.2⟩
      rcases mem_put_key hb with heq | ⟨b', hb', heq⟩
      · rw [heq]
        simpa [Rank.same] using hne
      · rw [← heq]
        exact h.1 b' hb'

theorem put_keyed (hkey : sortKey field.2 = .ok key)
    (h : ∀ b ∈ buckets, ∀ f ∈ b.2, ∃ k, sortKey f.2 = .ok k ∧ k.value = b.1.value) :
    ∀ b ∈ buckets.put key field, ∀ f ∈ b.2, ∃ k, sortKey f.2 = .ok k ∧ k.value = b.1.value := by
  induction buckets with
  | nil =>
    intro b hb f hf
    rw [List.mem_singleton.1 hb] at hf ⊢
    rw [List.mem_singleton.1 hf]
    exact ⟨key, hkey, rfl⟩
  | cons c rest ih =>
    rw [List.forall_mem_cons] at h
    rw [Buckets.put]
    split
    · rename_i hsame
      refine List.forall_mem_cons.2 ⟨fun f hf => ?_, h.2⟩
      rcases List.mem_append.1 hf with hf | hf
      · exact h.1 f hf
      · rw [List.mem_singleton.1 hf]
        exact ⟨key, hkey, (by simpa [Rank.same] using hsame : c.1.value = key.value).symm⟩
    · exact List.forall_mem_cons.2 ⟨h.1, ih h.2⟩

theorem Bucketed.put (h : Bucketed buckets fields) (hkey : sortKey field.2 = .ok key) :
    Bucketed (buckets.put key field) (fields ++ [field]) :=
  ⟨put_apart h.apart, put_perm.trans (h.fields_perm.append_right _), put_keyed hkey h.keyed⟩

theorem bucketFields_bucketed (h : Sortable fields) : ∃ buckets, bucketFields fields = .ok buckets ∧ Bucketed buckets fields := by
  suffices hfold : ∀ {buckets : Buckets} {before : List (String × CType)}, Bucketed buckets before → ∃ buckets',
      fields.foldlM (fun buckets f => return Buckets.put (← sortKey f.2) f buckets : Buckets → _ → Except Fault Buckets) buckets =
        .ok buckets' ∧ Bucketed buckets' (before ++ fields) by
    simpa [bucketFields] using hfold ⟨.nil, .refl _, by simp⟩
  induction fields with
  | nil => exact fun {buckets before} hb => ⟨buckets, rfl, by simpa using hb⟩
  | cons f rest ih =>
    intro buckets before hb
    obtain ⟨k, hk⟩ := h f (by simp)
    obtain ⟨buckets', hfold, hb'⟩ := ih (fun g hg => h g (by simp [hg])) (hb.put hk)
    refine ⟨buckets', ?_, by simpa using hb'⟩
    rw [List.foldlM_cons, hk]
    exact hfold

/-! ## Sorting -/

/-- The buckets stand by decreasing keys, and no two have the same one. -/
theorem Bucketed.descending (h : Bucketed buckets fields) :
    (buckets.mergeSort fun a b => !a.1.below b.1).Pairwise fun a b => b.1.value < a.1.value := by
  have hle : ∀ a b : Rank × List (String × CType), (!a.1.below b.1) = true ↔ b.1.value ≤ a.1.value := by
    simp [Rank.below]
  have horder : (buckets.mergeSort fun a b => !a.1.below b.1).Pairwise fun a b => (!a.1.below b.1) = true :=
    List.pairwise_mergeSort (fun a b c hab hbc => by rw [hle] at *; exact hbc.trans hab)
    (fun a b => by simpa only [Bool.or_eq_true, hle] using (le_total a.1.value b.1.value).symm) buckets
  have hapart := (List.mergeSort_perm buckets fun a b => !a.1.below b.1).symm.pairwise h.apart Ne.symm
  exact (horder.and hapart).imp fun {a b} hab => lt_of_le_of_ne ((hle a b).1 hab.1) hab.2.symm

/-- Inside a bucket the names decide. -/
theorem pairwise_names {bucket : List (String × CType)} (hnames : (bucket.map Prod.fst).Nodup) :
    (bucket.mergeSort fun f g => !decide (g.1 < f.1)).Pairwise fun f g => f.1 < g.1 := by
  have hle : ∀ f g : String × CType, (!decide (g.1 < f.1)) = true ↔ f.1 ≤ g.1 := by
    simp only [Bool.not_eq_true', decide_eq_false_iff_not, not_lt, implies_true]
  have horder : (bucket.mergeSort fun f g => !decide (g.1 < f.1)).Pairwise fun f g => (!decide (g.1 < f.1)) = true :=
    List.pairwise_mergeSort (fun f g h hfg hgh => by rw [hle] at *; exact hfg.trans hgh)
    (fun f g => by simpa only [Bool.or_eq_true, hle] using le_total f.1 g.1) bucket
  have hdistinct := ((List.mergeSort_perm bucket fun f g => !decide (g.1 < f.1)).map Prod.fst).nodup_iff.2 hnames
  rw [List.Nodup, List.pairwise_map] at hdistinct
  exact (horder.and hdistinct).imp fun {f g} hfg => lt_of_le_of_ne ((hle f g).1 hfg.1) hfg.2

/-- Sorting gives each field once, in the order of the keys and names. -/
theorem sortFields_sorts (hnames : (fields.map Prod.fst).Nodup) (h : Sortable fields) :
    ∃ sorted, sortFields fields = .ok sorted ∧ sorted.Perm fields ∧ sorted.Pairwise Precedes := by
  obtain ⟨buckets, hbuckets, hb⟩ := bucketFields_bucketed h
  have hperm := List.mergeSort_perm buckets fun a b => !a.1.below b.1
  have hmem : ∀ {b : Rank × List (String × CType)} {f}, b ∈ buckets.mergeSort (fun a b => !a.1.below b.1) →
      f ∈ b.2.mergeSort (fun f g => !decide (g.1 < f.1)) → ∃ k, sortKey f.2 = .ok k ∧ k.value = b.1.value := fun hbm hf =>
    hb.keyed _ (hperm.mem_iff.1 hbm) _ (List.mem_mergeSort.1 hf)
  refine ⟨_, by rw [sortFields, hbuckets]; rfl, ?_, List.pairwise_flatMap.2 ⟨fun b hbm => ?_, ?_⟩⟩
  · refine .trans ?_ hb.fields_perm
    exact hperm.flatMap fun b _ => List.mergeSort_perm ..
  · have hbucket : (b.2.map Prod.fst).Nodup := by
      have hnodup := (hb.fields_perm.map Prod.fst).nodup_iff.2 hnames
      rw [List.map_flatMap] at hnodup
      exact (List.nodup_flatMap.1 hnodup).1 b (hperm.mem_iff.1 hbm)
    refine (pairwise_names hbucket).imp_of_mem fun {f g} hf hg hfg => ?_
    obtain ⟨j, hj, hjb⟩ := hmem hbm hf
    obtain ⟨k, hk, hkb⟩ := hmem hbm hg
    exact ⟨j, k, hj, hk, .inr ⟨hjb.trans hkb.symm, hfg⟩⟩
  · refine hb.descending.imp_of_mem fun {a b} ha hbm hab f hf g hg => ?_
    obtain ⟨j, hj, hja⟩ := hmem ha hf
    obtain ⟨k, hk, hkb⟩ := hmem hbm hg
    exact ⟨j, k, hj, hk, .inl (by rw [hja, hkb]; exact hab)⟩

/-- There is one such order, so the order in which the fields were given does not matter. -/
theorem sortFields_eq_ok (hnames : (fields.map Prod.fst).Nodup) (h : Sortable fields) (hperm : sorted.Perm fields)
    (horder : sorted.Pairwise Precedes) : sortFields fields = .ok sorted := by
  obtain ⟨sorted', hsort, hperm', horder'⟩ := sortFields_sorts hnames h
  have heq : sorted' = sorted :=
    (hperm'.trans hperm.symm).eq_of_pairwise (fun _ _ _ _ hab hba => absurd hba hab.asymm) horder' horder
  rw [hsort, heq]

/-! ## Structs -/

theorem structFrom_unordered (options : StructOptions) (hne : fields ≠ []) (h : Sortable fields)
    (hsort : sortFields fields = .ok sorted) (hperm : sorted.Perm fields) :
    structFrom [] fields options = .ok (.struct sorted options.name options.packed options.readonly) := by
  obtain ⟨r, hr⟩ := sortKeys_of_sortable (h.perm hperm)
  have hnonempty : fields.isEmpty = false := by simpa using hne
  simp only [structFrom, hnonempty, hsort]
  simp [structOf, hr, bind, Except.bind, pure, Except.pure]

/-- Unordered fields are sorted by decreasing key and, within one key, by name, each of them once. Whatever the
order in which the same fields are given, the struct is equal, shown by the same text and of the same rank. -/
theorem unordered_structs_canonical (options : StructOptions) (hnames : (fields.map Prod.fst).Nodup)
    (h : Sortable fields) :
    ∃ sorted, sortFields fields = .ok sorted ∧ sorted.Perm fields ∧ sorted.Pairwise Precedes ∧
      ∀ fields', fields'.Perm fields → sortFields fields' = .ok sorted ∧
        (fields ≠ [] → ∃ t u r, structFrom [] fields options = .ok t ∧ structFrom [] fields' options = .ok u ∧
          (t == u) = true ∧ (∀ declare, t.text declare = u.text declare) ∧ t.rank = .ok r ∧ u.rank = .ok r) := by
  obtain ⟨sorted, hsort, hsorted, horder⟩ := sortFields_sorts hnames h
  refine ⟨sorted, hsort, hsorted, horder, fun fields' hperm => ?_⟩
  have hsort' : sortFields fields' = .ok sorted :=
    sortFields_eq_ok ((hperm.map Prod.fst).nodup_iff.2 hnames) (h.perm hperm) (hsorted.trans hperm.symm) horder
  refine ⟨hsort', fun hne => ?_⟩
  have hne' : fields' ≠ [] := fun hnil => hne (by simpa [hnil] using hperm.symm)
  obtain ⟨r, hr⟩ := sortKeys_of_sortable (h.perm hsorted)
  have ht := structFrom_unordered options hne h hsort hsorted
  have hu := structFrom_unordered options hne' (h.perm hperm) hsort' (hsorted.trans hperm.symm)
  exact ⟨_, _, r, ht, hu, beq_refl _, fun _ => rfl, hr, hr⟩

/-- Two complex numbers and a struct of three numbers, whose key is the sum of theirs. -/
def mixedFields : List (String × CType) :=
  [("a", complex128), ("b", complex64), ("c", .struct [("f1", float64), ("f2", float64), ("f3", int32)] none false false)]

theorem mixed_fields_canonical : Sortable mixedFields ∧
    ∃ sorted, sortFields mixedFields = .ok sorted ∧ sorted.Pairwise Precedes ∧
      sortFields mixedFields.reverse = .ok sorted ∧
      ∃ t u r, structFrom [] mixedFields {} = .ok t ∧ structFrom [] mixedFields.reverse {} = .ok u ∧ (t == u) = true ∧
        t.rank = .ok r ∧ u.rank = .ok r := by
  have hkeys : Sortable mixedFields := by
    have hparts : ∀ f ∈ [("f1", float64), ("f2", float64), ("f3", int32)], Ranked f.2 := by
      have hfloat : Ranked float64 := .number rfl rfl
      have hint : Ranked int32 := .number rfl rfl
      simp [hfloat, hint]
    intro f hf
    simp only [mixedFields, List.mem_cons, List.not_mem_nil, or_false] at hf
    rcases hf with rfl | rfl | rfl
    · exact (Ranked.complex rfl).exists_sortKey
    · exact (Ranked.complex rfl).exists_sortKey
    · exact (Ranked.struct hparts).exists_sortKey
  obtain ⟨sorted, hsort, -, horder, hany⟩ := unordered_structs_canonical {} (by decide) hkeys
  obtain ⟨hreverse, hstruct⟩ := hany mixedFields.reverse mixedFields.reverse_perm
  obtain ⟨t, u, r, ht, hu, hsame, -, hrank⟩ := hstruct (by simp [mixedFields])
  exact ⟨hkeys, sorted, hsort, horder, hreverse, t, u, r, ht, hu, hsame, hrank⟩

end ArrayKernel.CType
