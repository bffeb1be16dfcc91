import ArrayKernel.CType.Slicing
import ArrayKernel.Proofs.OperandTypes

/-!
# Broadcast ranks

Promotion gives two arrays as many dimensions as the larger one has. The builder joins types: of two equal ones it takes
the left one and promotes nothing. Equality leaves out the number of dimensions, so the left operand then has to lead the
right one: it has at least as many dimensions, and is not contiguous if it has more.
-/

namespace ArrayKernel

namespace CType

variable {a b r t : CType} {ts us : List CType} {flag : CType → Bool}

/-! ## Layouts of several arrays -/

/-- A property of layouts that arrays share: the type has it exactly if all have it together with its number of
dimensions. -/
def Shared (flag : CType → Bool) (ts : List CType) (r : CType) : Prop :=
  flag r = true ↔ ∀ t ∈ ts, flag t = true ∧ t.ndim? = r.ndim?

structure Broadcasts (ts : List CType) (r : CType) : Prop where
  ndim : (ts.filterMap ndim?).max? = r.ndim?
  rows : Shared isCContig ts r
  columns : Shared isFContig ts r

theorem isArray_iff : t.isArray = true ↔ ∃ n, t.ndim? = some n := by
  cases t <;> simp [isArray, ndim?]

theorem Broadcasts.attained (h : Broadcasts ts r) (hr : r.isArray = true) : ∃ t ∈ ts, t.ndim? = r.ndim? := by
  obtain ⟨n, hn⟩ := isArray_iff.1 hr
  have hmax := h.ndim
  rw [hn] at hmax
  obtain ⟨t, ht, htn⟩ := List.mem_filterMap.1 (List.max?_mem hmax)
  exact ⟨t, ht, htn.trans hn.symm⟩

theorem Broadcasts.single (h : t.isArray = true) : Broadcasts [t] t := by
  obtain ⟨n, hn⟩ := isArray_iff.1 h
  exact ⟨by simp [hn], by simp [Shared], by simp [Shared]⟩

theorem shared_pair : Shared flag [a, b] r ↔
    (flag r = true ↔ (flag a = true ∧ a.ndim? = r.ndim?) ∧ flag b = true ∧ b.ndim? = r.ndim?) := by
  simp [Shared]

theorem Shared.append (ha : Shared flag ts a) (hb : Shared flag us b) (hr : Shared flag [a, b] r)
    (hts : ∃ t ∈ ts, t.ndim? = a.ndim?) (hus : ∃ t ∈ us, t.ndim? = b.ndim?) : Shared flag (ts ++ us) r := by
  have hpart : ∀ {ts : List CType} {a : CType}, Shared flag ts a → (∃ t ∈ ts, t.ndim? = a.ndim?) →
      (flag a = true ∧ a.ndim? = r.ndim? ↔ ∀ t ∈ ts, flag t = true ∧ t.ndim? = r.ndim?) := by
    rintro ts a ha ⟨t, ht, hta⟩
    constructor
    · rintro ⟨hflag, hdim⟩ u hu
      rw [← hdim]
      exact ha.1 hflag u hu
    · intro h
      have hdim := hta.symm.trans (h t ht).2
      exact ⟨ha.2 (by rwa [hdim]), hdim⟩
  unfold Shared
  rw [shared_pair.1 hr, hpart ha hts, hpart hb hus]
  exact List.forall_mem_append.symm

theorem Broadcasts.append (ha : Broadcasts ts a) (hb : Broadcasts us b) (hr : Broadcasts [a, b] r)
    (haa : a.isArray = true) (hba : b.isArray = true) : Broadcasts (ts ++ us) r := by
  have hts := ha.attained haa
  have hus := hb.attained hba
  refine ⟨?_, ha.rows.append hb.rows hr.rows hts hus, ha.columns.append hb.columns hr.columns hts hus⟩
  obtain ⟨n, hn⟩ := isArray_iff.1 haa
  obtain ⟨m, hm⟩ := isArray_iff.1 hba
  obtain ⟨hn', hle⟩ := List.max?_eq_some_iff.1 (ha.ndim.trans hn)
  obtain ⟨hm', hle'⟩ := List.max?_eq_some_iff.1 (hb.ndim.trans hm)
  have hmax : some (max n m) = r.ndim? := by simpa [hn, hm] using hr.ndim
  rw [← hmax, List.filterMap_append, List.max?_eq_some_iff]
  constructor
  · rcases max_choice n m with h | h
    · rw [h]
      exact List.mem_append_left _ hn'
    · rw [h]
      exact List.mem_append_right _ hm'
  · intro k hk
    rcases List.mem_append.1 hk with hk | hk
    · exact (hle k hk).trans (le_max_left n m)
    · exact (hle' k hk).trans (le_max_right n m)

/-! ## Two arrays -/

theorem promote_broadcasts (ha : a.isArray = true) (hb : b.isArray = true) (h : promote a b = .ok t) :
    t.isArray = true ∧ Broadcasts [a, b] t := by
  cases a with
  | array d n k f i bs =>
    cases b with
    | array d' m k' f' i' bs' =>
      rw [promote] at h
      cases he : promote d d' with
      | error => rw [he] at h; cases h
      | ok e =>
        rw [he] at h
        cases h
        refine ⟨rfl, by simp [joinArrays, ndim?], ?_, ?_⟩
        all_goals
          rw [shared_pair]
          simp only [joinArrays, isCContig, isFContig, ndim?]
          grind
    | _ => cases hb
  | _ => cases ha

/-- The first type can stand for both: it has at least as many dimensions, and is not contiguous if it has more. -/
def Leads (a b : CType) : Prop :=
  ∀ n m, a.ndim? = some n → b.ndim? = some m → m ≤ n ∧ (m < n → a.isCContig = false ∧ a.isFContig = false)

theorem equal_broadcasts (ha : a.isArray = true) (h : (a == b) = true) : Broadcasts [a, b] a ↔ Leads a b := by
  cases a with
  | array d n k f i bs =>
    cases b with
    | array d' m k' f' i' bs' =>
      have hsame : CType.same (.array d n k f i bs) (.array d' m k' f' i' bs') = true := h
      obtain ⟨⟨⟨-, rfl⟩, rfl⟩, -⟩ : ((_ ∧ k = k') ∧ f = f') ∧ _ := by simpa [CType.same] using hsame
      constructor
      · intro hall x y hx hy
        cases hx
        cases hy
        have hndim : max n m = n := by simpa [ndim?] using hall.ndim
        have hrows := shared_pair.1 hall.rows
        have hcolumns := shared_pair.1 hall.columns
        simp only [isCContig, isFContig, ndim?] at hrows hcolumns ⊢
        grind
      · intro hleads
        obtain ⟨hle, hflags⟩ := hleads n m rfl rfl
        simp only [isCContig, isFContig] at hflags
        refine ⟨by simp [ndim?, hle], ?_, ?_⟩
        all_goals
          rw [shared_pair]
          simp only [isCContig, isFContig, ndim?]
          grind
    | _ => cases h
  | _ => cases ha

theorem join_arrays (ha : a.isArray = true) (hb : b.isArray = true) (h : join a b = .ok r) :
    r.isArray = true ∧ (Broadcasts [a, b] r ↔ ((a == b) = true → Leads a b)) := by
  unfold join at h
  split at h
  · cases h
    rename_i heq
    rw [equal_broadcasts ha heq]
    exact ⟨ha, fun hleads _ => hleads, fun hleads => hleads heq⟩
  · rename_i hne
    obtain ⟨hr, hall⟩ := promote_broadcasts ha hb h
    exact ⟨hr, fun _ heq => absurd heq hne, fun _ => hall⟩

end CType

/-! ## Plans on arrays -/

namespace Ast

open CType

variable {s t : Session} {o : Operand} {plan : Plan} {c : CType} {n : Nat} {f : Operand → Action Operand}
variable {a : Action Operand} {op : Operation}

/-- An action makes an operand of the given type that is no constant, or fails with the given fault. -/
def MakesTyped (s : Session) (a : Action Operand) : Except Fault CType → Prop
  | .ok c => ∃ o t, Runs a s o t ∧ Within s t ∧ HasType t o c ∧ t.constant? o = none
  | .error e => ∃ t, a.runOn s = (.error e, t)

theorem Operation.build_makesTyped {l r : Operand} {a b : CType} (hl : HasType s l a) (hr : HasType s r b)
    (hlc : s.constant? l = none) (hrc : s.constant? r = none) : MakesTyped s (op.build l r) (a.join b) := by
  have hleft : op.droppedLeft?.any (isSame · (s.constant? l)) = false := by
    rw [hlc]
    cases op <;> rfl
  have hright : isSame op.droppedRight (s.constant? r) = false := by rw [hrc]; rfl
  cases hc : a.join b with
  | error e => exact ⟨s, Operation.build_unjoined hl hr hleft hright hc⟩
  | ok c =>
    obtain ⟨o, t, hrun, hst, hmade⟩ := Operation.build_joined hl hr hleft hright hc
    exact ⟨o, t, hrun, hst, hmade.hasType, hmade.constant?⟩

theorem MakesTyped.of_runs {e : Except Fault CType}
    (h : Runs a s o t) (hst : Within s t) (hf : MakesTyped t (f o) e) : MakesTyped s (a >>= f) e := by
  have hbind : (a >>= f).runOn s = (f o).runOn t := by rw [runOn_bind, h]
  cases e with
  | error e =>
    obtain ⟨u, hu⟩ := hf
    exact ⟨u, hbind.trans hu⟩
  | ok c =>
    obtain ⟨o', u, hrun, htu, hty, hconst⟩ := hf
    exact ⟨o', u, hbind.trans hrun, hst.trans htu, hty, hconst⟩

theorem MakesTyped.of_error {e : Fault} (h : MakesTyped s a (.error e)) :
    MakesTyped s (a >>= f) (.error e) := by
  obtain ⟨t, ht⟩ := h
  exact ⟨t, by rw [runOn_bind, ht]⟩

namespace Plan

def types (s : Session) : Plan → List CType
  | given o => ((typeOf o).runOn s).1.toOption.toList
  | apply _ lhs rhs => lhs.types s ++ rhs.types s

def joined (s : Session) : Plan → Except Fault CType
  | given o => ((typeOf o).runOn s).1
  | apply _ lhs rhs => do (← lhs.joined s).join (← rhs.joined s)

def OfArrays (s : Session) : Plan → Prop
  | given o => s.constant? o = none ∧ ∃ ty, HasType s o ty ∧ ty.isArray = true
  | apply _ lhs rhs => lhs.OfArrays s ∧ rhs.OfArrays s

/-- Where an operation has operands of equal types, the left one leads the right one. -/
def Led (s : Session) : Plan → Prop
  | given _ => True
  | apply _ lhs rhs => lhs.Led s ∧ rhs.Led s ∧
    ∀ a b, lhs.joined s = .ok a → rhs.joined s = .ok b → (a == b) = true → a.Leads b

theorem joined_apply {lhs rhs : Plan} (h : (apply op lhs rhs).joined s = .ok c) :
    ∃ a b, lhs.joined s = .ok a ∧ rhs.joined s = .ok b ∧ a.join b = .ok c := by
  unfold joined at h
  cases hl : lhs.joined s with
  | error => rw [hl] at h; cases h
  | ok a =>
    cases hr : rhs.joined s with
    | error => rw [hl, hr] at h; cases h
    | ok b =>
      rw [hl, hr] at h
      exact ⟨a, b, rfl, rfl, h⟩

theorem joined_broadcasts (hplan : plan.OfArrays s) (hc : plan.joined s = .ok c) :
    c.isArray = true ∧ (plan.Led s → Broadcasts (plan.types s) c) := by
  induction plan generalizing c with
  | given o =>
    obtain ⟨-, ty, hty, harray⟩ := hplan
    rw [joined, hty.typeOf_runOn] at hc
    cases hc
    rw [types, hty.typeOf_runOn]
    exact ⟨harray, fun _ => .single harray⟩
  | apply op lhs rhs ihl ihr =>
    obtain ⟨a, b, ha, hb, hjoin⟩ := joined_apply hc
    obtain ⟨haa, hts⟩ := ihl hplan.1 ha
    obtain ⟨hba, hus⟩ := ihr hplan.2 hb
    obtain ⟨hca, hpair⟩ := join_arrays haa hba hjoin
    refine ⟨hca, fun hled => ?_⟩
    exact (hts hled.1).append (hus hled.2.1) (hpair.2 (hled.2.2 a b ha hb)) haa hba

theorem led_of_same_rank (hplan : plan.OfArrays s) (hsame : ∀ ty ∈ plan.types s, ty.ndim? = some n) : plan.Led s := by
  induction plan with
  | given o => trivial
  | apply op lhs rhs ihl ihr =>
    have hleft : ∀ ty ∈ lhs.types s, ty.ndim? = some n := fun ty hty => hsame ty (List.mem_append_left _ hty)
    have hright : ∀ ty ∈ rhs.types s, ty.ndim? = some n := fun ty hty => hsame ty (List.mem_append_right _ hty)
    have hledl := ihl hplan.1 hleft
    have hledr := ihr hplan.2 hright
    refine ⟨hledl, hledr, fun a b ha hb _ x y hx hy => ?_⟩
    obtain ⟨haa, hts⟩ := joined_broadcasts hplan.1 ha
    obtain ⟨hba, hus⟩ := joined_broadcasts hplan.2 hb
    obtain ⟨ty, hty, hrank⟩ := (hts hledl).attained haa
    obtain ⟨ty', hty', hrank'⟩ := (hus hledr).attained hba
    obtain rfl : n = x := Option.some.inj ((hleft ty hty).symm.trans (hrank.trans hx))
    obtain rfl : n = y := Option.some.inj ((hright ty' hty').symm.trans (hrank'.trans hy))
    exact ⟨le_refl n, fun hlt => absurd hlt (lt_irrefl n)⟩

theorem build_makesTyped (hplan : plan.OfArrays s) (hst : Within s t) : MakesTyped t plan.build (plan.joined s) := by
  -- The operands keep their types in the sessions in between, since these only grow.
  induction plan generalizing t with
  | given o =>
    obtain ⟨hconst, ty, hty, -⟩ := hplan
    rw [joined, hty.typeOf_runOn]
    exact ⟨o, t, rfl, .refl t, hty.within hst, (hty.constant?_within hst).trans hconst⟩
  | apply op lhs rhs ihl ihr =>
    have hl := ihl hplan.1 hst
    unfold build joined
    cases ha : lhs.joined s with
    | error e => exact (ha ▸ hl).of_error
    | ok a =>
      rw [ha] at hl
      obtain ⟨l, t1, hl, ht1, hla, hlc⟩ := hl
      refine .of_runs hl ht1 ?_
      have hr := ihr hplan.2 (hst.trans ht1)
      cases hb : rhs.joined s with
      | error e => exact (hb ▸ hr).of_error
      | ok b =>
        rw [hb] at hr
        obtain ⟨r, t2, hr, ht2, hrb, hrc⟩ := hr
        refine .of_runs hr ht2 ?_
        exact op.build_makesTyped (hla.within ht2) hrb ((hla.constant?_within ht2).trans hlc) hrc

end Plan

/-- Promotion broadcasts every two arrays that it is defined on. Joining them is defined too, and broadcasts them
exactly if the left one leads the right one where their types are equal. The operand that is built for a plan on arrays
has the joined type of the plan: it broadcasts all operands, in whatever order they are combined, if the left operand
leads in each operation on equal types, and this holds of itself where all have the same number of dimensions. -/
theorem joining_broadcasts_iff_led (s : Session) :
    (∀ a b t : CType, a.isArray = true → b.isArray = true → promote a b = .ok t → Broadcasts [a, b] t ∧
      ∃ r, a.join b = .ok r ∧ r.isArray = true ∧ (Broadcasts [a, b] r ↔ ((a == b) = true → a.Leads b))) ∧
    ∀ plan : Plan, plan.OfArrays s → (∀ e, plan.joined s = .error e → ∃ t, plan.build.runOn s = (.error e, t)) ∧
      (∀ c, plan.joined s = .ok c → (∃ o t, Runs plan.build s o t ∧ HasType t o c) ∧ c.isArray = true ∧
        (plan.Led s → Broadcasts (plan.types s) c)) ∧
      ∀ n, (∀ ty ∈ plan.types s, ty.ndim? = some n) → plan.Led s := by
  refine ⟨fun a b t ha hb ht => ⟨(promote_broadcasts ha hb ht).2, ?_⟩, fun plan hplan => ⟨fun e he => ?_,
    fun c hc => ⟨?_, plan.joined_broadcasts hplan hc⟩, fun n => plan.led_of_same_rank hplan⟩⟩
  · have hdefined : ∃ r, a.join b = .ok r := by
      unfold join
      split
      · exact ⟨a, rfl⟩
      · exact ⟨t, ht⟩
    obtain ⟨r, hr⟩ := hdefined
    exact ⟨r, hr, join_arrays ha hb hr⟩
  · have hmakes := plan.build_makesTyped hplan (.refl s)
    rwa [he] at hmakes
  · have hmakes := plan.build_makesTyped hplan (.refl s)
    rw [hc] at hmakes
    obtain ⟨o, t, hrun, -, hty, -⟩ := hmakes
    exact ⟨o, t, hrun, hty⟩

def solids : Session where
  nodes :=
    #[{ form := .var { role := .plain, name := .ofString "x" }, type := some (arrayOf float64 1 false false),
        position := .unknown },
      { form := .var { role := .plain, name := .ofString "y" }, type := some (arrayOf float64 2 false false),
        position := .unknown },
      { form := .var { role := .plain, name := .ofString "z" }, type := some (arrayOf float32 3 false false),
        position := .unknown }]

/-- The vector is added to the matrix, which leads it, and the cube is multiplied by the sum. -/
def scaledCube : Plan :=
  .apply .product (.given (.node ⟨2⟩)) (.apply .sum (.given (.node ⟨1⟩)) (.given (.node ⟨0⟩)))

theorem scaled_cube_broadcasts :
    Broadcasts [arrayOf float64 1 false false, arrayOf float32 2 true false] (arrayOf float64 2 false false) ∧
    ∃ o t c, Runs scaledCube.build solids o t ∧ HasType t o c ∧ c.ndim? = some 3 ∧
      Broadcasts [arrayOf float32 3 false false, arrayOf float64 2 false false, arrayOf float64 1 false false] c := by
  obtain ⟨hpairs, hplans⟩ := joining_broadcasts_iff_led solids
  have harrays : scaledCube.OfArrays solids :=
    ⟨⟨rfl, _, ⟨_, rfl, rfl⟩, rfl⟩, ⟨rfl, _, ⟨_, rfl, rfl⟩, rfl⟩, rfl, _, ⟨_, rfl, rfl⟩, rfl⟩
  have hled : scaledCube.Led solids := by
    refine ⟨trivial, ⟨trivial, trivial, fun a b ha hb _ n m hn hm => ?_⟩, fun a b ha hb heq => ?_⟩
    · cases ha
      cases hb
      cases hn
      cases hm
      exact ⟨by decide, fun _ => ⟨rfl, rfl⟩⟩
    · cases ha
      cases hb
      cases heq
  obtain ⟨⟨o, t, hrun, hty⟩, -, hall⟩ := (hplans scaledCube harrays).2.1 _ rfl
  exact ⟨(hpairs _ _ _ rfl rfl rfl).1, o, t, _, hrun, hty, rfl, hall hled⟩

/-- A vector before a matrix of the same elements makes a vector of their sum, and a contiguous one if both are contiguous.
Promotion makes a matrix of them. -/
theorem vector_before_matrix :
    (arrayOf float64 1 false false).join (arrayOf float64 2 false false) = .ok (arrayOf float64 1 false false) ∧
    (arrayOf float64 1 true false).join (arrayOf float64 2 true false) = .ok (arrayOf float64 1 true false) ∧
    promote (arrayOf float64 1 false false) (arrayOf float64 2 false false) = .ok (arrayOf float64 2 false false) ∧
    ∃ o t, Runs (Build.add (.node ⟨0⟩) (.node ⟨1⟩)) solids o t ∧ HasType t o (arrayOf float64 1 false false) :=
  ⟨rfl, rfl, rfl, _, _, rfl, _, rfl, rfl⟩

end Ast

end ArrayKernel
