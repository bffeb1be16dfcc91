import ArrayKernel.Proofs.Keeping
import Mathlib.Algebra.Field.Rat
import Mathlib.Algebra.Order.Ring.Rat
import Mathlib.Tactic.FieldSimp
import Mathlib.Tactic.NormNum
import Mathlib.Tactic.Ring

/-!
# Arithmetic that the builder simplifies

The builder drops a zero from a sum or a difference and a one from a product or from under a quotient. What is
built for a plan has the value of the plan unless a difference is taken from a constant zero: then the sign is
dropped with it.
-/

namespace ArrayKernel

variable {op : Operation}

/-! ## Exact values -/

def Decimal.Binary.exactValue? : Binary → Option ℚ
  | .finite negative mantissa exponent =>
    some (((if negative then - (mantissa : Int) else mantissa : Int) : ℚ) * 2 ^ exponent)
  | _ => none

def Datum.exactValue? : Datum → Option ℚ
  | .bool b => some (if b then 1 else 0)
  | .int n => some n
  | .float x => (Decimal.Binary.ofFloat x).exactValue?
  | _ => none

theorem Decimal.exactValue?_of_compare {n : Int} {x : Float} (h : compareIntFloat n x = some .eq) :
    (Binary.ofFloat x).exactValue? = some (n : ℚ) := by
  unfold compareIntFloat at h
  split at h
  · cases h
  · rename_i negative _
    cases negative <;> cases h
  · rename_i negative mantissa exponent heq
    rw [heq, Binary.exactValue?]
    simp only [compareWithFinite, Option.some.injEq] at h
    generalize (if negative = true then - (mantissa : Int) else mantissa) = signed at h
    congr 1
    split at h
    · rename_i hexp
      obtain ⟨k, rfl⟩ := Int.eq_ofNat_of_zero_le hexp
      rw [Int.compare_eq_eq.1 h]
      push_cast
      simp
    · rename_i hexp
      obtain ⟨k, rfl⟩ := Int.exists_eq_neg_ofNat (Int.le_of_lt (Int.not_le.1 hexp))
      rw [← Int.compare_eq_eq.1 h]
      push_cast
      simp [zpow_neg]

theorem Datum.exactValue?_of_same {d : Datum} {n : Int} (h : (d == .int n) = true) : d.exactValue? = some (n : ℚ) := by
  have h : Datum.same d (.int n) = true := h
  cases d with
  | bool b =>
    obtain rfl : (if b then 1 else 0) = n := by simpa [Datum.same, sameNumber, numeric?, Numeric.same] using h
    cases b <;> simp [exactValue?]
  | int m =>
    obtain rfl : m = n := by simpa [Datum.same, sameNumber, numeric?, Numeric.same] using h
    rfl
  | float x =>
    have hx : Decimal.compareIntFloat n x = some .eq := by
      simpa [Datum.same, sameNumber, numeric?, Numeric.same] using h
    exact Decimal.exactValue?_of_compare hx
  | _ => cases h

/-- Numbers that operations are evaluated in: what constants stand for there, and what it is to divide. -/
structure Numbers (K : Type) [Ring K] where
  ofDatum : Datum → Option K
  div : K → K → K
  ofDatum_of_same : ∀ {d : Datum} {n : Int}, (d == .int n) = true → ofDatum d = some (n : K)
  div_one : ∀ a, div a 1 = a

def rationals : Numbers ℚ where
  ofDatum := Datum.exactValue?
  div a b := a / b
  ofDatum_of_same := Datum.exactValue?_of_same
  div_one a := by simp

def integers : Numbers Int where
  ofDatum d := d.exactValue?.bind fun q => if q.den = 1 then some q.num else none
  div := Int.tdiv
  ofDatum_of_same h := by simp [Datum.exactValue?_of_same h]
  div_one := Int.tdiv_one

namespace Ast

variable {K : Type} [Ring K] {A : Numbers K} {env : NodeId → K} {s t u : Session} {o l r : Operand} {a b c : K} {n : Int}

/-! ## Values of operands -/

inductive Operation where
  | sum
  | difference
  | product
  | quotient
  deriving Repr, DecidableEq

namespace Operation

def sign : Operation → String
  | sum => "+"
  | difference => "-"
  | product => "*"
  | quotient => "/"

def build (lhs rhs : Operand) : Operation → Action Operand
  | sum => Build.add lhs rhs
  | difference => Build.sub lhs rhs
  | product => Build.mul lhs rhs
  | quotient => Build.div lhs rhs

def Gives (A : Numbers K) (a b c : K) : Operation → Prop
  | sum => c = a + b
  | difference => c = a - b
  | product => c = a * b
  | quotient => b ≠ 0 ∧ c = A.div a b

theorem sign_injective {op' : Operation} (h : op.sign = op'.sign) : op = op' := by
  cases op <;> cases op' <;> first | rfl | exact absurd h (by decide)

theorem Gives.unique {c' : K} (h : op.Gives A a b c) (h' : op.Gives A a b c') : c = c' := by
  cases op with
  | sum | difference | product => exact Eq.trans h (Eq.symm h')
  | quotient => exact h.2.trans h'.2.symm

def droppedLeft? : Operation → Option Int
  | sum | difference => some 0
  | product => some 1
  | quotient => none

def droppedRight : Operation → Int
  | sum | difference => 0
  | product | quotient => 1

theorem Gives.droppedRight (h : op.Gives A a (op.droppedRight : K) c) : c = a := by
  cases op with
  | sum | difference | product => simpa [Gives, Operation.droppedRight] using h
  | quotient => simpa [Gives, Operation.droppedRight, A.div_one] using h.2

theorem Gives.droppedLeft (hop : op ≠ .difference) (hn : op.droppedLeft? = some n)
    (h : op.Gives A (n : K) b c) : c = b := by
  cases op with
  | difference => exact absurd rfl hop
  | sum | product =>
    cases hn
    simpa [Gives] using h
  | quotient => cases hn

end Operation

/-- A node that has a value of its own: neither a constant nor an operation on two operands. -/
def Form.isAtomic : Form → Bool
  | .constant _ => false
  | .binop op _ _ => op ∉ ["+", "-", "*", "/"]
  | _ => true

/-- An operand has a value, where other nodes than constants and operations have the values of an environment. -/
inductive Denotes (A : Numbers K) (env : NodeId → K) (s : Session) : Operand → K → Prop where
  | constant {id : NodeId} {d : Datum} {a : K} (hf : s.form? id = some (.constant d)) (hd : A.ofDatum d = some a) :
    Denotes A env s (.node id) a
  | operation {id : NodeId} {l r : Operand} {a b c : K} (op : Operation)
    (hf : s.form? id = some (.binop op.sign l r)) (hl : Denotes A env s l a) (hr : Denotes A env s r b)
    (hc : op.Gives A a b c) : Denotes A env s (.node id) c
  | atom {id : NodeId} {f : Form} (hf : s.form? id = some f) (ha : f.isAtomic = true) :
    Denotes A env s (.node id) (env id)

theorem isAtomic_operation (op : Operation) (l r : Operand) : (Form.binop op.sign l r).isAtomic = false := by
  cases op <;> rfl

theorem Denotes.unique (h : Denotes A env s o a) (h' : Denotes A env s o b) : a = b := by
  induction h generalizing b with
  | constant hf hd =>
    cases h' with
    | constant hf' hd' =>
      cases hf.symm.trans hf'
      exact Option.some.inj (hd.symm.trans hd')
    | operation op' hf' => cases hf.symm.trans hf'
    | atom hf' ha =>
      cases hf.symm.trans hf'
      cases ha
  | operation op hf _ _ hc ihl ihr =>
    cases h' with
    | constant hf' => cases hf.symm.trans hf'
    | operation op' hf' hl' hr' hc' =>
      obtain ⟨hop, rfl, rfl⟩ : op.sign = op'.sign ∧ _ ∧ _ := by simpa using hf.symm.trans hf'
      obtain rfl := Operation.sign_injective hop
      obtain rfl := ihl hl'
      obtain rfl := ihr hr'
      exact hc.unique hc'
    | atom hf' ha =>
      cases hf.symm.trans hf'
      rw [isAtomic_operation] at ha
      cases ha
  | atom hf ha =>
    cases h' with
    | constant hf' =>
      cases hf.symm.trans hf'
      cases ha
    | operation op' hf' =>
      cases hf.symm.trans hf'
      rw [isAtomic_operation] at ha
      cases ha
    | atom => rfl

theorem Denotes.eq_of_isNumber (h : Denotes A env s o a) (hn : IsNumber s o n) : a = n := by
  obtain ⟨id, d, rfl, hf, hd⟩ := hn
  cases h with
  | constant hf' hd' =>
    cases hf.symm.trans hf'
    exact Option.some.inj (hd'.symm.trans (A.ofDatum_of_same hd))
  | operation op hf' => cases hf.symm.trans hf'
  | atom hf' ha =>
    cases hf.symm.trans hf'
    cases ha

structure Enlarges (s t : Session) : Prop where
  form? : ∀ {id f}, s.form? id = some f → t.form? id = some f

theorem Enlarges.refl (s : Session) : Enlarges s s := ⟨id⟩

theorem Enlarges.trans (h : Enlarges s t) (h' : Enlarges t u) : Enlarges s u := ⟨fun hf => h'.form? (h.form? hf)⟩

theorem Enlarges.add (s : Session) (n : Node) : Enlarges s (s.add n) := ⟨form?_add_of_some⟩

theorem Denotes.enlarge (h : Denotes A env s o a) (hst : Enlarges s t) : Denotes A env t o a := by
  induction h with
  | constant hf hd => exact .constant (hst.form? hf) hd
  | operation op hf _ _ hc ihl ihr => exact .operation op (hst.form? hf) ihl ihr hc
  | atom hf ha => exact .atom (hst.form? hf) ha

/-! ## What is built -/

theorem Operation.build_cases (h : Runs (op.build l r) s o t) :
    (o = r ∧ t = s ∧ ∃ n, op.droppedLeft? = some n ∧ IsNumber s l n) ∨
    (o = l ∧ t = s ∧ (∀ n, op.droppedLeft? = some n → ¬ IsNumber s l n) ∧ IsNumber s r op.droppedRight) ∨
    ((∀ n, op.droppedLeft? = some n → ¬ IsNumber s l n) ∧ ¬ IsNumber s r op.droppedRight ∧
      ∃ ty, Runs (Build.create (.binop op.sign l r) (some ty)) s o t) := by
  have hleft : ∀ {m n : Int}, some m = some n → ¬ IsNumber s l m → ¬ IsNumber s l n := fun hn hl => by
    rwa [← Option.some.inj hn]
  cases op with
  | sum | difference =>
    rcases runs_add h with ⟨rfl, rfl, hl⟩ | ⟨rfl, rfl, hl, hr⟩ | ⟨hl, hr, hnew⟩
    · exact .inl ⟨rfl, rfl, 0, rfl, hl⟩
    · exact .inr (.inl ⟨rfl, rfl, fun n hn => hleft hn hl, hr⟩)
    · exact .inr (.inr ⟨fun n hn => hleft hn hl, hr, hnew⟩)
  | product =>
    have h : Runs (Build.mul l r .absent "*") s o t := h
    rcases runs_mul h with ⟨-, rfl, rfl, hl⟩ | ⟨rfl, rfl, hl, hr⟩ | ⟨hl, hr, hnew⟩
    · exact .inl ⟨rfl, rfl, 1, rfl, hl⟩
    · exact .inr (.inl ⟨rfl, rfl, fun n hn => hleft hn (hl rfl), hr⟩)
    · exact .inr (.inr ⟨fun n hn => hleft hn (hl rfl), hr, hnew⟩)
  | quotient =>
    have h : Runs (Build.mul l r .absent "/") s o t := h
    rcases runs_mul h with ⟨hop, -⟩ | ⟨rfl, rfl, -, hr⟩ | ⟨-, hr, hnew⟩
    · exact absurd hop (by decide)
    · exact .inr (.inl ⟨rfl, rfl, nofun, hr⟩)
    · exact .inr (.inr ⟨nofun, hr, hnew⟩)

def Session.constant? (s : Session) : Operand → Option Datum
  | .node id =>
    match s.form? id with
    | some (.constant d) => some d
    | _ => none
  | _ => none

def isSame (n : Int) : Option Datum → Bool
  | some d => d == .int n
  | none => false

theorem isSame_constant? : isSame n (s.constant? o) = true ↔ IsNumber s o n := by
  constructor
  · unfold Session.constant?
    split
    · split
      · exact fun h => ⟨_, _, rfl, ‹_›, h⟩
      · simp [isSame]
    · simp [isSame]
  · rintro ⟨id, d, rfl, hf, hd⟩
    simpa [Session.constant?, hf, isSame] using hd

theorem Denotes.constant?_enlarge (h : Denotes A env s o a) (hst : Enlarges s t) : t.constant? o = s.constant? o := by
  cases h with
  | constant hf | operation _ hf | atom hf => simp [Session.constant?, hf, hst.form? hf]

theorem Operation.build_denotes (h : Runs (op.build l r) s o t) (hl : Denotes A env s l a)
    (hr : Denotes A env s r b) (hc : op.Gives A a b c) (hop : op = .difference → ¬ IsNumber s l 0) :
    Denotes A env t o c := by
  rcases op.build_cases h with ⟨rfl, rfl, n, hn, hnum⟩ | ⟨rfl, rfl, -, hnum⟩ | ⟨-, -, ty, hnew⟩
  · have hdiff : op ≠ .difference := by
      rintro rfl
      cases hn
      exact hop rfl hnum
    obtain rfl := hl.eq_of_isNumber hnum
    rwa [hc.droppedLeft hdiff hn]
  · obtain rfl := hr.eq_of_isNumber hnum
    rwa [hc.droppedRight]
  · obtain ⟨p, rfl, rfl⟩ := runs_create hnew
    have hst := Enlarges.add s { form := .binop op.sign l r, type := some ty, position := p }
    exact .operation op ((form?_add _).trans (if_pos rfl)) (hl.enlarge hst) (hr.enlarge hst) hc

theorem Operation.build_enlarges (h : Runs (op.build l r) s o t) : Enlarges s t := by
  rcases op.build_cases h with ⟨-, rfl, -⟩ | ⟨-, rfl, -⟩ | ⟨-, -, ty, hnew⟩
  · exact .refl _
  · exact .refl _
  · obtain ⟨p, -, rfl⟩ := runs_create hnew
    exact .add _ _

def Operation.constant? (op : Operation) (lhs rhs : Option Datum) : Option Datum :=
  if op.droppedLeft?.any (isSame · lhs) then rhs else if isSame op.droppedRight rhs then lhs else none

theorem Operation.build_constant? (h : Runs (op.build l r) s o t) :
    t.constant? o = op.constant? (s.constant? l) (s.constant? r) := by
  have hleft : op.droppedLeft?.any (isSame · (s.constant? l)) = true ↔
      ∃ n, op.droppedLeft? = some n ∧ IsNumber s l n := by
    cases op.droppedLeft? <;> simp [isSame_constant?]
  unfold Operation.constant?
  rcases op.build_cases h with ⟨rfl, rfl, hl⟩ | ⟨rfl, rfl, hl, hr⟩ | ⟨hl, hr, ty, hnew⟩
  · rw [if_pos (hleft.2 hl)]
  · rw [if_neg (mt hleft.1 fun ⟨n, hn, hnum⟩ => hl n hn hnum), if_pos (isSame_constant?.2 hr)]
  · obtain ⟨p, rfl, rfl⟩ := runs_create hnew
    rw [if_neg (mt hleft.1 fun ⟨n, hn, hnum⟩ => hl n hn hnum), if_neg (mt isSame_constant?.1 hr)]
    simp [Session.constant?, form?_add]

/-! ## Plans -/

/-- What is to be built: operands that are there, and operations on what was built. -/
inductive Plan where
  | given (o : Operand)
  | apply (op : Operation) (lhs rhs : Plan)

namespace Plan

def build : Plan → Action Operand
  | given o => return o
  | apply op lhs rhs => do op.build (← lhs.build) (← rhs.build)

def Means (A : Numbers K) (env : NodeId → K) (s : Session) : Plan → K → Prop
  | given o, c => Denotes A env s o c
  | apply op lhs rhs, c => ∃ a b, lhs.Means A env s a ∧ rhs.Means A env s b ∧ op.Gives A a b c

/-- The constant that a plan comes down to, if constants are dropped from it until one is left. -/
def constant? (s : Session) : Plan → Option Datum
  | given o => s.constant? o
  | apply op lhs rhs => op.constant? (lhs.constant? s) (rhs.constant? s)

/-- No difference of a plan is taken from what comes down to a constant zero. -/
def KeepsSigns (s : Session) : Plan → Prop
  | given _ => True
  | apply op lhs rhs =>
    lhs.KeepsSigns s ∧ rhs.KeepsSigns s ∧ (op = .difference → isSame 0 (lhs.constant? s) = false)

theorem build_spec {plan : Plan} (hst : Enlarges s t) (h : Runs plan.build t o u) (hm : plan.Means A env s c)
    (hsigns : plan.KeepsSigns s) :
    Enlarges t u ∧ u.constant? o = plan.constant? s ∧ Denotes A env u o c := by
  induction plan generalizing t o u c with
  | given o =>
    obtain ⟨rfl, rfl⟩ := runs_pure.1 h
    exact ⟨.refl _, hm.constant?_enlarge hst, hm.enlarge hst⟩
  | apply op lhs rhs ihl ihr =>
    simp only [build, runs_bind] at h
    obtain ⟨l, t1, hl, r, t2, hr, h⟩ := h
    obtain ⟨a, b, ha, hb, hc⟩ := hm
    obtain ⟨hsl, hsr, hop⟩ := hsigns
    obtain ⟨hst1, hconst, hdl⟩ := ihl hst hl ha hsl
    obtain ⟨hst2, hconst', hdr⟩ := ihr (hst.trans hst1) hr hb hsr
    have hkept : t2.constant? l = lhs.constant? s := (hdl.constant?_enlarge hst2).trans hconst
    refine ⟨(hst1.trans hst2).trans (op.build_enlarges h), ?_, ?_⟩
    · rw [op.build_constant? h, hkept, hconst']
      rfl
    · refine op.build_denotes h (hdl.enlarge hst2) hdr hc fun hdiff hnum => ?_
      rw [← isSame_constant?, hkept, hop hdiff] at hnum
      cases hnum

end Plan

/-- What is built for a plan has the value of the plan and no other, as long as no difference in it is taken from a
constant zero. -/
theorem built_plan_denotes {plan : Plan} (h : Runs plan.build s o t) (hm : plan.Means A env s c)
    (hsigns : plan.KeepsSigns s) (c' : K) : Denotes A env t o c' ↔ c' = c := by
  obtain ⟨-, -, hc⟩ := plan.build_spec (.refl s) h hm hsigns
  exact ⟨fun h' => h'.unique hc, fun heq => heq ▸ hc⟩

def twoVariables : Session where
  nodes :=
    #[{ form := .var { role := .plain, name := .ofString "x" }, type := some .float64, position := .unknown },
      { form := .var { role := .plain, name := .ofString "y" }, type := some .float64, position := .unknown },
      { form := .constant (.int 0), type := some .float64, position := .unknown },
      { form := .constant (.float 1.0), type := some .float64, position := .unknown }]

namespace TwoVariables

def x : Plan := .given (.node ⟨0⟩)

def y : Plan := .given (.node ⟨1⟩)

def zero : Plan := .given (.node ⟨2⟩)

def one : Plan := .given (.node ⟨3⟩)

def values (a b : K) (id : NodeId) : K := if id = ⟨0⟩ then a else b

theorem means_x (a b : K) : x.Means A (values a b) twoVariables a := .atom rfl rfl

theorem means_y (a b : K) : y.Means A (values a b) twoVariables b := .atom rfl rfl

theorem means_zero (a b : K) : zero.Means A (values a b) twoVariables 0 :=
  .constant rfl ((A.ofDatum_of_same (n := 0) rfl).trans (by simp))

theorem means_one (a b : K) : one.Means A (values a b) twoVariables 1 :=
  .constant rfl ((A.ofDatum_of_same (n := 1) (by decide +kernel)).trans (by simp))

def plan : Plan :=
  .apply .product (.apply .difference (.apply .quotient x one) y) (.apply .product one (.apply .sum zero x))

theorem means_plan [Nontrivial K] (a b : K) : plan.Means A (values a b) twoVariables ((a - b) * a) :=
  ⟨a - b, a, ⟨a, b, ⟨a, 1, means_x a b, means_one a b, one_ne_zero, (A.div_one a).symm⟩, means_y a b, rfl⟩,
    ⟨1, a, means_one a b, ⟨0, a, means_zero a b, means_x a b, (zero_add a).symm⟩, (one_mul a).symm⟩, rfl⟩

end TwoVariables

open TwoVariables in
theorem plan_denotes_in_both :
    ∃ o t, Runs plan.build twoVariables o t ∧ Denotes integers (values 7 5) t o 14 ∧
      Denotes rationals (values (1 / 2) (1 / 3)) t o (1 / 12) := by
  obtain ⟨o, t, h⟩ := exists_runs (a := plan.build) (s := twoVariables) (by decide +kernel)
  have hsigns : plan.KeepsSigns twoVariables := by
    refine ⟨⟨⟨trivial, trivial, nofun⟩, trivial, fun _ => ?_⟩, ⟨trivial, ⟨trivial, trivial, nofun⟩, nofun⟩, nofun⟩
    decide +kernel
  exact ⟨o, t, h, (built_plan_denotes h (means_plan 7 5) hsigns 14).2 (by norm_num),
    (built_plan_denotes h (means_plan (1 / 2) (1 / 3)) hsigns (1 / 12)).2 (by norm_num)⟩

open TwoVariables in
/-- Of zero minus a variable the variable is left. -/
theorem zero_minus_is_dropped :
    ∃ o t, Runs (Plan.apply .difference zero x).build twoVariables o t ∧
      (Plan.apply .difference zero x).Means integers (values 7 5) twoVariables (-7) ∧
      Denotes integers (values 7 5) t o 7 ∧ ¬ Denotes integers (values 7 5) t o (-7) := by
  have hx : Denotes integers (values 7 5) twoVariables (.node ⟨0⟩) 7 := means_x 7 5
  refine ⟨.node ⟨0⟩, twoVariables, rfl, ⟨0, 7, means_zero 7 5, means_x 7 5, rfl⟩, hx, fun h => ?_⟩
  exact absurd (hx.unique h) (by decide)

end Ast

end ArrayKernel
