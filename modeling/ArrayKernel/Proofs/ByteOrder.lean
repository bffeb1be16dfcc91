import ArrayKernel.Buffer.Element
import Mathlib.Data.List.Infix

/-!
# Byte orders of buffer elements

Elements are mapped to types if their numbers have the native byte order. The orders that are let through are `=`,
`|` and `>`: a number in little-endian order is refused wherever the mapping comes to it, below records of any depth,
and nothing else is refused for its order.
-/

namespace ArrayKernel

variable {l : ElementInfo}

/-! ## What the mapping comes to -/

/-- A number by its kind: one of the letters `i`, `u`, `f`, `b` and `c`, or several of them as they stand here. -/
def ElementInfo.IsNumber (l : ElementInfo) : Prop := l.kind.toList <:+: ['i', 'u', 'f', 'b', 'c']

theorem ElementInfo.isNumber_singleton {c : Char} (h : l.kind = String.singleton c) :
    l.IsNumber ↔ c ∈ ['i', 'u', 'f', 'b', 'c'] := by
  rw [IsNumber, h, String.toList_singleton, List.singleton_infix_iff]

def ElementInfo.Refused (l : ElementInfo) : Prop := l.IsNumber ∧ l.byteOrder ∉ ["=", ">", "|"]

instance (l : ElementInfo) : Decidable l.Refused := inferInstanceAs (Decidable (_ <:+: _ ∧ _))

/-- The mapping comes to an element: it is the element itself, or it lies in a field of a record of known size, and
the fields before that one have types. -/
inductive Reaches : Element → ElementInfo → Prop where
  | self {info : ElementInfo} {fields : List (String × Element)} : Reaches (.mk info fields) info
  | field {info l : ElementInfo} {before after : List (String × Element)} {name : String} {e : Element} {x : Int}
      {types : List (String × CType)} (hkind : info.kind = "V") (hsize : exponentOf info.itemsize = .ok x)
      (hbefore : CType.ofElements before = .ok types) (h : Reaches e l) :
      Reaches (.mk info (before ++ (name, e) :: after)) l

namespace CType

/-! ## Steps that never refuse -/

variable {α β : Type} {e : Element} {name : String} {rest : List (String × Element)} {types : List (String × CType)}

theorem bind_eq_error {x : Except Fault α} {f : α → Except Fault β} {e : Fault} :
    x >>= f = .error e ↔ x = .error e ∨ ∃ a, x = .ok a ∧ f a = .error e := by
  cases x <;> simp [bind, Except.bind]

theorem exponentOf_ne_unmappable (d : Datum) : exponentOf d ≠ .error .unmappable := by
  unfold exponentOf
  cases d with
  | int | bool | float => dsimp only; split_ifs <;> simp
  | _ => simp

theorem plainElement_ne_unmappable (kind : String) (itemsize : Datum) (x : Int) :
    plainElement kind itemsize x ≠ .error .unmappable := by
  unfold plainElement
  dsimp only
  split
  · split <;> simp
  · split <;> simp
  all_goals simp

mutual

theorem sortKey_ne_unmappable : ∀ t : CType, sortKey t ≠ .error .unmappable
  | .struct fs _ _ _ => by
    rw [sortKey, sortKeys]
    exact sumKeys_ne_unmappable .zero fs
  | .complex _ p _ => by
    rw [sortKey]
    split <;> simp
  | .scalar s q => by
    rw [sortKey]
    split
    · split <;> simp
    · simp
  | .absent | .vector .. | .array .. | .pointer .. | .object _ | .block .. | .foreign _ | .cString _ | .function .. => by
    simp [sortKey]

theorem sumKeys_ne_unmappable : ∀ (total : Rank) (fs : List (String × CType)), sumKeys total fs ≠ .error .unmappable
  | total, [] => by simp [sumKeys]
  | total, (_, t) :: rest => by
    rw [sumKeys, ne_eq, bind_eq_error]
    rintro (hkey | ⟨k, -, hrest⟩)
    · exact sortKey_ne_unmappable t hkey
    · exact sumKeys_ne_unmappable (total.add k) rest hrest

end

theorem structOf_ne_unmappable (fs : List (String × CType)) (options : StructOptions) :
    structOf fs options ≠ .error .unmappable := by
  unfold structOf sortKeys
  rw [ne_eq, bind_eq_error]
  rintro (hkeys | ⟨_, -, hok⟩)
  · exact sumKeys_ne_unmappable .zero fs hkeys
  · cases hok

/-! ## One step of the mapping -/

theorem refused_iff (l : ElementInfo) :
    (!acceptedOrders.contains l.byteOrder && occursIn l.kind "iufbc") = true ↔ l.Refused := by
  rw [Bool.and_eq_true, Bool.not_eq_true', occursIn, String.contains_string_iff, ElementInfo.Refused, and_comm]
  simp [acceptedOrders, ElementInfo.IsNumber]

/-- An element is refused for itself, or a record of known size for one of its fields. -/
theorem ofElement_eq_unmappable {fields : List (String × Element)} :
    ofElement (.mk l fields) = .error .unmappable ↔
      l.Refused ∨ l.kind = "V" ∧ (∃ x, exponentOf l.itemsize = .ok x) ∧ ofElements fields = .error .unmappable := by
  rw [ofElement]
  by_cases hrefused : l.Refused
  · rw [if_pos ((refused_iff l).2 hrefused)]
    exact iff_of_true rfl (.inl hrefused)
  rw [if_neg (mt (refused_iff l).1 hrefused), or_iff_right hrefused]
  beta_reduce
  rw [bind_eq_error]
  by_cases hkind : l.kind = "V"
  · simp [hkind, exponentOf_ne_unmappable, bind_eq_error, structOf_ne_unmappable]
  · simp [hkind, exponentOf_ne_unmappable, plainElement_ne_unmappable]

theorem ofElements_cons_eq_unmappable :
    ofElements ((name, e) :: rest) = .error .unmappable ↔
      ofElement e = .error .unmappable ∨ (∃ t, ofElement e = .ok t) ∧ ofElements rest = .error .unmappable := by
  rw [ofElements, bind_eq_error]
  refine or_congr_right ?_
  simp [bind_eq_error, pure, Except.pure]

theorem ofElements_cons_eq_ok : ofElements ((name, e) :: rest) = .ok types ↔
      ∃ t ts, ofElement e = .ok t ∧ ofElements rest = .ok ts ∧ types = (name, t) :: ts := by
  rw [ofElements]
  cases ofElement e <;> cases ofElements rest <;> simp [bind, Except.bind, pure, Except.pure, eq_comm]

/-! ## The whole mapping -/

theorem ofElements_of_field {before after : List (String × Element)}
    (hbefore : ofElements before = .ok types) (he : ofElement e = .error .unmappable) :
    ofElements (before ++ (name, e) :: after) = .error .unmappable := by
  induction before generalizing types with
  | nil => exact ofElements_cons_eq_unmappable.2 (.inl he)
  | cons f rest ih =>
    obtain ⟨t, ts, hf, hrest, -⟩ := ofElements_cons_eq_ok.1 hbefore
    exact ofElements_cons_eq_unmappable.2 (.inr ⟨⟨t, hf⟩, ih hrest⟩)

theorem unmappable_of_reaches (h : Reaches e l) (hl : l.Refused) : ofElement e = .error .unmappable := by
  induction h with
  | self => exact ofElement_eq_unmappable.2 (.inl hl)
  | field hkind hsize hbefore _ ih =>
    exact ofElement_eq_unmappable.2 (.inr ⟨hkind, ⟨_, hsize⟩, ofElements_of_field hbefore (ih hl)⟩)

mutual

theorem reaches_of_unmappable : ∀ e : Element, ofElement e = .error .unmappable → ∃ l, Reaches e l ∧ l.Refused
  | .mk info fields, h => by
    rcases ofElement_eq_unmappable.1 h with hl | ⟨hkind, ⟨x, hsize⟩, hfields⟩
    · exact ⟨info, .self, hl⟩
    · obtain ⟨before, name, e, after, types, l, rfl, hbefore, hreach, hl⟩ := field_of_unmappable fields hfields
      exact ⟨l, .field hkind hsize hbefore hreach, hl⟩

theorem field_of_unmappable : ∀ fields : List (String × Element), ofElements fields = .error .unmappable →
    ∃ before name e after types l, fields = before ++ (name, e) :: after ∧ ofElements before = .ok types ∧
      Reaches e l ∧ l.Refused
  | [], h => by simp [ofElements] at h
  | (n, e) :: rest, h => by
    rcases ofElements_cons_eq_unmappable.1 h with he | ⟨⟨t, ht⟩, hrest⟩
    · obtain ⟨l, hreach, hl⟩ := reaches_of_unmappable e he
      exact ⟨[], n, e, rest, [], l, rfl, by rw [ofElements], hreach, hl⟩
    · obtain ⟨before, name, e', after, types, l, rfl, hbefore, hreach, hl⟩ := field_of_unmappable rest hrest
      exact ⟨(n, e) :: before, name, e', after, (n, t) :: types, l, rfl,
        ofElements_cons_eq_ok.2 ⟨t, types, ht, hbefore, rfl⟩, hreach, hl⟩

end

/-- An element has no type for its byte order exactly if the mapping comes to a number whose order is none of `=`, `>`
and `|`. So a number in little-endian order is always refused, and one in big-endian order never. -/
theorem unmappable_iff_reaches_refused (e : Element) : ofElement e = .error .unmappable ↔
    ∃ l, Reaches e l ∧ l.IsNumber ∧ l.byteOrder ∉ ["=", ">", "|"] :=
  ⟨reaches_of_unmappable e, fun ⟨_, hreach, hl⟩ => unmappable_of_reaches hreach hl⟩

/-- An integer of four bytes is refused in little-endian order and mapped in big-endian order. -/
theorem little_endian_refused :
    ofElement (.mk { kind := "i", itemsize := .int 4, byteOrder := "<" } []) = .error .unmappable ∧
      ofElement (.mk { kind := "i", itemsize := .int 4, byteOrder := ">" } []) = .ok int32 := by
  have hnumber : ∀ order, ElementInfo.IsNumber { kind := "i", itemsize := .int 4, byteOrder := order } :=
    fun order => (ElementInfo.isNumber_singleton (c := 'i') rfl).2 (by decide)
  constructor
  · exact ofElement_eq_unmappable.2 (.inl ⟨hnumber "<", by decide⟩)
  · have hpass : ¬ ElementInfo.Refused { kind := "i", itemsize := .int 4, byteOrder := ">" } := fun h => h.2 (by decide)
    rw [ofElement, if_neg (mt (refused_iff _).1 hpass)]
    rfl

end CType

end ArrayKernel
