import ArrayKernel.CType.Promotion
import Mathlib.Data.List.Basic

/-!
# Equality of types

Equality of types leaves out qualifiers, the number of dimensions and all of a named type but its name.
-/

namespace ArrayKernel.CType

mutual

theorem same_refl : ∀ t : CType, t.same t = true
  | .absent | .scalar .. | .complex .. | .cString _ | .object _ => by simp [same]
  | .array d .. => by simp [same, same_refl d]
  | .pointer b _ | .block b _ _ => by simp [same, same_refl b]
  | .foreign o => by simp [same, same_refl o]
  | .function r ps .. => by simp [same, same_refl r, sameAll_refl ps]
  | .vector e .. => by simp [same, same_refl e]
  | .struct fs .. => by simp [same, sameFields_refl fs]

theorem sameAll_refl : ∀ ts : List CType, sameAll ts ts = true
  | [] => rfl
  | t :: ts => by simp [sameAll, same_refl t, sameAll_refl ts]

theorem sameFields_refl : ∀ fs : List (String × CType), sameFields fs fs = true
  | [] => rfl
  | (_, t) :: fs => by simp [sameFields, same_refl t, sameFields_refl fs]

end

mutual

theorem same_congr : ∀ {t u : CType}, t.same u = true → ∀ v, t.same v = u.same v
  | .absent, u, h, v | .cString _, u, h, v | .object _, u, h, v | .scalar .., u, h, v | .complex .., u, h, v => by
    cases u <;> cases v <;> simp_all [same]
  | .array d .., u, h, v => by
    cases u with
    | array d' =>
      simp only [same, Bool.and_eq_true, beq_iff_eq] at h
      cases v <;> simp [same, same_congr h.1.1.1, h]
    | _ => cases h
  | .pointer b _, u, h, v => by
    cases u with
    | pointer b' => cases v <;> simp [same, same_congr (t := b) (u := b') h]
    | _ => cases h
  | .block b _ _, u, h, v => by
    cases u with
    | block b' => cases v <;> simp [same, same_congr (t := b) (u := b') h]
    | _ => cases h
  | .foreign o, u, h, v => by
    cases u with
    | foreign o' => cases v <;> simp [same, same_congr (t := o) (u := o') h]
    | _ => cases h
  | .function r ps .., u, h, v => by
    cases u with
    | function r' ps' =>
      simp only [same, Bool.and_eq_true, beq_iff_eq] at h
      cases v <;> simp [same, same_congr h.1.1, h, sameAll_congr h.2]
    | _ => cases h
  | .vector e .., u, h, v => by
    cases u with
    | vector e' =>
      simp only [same, Bool.and_eq_true, beq_iff_eq] at h
      cases v <;> simp [same, same_congr h.1, h]
    | _ => cases h
  | .struct fs .., u, h, v => by
    cases u with
    | struct fs' => cases v <;> simp [same, sameFields_congr (show sameFields fs fs' = true from h)]
    | _ => cases h

theorem sameAll_congr : ∀ {ts us : List CType}, sameAll ts us = true → ∀ vs, sameAll ts vs = sameAll us vs
  | [], [], _, _ => rfl
  | t :: ts, u :: us, h, vs => by
    simp only [sameAll, Bool.and_eq_true] at h
    cases vs <;> simp [sameAll, same_congr h.1, sameAll_congr h.2]
  | [], _ :: _, h, _ | _ :: _, [], h, _ => by cases h

theorem sameFields_congr : ∀ {fs gs : List (String × CType)}, sameFields fs gs = true →
    ∀ hs, sameFields fs hs = sameFields gs hs
  | [], [], _, _ => rfl
  | (n, t) :: fs, (m, u) :: gs, h, hs => by
    simp only [sameFields, Bool.and_eq_true, beq_iff_eq] at h
    cases hs <;> simp [sameFields, h.1.1, same_congr h.1.2, sameFields_congr h.2]
  | [], _ :: _, h, _ | _ :: _, [], h, _ => by cases h

end

variable {t u v : CType}

/-! ## As an equivalence -/

theorem beq_refl (t : CType) : (t == t) = true := same_refl t

theorem beq_symm (h : (t == u) = true) : (u == t) = true := (same_congr h t).symm.trans (same_refl t)

theorem isAbsent_of_same (h : (t == u) = true) : t.isAbsent = u.isAbsent := by
  cases t <;> cases u <;> first | rfl | cases h

end ArrayKernel.CType
