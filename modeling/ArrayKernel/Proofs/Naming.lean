import ArrayKernel.Proofs.Keeping
import Mathlib.Data.List.DropRight

/-! # Names in a session -/

namespace ArrayKernel.Build

open Ast

variable {n m : Nat} {b x : String}

/-! ## Stems and numbers -/

theorem isDigit_of_mem_toString {c : Char} (h : c ∈ (toString n).toList) : c.isDigit = true := by
  rw [Nat.toString_eq_repr, Nat.repr_eq_ofList_toDigits, String.toList_ofList] at h
  exact Nat.isDigit_of_mem_toDigits (by decide) (by decide) h

theorem toString_ne_empty (n : Nat) : (toString n).toList ≠ [] := by
  rw [Nat.toString_eq_repr, Nat.repr_eq_ofList_toDigits, String.toList_ofList]
  exact Nat.toDigits_ne_nil

theorem toString_inj (h : toString m = toString n) : m = n := by
  rw [Nat.toString_eq_ofList_toDigits, Nat.toString_eq_ofList_toDigits, String.ofList_inj] at h
  have hvalue := congrArg (fun l => Nat.ofDigitChars 10 l 0) h
  simpa using hvalue

theorem toList_withoutDigits (s : String) : (withoutDigits s).toList = s.toList.rdropWhile Char.isDigit := by
  unfold withoutDigits
  rw [String.toList_ofList]
  rfl

theorem withoutDigits_append (s : String) (n : Nat) : withoutDigits (s ++ toString n) = withoutDigits s := by
  unfold withoutDigits
  rw [String.toList_append, List.reverse_append, List.dropWhile_append_of_pos]
  intro c hc
  exact isDigit_of_mem_toString (List.mem_reverse.1 hc)

def IsStem (b : String) : Prop := withoutDigits b = b

instance (b : String) : Decidable (IsStem b) := inferInstanceAs (Decidable (_ = _))

theorem isStem_withoutDigits (s : String) : IsStem (withoutDigits s) := by
  unfold IsStem
  rw [← String.toList_inj, toList_withoutDigits, toList_withoutDigits, List.rdropWhile_idempotent]

theorem IsStem.append (s : String) (h : IsStem b) (hs : b = "" → IsStem s) : IsStem (s ++ b) := by
  unfold IsStem at *
  rw [← String.toList_inj, toList_withoutDigits, List.rdropWhile_eq_self_iff] at h ⊢
  intro hne
  by_cases hb : b = ""
  · have hstem := hs hb
    rw [← String.toList_inj, toList_withoutDigits, List.rdropWhile_eq_self_iff] at hstem
    simpa [hb] using hstem (by simpa [hb] using hne)
  · have hb' : b.toList ≠ [] := by simpa using hb
    simpa [List.getLast_append, hb'] using h hb'

theorem IsStem.number_inj {c : String} (hb : IsStem b) (hc : IsStem c)
    (h : b ++ toString m = c ++ toString n) : b = c ∧ m = n := by
  have hstem : b = c := by
    have hdrop := congrArg withoutDigits h
    rwa [withoutDigits_append, withoutDigits_append, hb, hc] at hdrop
  subst hstem
  exact ⟨rfl, toString_inj ((String.append_right_inj b).1 h)⟩

theorem not_isStem_number (s : String) (n : Nat) : ¬ IsStem (s ++ toString n) := by
  intro h
  have hlength := congrArg (fun x => x.toList.length) h
  rw [withoutDigits_append, toList_withoutDigits, String.toList_append, List.length_append] at hlength
  have hprefix := (List.rdropWhile_prefix Char.isDigit (l := s.toList)).length_le
  have hpos := List.length_pos_iff.2 (toString_ne_empty n)
  omega

/-- What is shown of a node that is a temporary. -/
def shown? (s : Session) (id : NodeId) : Option String :=
  match s.form? id with
  | some (.var { role := .temporary x, .. }) => some x
  | _ => none

theorem exists_of_shown? {s : Session} {id : NodeId} (h : shown? s id = some x) :
    ∃ v, s.form? id = some (.var v) ∧ v.role = .temporary x := by
  unfold shown? at h
  split at h
  · cases h
    exact ⟨_, by assumption, rfl⟩
  · cases h

end ArrayKernel.Build

namespace ArrayKernel.Naming

open Ast Build
open Emit (mangle)

/-! ## Names that are told apart -/

/-- The stems of temporaries: those that passes coin, and those of a client. -/
inductive Stem (own : String → Prop) : String → Prop where
  | coined {name : String} (h : Coined name) : Stem own (withoutDigits name)
  | own {b : String} (h : own b) : Stem own b

/-- What a client's temporaries must be called to have names of their own: no stem ends in a digit or in an
underscore. -/
structure Apart (own : String → Prop) : Prop where
  stem : ∀ b, own b → IsStem b
  last : ∀ b, own b → b.toList.getLast? ≠ some '_'

def Reserved (x : String) : Prop := "__mini_mangle_".toList <+: x.toList ++ ['_']

/-- A name of a variable that no temporary and no pointer is taken for. -/
structure Free (own : String → Prop) (x : String) : Prop where
  reserved : ¬ Reserved x
  number : ∀ b n, Stem own b → x ≠ b ++ toString (n : Nat)
  fallback : ∀ b n, Stem own b → x ≠ b ++ "_" ++ toString (n : Nat)

section

variable {own : String → Prop} {y : String}

theorem withoutDigits_stride (x : String) (d : Nat) :
    withoutDigits (x ++ "_stride" ++ toString d) = x ++ "_stride" := by
  rw [withoutDigits_append]
  exact IsStem.append x (by decide) nofun

theorem Stem.isStem (hown : Apart own) (h : Stem own b) : IsStem b := by
  cases h with
  | coined h => exact isStem_withoutDigits _
  | own h => exact hown.stem b h

theorem Stem.last (hown : Apart own) (h : Stem own b) : b.toList.getLast? ≠ some '_' := by
  cases h with
  | own h => exact hown.last b h
  | coined h =>
    rcases h with h | ⟨x, d, rfl⟩ | ⟨x, rfl⟩
    · simp only [List.mem_cons, List.not_mem_nil, or_false] at h
      rcases h with rfl | rfl | rfl | rfl <;> decide
    · rw [withoutDigits_stride]
      simp
    · have hstem : IsStem (x ++ "_stride_temp") := IsStem.append x (by decide) nofun
      rw [hstem]
      simp

theorem free_of_isStem (hx : IsStem x) (hr : ¬ Reserved x) : Free own x where
  reserved := hr
  number b n _ h := not_isStem_number b n (h ▸ hx)
  fallback b n _ h := not_isStem_number (b ++ "_") n (h ▸ hx)

theorem mangle_inj : mangle x = mangle y ↔ x = y := String.append_right_inj _

theorem mangle_ne_pointer (hx : ¬ Reserved x) (word : String) (hword : '_' ∉ word.toList) :
    mangle y ≠ x ++ ("_" ++ word) := by
  intro h
  have hlist := congrArg String.toList h
  rw [mangle, String.toList_append, String.toList_append, String.toList_append, ← List.append_assoc] at hlist
  have hstart : "__mini_mangle_".toList <+: (x.toList ++ ['_']) ++ word.toList := ⟨y.toList, hlist⟩
  rcases Nat.le_total "__mini_mangle_".toList.length (x.toList ++ ['_']).length with hle | hle
  · exact hx (List.prefix_of_prefix_length_le hstart (List.prefix_append _ _) hle)
  · -- The prefix ends inside the word, which has no underscore.
    obtain ⟨rest, hrest⟩ := List.prefix_of_prefix_length_le (List.prefix_append _ _) hstart hle
    rw [← hrest, List.prefix_append_right_inj] at hstart
    cases rest using List.reverseRec with
    | nil =>
      rw [List.append_nil] at hrest
      exact hx ⟨[], by rw [List.append_nil, hrest]⟩
    | append_singleton rest c =>
      have hlast := congrArg List.getLast? hrest
      rw [← List.append_assoc, List.getLast?_concat] at hlast
      obtain rfl : c = '_' := Option.some.inj hlast
      exact hword (hstart.subset (by simp))

end

/-! ## Well-named sessions -/

def Called (s : Session) (array : Operand) (word : String) (name : Name) : Prop :=
  ∃ k f, array = .node k ∧ s.form? k = some f ∧ ∀ w x, f = .var w → w.role = .plain → w.name = .ofString x →
    name = .ofString (x ++ word)

/-- What a name is for a role: a free name for a variable, a stem and a number for a temporary, the name of the
array for a pointer. -/
def Suits (own : String → Prop) (s : Session) (name : Name) (emitted : Option String) : VariableRole → Prop
  | .plain => ∃ x, name = .ofString x ∧ Free own x ∧ ∀ y, emitted = some y → y = mangle x
  | .temporary shown => ∃ b n, Stem own b ∧ shown = b ++ toString (n : Nat)
  | .dataPointer array => Called s array "_data" name
  | .stridePointer array => Called s array "_strides" name
  | .element _ | .register _ => True

def WellNamed (own : String → Prop) (s : Session) (v : Variable) : Prop := Suits own s v.name v.emitted v.role

/-- All variables of a session are well named, and so is the edge of a tile. -/
structure Named (own : String → Prop) (s : Session) : Prop where
  all : ∀ id v, s.form? id = some (.var v) → WellNamed own s v
  edge : ∀ x, s.settings.blocksize = some (.text x) → Free own x

section

variable {own : String → Prop} {s t : Session} {name : Name} {emitted : Option String} {role : VariableRole}

theorem suits_bare : Suits own s name emitted role.bare ↔ Suits own s name emitted role := by
  cases role <;> exact Iff.rfl

theorem eq_var_of_kept {f : Form} {v : Variable} (h : f.kept = (Form.var v).kept) :
    ∃ w, f = .var w ∧ w.role.bare = v.role.bare ∧ w.name = v.name ∧ w.emitted = v.emitted := by
  cases f with
  | var w =>
    injection h with hrole hname hemitted
    exact ⟨w, rfl, hrole, hname, hemitted⟩
  | _ => cases h

theorem eq_plain_of_bare (h : role.bare = .plain) : role = .plain := by
  cases role <;> first | rfl | cases h

/-- What a session must keep for pointers to stay named after their arrays: variables are not made from other
nodes, and have the names they had. -/
def Retains (s t : Session) : Prop :=
  ∀ k f, s.form? k = some f → ∃ f', t.form? k = some f' ∧
    ∀ w, f' = .var w → w.role = .plain → ∃ v, f = .var v ∧ v.role = .plain ∧ v.name = w.name

theorem Retains.of_stays (h : Stays s t) : Retains s t := by
  intro k f hf
  obtain ⟨f', hf', hkept⟩ := h.kept k f hf
  refine ⟨f', hf', ?_⟩
  rintro w rfl hrole
  obtain ⟨v, rfl, hrole', hname, -⟩ := eq_var_of_kept hkept.symm
  exact ⟨v, rfl, eq_plain_of_bare (by rw [hrole', hrole]; rfl), hname⟩

theorem Called.retained (h : Called s array word name) (hst : Retains s t) : Called t array word name := by
  obtain ⟨k, f, rfl, hf, hname⟩ := h
  obtain ⟨f', hf', hplain⟩ := hst k f hf
  refine ⟨k, f', rfl, hf', ?_⟩
  intro w x hw hrole hx
  obtain ⟨v, hv, hrole', hsame⟩ := hplain w hw hrole
  exact hname v x hv hrole' (hsame.trans hx)

theorem Suits.retained (h : Suits own s name emitted role) (hst : Retains s t) : Suits own t name emitted role := by
  cases role with
  | dataPointer array | stridePointer array => exact Called.retained h hst
  | _ => exact h

theorem Suits.stays (h : Suits own s name emitted role) (hst : Stays s t) : Suits own t name emitted role :=
  h.retained (.of_stays hst)

def Refits (own : String → Prop) (f f' : Form) : Prop :=
  ∀ w, f' = .var w → ∃ v, f = .var v ∧ (w.role = .plain → v.role = .plain ∧ v.name = w.name) ∧
    ∀ s, WellNamed own s v → WellNamed own s w

theorem refits_of_kept {f f' : Form} (h : f'.kept = f.kept) : Refits own f f' := by
  rintro w rfl
  obtain ⟨v, rfl, hrole, hname, hemitted⟩ := eq_var_of_kept h.symm
  refine ⟨v, rfl, fun hplain => ⟨eq_plain_of_bare (by rw [hrole, hplain]; rfl), hname⟩, fun s hv => ?_⟩
  rw [WellNamed, ← suits_bare, hrole, hname, hemitted] at hv
  exact suits_bare.1 hv

/-! ### What passes do -/

theorem Named.same (h : Named own s) (hf : ∀ id, t.form? id = s.form? id) (hs : t.settings = s.settings) :
    Named own t where
  all id v hv := (h.all id v (by rw [← hf]; exact hv)).stays (.of_forms hf hs)
  edge x hx := h.edge x (by rw [← hs]; exact hx)

theorem Named.add (h : Named own s) {n : Node} (hn : ∀ v, n.form = .var v → WellNamed own s v) :
    Named own (s.add n) where
  all id v hv := by
    rcases form?_add_cases hv with hform | hv
    · exact (hn v hform.symm).stays (.add n)
    · exact (h.all id v hv).stays (.add n)
  edge := h.edge

theorem Named.alter (h : Named own s) {id : NodeId} {g : Node → Node}
    (hg : ∀ n, s.node? id = some n → Refits own n.form (g n).form) : Named own (s.alter id g) where
  all j v hv := by
    have hretains : Retains s (s.alter id g) := by
      intro k f hf
      obtain ⟨n, hn, rfl⟩ := node?_of_form? hf
      rw [form?_alter_of]
      by_cases hk : k = id
      · subst hk
        rw [if_pos rfl, hn]
        refine ⟨_, rfl, fun w hw hrole => ?_⟩
        obtain ⟨v, hv, hplain, -⟩ := hg n hn w hw
        exact ⟨v, hv, hplain hrole⟩
      · rw [if_neg hk]
        exact ⟨_, hf, fun w hw hrole => ⟨w, hw, hrole, rfl⟩⟩
    refine Suits.retained ?_ hretains
    rcases form?_alter_cases hv with hv | ⟨n, rfl, hn, hform⟩
    · exact h.all j v hv
    · obtain ⟨w, hw, -, hsuits⟩ := hg n hn v hform.symm
      exact hsuits s (h.all j w (by rw [form?_of_node? hn, hw]))
  edge := h.edge

theorem var_rename {n : Node} {v : Variable} (h : (n.rename ρ).form = .var v) :
    ∃ w, n.form = .var w ∧ v.name = w.name ∧ v.emitted = w.emitted ∧
      v.role = Id.run (w.role.traverse fun o => return o.rename ρ) := by
  rw [rename_form] at h
  cases hf : n.form with
  | var w =>
    rw [hf] at h
    cases h
    exact ⟨w, rfl, rfl, rfl, rfl⟩
  | _ =>
    rw [hf] at h
    cases h

theorem Called.copied (h : Called s array word name)
    (hc : Copied s t ρ) : Called t (array.rename ρ) word name := by
  obtain ⟨k, f, rfl, hf, hname⟩ := h
  obtain ⟨n, hn, rfl⟩ := node?_of_form? hf
  obtain ⟨f', hf', hcase⟩ := hc.name k n hn
  refine ⟨ρ k, f', by simp [Operand.rename], hf', ?_⟩
  rintro w x rfl hrole hx
  rcases hcase with hsame | hcopy
  · exact hname w x hsame.symm hrole hx
  · obtain ⟨w', hw', hname', -, hrole'⟩ := var_rename hcopy.symm
    refine hname w' x hw' ?_ (hname'.symm.trans hx)
    rw [hrole] at hrole'
    cases hr : w'.role <;> rw [hr] at hrole' <;> first | rfl | cases hrole'

theorem Suits.copied (h : Suits own s name emitted role) (hc : Copied s t ρ) :
    Suits own t name emitted (Id.run (role.traverse fun o => return o.rename ρ)) := by
  cases role with
  | dataPointer array | stridePointer array => exact Called.copied h hc
  | _ => exact h

theorem Named.copied (h : Named own s) (hc : Copied s t ρ) : Named own t where
  all id v hv := by
    rcases hc.new id _ hv with hv | ⟨j, n, hn, hform⟩
    · exact (h.all id v hv).stays hc.stays
    · obtain ⟨w, hw, hname, hemitted, hrole⟩ := var_rename hform.symm
      have hnamed := h.all j w (by rw [form?_of_node? hn, hw])
      rw [WellNamed, hname, hemitted, hrole]
      exact Suits.copied hnamed hc
  edge x hx := h.edge x (by rw [← hc.settings]; exact hx)

theorem called_of_runs (h : Runs (nameOf array) s (.ofString x) s) :
    Called s array word (.ofString (x ++ word)) := by
  obtain ⟨n, u, hn, hform⟩ := runs_bind.1 h
  obtain ⟨k, rfl, hk, rfl⟩ := runs_nodeOf.1 hn
  refine ⟨k, n.form, rfl, form?_of_node? hk, ?_⟩
  rintro w y hw - hy
  rw [hw] at hform
  obtain ⟨hx, -⟩ := runs_pure.1 hform
  rw [hy] at hx
  cases hx
  rfl

theorem free_callee (h : x ∈ ["fmod", "fmodf", "fmodl"]) : Free own x := by
  simp only [List.mem_cons, List.not_mem_nil, or_false] at h
  rcases h with rfl | rfl | rfl <;> exact free_of_isStem (by decide) (by unfold Reserved; decide)

end

def naming (own : String → Prop) : Keeping where
  Holds := Named own
  Admits s f := ∀ v, f = .var v → WellNamed own s v
  reports := True
  same h hf hs := Named.same h hf hs
  add h hn := Named.add h hn
  alter h hg := Named.alter h fun n hn => refits_of_kept (hg n hn).kept
  returned {s t id o o'} _ ho hst ht _ := by
    refine Named.alter ht fun n hn => refits_of_kept ?_
    obtain ⟨f, hf, hkept⟩ := hst.kept id _ ho
    rw [form?_of_node? hn] at hf
    rw [Option.some.inj hf, hkept]
    rfl
  copied h hc := Named.copied h hc
  plain hf v hv := by
    rw [hv] at hf
    cases hf
  held hrole v hv := by
    cases hv
    obtain ⟨o, hrole | hrole⟩ := hrole <;> rw [WellNamed, hrole] <;> trivial
  temporary {s name n} hname v hv := by
    cases hv
    exact ⟨Build.withoutDigits name, n, .coined hname, rfl⟩
  lent {s name} hs hlent v hv := by
    cases hv
    refine ⟨name, rfl, ?_, nofun⟩
    rcases hlent with hcallee | hedge
    · exact free_callee hcallee
    · exact hs.edge name hedge
  strides hname hst v hv := by
    cases hv
    exact (called_of_runs hname).retained (.of_stays hst)
  success _ _ v hv := by cases hv
  failing _ hf v hv := by
    rw [hv] at hf
    cases hf
  handled _ _ := trivial

theorem warns_naming (own : String → Prop) : Warns (naming own) := fun _ _ _ _ _ => trivial

theorem resolves_naming (own : String → Prop) : Resolves (naming own) := by
  rintro s id text type hs ⟨f, hf, hkept⟩
  refine Named.alter hs fun n hn => refits_of_kept ?_
  rw [form_of_node? hn hf, hkept]
  rfl

end ArrayKernel.Naming
