import ArrayKernel.Proofs.Nest

/-! # What nests of loops record -/

namespace ArrayKernel.Running

open Ast

variable {m : Machine} {τ τ' : Temporaries} {β : Type} {seen : Temporaries → β}
variable {W : NodeId → Prop} {E : Temporaries → List β} {first : Nat} {o : Operand} {cs : List (NodeId × Limits)}

/-! ## Nests of numbers -/

def nested (E : Temporaries → List β) : List (NodeId × Limits) → Temporaries → List β
  | [] => E
  | (t, b) :: rest => nested
    (fun τ => (Position.range (b.lower τ) (b.upper τ) (b.step τ)).flatMap fun i =>
      E (Function.update τ t i)) rest

def Fills : List (NodeId × Limits) → Temporaries → Temporaries → Prop
  | [], τ, τ' => τ' = τ
  | (t, b) :: rest, τ, τ' => ∃ τ₁, Fills rest τ τ₁ ∧
    ∃ i ∈ Position.range (b.lower τ₁) (b.upper τ₁) (b.step τ₁), τ' = Function.update τ₁ t i

theorem mem_nested {x : β} : x ∈ nested E cs τ ↔ ∃ τ', Fills cs τ τ' ∧ x ∈ E τ' := by
  induction cs generalizing E with
  | nil => simp [nested, Fills]
  | cons c cs ih =>
    obtain ⟨t, b⟩ := c
    simp only [nested, ih, List.mem_flatMap, Fills]
    constructor
    · rintro ⟨τ1, hf, i, hi, hx⟩
      exact ⟨_, ⟨τ1, hf, i, hi, rfl⟩, hx⟩
    · rintro ⟨_, ⟨τ1, hf, i, hi, rfl⟩, hx⟩
      exact ⟨τ1, hf, i, hi, hx⟩

theorem nested_nodup (hE : ∀ τ', Fills cs τ τ' → (E τ').Nodup)
    (hkey : ∀ t ∈ cs.map (·.1), ∃ key : β → Int, ∀ τ', Fills cs τ τ' → ∀ x ∈ E τ', key x = τ' t)
    (hstep : ∀ c ∈ cs, ∀ τ, 0 < c.2.step τ) (htemps : (cs.map (·.1)).Nodup) :
    (nested E cs τ).Nodup := by
  induction cs generalizing E with
  | nil => exact hE τ rfl
  | cons c cs ih =>
    obtain ⟨t, b⟩ := c
    simp only [List.map_cons, List.nodup_cons] at htemps
    refine ih (fun τ1 hf => ?_) (fun u hu => ?_) (fun c hc => hstep c (by simp [hc])) htemps.2
    · obtain ⟨key, hkey⟩ := hkey t (by simp)
      refine List.nodup_flatMap.2 ⟨fun i hi => hE _ ⟨τ1, hf, i, hi, rfl⟩, ?_⟩
      refine (range_nodup (hstep (t, b) (by simp) τ1)).imp_of_mem ?_
      intro i j hi hj hij x hxi hxj
      have h1 := hkey _ ⟨τ1, hf, i, hi, rfl⟩ x hxi
      have h2 := hkey _ ⟨τ1, hf, j, hj, rfl⟩ x hxj
      simp only [Function.update_self] at h1 h2
      exact hij (h1.symm.trans h2)
    · obtain ⟨key, hkey⟩ := hkey u (by simp [hu])
      refine ⟨key, fun τ1 hf x hx => ?_⟩
      obtain ⟨i, hi, hx⟩ := List.mem_flatMap.1 hx
      rw [hkey _ ⟨τ1, hf, i, hi, rfl⟩ x hx, Function.update_of_ne]
      rintro rfl
      exact htemps.1 hu

/-! ## Nests of counters -/

theorem Performs.wrapped {o' : Operand} (hleaf : m.leaf.index < first)
    (hw : Wrapped first m.store o o') (h : Performs m seen [.run o] W E) :
    Performs m seen [.run o'] W E := by
  induction hw with
  | bare => exact h
  | @handler j H hle hf hs hc hb ih =>
    refine Performs.opened (fun hj => by rw [hj] at hle; omega) hf rfl ?_
    rw [hs]
    exact ih.skipped _

theorem performs_chain {cs : List Counter} {bs : List Limits} {body : Operand}
    (hleaf : m.leaf.index < first) (hc : Chain first m.store body cs o)
    (hin : ∀ c ∈ cs, c.In first m.store) {V : NodeId → Prop}
    (hb : List.Forall₂ (fun c b => c.Bounded m b V) cs bs) (hbody : Performs m seen [.run body] W E)
    (hV : ∀ t, W t ∨ t ∈ cs.map (·.temp) → V t) (hW : ∀ c ∈ cs, ¬ W c.temp)
    (htemps : (cs.map (·.temp)).Nodup) :
    Performs m seen [.run o] (fun t => W t ∨ t ∈ cs.map (·.temp)) (nested E ((cs.map (·.temp)).zip bs)) := by
  induction cs generalizing body W E bs with
  | nil =>
    obtain rfl : o = body := hc
    simpa [nested] using hbody
  | cons c cs ih =>
    obtain ⟨⟨l, hf, hd, hwrap, -⟩, hrest⟩ := hc
    cases hb with
    | @cons _ b _ bs hb hbs =>
    simp only [List.map_cons, List.nodup_cons] at htemps
    have hloop := (hbody.wrapped hleaf hwrap).counted (hin c (by simp)) hleaf hf hd
      (hb.weaken fun t ht => hV t (.inl ht)) (hW c (by simp))
    have hnest := ih hrest (fun c hc => hin c (by simp [hc])) hbs hloop
      (fun t ht => hV t (by simpa [or_assoc, or_left_comm] using ht))
      (fun c' hc' => by
        rintro (heq | hw)
        · exact htemps.1 (heq ▸ List.mem_map_of_mem hc')
        · exact hW c' (by simp [hc']) hw) htemps.2
    have hsets : (fun t => W t ∨ t ∈ (c :: cs).map (·.temp)) =
        fun t => (t = c.temp ∨ W t) ∨ t ∈ cs.map (·.temp) := by
      funext t
      simp [or_assoc, or_left_comm]
    rw [hsets]
    exact hnest

end ArrayKernel.Running
