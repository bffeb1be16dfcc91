import ArrayKernel.Proofs.Shape

/-! # Marks on loops -/

namespace ArrayKernel.Ast

open Running

variable {s s₀ t u : Session} {id fid : NodeId} {g : Region} {ids : List NodeId} {k : Function → Function}
variable {loops : List Operand}

/-! ## Marking several loops -/

structure Remarked (g : Region) (s₀ s t : Session) : Prop where
  keeps : Keeps (fun _ => False) s t
  grown : Extends g s₀ s → Extends g s₀ t
  size : t.nodes.size = s.nodes.size
  specializers : t.specializers = s.specializers

theorem Remarked.refl : Remarked g s₀ s s := ⟨Extends.refl.keeps (g := g), id, rfl, rfl⟩

theorem Remarked.trans (h : Remarked g s₀ s t) (h' : Remarked g s₀ t u) : Remarked g s₀ s u where
  keeps := h.keeps.trans h'.keeps
  grown hx := h'.grown (h.grown hx)
  size := h'.size.trans h.size
  specializers := h'.specializers.trans h.specializers

theorem Remarked.onLoop {k : Loop → Loop} (hid : s₀.nodes.size ≤ id.index) (hk : ∀ l : Loop, l.Like (k l)) :
    Remarked g s₀ s (s.alter id (Node.reform (Form.onLoop k))) where
  keeps := .onLoop hk
  grown hx := hx.onLoop_new hid fun l => by
    obtain ⟨h1, h2, h3, h4, -⟩ := hk l
    simp [Form.children, h1, h2, h3, h4]
  size := by simp
  specializers := rfl

theorem markAll_spec {k : Loop → Loop} {r : PUnit} (h : Runs (forIn loops PUnit.unit fun loop _ => do
      updateLoop (← identity loop) k
      pure (ForInStep.yield PUnit.unit)) s r t)
    (hk : ∀ l : Loop, l.Like (k l)) (hnew : ∀ id, .node id ∈ loops → s₀.nodes.size ≤ id.index) :
    Remarked g s₀ s t := by
  induction loops generalizing s with
  | nil =>
    obtain ⟨-, rfl⟩ := runs_pure.1 h
    exact .refl
  | cons loop loops ih =>
    simp only [List.forIn_cons, runs_bind, runs_identity, runs_updateLoop, runs_pure] at h
    obtain ⟨_, _, ⟨_, _, ⟨rfl, rfl⟩, _, _, rfl, rfl, rfl⟩, h⟩ := h
    exact (Remarked.onLoop (hnew _ (by simp)) hk).trans (ih h fun id hid => hnew id (by simp [hid]))

theorem setDims_spec {dims : Layout.DimRange} {r : Unit}
    (h : Runs (Layout.setDims dims loops) s r t) (hnew : ∀ id, .node id ∈ loops → s₀.nodes.size ≤ id.index) :
    Remarked g s₀ s t := by
  unfold Layout.setDims at h
  have hzip : ∀ p ∈ dims.dims.reverse.zip loops, p.2 ∈ loops := fun p hp => (List.of_mem_zip hp).2
  generalize dims.dims.reverse.zip loops = ps at h hzip
  induction ps generalizing s with
  | nil =>
    obtain ⟨-, rfl⟩ := runs_pure.1 h
    exact .refl
  | cons p ps ih =>
    obtain ⟨d, loop⟩ := p
    simp only [List.forM, runs_bind, runs_identity, runs_updateLoop] at h
    obtain ⟨_, _, ⟨id, s', ⟨rfl, rfl⟩, rfl⟩, h⟩ := h
    exact .trans (.onLoop (hnew id (hzip (d, .node id) (by simp))) fun _ => by simp [Loop.Like])
      (ih h fun p hp => hzip p (by simp [hp]))

/-! ## Marking functions -/

def Form.onFunction (k : Function → Function) : Form → Form
  | .function f => .function (k f)
  | f => f

theorem runs_updateFunction {r : Unit} :
    Runs (updateFunction id k) s r t ↔ t = s.alter id (Node.reform (Form.onFunction k)) :=
  runs_updateForm

theorem Keeps.onFunction :
    Keeps (fun _ => False) s (s.alter id (Node.reform (Form.onFunction k))) where
  form? {j f} hf := by
    rw [form?_reform, hf]
    split
    · refine ⟨_, rfl, ?_⟩
      cases f with
      | function F => exact ⟨_, rfl⟩
      | _ => exact .refl _ _
    · exact ⟨f, rfl, .refl _ _⟩
  type? ht := by rwa [type?_reform]

theorem Region.Closed.outside {k : Form → Form} (hc : g.Closed s)
    (ho : ¬ g.base fid ∧ fid.index < g.start) : g.Closed (s.alter fid (Node.reform k)) := by
  refine hc.reform fun f _ hid => ?_
  rcases hid.1 with hb | hle
  · exact absurd hb ho.1
  · exact absurd ho.2 (Nat.not_lt.2 hle)

end ArrayKernel.Ast
