import ArrayKernel.Proofs.Excerpt
import ArrayKernel.Proofs.RelocatedAddressing

/-! # What the passes keep -/

namespace ArrayKernel.Ast

/-- The guard of a session that is put behind an empty one. -/
def Keeping.alone (K : Keeping) (s : Session) : Guard where
  before := { settings := s.settings, builders := #[] }
  called _ := True
  keeps := (· = K)
  past _ := False

section

variable {K : Keeping} {s t : Session} {α β : Type} {a : Action α} {b : Action β} {Q : α → β → Prop} {x : α}

theorem alone_keeps {P : Keeping → Prop} (h : P K) : ∀ L, (K.alone s).keeps L → P L := by
  rintro _ rfl
  exact h

theorem alone_holds (K : Keeping) (s : Session) : (K.alone s).Holds s { s with
    nodes := s.nodes.map (·.moved (K.alone s).name)
    specializers := s.specializers.map (K.alone s).specializer } where
  size := by simp [Keeping.alone]
  before i hi := by simp [Keeping.alone] at hi
  node id n hn := by
    refine ⟨n.moved (K.alone s).name, ?_, .of_moved fun _ _ => trivial⟩
    have hname : (K.alone s).name id = id := congrArg NodeId.mk (Nat.zero_add _)
    replace hn : s.nodes[id.index]? = some n := hn
    rw [hname, Session.node?, Array.getElem?_map, hn]
    rfl
  settings := rfl
  kept := rfl
  builders := Array.empty_append.symm
  builder := (Nat.zero_add _).symm
  specializers := Array.empty_append.symm
  functions := (Nat.zero_add _).symm

/-- What an action keeps that does the same in all places. -/
theorem Tracks.kept (h : Tracks (K.alone s) Q a b) (hr : Runs a s x t) (hs : K.Holds s) : K.Holds t ∧ Stays s t :=
  h.keeps (fun _ hK => ⟨hK, hK ▸ hs, fun _ h => h.elim⟩) (alone_holds K s) hr K rfl

end

end ArrayKernel.Ast

namespace ArrayKernel

open Ast

/-- A kernel is specialized under one property and finished under another. -/
theorem specializeKernel_kept {K L : Keeping} (hw : Warns K) (hr : Resolves L) (hKL : ∀ s, K.Holds s → L.Holds s)
    {kernel o : Operand} {scheme : Layout.Scheme} {s t : Session} (h : Runs (specializeKernel kernel scheme) s o t)
    (hs : K.Holds s) : L.Holds t := by
  obtain ⟨_, s₁, h₁, h⟩ := runs_bind.1 h
  obtain ⟨sp, s₂, h₂, h⟩ := runs_bind.1 h
  obtain ⟨copy, s₃, hcopy, h⟩ := runs_bind.1 h
  obtain ⟨special, s₄, hspecial, hlast⟩ := runs_bind.1 h
  rw [startBuilder, runs_get_bind, runs_set_bind, runs_pure] at h₁
  rw [addSpecializer, runs_get_bind, runs_set_bind, runs_pure] at h₂
  obtain ⟨-, rfl⟩ := h₁
  obtain ⟨-, rfl⟩ := h₂
  have hs₃ := ((moves_clone kernel).kept hcopy (K.same hs (fun _ => rfl) rfl)).1
  have hs₄ := ((Layout.visiting_specializeWithin (alone_keeps hw) depthLimit copy).kept hspecial hs₃).1
  exact ((Layout.moves_finish (alone_keeps hr) special).kept hlast (hKL s₄ hs₄)).1

end ArrayKernel
