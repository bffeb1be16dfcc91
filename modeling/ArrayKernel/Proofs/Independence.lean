import ArrayKernel.Proofs.Excerpt
import ArrayKernel.Proofs.RelocatedAddressing
import ArrayKernel.Proofs.RelocatedEmission

/-!
# Independent specializations

Each run of a kernel copies it first, and then does to the copy what it would do to the session of the kernel on
its own. So runs do not see each other: none of them changes the kernel, and each of them writes the code it would
write alone, up to the numbers of functions.
-/

namespace ArrayKernel

open Ast

variable {E : Frame}
variable {schemes : List Layout.Scheme} {build : Action Operand} {scheme : Layout.Scheme} {kernel : Operand}
variable {r : Operand × Code}

/-! ## A run inside another session -/

def specializeCopy (sp : Nat) (copy : Operand) : Action Operand := do
  let o ← Layout.specialize sp copy
  let o ← if (← settings).addressing then Layout.address sp o else pure o
  Layout.promoteTypes o

def runCopy (sp : Nat) (copy : Operand) : Action (Operand × Code) := do
  let specialized ← specializeCopy sp copy
  let code ← emitKernel specialized
  return (specialized, code)

theorem runKernel_eq (kernel : Operand) (scheme : Layout.Scheme) : runKernel kernel scheme = (do
      let _ ← startBuilder
      let sp ← addSpecializer scheme
      let copy ← clone kernel
      runCopy sp copy) := by
  have hspecialize : specializeKernel kernel scheme = (do
      let _ ← startBuilder
      let sp ← addSpecializer scheme
      let copy ← clone kernel
      specializeCopy sp copy) := rfl
  simp only [runKernel, hspecialize, bind_assoc, runCopy]

structure Code.Recounted (called : String → Prop) (m n : Nat) (a b : Code) : Prop where
  prototypes : Emit.Recounted called m n a.prototypes b.prototypes
  body : Emit.Recounted called m n a.body b.body

theorem Code.Recounted.eq {called : String → Prop} {n : Nat} {a b : Code} (h : a.Recounted called n n b) : a = b := by
  obtain ⟨hp, hb⟩ := h
  cases a
  cases b
  exact congrArg₂ Code.mk hp.eq hb.eq

theorem tracks_emitKernel (o : Operand) :
    Tracks E.loose (Code.Recounted E.called 0 E.before.functions) (emitKernel o) (emitKernel (E.operand o)) := by
  refine ((Emit.tracks_emitWithin depthLimit o).run Emit.Emitter.Moved.start).bind ?_
  rintro ⟨_, e⟩ ⟨_, e'⟩ ⟨-, he⟩
  exact tracks_pure ⟨he.prototypes, he.code⟩

theorem moves_specializeCopy (sp : Nat) (o : Operand) :
    Moves E.loose E.operand (specializeCopy sp o) (specializeCopy (E.slot sp) (E.operand o)) :=
  Moves.bind (Layout.visiting_specializeWithin (E := E.loose) (fun _ h => h.elim) depthLimit o) fun o =>
    Layout.moves_finish (E := E.loose) (fun _ h => h.elim) o

theorem tracks_runCopy (sp : Nat) (o : Operand) :
    Tracks E.loose (fun r r' => r.2.Recounted E.called 0 E.before.functions r'.2)
      (runCopy sp o) (runCopy (E.slot sp) (E.operand o)) :=
  (moves_specializeCopy sp o).bind fun o => (tracks_emitKernel o).bind fun _ _ h => tracks_pure h

theorem runs_runKernel {u t : Session} : Runs (runKernel kernel scheme) u r t ↔
      Runs (runCopy u.specializers.size (kernel.rename (copyOf u kernel))) (prepared u kernel scheme) r t := by
  simp only [runKernel_eq, startBuilder, addSpecializer, bind_assoc, pure_bind, runs_get_bind, runs_set_bind]
  rw [runs_bind]
  simp only [runs_clone_iff]
  constructor
  · rintro ⟨_, _, ⟨rfl, rfl⟩, h⟩
    exact h
  · exact fun h => ⟨_, _, ⟨rfl, rfl⟩, h⟩

/-! ## Runs of one kernel -/

section

variable {s u t : Session} {kernel : Operand} {scheme : Layout.Scheme} {r : Operand × Code}

theorem Ast.Session.Whole.runs_excerpt (hw : s.Whole kernel) (hg : s.Grown u)
    (h : Runs (runKernel kernel scheme) u r t) :
    s.Grown t ∧ ∃ alone w, Runs (runCopy 0 (excerptKernel s kernel)) (excerpt s kernel scheme) alone w ∧
      alone.2.Recounted s.Calls 0 u.functions r.2 := by
  rw [runs_runKernel, excerptKernel_moved hw hg] at h
  obtain ⟨alone, w, hw', hcode, hholds⟩ := (tracks_runCopy 0 (excerptKernel s kernel)).back
    (fun _ h => h.elim) (prepared_holds hw hg) h
  refine ⟨⟨?_, ?_, ?_⟩, alone, w, hw', hcode⟩
  · rw [hholds.size]
    exact Nat.le_trans hg.size (Nat.le_add_right _ _)
  · intro i hi
    rw [hholds.before i (Nat.lt_of_lt_of_le hi hg.size)]
    exact hg.nodes i hi
  · rw [hholds.kept]
    exact hg.settings

theorem Ast.Session.Whole.runs_of_excerpt (hw : s.Whole kernel) (hg : s.Grown u) {alone : Operand × Code} {w : Session}
    (h : Runs (runCopy 0 (excerptKernel s kernel)) (excerpt s kernel scheme) alone w) :
    ∃ r t, Runs (runKernel kernel scheme) u r t ∧ alone.2.Recounted s.Calls 0 u.functions r.2 := by
  obtain ⟨r, t, hr, hcode, -⟩ := (tracks_runCopy 0 (excerptKernel s kernel)).forth
    (fun _ h => h.elim) (prepared_holds hw hg) h
  refine ⟨r, t, ?_, hcode⟩
  rw [runs_runKernel, excerptKernel_moved hw hg]
  exact hr

theorem Ast.Session.Grown.refl (s : Session) : s.Grown s := ⟨Nat.le_refl _, fun _ _ => rfl, rfl⟩

end

def Ast.Session.fresh (s : Session) : Session := { nodes := s.nodes, settings := s.settings }

/-- The result of a run that is one of many is that of a run alone, up to the numbers of functions. -/
def RunsAlone (s : Session) (kernel : Operand) (scheme : Layout.Scheme) (code : Code) : Prop :=
  ∃ alone t n, Runs (runKernel kernel scheme) s.fresh alone t ∧ alone.2.Recounted s.Calls 0 n code

theorem runsAlone_of_runs {s u t : Session}
    (hw : s.Whole kernel) (hg : s.Grown u) (h : Runs (runKernel kernel scheme) u r t) :
    s.Grown t ∧ RunsAlone s kernel scheme r.2 := by
  obtain ⟨hgrown, alone, w, hexcerpt, hcode⟩ := hw.runs_excerpt hg h
  have hfresh : s.Grown s.fresh := ⟨Nat.le_refl _, fun _ _ => rfl, rfl⟩
  obtain ⟨own, t', hown, hsame⟩ := hw.runs_of_excerpt hfresh hexcerpt
  rw [Code.Recounted.eq hsame] at hcode
  exact ⟨hgrown, own, t', u.functions, hown, hcode⟩

theorem runs_all_of_each {s u : Session} (hw : s.Whole kernel)
    (hg : s.Grown u) (h : ∀ scheme ∈ schemes, ∃ r t, Runs (runKernel kernel scheme) s r t) :
    ∃ results t, Runs (schemes.mapM (runKernel kernel)) u results t := by
  induction schemes generalizing u with
  | nil => exact ⟨[], u, runs_pure.2 ⟨rfl, rfl⟩⟩
  | cons scheme schemes ih =>
    obtain ⟨r, t, hr⟩ := h scheme (List.mem_cons_self ..)
    obtain ⟨-, alone, w, hexcerpt, -⟩ := hw.runs_excerpt (.refl s) hr
    obtain ⟨r', v, hfirst, -⟩ := hw.runs_of_excerpt hg hexcerpt
    obtain ⟨rs, t', hrest⟩ := ih (runsAlone_of_runs hw hg hfirst).1 fun x hx => h x (List.mem_cons_of_mem _ hx)
    refine ⟨r' :: rs, t', ?_⟩
    rw [List.mapM_cons]
    exact runs_bind.2 ⟨r', v, hfirst, runs_bind.2 ⟨rs, t', hrest, runs_pure.2 ⟨rfl, rfl⟩⟩⟩

/-- Runs of a kernel under many schemes leave the kernel as it is, and each of them writes the code of a run alone
on the same kernel, up to the numbers of functions. -/
theorem runs_independent {s t : Session} {kernel : Operand} {schemes : List Layout.Scheme}
    {results : List (Operand × Code)} (hw : s.Whole kernel)
    (h : Runs (schemes.mapM (runKernel kernel)) s results t) :
    (∀ id : NodeId, id.index < s.nodes.size → t.node? id = s.node? id) ∧
      List.Forall₂ (fun scheme r => RunsAlone s kernel scheme r.2) schemes results := by
  have hall : ∀ (schemes : List Layout.Scheme) (u t) results, s.Grown u →
      Runs (schemes.mapM (runKernel kernel)) u results t →
      s.Grown t ∧ List.Forall₂ (fun scheme r => RunsAlone s kernel scheme r.2) schemes results := by
    intro schemes
    induction schemes with
    | nil =>
      intro u t results hg h
      obtain ⟨rfl, rfl⟩ := runs_pure.1 h
      exact ⟨hg, .nil⟩
    | cons scheme schemes ih =>
      intro u t results hg h
      rw [List.mapM_cons] at h
      obtain ⟨r, v, hfirst, h⟩ := runs_bind.1 h
      obtain ⟨rs, v', hrest, h⟩ := runs_bind.1 h
      obtain ⟨rfl, rfl⟩ := runs_pure.1 h
      obtain ⟨hgrown, halone⟩ := runsAlone_of_runs hw hg hfirst
      obtain ⟨hgrown', hothers⟩ := ih v _ rs hgrown hrest
      exact ⟨hgrown', .cons halone hothers⟩
  obtain ⟨hgrown, halone⟩ := hall schemes s t results (.refl s) h
  exact ⟨fun id hid => hgrown.nodes id.index hid, halone⟩

/-- Adds one to each element, twice. Both sums use one constant. -/
def addOneTwice : Action Operand := do
  let type := CType.array CType.float64 1 false false false none
  let array ← Build.variableOf type (.text "a")
  let one ← Build.constant (.int 1)
  let value ← Build.binop type "+" (← Build.binop type "+" array one) one
  Build.functionOver [array] (← Build.assign array value) (.text "f")

def runsUnder (build : Action Operand) (schemes : List Layout.Scheme) : Bool :=
  match build.runOn {} with
  | (.ok kernel, s) => decide (s.Whole kernel) && schemes.all fun scheme => (runKernel kernel scheme).succeeds s
  | _ => false

theorem exists_of_runsUnder
    (h : runsUnder build schemes = true) : ∃ kernel s results t, Runs build {} kernel s ∧ s.Whole kernel ∧
      Runs (schemes.mapM (runKernel kernel)) s results t := by
  unfold runsUnder at h
  split at h
  · next kernel s hbuild =>
    obtain ⟨hwhole, hrun⟩ := Bool.and_eq_true_iff.1 h
    have hwhole := of_decide_eq_true hwhole
    obtain ⟨results, t, hall⟩ := runs_all_of_each hwhole (.refl s)
      fun scheme hscheme => exists_runs (List.all_eq_true.1 hrun scheme hscheme)
    exact ⟨kernel, s, results, t, hbuild, hwhole, hall⟩
  · cases h

theorem runsUnder_cons (h : runsUnder build [scheme] = true) (hs : runsUnder build schemes = true) :
    runsUnder build (scheme :: schemes) = true := by
  unfold runsUnder at h hs ⊢
  split at h
  · next hbuild =>
    simp only [hbuild, List.all_cons, List.all_nil, Bool.and_true, Bool.and_eq_true] at h hs ⊢
    exact ⟨h.1, h.2, hs.2⟩
  · cases h

theorem addOneTwice_runs_independent : ∃ kernel s results t, Runs addOneTwice {} kernel s ∧ s.Whole kernel ∧
    Runs ([⟨.contiguous, .rowMajor, none⟩, ⟨.strided, .rowMajor, none⟩].mapM (runKernel kernel)) s results t ∧
    (∀ id : NodeId, id.index < s.nodes.size → t.node? id = s.node? id) ∧
    List.Forall₂ (fun scheme r => RunsAlone s kernel scheme r.2)
      [⟨.contiguous, .rowMajor, none⟩, ⟨.strided, .rowMajor, none⟩] results := by
  have hcontiguous : runsUnder addOneTwice [⟨.contiguous, .rowMajor, none⟩] = true := by decide +kernel
  have hstrided : runsUnder addOneTwice [⟨.strided, .rowMajor, none⟩] = true := by decide +kernel
  have h := runsUnder_cons hcontiguous hstrided
  obtain ⟨kernel, s, results, t, hbuild, hwhole, hrun⟩ := exists_of_runsUnder h
  exact ⟨kernel, s, results, t, hbuild, hwhole, hrun, runs_independent hwhole hrun⟩

end ArrayKernel
