import MBroker.Fs.Linear
import MBroker.Fs.Tape

/- Threads that keep off each other's files. Whatever the turns of all the threads are, the
   calls on a handle return what accesses of a tape do, as long as nobody closes the handle
   and nobody writes its file through another (`handle_undisturbed`). -/
namespace MBroker.Fs.Threads
open MBroker.Lib Critical Function

variable {T : Type} [Fintype T] [DecidableEq T] {params : TfsParams} {s₀ : FsState}
  {ρ σ : List (Turn T library.Point × System T)}

/-- The calls that were answered, in the order in which they gave the mutex back. -/
def opsOf (ρ : List (Turn T library.Point × System T)) : List Op := (answers ρ).map fun y => y.2.1

def retsOf (ρ : List (Turn T library.Point × System T)) : List Ret := (answers ρ).map fun y => y.2.2

omit [Fintype T] [DecidableEq T] in
theorem opsOf_append (ρ σ : List (Turn T library.Point × System T)) :
    opsOf (ρ ++ σ) = opsOf ρ ++ opsOf σ := by
  unfold opsOf answers
  rw [List.filterMap_append, List.map_append]

omit [Fintype T] [DecidableEq T] in
theorem retsOf_append (ρ σ : List (Turn T library.Point × System T)) :
    retsOf (ρ ++ σ) = retsOf ρ ++ retsOf σ := by
  unfold retsOf answers
  rw [List.filterMap_append, List.map_append]

omit [Fintype T] [DecidableEq T] in
theorem length_retsOf (ρ : List (Turn T library.Point × System T)) :
    (retsOf ρ).length = (opsOf ρ).length := by
  rw [retsOf, opsOf, List.length_map, List.length_map]

/-- What a volume answers in the second part of a run, the first part being disciplined. -/
theorem volume_answers (hp : params.Sane) (h₀ : Initial params s₀)
    (hρ : Run (Turns library.program) (library.start s₀) ρ)
    (hσ : Run (Turns library.program) (lastState (library.start s₀) ρ) σ)
    (hD : Allowed (Volume.step params) (Volume.Disciplined params) .empty (opsOf (ρ ++ σ))) :
    ∃ s, Refines params s (runAll (Volume.step params)
        (runAll (Volume.step params) .empty (opsOf ρ)).2 (opsOf σ)).2 ∧
      Explained s (lastState (lastState (library.start s₀) ρ) σ) ∧
      retsOf σ = (runAll (Volume.step params)
        (runAll (Volume.step params) .empty (opsOf ρ)).2 (opsOf σ)).1 := by
  obtain ⟨s, hs, hE⟩ := explained_run (hρ.append hσ)
  obtain ⟨s', hs', hR⟩ := (refines_step params).run (refines_initial hp h₀) hD
  have heq := hs.symm.trans hs'
  rw [Except.ok.injEq, Prod.mk.injEq] at heq
  obtain ⟨hrets, rfl⟩ := heq
  change retsOf (ρ ++ σ) = _ at hrets
  rw [retsOf_append, opsOf_append, runAll_append] at hrets
  rw [opsOf_append, runAll_append] at hR
  rw [lastState_append] at hE
  have hlen : (retsOf ρ).length = (runAll (Volume.step params) .empty (opsOf ρ)).1.length := by
    rw [length_retsOf, length_runAll]
  exact ⟨s, hR, hE, (List.append_inj hrets hlen).2⟩

/-- Whatever the turns of the threads are, the calls on a handle return what accesses of a
tape get, and leave the file and the offset as those leave the tape, so long as the calls of
all threads leave the handle open and its file to it. -/
theorem handle_undisturbed (hp : params.Sane) (h₀ : Initial params s₀)
    (hρ : Run (Turns library.program) (library.start s₀) ρ)
    (hσ : Run (Turns library.program) (lastState (library.start s₀) ρ) σ) {h pos : Nat}
    {x : FileName}
    (hD : Allowed (Volume.step params) (Volume.Disciplined params) .empty (opsOf ρ))
    (hopen : (runAll (Volume.step params) .empty (opsOf ρ)).2.handles h = some (x, pos))
    (hY : Allowed (Volume.step params) (Volume.Yields params h x)
      (runAll (Volume.step params) .empty (opsOf ρ)).2 (opsOf σ)) :
    ∃ held, (runAll (Volume.step params) .empty (opsOf ρ)).2.files.lookup x = some held ∧
      returned h (opsOf σ) (retsOf σ) = (runAll (Tape.access params.blockSize) ⟨held, pos⟩
        ((opsOf σ).filterMap (Op.access? h))).1.map .of ∧
      ((lastState (lastState (library.start s₀) ρ) σ).owner .gLibraryMutex = none →
        tapeOf (lastState (lastState (library.start s₀) ρ) σ).memory h =
          (runAll (Tape.access params.blockSize) ⟨held, pos⟩
            ((opsOf σ).filterMap (Op.access? h))).2) := by
  have hall : Allowed (Volume.step params) (Volume.Disciplined params) .empty (opsOf (ρ ++ σ)) := by
    rw [opsOf_append]
    exact (allowed_append _ _ _).mpr ⟨hD, Volume.Yields.allowed hY⟩
  obtain ⟨s, hR, hE, hrets⟩ := volume_answers hp h₀ hρ hσ hall
  obtain ⟨s₁, -, hR₁⟩ := (refines_step params).run (refines_initial hp h₀) hD
  have hA := hR₁.tapeOf hopen
  have hpos := hA.pos_eq hopen
  obtain ⟨hreturned, hat⟩ := hA.run hY
  refine ⟨(tapeOf s₁ h).held, hA.held, ?_, fun hfree => ?_⟩
  · rw [hrets, hreturned, hpos]
  · rw [hE.free hfree, hR.tape_eq hat, hpos]

/-! ### Two threads that write their own files -/

/-- One thread makes `/a`, and then another `/b`. -/
def bothMake : List (Turn Bool library.Point × System Bool) :=
  runTurns library.program (library.start small)
    ([.call false (.entering (.open (some pathA) tfsOCreat))] ++
      List.replicate 7 (.run false fun _ => false) ++
      [.call true (.entering (.open (some pathB) tfsOCreat))] ++
      List.replicate 7 (.run true fun _ => false))

/-- Both come to write at once. -/
def bothWrite : List (Turn Bool library.Point × System Bool) :=
  runTurns library.program (lastState (library.start small) bothMake)
    ([.call false (.entering (.write 0 (fun _ => 7) 3)),
        .call true (.entering (.write 1 (fun _ => 8) 2))] ++
      List.replicate 15 (.run false fun _ => false) ++ List.replicate 15 (.run true fun _ => false))

theorem opsOf_bothMake :
    opsOf bothMake = [.open (some pathA) tfsOCreat, .open (some pathB) tfsOCreat] := by
  rfl

theorem opsOf_bothWrite :
    opsOf bothWrite = [.write 0 (fun _ => 7) 3, .write 1 (fun _ => 8) 2] := by
  rfl

theorem handle_undisturbed_bothWrite :
    ∃ held, (runAll (Volume.step smallParams) .empty (opsOf bothMake)).2.files.lookup nameA =
        some held ∧
      returned 0 (opsOf bothWrite) (retsOf bothWrite) = (runAll (Tape.access 100) ⟨held, 0⟩
        ((opsOf bothWrite).filterMap (Op.access? 0))).1.map .of ∧
      ((lastState (lastState (library.start small) bothMake) bothWrite).owner .gLibraryMutex =
          none →
        tapeOf (lastState (lastState (library.start small) bothMake) bothWrite).memory 0 =
          (runAll (Tape.access 100) ⟨held, 0⟩ ((opsOf bothWrite).filterMap (Op.access? 0))).2) := by
  have hρ : Run (Turns library.program) (library.start small) bothMake := run_runTurns ..
  have hσ : Run (Turns library.program) (lastState (library.start small) bothMake) bothWrite :=
    run_runTurns ..
  refine handle_undisturbed (ρ := bothMake) (σ := bothWrite) smallParams_sane initial_small hρ hσ
    ?_ ?_ ?_
  · rw [opsOf_bothMake]
    exact ⟨fun ht => absurd ht (by decide), fun ht => absurd ht (by decide), trivial⟩
  · rw [opsOf_bothMake]
    decide
  · rw [opsOf_bothMake, opsOf_bothWrite]
    refine ⟨⟨(by decide : 3 < 2 ^ 63), nofun, ?_, fun _ _ _ => .inr (by decide)⟩,
      ⟨(by decide : 2 < 2 ^ 63), nofun, ?_, ?_⟩, trivial⟩
    · intro fhandle buffer toWrite offset heq hne
      cases heq
      exact absurd rfl hne
    · intro fhandle buffer toWrite offset heq hne hopened
      cases heq
      have hname : Option.map Prod.fst _ = some nameA := congrArg (Option.map Prod.fst) hopened
      exact absurd hname (by decide)
    · intro buffer toWrite heq
      injection heq with hhandle
      exact absurd hhandle (by decide)

end MBroker.Fs.Threads
