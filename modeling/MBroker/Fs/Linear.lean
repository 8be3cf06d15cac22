import MBroker.Fs.Threads
import MBroker.Fs.Refines

/- TecnicoFS under any number of threads. Whatever their turns, what the threads are
   answered is what one thread would be that makes the same calls in the order in
   which they give the mutex back, so all that holds of runs of whole calls holds
   of the threads' runs: the tables are in a reachable state whenever no call is
   inside, and for disciplined clients the answers are the volume's. -/
namespace MBroker.Fs.Threads
open MBroker.Lib Critical Function

variable {T : Type} [Fintype T] [DecidableEq T] {params : TfsParams} {s₀ s : FsState}

theorem execAll_whole (s : FsState) (ops : List Op) :
    execAll library.whole s ops = execAll step s ops := by
  rw [show library.whole = step from funext fun s => funext (whole_eq s)]

theorem reachable_execAll (h : Reachable (Initial params) Steps s) {ops : List Op}
    {rs : List Ret} {t : FsState} (he : execAll step s ops = .ok (rs, t)) :
    Reachable (Initial params) Steps t := by
  induction ops generalizing s rs with
  | nil =>
    cases he
    exact h
  | cons op ops ih =>
    obtain ⟨r, u, rs', hstep, hrest, -⟩ := execAll_cons he
    exact ih (h.step ⟨r, hstep⟩) hrest

/-! ## Two threads -/

/-- One thread makes `/a` while another wants to read from handle 0, which it does
once the first has given the mutex back. -/
def makeAndRead : List (Turn (Fin 2) library.Point × System (Fin 2)) :=
  runTurns library.program (library.start small)
    ([.call 0 (.entering (.open (some pathA) tfsOCreat)), .run 0 fun _ => false,
      .call 1 (.entering (.read 0 5))] ++
      List.replicate 6 (.run 0 fun _ => false) ++ List.replicate 5 (.run 1 fun _ => false))

theorem run_makeAndRead : Run (Turns library.program) (library.start small) makeAndRead :=
  run_runTurns ..

/-! ## Every run -/

/-- The calls a thread made in a run, and those it was answered. -/
def callsOf (t : T) (ρ : List (Turn T library.Point × System T)) : List Op :=
  ((calls ρ).filter fun y => y.1 = t).map Prod.snd

def answeredOf (t : T) (ρ : List (Turn T library.Point × System T)) : List Op :=
  ((answers ρ).filter fun y => y.1 = t).map fun y => y.2.1

theorem explained_run {ρ : List (Turn T library.Point × System T)}
    (hr : Run (Turns library.program) (library.start s₀) ρ) :
    ∃ s, execAll step s₀ ((answers ρ).map fun y => y.2.1) =
        .ok ((answers ρ).map fun y => y.2.2, s) ∧
      Explained s (lastState (library.start s₀) ρ) := by
  obtain ⟨s, hs, hE⟩ := (Explained.start (K := library) s₀).run hr
  rw [execAll_whole] at hs
  exact ⟨s, hs, hE⟩

/-- TecnicoFS is linearizable. -/
theorem linearizable (h₀ : Initial params s₀) {ρ : List (Turn T library.Point × System T)}
    (hr : Run (Turns library.program) (library.start s₀) ρ) :
    ∃ s, execAll step s₀ ((answers ρ).map fun y => y.2.1) =
        .ok ((answers ρ).map fun y => y.2.2, s) ∧
      Reachable (Initial params) Steps s ∧
      ((lastState (library.start s₀) ρ).owner .gLibraryMutex = none →
        (lastState (library.start s₀) ρ).memory = s) ∧
      ∀ t, callsOf t ρ = answeredOf t ρ ++ (pending (lastState (library.start s₀) ρ) t).toList := by
  obtain ⟨s, hs, hE⟩ := explained_run hr
  refine ⟨s, hs, reachable_execAll (.start h₀) hs, hE.free, fun t => ?_⟩
  have hcalls := calls_answered hr t
  rwa [show (pending (library.start s₀) t).toList = [] from rfl, List.nil_append] at hcalls

theorem linearizable_makeAndRead :
    ∃ s, execAll step small ((answers makeAndRead).map fun y => y.2.1) =
        .ok ((answers makeAndRead).map fun y => y.2.2, s) ∧
      Reachable (Initial smallParams) Steps s ∧
      ((lastState (library.start small) makeAndRead).owner .gLibraryMutex = none →
        (lastState (library.start small) makeAndRead).memory = s) ∧
      ∀ t, callsOf t makeAndRead = answeredOf t makeAndRead ++
        (pending (lastState (library.start small) makeAndRead) t).toList :=
  linearizable initial_small run_makeAndRead

/-- The threads of disciplined clients see the volume: with the calls taken in the
order in which they give the mutex back, the answers are the volume's, the tables
show the volume whenever no call is inside, and a call that ends the process is not
disciplined. -/
theorem concurrent_volume (hp : params.Sane) (h₀ : Initial params s₀)
    {ρ : List (Turn T library.Point × System T)}
    (hr : Run (Turns library.program) (library.start s₀) ρ)
    (hD : Allowed (Volume.step params) (Volume.Disciplined params) .empty
      ((answers ρ).map fun y => y.2.1)) :
    ((answers ρ).map fun y => y.2.2) =
        (runAll (Volume.step params) .empty ((answers ρ).map fun y => y.2.1)).1 ∧
      ((lastState (library.start s₀) ρ).owner .gLibraryMutex = none →
        View (lastState (library.start s₀) ρ).memory
          (runAll (Volume.step params) .empty ((answers ρ).map fun y => y.2.1)).2) ∧
      ∀ t op e h,
        (lastState (library.start s₀) ρ).status t = .running (.inside op (.abort e) h) →
        ¬ (runAll (Volume.step params) .empty ((answers ρ).map fun y => y.2.1)).2.Disciplined
          params op := by
  obtain ⟨s, hs, hE⟩ := explained_run hr
  obtain ⟨s', hs', hR⟩ := (refines_step params).run (refines_initial hp h₀) hD
  rw [hs] at hs'
  obtain ⟨hrets, rfl⟩ : _ = _ ∧ s = s' := by simpa using hs'
  refine ⟨hrets, fun hfree => ?_, fun t op e h hst hop => ?_⟩
  · rw [hE.free hfree]
    exact hR.view
  · obtain ⟨op', p, h', hst', hrun⟩ := hE.held t (hE.owned.ownerAt hst rfl)
    rw [hst] at hst'
    cases hst'
    obtain ⟨t', ht', -⟩ := refines_step params s _ op hR hop
    rw [whole_eq, ht'] at hrun
    cases hrun

theorem concurrent_volume_makeAndRead :
    ((answers makeAndRead).map fun y => y.2.2) = [⟨0, []⟩, ⟨0, []⟩] ∧
      ((answers makeAndRead).map fun y => y.2.2) = (runAll (Volume.step smallParams) .empty
        ((answers makeAndRead).map fun y => y.2.1)).1 ∧
      ((lastState (library.start small) makeAndRead).owner .gLibraryMutex = none →
        View (lastState (library.start small) makeAndRead).memory
          (runAll (Volume.step smallParams) .empty ((answers makeAndRead).map fun y => y.2.1)).2) ∧
      ∀ t op e h, (lastState (library.start small) makeAndRead).status t =
        .running (.inside op (.abort e) h) →
        ¬ (runAll (Volume.step smallParams) .empty
          ((answers makeAndRead).map fun y => y.2.1)).2.Disciplined smallParams op := by
  refine ⟨by decide +kernel, concurrent_volume smallParams_sane initial_small run_makeAndRead ?_⟩
  have hans : ((answers makeAndRead).map fun y => y.2.1) =
      [.open (some pathA) tfsOCreat, .read 0 5] := by
    rfl
  rw [hans]
  exact ⟨fun ht => absurd ht (by decide), (by decide : 5 < 2 ^ 63), trivial⟩

/-- At most one thread is inside a call, and every call under way can be answered, or the
process end in a failed assertion or a copy out of a block: no path leaves the mutex locked. -/
theorem never_deadlocks {ρ : List (Turn T library.Point × System T)}
    (hr : Run (Turns library.program) (library.start s₀) ρ) :
    (∀ t u op op' p p' h h',
      (lastState (library.start s₀) ρ).status t = .running (.inside op p h) →
      (lastState (library.start s₀) ρ).status u = .running (.inside op' p' h') → t = u) ∧
    ∀ t op, pending (lastState (library.start s₀) ρ) t = some op →
      ∃ σ, Run (Turns library.program) (lastState (library.start s₀) ρ) σ ∧
        ((∃ r, (lastState (lastState (library.start s₀) ρ) σ).status t =
            .running (.answered op r)) ∨
          Ended (lastState (lastState (library.start s₀) ρ) σ)) := by
  obtain ⟨s, -, hE⟩ := explained_run hr
  refine ⟨fun t u op op' p p' h h' ht hu => ?_, fun t op ht => can_answer hE.owned ht⟩
  have howner := hE.owned.ownerAt (k := .gLibraryMutex) ht rfl
  rw [hE.owned.ownerAt hu rfl] at howner
  exact (Option.some.inj howner).symm

theorem never_deadlocks_makeAndRead :
    (∀ t u op op' p p' h h',
      (lastState (library.start small) makeAndRead).status t = .running (.inside op p h) →
      (lastState (library.start small) makeAndRead).status u = .running (.inside op' p' h') →
      t = u) ∧
    ∀ t op, pending (lastState (library.start small) makeAndRead) t = some op →
      ∃ σ, Run (Turns library.program) (lastState (library.start small) makeAndRead) σ ∧
        ((∃ r, (lastState (lastState (library.start small) makeAndRead) σ).status t =
            .running (.answered op r)) ∨
          Ended (lastState (lastState (library.start small) makeAndRead) σ)) :=
  never_deadlocks run_makeAndRead

end MBroker.Fs.Threads
