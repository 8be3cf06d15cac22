import MBroker.Lib.Stall
import MBroker.Queue.Wedge

/- What comes after the wait of a producer. It sleeps with `pcq_tail_lock` and
   `pcq_current_size_lock`, and finds the queue as full as it was whenever it wakes. So the
   queue stays as it is for good, and no call that is under way ever returns
   (`stalled_for_good`). -/
namespace MBroker.Queue
open MBroker.Lib Function

variable {E T : Type} {s s' : System T E} {t : T} {q : PcQueue E}

/-- The producer found the queue full, and waits for space or is about to. -/
def WaitsForSpace (s : System T E) (t : T) : Prop :=
  foundFull (s.status t) = true ∨ (s.status t).AsleepOn .pusher ∨ (s.status t).WokenFrom .pusher

instance (s : System T E) (t : T) : Decidable (WaitsForSpace s t) :=
  inferInstanceAs (Decidable (_ ∨ _ ∨ _))

/-- The points a producer goes round between while the queue is full. -/
def Pc.waits : Pc E → Prop
  | .enqTest _ | .enqWait _ => True
  | _ => False

/-- What the holder of `pcq_tail_lock` knows of the size at a wait. -/
def FullAt : Pc E → PcQueue E → Prop
  | .enqWait _, q => q.pcqCapacity ≤ q.pcqCurrentSize
  | _, _ => True

/-- With the queue full, a producer at its test keeps the two locks. -/
theorem stalling (hfull : q.pcqCapacity ≤ q.pcqCurrentSize) :
    Stalling (program (E := E)) Pc.holds (· ≠ .pusher) Pc.waits q where
  inside {p} hp := by cases p <;> first | exact hp.elim | exact nofun
  lock {p l r} hi := by
    cases p <;> cases hi
    case enqLockPusher => exact ⟨fun _ => trivial, nofun⟩
    all_goals exact ⟨fun hp => hp.elim, nofun⟩
  unlock {p l r} hi := by
    cases p <;> cases hi
    case enqUnlockSize => exact ⟨fun hp => hp.elim, .inr ⟨.currentSize, nofun, rfl⟩⟩
    case deqUnlockTail => exact ⟨fun hp => hp.elim, .inr ⟨.tail, nofun, rfl⟩⟩
    all_goals exact ⟨fun hp => hp.elim, .inl nofun⟩
  wait {p c l r} hi := by
    cases p <;> cases hi
    case enqWait => exact ⟨fun _ => ⟨fun hne => hne rfl, trivial⟩, nofun⟩
    case deqWait => exact ⟨fun hp => hp.elim, nofun⟩
  signal {p c r} hi := by cases p <;> cases hi <;> exact ⟨fun hp => hp.elim, nofun⟩
  access {p run} hi := by
    cases p <;> cases hi
    case enqTest =>
      refine ⟨fun _ => ?_, .tail, nofun, trivial⟩
      dsimp only
      rw [if_pos hfull]
      exact ⟨rfl, trivial⟩
    all_goals exact ⟨fun hp => hp.elim, .tail, nofun, by trivial⟩

theorem guarding_full :
    Guarding (program (E := E)) Pc.holds .tail (fun _ => True) FullAt where
  lock {p r m} hi _ := by cases p <;> cases hi <;> trivial
  relock {p c r m} hi _ := by
    cases p <;> cases hi
    trivial
  unlock _ _ := trivial
  wait _ _ := trivial
  silent {p r m} hs hp h := by
    cases hs with
    | lock hi | unlock hi | wait hi | signal hi => cases p <;> cases hi <;> trivial
  access {p run m} hi := by
    refine ⟨by cases p <;> cases hi <;> trivial, fun _ => ?_⟩
    cases p <;> cases hi
    case enqTest =>
      dsimp only
      split
      · next hfull => exact hfull
      · trivial
    case deqTest =>
      dsimp only
      split <;> trivial
    all_goals trivial

/-- A producer that waits has both locks, and goes round. -/
theorem WaitsForSpace.stalled (h : WaitsForSpace s t) (hO : Owned program Pc.holds s) :
    Stalled (· ≠ .pusher) Pc.waits s.memory t s := by
  have hrunning : ∀ {elem}, s.status t = .running (.enqWait elem) →
      Stalled (· ≠ .pusher) Pc.waits s.memory t s := by
    intro elem hs
    refine ⟨rfl, fun g _ => ?_, ?_⟩
    · rw [hO.owner, hs]
      cases g <;> trivial
    · rw [hs]
      trivial
  have hsleeping : ∀ {c l r}, s.status t = .asleep c l r ∨ s.status t = .woken c l r →
      c = .pusher → Stalled (· ≠ .pusher) Pc.waits s.memory t s := by
    rintro c l r hs rfl
    obtain ⟨p, hi⟩ : ∃ p, (program (E := E)).instr p = .wait .pusher l r := by
      have hplaced := hO.placed t
      rcases hs with hs | hs
      · rwa [hs] at hplaced
      · rwa [hs] at hplaced
    cases p <;> cases hi
    refine ⟨rfl, fun g hg => ?_, ?_⟩
    · rw [hO.owner]
      rcases hs with hs | hs
      · rw [hs]
        exact ⟨by cases g <;> trivial, hg⟩
      · rw [hs]
        exact ⟨by cases g <;> trivial, hg⟩
    · rcases hs with hs | hs
      · rw [hs]
        trivial
      · rw [hs]
        trivial
  unfold WaitsForSpace foundFull at h
  cases hs : s.status t with
  | running p =>
    cases p with
    | enqWait elem => exact hrunning hs
    | _ => simp [hs, Status.AsleepOn, Status.WokenFrom] at h
  | asleep c l r =>
    refine hsleeping (.inl hs) ?_
    simpa [hs, Status.AsleepOn, Status.WokenFrom] using h
  | woken c l r =>
    refine hsleeping (.inr hs) ?_
    simpa [hs, Status.AsleepOn, Status.WokenFrom] using h

/-- While a producer waits the queue is full. -/
structure FullWhile (s : System T E) : Prop where
  owned : Owned program Pc.holds s
  guarded : Guarded .tail (fun _ => True) FullAt s
  full : ∀ t, WaitsForSpace s t → s.memory.pcqCapacity ≤ s.memory.pcqCurrentSize

theorem FullWhile.initial (h : Initial s) : FullWhile s := by
  refine ⟨(Sound.initial h).owned, ?_, fun t ht => ?_⟩
  all_goals obtain ⟨malloc, capacity, q, -, -, -, rfl⟩ := h
  · exact ⟨fun _ => trivial, nofun⟩
  · rcases ht with ht | ht | ht <;> cases ht

section
variable [Fintype T] [DecidableEq T]

theorem FullWhile.step {a : Turn T (Pc E)} (h : FullWhile s) (hst : Steps s a s') :
    FullWhile s' := by
  have hguarded := guarding_full.move holding h.owned h.guarded hst.move
  have howned := h.owned.move holding hst.move
  refine ⟨howned, hguarded, fun t ht => ?_⟩
  by_cases hold : ∃ u, WaitsForSpace s u
  · -- it was full, and has not changed
    obtain ⟨u, hu⟩ := hold
    have hfull := h.full u hu
    obtain ⟨hstall, -⟩ := (stalling hfull).move holding h.owned (hu.stalled h.owned) hst.move
    rw [hstall.memory]
    exact hfull
  rcases ht with hfound | hwait
  · have hstalled := WaitsForSpace.stalled (.inl hfound) howned
    have htail := hstalled.owner .tail nofun
    have hin := hguarded.inside t htail
    cases hs : s'.status t with
    | running p =>
      rw [hs] at hin hfound
      cases p with
      | enqWait elem => exact hin
      | _ => cases hfound
    | asleep | woken =>
      rw [hs] at hfound
      cases hfound
  · rcases hst.move.inWait hwait with hbefore | ⟨woken, p, l, r, rfl, hs, hi⟩
    · exact absurd ⟨t, .inr hbefore⟩ hold
    · refine absurd ⟨t, .inl ?_⟩ hold
      rw [hs]
      cases p <;> cases hi
      rfl

/-- Once a producer waits for space, the queue is full and stays as it is, and every thread
that is in `pcq_enqueue` or `pcq_dequeue` stays in it, whatever turns are taken. -/
theorem stalled_for_good (h : Reachable Initial Steps s) (ht : WaitsForSpace s t)
    {ρ : List (Turn T (Pc E) × System T E)} (hr : Run Steps s ρ) :
    s.memory.pcqCurrentSize = s.memory.pcqCapacity ∧
      EveryState (fun s' => s'.memory = s.memory ∧
        ∀ u, (s.status u).point.inside = true → (s'.status u).point.inside = true) s ρ := by
  have hI : FullWhile s := h.invariant (fun _ => .initial) fun _ _ _ hs hst => hs.step hst
  have hfull := hI.full t ht
  have hinside : ∀ (s : System T E) u, s.InCall program u ↔ (s.status u).point.inside = true := by
    intro s u
    unfold Machine.InCall
    cases (s.status u).point <;> simp [program, Pc.inside]
  have hstalled := ht.stalled hI.owned
  refine ⟨?_, ?_⟩
  · have hring : Ring 0 0 s.memory := by
      have hin := (sound_of_reachable h).guarded.inside t (hstalled.owner .tail nofun)
      have hpoint := hstalled.point
      cases hp : (s.status t).point with
      | enqTest | enqWait =>
        rw [hp] at hin
        exact hin
      | _ =>
        rw [hp] at hpoint
        exact hpoint.elim
    exact Nat.le_antisymm hring.size_le hfull
  · apply ((stalling hfull).run holding hI.owned hstalled hr).mono
    rintro s' ⟨hm, hin⟩
    exact ⟨hm, fun u hu => (hinside s' u).mp (hin u ((hinside s u).mpr hu))⟩

/-- A queue of one, filled, and its producer with another element. -/
def filled (t : Fin 3) : System (Fin 3) Nat :=
  afterTurns program (small 1) (callOf t (.enqLockSize 7) 14 ++ callOf t (.enqLockSize 8) 5)

theorem stalled_for_good_filled :
    (filled 0).memory.pcqCurrentSize = (filled 0).memory.pcqCapacity ∧
    EveryState (fun s' => s'.memory = (filled 0).memory ∧
      ∀ u, ((filled 0).status u).point.inside = true → (s'.status u).point.inside = true) (filled 0)
      (runTurns program (filled 0) (callOf 1 .deqLockTail 3 ++ [.spurious 0] ++ turnsOf 0 3)) :=
  stalled_for_good (t := 0)
    (reachable_afterTurns (.start (initial_small (by decide) (by decide))) _) (by decide)
    (run_runTurns _ _ _)

end

end MBroker.Queue
