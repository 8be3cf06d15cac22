import MBroker.Queue.Fifo

/- No wake-up of a consumer is lost: while a consumer sleeps, the queue has no more
   elements than there are consumers woken for them. Producers signal under
   `pcq_tail_lock`, with which the consumers wait, and a consumer that was not
   woken and comes first only takes an element away. -/
namespace MBroker.Queue
open MBroker.Lib

variable {E : Type}

/-- The elements that the thread which has `pcq_tail_lock` may still signal, or take
itself. -/
def slack : Pc E → Nat
  | .enqSignal | .deqTest | .deqWait | .deqLoadHead | .deqLoadElem _ | .deqReloadHead _
  | .deqStoreHead .. | .deqLoadSize _ | .deqStoreSize .. => 1
  | _ => 0

theorem waking :
    Waking (program (E := E)) Pc.holds .tail Inside .popper PcQueue.pcqCurrentSize slack where
  wait {p l r m} hi := by
    cases p <;> cases hi
    exact ⟨rfl, fun h => h.2⟩
  relock {p r} hi := by
    cases p <;> cases hi
    exact Nat.le_refl _
  waitOther {p d r} hi hd := by
    cases p <;> cases hi
    exact absurd rfl hd
  unlock {p r} hi := by
    cases p <;> cases hi <;> rfl
  silent {p r} hs hne hp := by
    cases hs with
    | lock hi hl => cases p <;> cases hi <;> exact Nat.zero_le _
    | unlock hi hl => cases p <;> cases hi <;> exact Nat.zero_le _
    | wait hi hl =>
      cases p <;> cases hi
      · exact Nat.zero_le _
      · exact absurd rfl hl
    | signal hi =>
      cases p <;> cases hi
      · exact absurd rfl hne
      · exact Nat.zero_le _
  signal {p r} hi := by
    cases p <;> cases hi
    exact ⟨by simp [Pc.holds], le_rfl⟩
  access {p run m} hi h := by
    cases p <;> cases hi
    case enqTest elem =>
      dsimp only
      split <;> exact Nat.le_refl _
    case enqStoreSize elem size =>
      -- one element more, which the thread is about to signal
      obtain ⟨hring, ⟨hroom, -⟩, rfl⟩ := h
      have hlt := hring.capacity_lt
      have hsize : szAdd m.pcqCurrentSize 1 = m.pcqCurrentSize + 1 := szAdd_eq (by omega)
      exact hsize.le
    case deqTest =>
      dsimp only
      split <;> exact Nat.le_refl _
    case deqStoreSize result size =>
      -- one element less, which the thread took
      obtain ⟨hring, ⟨hne, -⟩, rfl⟩ := h
      have hlt := hring.capacity_lt
      have hle := hring.size_le
      have hsize : szSub m.pcqCurrentSize 1 = m.pcqCurrentSize - 1 := szSub_eq hne (by omega)
      show szSub m.pcqCurrentSize 1 + 1 ≤ m.pcqCurrentSize + 0
      omega
    all_goals exact Nat.le_refl _

variable {T : Type} [Fintype T] {s s' : System T E}

/-- Every element has a consumer awake while one sleeps. -/
abbrev Fed (s : System T E) : Prop := Served .tail .popper PcQueue.pcqCurrentSize slack s

theorem Fed.initial (h : Initial s) : Fed s := by
  obtain ⟨malloc, capacity, q, -, -, -, rfl⟩ := h
  intro hasleep
  obtain ⟨u, hu⟩ := hasleep
  exact hu.elim

theorem fed_of_reachable [DecidableEq T] (h : Reachable Initial Steps s) : Fed s := by
  have hboth : Sound s ∧ Fed s := by
    refine h.invariant (I := fun s => Sound s ∧ Fed s) (fun s hs => ⟨.initial hs, .initial hs⟩)
      fun s a s' ⟨hI, hF⟩ hst => ⟨hI.step hst, ?_⟩
    exact waking.move guarding holding hI.owned hI.guarded hF hst.move
  exact hboth.2

/-- Whenever `pcq_tail_lock` is free and a consumer sleeps, there are no more
elements than consumers that were woken and have not yet looked again. -/
theorem no_lost_wakeup [DecidableEq T] (h : Reachable Initial Steps s)
    (hfree : s.owner .tail = none) (hs : ∃ t, (s.status t).AsleepOn .popper) :
    s.memory.pcqCurrentSize ≤ numWoken s .popper := by
  have hfed := fed_of_reachable h hs
  rwa [slackOf_free hfree, Nat.add_zero] at hfed

/-- Two consumers sleep, and a producer wakes one of them. -/
theorem no_lost_wakeup_small :
    (afterTurns program (small 2) (callOf 1 .deqLockTail 3 ++ callOf 2 .deqLockTail 3 ++
      callOf 0 (.enqLockSize 7) 14)).memory.pcqCurrentSize ≤
    numWoken (afterTurns program (small 2) (callOf 1 .deqLockTail 3 ++ callOf 2 .deqLockTail 3 ++
      callOf 0 (.enqLockSize 7) 14)) .popper :=
  no_lost_wakeup (reachable_afterTurns (.start (initial_small (by decide) (by decide))) _)
    (by decide) (by decide)

end MBroker.Queue
