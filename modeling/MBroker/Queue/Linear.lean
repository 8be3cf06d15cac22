import MBroker.Lib.History
import MBroker.Queue.Fifo

/- The queue is one atomic bounded buffer. A call takes effect at the store of the size: the
   calls of any threads, however their turns fall, are answered as by a buffer that takes
   them one at a time in the order of these stores, and each call takes effect between the
   turn that makes it and the turn that returns from it (`one_buffer`). -/
namespace MBroker.Queue
open MBroker.Lib Function

/-- What the queue is for: elements wait in it, no more than there is room for. -/
structure Buffer (E : Type) where
  capacity : Nat
  elems : List E
  deriving DecidableEq

inductive Request (E : Type)
  | enqueue (elem : E)
  | dequeue
  deriving DecidableEq

variable {E : Type}

/-- A call that gets on, with the element it returns; one that has to wait gets nowhere. -/
def Buffer.step (b : Buffer E) : Request E → Except Unit (Option E × Buffer E)
  | .enqueue elem =>
    if b.elems.length < b.capacity then .ok (none, { b with elems := b.elems ++ [elem] })
    else .error ()
  | .dequeue =>
    match b.elems with
    | [] => .error ()
    | result :: elems => .ok (some result, { b with elems })

theorem enqueue_ok {b b' : Buffer E} {elem : E} {answer : Option E}
    (h : b.step (.enqueue elem) = .ok (answer, b')) :
    b.elems.length < b.capacity ∧ answer = none ∧
      b' = { b with elems := b.elems ++ [elem] } := by
  simp only [Buffer.step] at h
  split at h
  · next hroom =>
    cases h
    exact ⟨hroom, rfl, rfl⟩
  · cases h

theorem dequeue_ok {b b' : Buffer E} {answer : Option E} (h : b.step .dequeue = .ok (answer, b')) :
    ∃ result elems, b.elems = result :: elems ∧ answer = some result ∧
      b' = { b with elems } := by
  simp only [Buffer.step] at h
  split at h
  · cases h
  · next result elems helems =>
    cases h
    exact ⟨result, elems, helems, rfl, rfl⟩

/-- What the queue holds, from the head on. -/
def PcQueue.elems (q : PcQueue E) : List E :=
  (List.range q.pcqCurrentSize).map fun i => q.pcqBuffer ((q.pcqHead + i) % q.pcqCapacity)

/-- The buffer as of the last store of the size. -/
def PcQueue.buffer (q : PcQueue E) : Buffer E :=
  ⟨q.pcqCapacity, q.enqueued.drop q.dequeued.length⟩

/-- How far a thread is in a call of the queue. -/
def Pc.stage : Pc E → Stage (Request E) (Option E)
  | .idle => .outside
  | .enqLockSize elem | .enqLockTail elem | .enqLockPusher elem | .enqTest elem | .enqWait elem
  | .enqLoadTail elem | .enqStoreElem elem _ | .enqReloadTail elem | .enqStoreTail elem _
  | .enqLoadSize elem | .enqStoreSize elem _ => .asked (.enqueue elem)
  | .enqSignal | .enqUnlockPusher | .enqUnlockTail | .enqUnlockSize => .done none
  | .deqLockTail | .deqTest | .deqWait | .deqLoadHead | .deqLoadElem _ | .deqReloadHead _
  | .deqStoreHead .. | .deqLoadSize _ | .deqStoreSize .. => .asked .dequeue
  | .deqSignal result | .deqUnlockTail result => .done (some result)

/-- The points whose turn is the last of a call. -/
def Pc.returns : Pc E → Bool
  | .enqUnlockSize | .deqUnlockTail _ => true
  | _ => false

variable {q : PcQueue E} {elem result : E}

/-! ## The two stores -/

theorem Ring.step_enqueue (h : Ring 1 0 q) (hin : Holds elem q) :
    q.buffer.step (.enqueue elem) = .ok (none, PcQueue.buffer
      { q with pcqCurrentSize := szAdd q.pcqCurrentSize 1, enqueued := q.enqueued ++ [elem] }) := by
  have hcount := h.count
  have hroom := hin.1
  have hlt : q.buffer.elems.length < q.buffer.capacity := by
    simp only [PcQueue.buffer, List.length_drop]
    omega
  have hdrop : (q.enqueued ++ [elem]).drop q.dequeued.length =
      q.enqueued.drop q.dequeued.length ++ [elem] :=
    List.drop_append_of_le_length (by omega)
  rw [Buffer.step, if_pos hlt]
  simp only [PcQueue.buffer, hdrop]

theorem step_dequeue (hin : Front result q) :
    q.buffer.step .dequeue = .ok (some result, PcQueue.buffer
      { q with
        pcqCurrentSize := szSub q.pcqCurrentSize 1, dequeued := q.dequeued ++ [result] }) := by
  obtain ⟨hlt, hget⟩ := List.getElem?_eq_some_iff.mp hin.2
  have hdrop : q.enqueued.drop q.dequeued.length =
      result :: q.enqueued.drop (q.dequeued.length + 1) := by
    rw [← hget]
    exact List.drop_eq_getElem_cons hlt
  simp only [Buffer.step, PcQueue.buffer, hdrop, List.length_append, List.length_singleton]

/-- The stores of the size are steps of the buffer, and nothing else is. -/
theorem commits : Commits (program (E := E)) Pc.stage Inside PcQueue.buffer Buffer.step where
  idle {p} hi := by
    cases p <;> cases hi
    rfl
  entry {p} he := by
    cases p <;> cases he
    all_goals exact ⟨_, rfl⟩
  lock {p l r} hi := by cases p <;> cases hi <;> rfl
  unlock {p l r} hi := by
    cases p <;> cases hi
    case enqUnlockSize | deqUnlockTail => exact .inr ⟨_, rfl, rfl⟩
    all_goals exact .inl rfl
  wait {p c l r} hi := by cases p <;> cases hi <;> rfl
  signal {p c r} hi := by cases p <;> cases hi <;> rfl
  access {p run m} hi h := by
    cases p <;> cases hi
    case enqTest =>
      left
      dsimp only
      split <;> exact ⟨rfl, rfl⟩
    case deqTest =>
      left
      dsimp only
      split <;> exact ⟨rfl, rfl⟩
    case enqStoreSize elem size =>
      obtain ⟨hring, hin, rfl⟩ := h
      exact .inr ⟨_, _, rfl, rfl, hring.step_enqueue hin⟩
    case deqStoreSize result size =>
      obtain ⟨-, hin, rfl⟩ := h
      exact .inr ⟨_, _, rfl, rfl, step_dequeue hin⟩
    all_goals exact .inl ⟨rfl, rfl⟩

/-! ## Every run -/

section

variable {T : Type} [DecidableEq T] {s s' : System T E} {t : T} {woken : T → Bool}

theorem call_enters {p : Pc E} (hm : Move program s (.call t p) s') :
    s.stageOf Pc.stage t = .outside ∧ s'.stageOf Pc.stage t = p.stage ∧
      s'.memory = s.memory := by
  cases hm with
  | call hs hi he =>
    exact ⟨(stageOf_running hs).trans (commits.idle hi), stageOf_running (update_self ..), rfl⟩

theorem spurious_stays (hm : Move program s (.spurious t) s') :
    s'.stageOf Pc.stage t = s.stageOf Pc.stage t ∧ s'.memory = s.memory := by
  cases hm with
  | spurious hs =>
    refine ⟨?_, rfl⟩
    simp [Machine.stageOf, Machine.goto, hs, Status.point]

/-- A turn that is no call is one of a thread in a call, and leaves the call where it is the
last of it. -/
theorem run_returns (hO : Owned program Pc.holds s) (hm : Move program s (.run t woken) s') :
    s.stageOf Pc.stage t ≠ .outside ∧
      (s'.stageOf Pc.stage t = .outside ↔ (s.status t).point.returns = true) := by
  have hpoints : ∀ {p q : Pc E}, (s.status t).point = p → (s'.status t).point = q →
      p.stage ≠ .outside ∧ (q.stage = .outside ↔ p.returns = true) →
      s.stageOf Pc.stage t ≠ .outside ∧
        (s'.stageOf Pc.stage t = .outside ↔ (s.status t).point.returns = true) := by
    rintro p q rfl rfl h
    exact h
  cases hm with
  | @lock _ _ p q l hs hi hf =>
    apply hpoints (congrArg Status.point hs) (congrArg Status.point (update_self ..))
    cases p <;> cases hi <;> simp [Status.point, Pc.stage, Pc.returns]
  | @relock _ _ c l q hs hf =>
    apply hpoints (congrArg Status.point hs) (congrArg Status.point (update_self ..))
    obtain ⟨p, hi⟩ : (Status.woken c l q).Placed program := hs ▸ hO.placed t
    cases p <;> cases hi <;> simp [Status.point, Pc.stage, Pc.returns]
  | @unlock _ _ p q l hs hi =>
    apply hpoints (congrArg Status.point hs) (congrArg Status.point (update_self ..))
    cases p <;> cases hi <;> simp [Status.point, Pc.stage, Pc.returns]
  | @wait _ _ p q c l hs hi =>
    apply hpoints (congrArg Status.point hs) (congrArg Status.point (update_self ..))
    cases p <;> cases hi <;> simp [Status.point, Pc.stage, Pc.returns]
  | @signal _ _ p q c hs hi hw =>
    have hafter : (s.wake t c woken q).status t = .running q := by simp [Machine.wake]
    apply hpoints (congrArg Status.point hs) (congrArg Status.point hafter)
    cases p <;> cases hi <;> simp [Status.point, Pc.stage, Pc.returns]
  | @access _ _ p run hs hi =>
    apply hpoints (congrArg Status.point hs) (congrArg Status.point (update_self ..))
    cases p <;> cases hi
    all_goals try dsimp only; split
    all_goals simp [Status.point, Pc.stage, Pc.returns]

variable [Fintype T] {ρ : List (Turn T (Pc E) × System T E)}

/-- The queue is linearizable: in the order of their stores of the size, the calls of a
run are answered as by a buffer; what they leave in it is in the cells whenever
`pcq_tail_lock` is free; and each thread makes its calls one after another, each taking
effect between the call and the return. -/
theorem one_buffer (h₀ : Initial s) (hr : Run Steps s ρ) :
    ∃ b, execAll Buffer.step ⟨s.memory.pcqCapacity, []⟩
          ((effects (history Pc.stage s ρ)).map Prod.fst) =
        .ok ((effects (history Pc.stage s ρ)).map Prod.snd, b) ∧
      ((lastState s ρ).owner .tail = none → (lastState s ρ).memory.elems = b.elems) ∧
      ∀ t, Stage.outside.Goes (deedsOf t (history Pc.stage s ρ))
        ((lastState s ρ).stageOf Pc.stage t) := by
  have hS := Sound.initial h₀
  obtain ⟨hexec, hgoes⟩ := commits.run guarding holding hS.owned hS.guarded hr
  have hlast : Sound (lastState s ρ) :=
    (Run.invariant (I := Sound) (fun _ _ _ hI hst => hI.step hst) hS hr).last
  obtain ⟨malloc, capacity, q, -, -, hq, rfl⟩ := h₀
  obtain ⟨cells, -, rfl⟩ := Option.map_eq_some_iff.mp hq
  refine ⟨_, hexec, fun hfree => ?_, hgoes⟩
  exact (hlast.guarded.free hfree).firstInFirstOut.contents

/-- A consumer finds the queue empty and sleeps, and a producer wakes it with an element. -/
def wakened (t u : Fin 3) : List (Turn (Fin 3) (Pc Nat) × System (Fin 3) Nat) :=
  runTurns program (small 1)
    (callOf u .deqLockTail 3 ++ callOf t (.enqLockSize 7) 14 ++ turnsOf u 10)

theorem one_buffer_wakened :
    effects (history Pc.stage (small 1) (wakened 0 1)) = [(.enqueue 7, none), (.dequeue, some 7)] ∧
    ∃ b, execAll Buffer.step ⟨(small 1).memory.pcqCapacity, []⟩
          ((effects (history Pc.stage (small 1) (wakened 0 1))).map Prod.fst) =
        .ok ((effects (history Pc.stage (small 1) (wakened 0 1))).map Prod.snd, b) ∧
      ((lastState (small 1) (wakened 0 1)).owner .tail = none →
        (lastState (small 1) (wakened 0 1)).memory.elems = b.elems) ∧
      ∀ t, Stage.outside.Goes (deedsOf t (history Pc.stage (small 1) (wakened 0 1)))
        ((lastState (small 1) (wakened 0 1)).stageOf Pc.stage t) :=
  ⟨by decide, one_buffer (initial_small (by decide) (by decide)) (run_runTurns ..)⟩

end

end MBroker.Queue
