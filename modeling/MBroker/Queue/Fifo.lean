import MBroker.Lib.Guard
import MBroker.Lib.Ring
import MBroker.Queue.Program

/- The queue is first in, first out. `pcq_tail_lock` guards all of it, in
   `pcq_dequeue` too, which takes no other lock; a producer that waits for space
   keeps it. What the fields are while a thread has the lock depends on how far the
   thread is: its element may be in the buffer before `pcq_tail` has moved, and
   `pcq_tail` may have moved before the size has. -/
namespace MBroker.Queue
open MBroker.Lib Function

/-- Nothing lost, nothing twice, nothing out of order. -/
structure FirstInFirstOut {E : Type} (q : PcQueue E) : Prop where
  size_le : q.pcqCurrentSize ≤ q.pcqCapacity
  head_lt : q.pcqHead < q.pcqCapacity
  tail_lt : q.pcqTail < q.pcqCapacity
  tail_eq : q.pcqTail = (q.pcqHead + q.pcqCurrentSize) % q.pcqCapacity
  /-- The cells from the head on hold what came in and did not go out. -/
  contents : (List.range q.pcqCurrentSize).map
    (fun i => q.pcqBuffer ((q.pcqHead + i) % q.pcqCapacity)) = q.enqueued.drop q.dequeued.length
  /-- What went out is what came in first. -/
  fifo : q.dequeued <+: q.enqueued

/-- The queue, its tail and its head being `tailBy` and `headBy` cells ahead of the
elements counted in and out. -/
structure Ring {E : Type} (tailBy headBy : Nat) (q : PcQueue E) : Prop where
  capacity_pos : 1 ≤ q.pcqCapacity
  capacity_lt : q.pcqCapacity < 2 ^ 64
  size_le : q.pcqCurrentSize ≤ q.pcqCapacity
  count : q.enqueued.length = q.dequeued.length + q.pcqCurrentSize
  head : q.pcqHead = (q.dequeued.length + headBy) % q.pcqCapacity
  tail : q.pcqTail = (q.enqueued.length + tailBy) % q.pcqCapacity
  stored : Stored q.pcqBuffer q.pcqCapacity q.enqueued q.dequeued.length
  fifo : q.dequeued <+: q.enqueued

variable {E : Type}

/-- There is space, and the next cell holds the element. -/
def Holds (elem : E) (q : PcQueue E) : Prop :=
  q.pcqCurrentSize < q.pcqCapacity ∧ q.pcqBuffer (q.enqueued.length % q.pcqCapacity) = elem

/-- There is an element, and the first one is `result`. -/
def Front (result : E) (q : PcQueue E) : Prop :=
  0 < q.pcqCurrentSize ∧ q.enqueued[q.dequeued.length]? = some result

/-- The queue while the thread that has `pcq_tail_lock` is at a point. -/
def Inside : Pc E → PcQueue E → Prop
  | .enqLockPusher _, q | .enqTest _, q | .enqWait _, q | .enqSignal, q | .enqUnlockPusher, q
  | .enqUnlockTail, q | .deqTest, q => Ring 0 0 q
  | .enqLoadTail _, q => Ring 0 0 q ∧ q.pcqCurrentSize < q.pcqCapacity
  | .enqStoreElem _ tail, q =>
    Ring 0 0 q ∧ q.pcqCurrentSize < q.pcqCapacity ∧ tail = q.pcqTail
  | .enqReloadTail elem, q => Ring 0 0 q ∧ Holds elem q
  | .enqStoreTail elem tail, q => Ring 0 0 q ∧ Holds elem q ∧ tail = q.pcqTail
  | .enqLoadSize elem, q => Ring 1 0 q ∧ Holds elem q
  | .enqStoreSize elem size, q => Ring 1 0 q ∧ Holds elem q ∧ size = q.pcqCurrentSize
  | .deqWait, q => Ring 0 0 q ∧ q.pcqCurrentSize = 0
  | .deqLoadHead, q => Ring 0 0 q ∧ 0 < q.pcqCurrentSize
  | .deqLoadElem head, q => Ring 0 0 q ∧ 0 < q.pcqCurrentSize ∧ head = q.pcqHead
  | .deqReloadHead result, q => Ring 0 0 q ∧ Front result q
  | .deqStoreHead result head, q => Ring 0 0 q ∧ Front result q ∧ head = q.pcqHead
  | .deqLoadSize result, q => Ring 0 1 q ∧ Front result q
  | .deqStoreSize result size, q => Ring 0 1 q ∧ Front result q ∧ size = q.pcqCurrentSize
  | .deqSignal result, q | .deqUnlockTail result, q =>
    Ring 0 0 q ∧ q.dequeued.getLast? = some result
  | .idle, _ | .enqLockSize _, _ | .enqLockTail _, _ | .enqUnlockSize, _ | .deqLockTail, _ => True

variable {q : PcQueue E} {elem result : E}

/-! ## The stores -/

theorem Ring.enqueued_lt (h : Ring 0 0 q) (hroom : q.pcqCurrentSize < q.pcqCapacity) :
    q.enqueued.length < q.dequeued.length + q.pcqCapacity := by
  have := h.count
  omega

/-- The next index, as `(i + 1) % capacity` computes it. -/
theorem next_index {n capacity : Nat} (hpos : 1 ≤ capacity) (hlt : capacity < 2 ^ 64) :
    szAdd (n % capacity) 1 % capacity = (n + 1) % capacity := by
  have := Nat.mod_lt n hpos
  rw [szAdd_eq (by omega), Nat.mod_add_mod]

theorem Ring.storeElem (h : Ring 0 0 q) (hroom : q.pcqCurrentSize < q.pcqCapacity) (elem : E) :
    Ring 0 0 { q with pcqBuffer := update q.pcqBuffer q.pcqTail elem } ∧
      Holds elem { q with pcqBuffer := update q.pcqBuffer q.pcqTail elem } := by
  have htail : q.pcqTail = q.enqueued.length % q.pcqCapacity := h.tail
  refine ⟨{ h with stored := ?_ }, hroom, ?_⟩
  · show Stored (update q.pcqBuffer q.pcqTail elem) _ _ _
    rw [htail]
    exact h.stored.store (h.enqueued_lt hroom) elem
  · show update q.pcqBuffer q.pcqTail elem (q.enqueued.length % q.pcqCapacity) = elem
    rw [htail, update_self]

theorem Ring.storeTail (h : Ring 0 0 q) :
    Ring 1 0 { q with pcqTail := szAdd q.pcqTail 1 % q.pcqCapacity } := by
  refine { h with tail := ?_ }
  show szAdd q.pcqTail 1 % q.pcqCapacity = (q.enqueued.length + 1) % q.pcqCapacity
  rw [h.tail, next_index h.capacity_pos h.capacity_lt, Nat.add_zero]

theorem Ring.storeSizeUp (h : Ring 1 0 q) (hin : Holds elem q) :
    Ring 0 0 { q with
      pcqCurrentSize := szAdd q.pcqCurrentSize 1, enqueued := q.enqueued ++ [elem] } := by
  obtain ⟨hroom, hcell⟩ := hin
  have hlt := h.capacity_lt
  have hcount := h.count
  have hsize : szAdd q.pcqCurrentSize 1 = q.pcqCurrentSize + 1 := szAdd_eq (by omega)
  have hlen : (q.enqueued ++ [elem]).length = q.enqueued.length + 1 := List.length_append
  refine { h with size_le := ?_, count := ?_, tail := ?_, stored := ?_, fifo := ?_ }
  · show szAdd q.pcqCurrentSize 1 ≤ q.pcqCapacity
    omega
  · show (q.enqueued ++ [elem]).length = q.dequeued.length + szAdd q.pcqCurrentSize 1
    omega
  · show q.pcqTail = ((q.enqueued ++ [elem]).length + 0) % q.pcqCapacity
    rw [hlen, h.tail, Nat.add_zero]
  · have happ := h.stored.append (by omega)
    rwa [hcell] at happ
  · exact h.fifo.trans (List.prefix_append _ _)

/-- The element read at the head is the first one. -/
theorem Ring.front (h : Ring 0 0 q) (hne : 0 < q.pcqCurrentSize) :
    Front (q.pcqBuffer q.pcqHead) q := by
  have hcount := h.count
  have hcell := h.stored.cell q.dequeued.length le_rfl (by omega)
  refine ⟨hne, ?_⟩
  rw [hcell, h.head, Nat.add_zero]

theorem Ring.storeHead (h : Ring 0 0 q) :
    Ring 0 1 { q with pcqHead := szAdd q.pcqHead 1 % q.pcqCapacity } := by
  refine { h with head := ?_ }
  show szAdd q.pcqHead 1 % q.pcqCapacity = (q.dequeued.length + 1) % q.pcqCapacity
  rw [h.head, next_index h.capacity_pos h.capacity_lt, Nat.add_zero]

theorem Ring.storeSizeDown (h : Ring 0 1 q) (hin : Front result q) :
    Ring 0 0 { q with
      pcqCurrentSize := szSub q.pcqCurrentSize 1, dequeued := q.dequeued ++ [result] } := by
  obtain ⟨hne, hfront⟩ := hin
  have hlt := h.capacity_lt
  have hle := h.size_le
  have hcount := h.count
  have hsize : szSub q.pcqCurrentSize 1 = q.pcqCurrentSize - 1 := szSub_eq hne (by omega)
  have hlen : (q.dequeued ++ [result]).length = q.dequeued.length + 1 := List.length_append
  refine { h with size_le := ?_, count := ?_, head := ?_, stored := ?_, fifo := ?_ }
  · show szSub q.pcqCurrentSize 1 ≤ q.pcqCapacity
    omega
  · show q.enqueued.length = (q.dequeued ++ [result]).length + szSub q.pcqCurrentSize 1
    omega
  · show q.pcqHead = ((q.dequeued ++ [result]).length + 0) % q.pcqCapacity
    rw [hlen, h.head, Nat.add_zero]
  · show Stored _ _ _ (q.dequeued ++ [result]).length
    rw [hlen]
    exact h.stored.pop (by omega)
  · -- the element that leaves is the one after those that left
    obtain ⟨rest, hrest⟩ := h.fifo
    rw [← hrest, List.getElem?_append_right le_rfl, Nat.sub_self] at hfront
    cases rest with
    | nil => simp at hfront
    | cons e rest =>
      simp only [List.getElem?_cons_zero, Option.some.injEq] at hfront
      subst hfront
      refine ⟨rest, ?_⟩
      show q.dequeued ++ [e] ++ rest = q.enqueued
      rw [← hrest, List.append_assoc]
      rfl

/-! ## Every reachable state -/

/-- `pcq_tail_lock` guards the queue. -/
theorem guarding : Guarding (program (E := E)) Pc.holds .tail (Ring 0 0) Inside where
  lock {p r m} hi h := by
    cases p <;> cases hi <;> exact h
  relock {p c r m} hi h := by
    cases p <;> cases hi
    exact h
  unlock {p r m} hi h := by
    cases p <;> cases hi
    case enqUnlockTail => exact h
    case deqUnlockTail => exact h.1
  wait {p c r m} hi h := by
    cases p <;> cases hi
    exact h.1
  silent {p r m} hs hp h := by
    cases hs with
    | lock hi hl =>
      cases p <;> cases hi
      · exact hp.elim
      · exact absurd rfl hl
      · exact h
      · exact absurd rfl hl
    | unlock hi hl =>
      cases p <;> cases hi
      · exact h
      · exact absurd rfl hl
      · cases hp
      · exact absurd rfl hl
    | wait hi hl =>
      cases p <;> cases hi
      · exact h
      · exact absurd rfl hl
    | signal hi =>
      cases p <;> cases hi <;> exact h
  access {p run m} hi := by
    refine ⟨by cases p <;> cases hi <;> trivial, fun h => ?_⟩
    cases p <;> cases hi
    case enqTest elem =>
      dsimp only
      split
      · exact h
      · exact ⟨h, by omega⟩
    case enqLoadTail elem => exact ⟨h.1, h.2, rfl⟩
    case enqStoreElem elem tail =>
      obtain ⟨hring, hroom, rfl⟩ := h
      exact hring.storeElem hroom elem
    case enqReloadTail elem => exact ⟨h.1, h.2, rfl⟩
    case enqStoreTail elem tail =>
      obtain ⟨hring, hin, rfl⟩ := h
      exact ⟨hring.storeTail, hin⟩
    case enqLoadSize elem => exact ⟨h.1, h.2, rfl⟩
    case enqStoreSize elem size =>
      obtain ⟨hring, hin, rfl⟩ := h
      exact hring.storeSizeUp hin
    case deqTest =>
      dsimp only
      split
      · next hzero => exact ⟨h, hzero⟩
      · exact ⟨h, by omega⟩
    case deqLoadHead => exact ⟨h.1, h.2, rfl⟩
    case deqLoadElem head =>
      obtain ⟨hring, hne, rfl⟩ := h
      exact ⟨hring, hring.front hne⟩
    case deqReloadHead result => exact ⟨h.1, h.2, rfl⟩
    case deqStoreHead result head =>
      obtain ⟨hring, hin, rfl⟩ := h
      exact ⟨hring.storeHead, hin⟩
    case deqLoadSize result => exact ⟨h.1, h.2, rfl⟩
    case deqStoreSize result size =>
      obtain ⟨hring, hin, rfl⟩ := h
      exact ⟨hring.storeSizeDown hin, List.getLast?_concat ..⟩

variable {T : Type} {s s' : System T E}

/-- What holds of the locks and the queue after every turn. -/
structure Sound (s : System T E) : Prop where
  owned : Owned program Pc.holds s
  guarded : Guarded .tail (Ring 0 0) Inside s

theorem Sound.initial (h : Initial s) : Sound s := by
  obtain ⟨malloc, capacity, q, hpos, hlt, hq, rfl⟩ := h
  obtain ⟨buffer, rfl⟩ : ∃ buffer, malloc = some buffer := by
    cases malloc with
    | none => cases hq
    | some buffer => exact ⟨buffer, rfl⟩
  cases hq
  refine ⟨⟨fun k t => ?_, fun t => trivial⟩, fun _ => ?_, fun t ht => ?_⟩
  · exact ⟨fun h => (by cases h), fun h => h.elim⟩
  · refine ⟨hpos, hlt, Nat.zero_le _, rfl, ?_, ?_, ⟨le_rfl, Nat.zero_le _, ?_⟩, List.prefix_rfl⟩
    · exact (Nat.zero_mod _).symm
    · exact (Nat.zero_mod _).symm
    · intro j _ hj
      exact absurd hj (Nat.not_lt_zero j)
  · cases ht

theorem Sound.step [Fintype T] [DecidableEq T] {a : Turn T (Pc E)} (h : Sound s)
    (hst : Steps s a s') : Sound s' :=
  ⟨h.owned.move holding hst.move, guarding.move holding h.owned h.guarded hst.move⟩

theorem sound_of_reachable [Fintype T] [DecidableEq T] (h : Reachable Initial Steps s) : Sound s :=
  h.invariant (I := Sound) (fun _ => Sound.initial) fun _ _ _ hI hst => hI.step hst

theorem Ring.firstInFirstOut (h : Ring 0 0 q) : FirstInFirstOut q := by
  have hcap := h.capacity_pos
  have hhead : q.pcqHead = q.dequeued.length % q.pcqCapacity := h.head
  have htail : q.pcqTail = q.enqueued.length % q.pcqCapacity := h.tail
  refine ⟨h.size_le, ?_, ?_, ?_, ?_, h.fifo⟩
  · rw [hhead]
    exact Nat.mod_lt _ hcap
  · rw [htail]
    exact Nat.mod_lt _ hcap
  · rw [htail, hhead, Nat.mod_add_mod, h.count]
  · rw [hhead]
    exact h.stored.window h.count

/-- Whenever `pcq_tail_lock` is free, the queue is first in, first out. -/
theorem queue_fifo [Fintype T] [DecidableEq T] (h : Reachable Initial Steps s)
    (hfree : s.owner .tail = none) : FirstInFirstOut s.memory :=
  ((sound_of_reachable h).guarded.free hfree).firstInFirstOut

/-- A consumer comes first and sleeps, and a producer wakes it. -/
theorem queue_fifo_small : FirstInFirstOut (afterTurns program (small 2)
    (callOf 1 .deqLockTail 3 ++ callOf 0 (.enqLockSize 7) 14)).memory :=
  queue_fifo (reachable_afterTurns (.start (initial_small (by decide) (by decide))) _) (by decide)

end MBroker.Queue
