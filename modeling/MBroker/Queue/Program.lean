import MBroker.Lib.Arith
import MBroker.Lib.Monitor

/- producer-consumer/producer-consumer.c: the queue of requests that the threads
   of the broker share, as a program of threads under mutexes and condition
   variables. Each access to a field that is ever written (the buffer, the head,
   the tail, the size), each call on a mutex and each call on a condition variable
   is a turn of its own, and what a thread has read so far is in its program point.

   `pcq_head_lock` and `pcq_popper_condvar_lock` are initialised and never taken;
   they are left out. `pcq_create` gets its buffer from `malloc`, `none` for NULL; a
   buffer has a cell for each index below the capacity, so the product of the capacity
   and the size of a pointer that `malloc` is asked for is taken not to wrap. -/
namespace MBroker.Queue
open MBroker.Lib Function

/-- The mutexes that are taken. -/
inductive Lock
  | currentSize
  | tail
  | pusher
  deriving DecidableEq, Repr

inductive Cond
  | pusher
  | popper
  deriving DecidableEq, Repr

/-- The fields of `pc_queue_t` that hold data. -/
structure PcQueue (E : Type) where
  pcqBuffer : Nat → E
  pcqCapacity : Nat
  pcqCurrentSize : Nat
  pcqHead : Nat
  pcqTail : Nat
  /-- For the proofs: the elements that came in so far, as of the store that counts
  each of them. -/
  enqueued : List E
  /-- For the proofs: the elements that went out so far, as of the store that counts
  each of them out. -/
  dequeued : List E

/-- `pcq_create`, nothing where it returns -1. A buffer that `malloc` gives has a cell for
each index below the capacity. -/
def pcqCreate {E : Type} (malloc : Option (Nat → E)) (capacity : Nat) : Option (PcQueue E) :=
  malloc.map fun pcqBuffer =>
    { pcqBuffer
      pcqCapacity := capacity
      pcqCurrentSize := 0
      pcqHead := 0
      pcqTail := 0
      enqueued := []
      dequeued := [] }

/-- The program points of `pcq_enqueue` and `pcq_dequeue`, each named for what the
thread does there. -/
inductive Pc (E : Type)
  | idle
  | enqLockSize (elem : E)
  | enqLockTail (elem : E)
  | enqLockPusher (elem : E)
  | enqTest (elem : E)
  | enqWait (elem : E)
  | enqLoadTail (elem : E)
  | enqStoreElem (elem : E) (tail : Nat)
  | enqReloadTail (elem : E)
  | enqStoreTail (elem : E) (tail : Nat)
  | enqLoadSize (elem : E)
  | enqStoreSize (elem : E) (size : Nat)
  | enqSignal
  | enqUnlockPusher
  | enqUnlockTail
  | enqUnlockSize
  | deqLockTail
  | deqTest
  | deqWait
  | deqLoadHead
  | deqLoadElem (head : Nat)
  | deqReloadHead (result : E)
  | deqStoreHead (result : E) (head : Nat)
  | deqLoadSize (result : E)
  | deqStoreSize (result : E) (size : Nat)
  | deqSignal (result : E)
  | deqUnlockTail (result : E)
  deriving DecidableEq

variable {E : Type}

def program : Program Lock Cond (PcQueue E) (Pc E) where
  entry
    | .enqLockSize _ | .deqLockTail => true
    | _ => false
  instr
    | .idle => .idle
    -- pcq_enqueue
    | .enqLockSize elem => .lock .currentSize (.enqLockTail elem)
    | .enqLockTail elem => .lock .tail (.enqLockPusher elem)
    | .enqLockPusher elem => .lock .pusher (.enqTest elem)
    | .enqTest elem => .access fun q =>
        (q, if q.pcqCapacity ≤ q.pcqCurrentSize then .enqWait elem else .enqLoadTail elem)
    | .enqWait elem => .wait .pusher .pusher (.enqTest elem)
    | .enqLoadTail elem => .access fun q => (q, .enqStoreElem elem q.pcqTail)
    | .enqStoreElem elem tail => .access fun q =>
        ({ q with pcqBuffer := update q.pcqBuffer tail elem }, .enqReloadTail elem)
    | .enqReloadTail elem => .access fun q => (q, .enqStoreTail elem q.pcqTail)
    | .enqStoreTail elem tail => .access fun q =>
        ({ q with pcqTail := szAdd tail 1 % q.pcqCapacity }, .enqLoadSize elem)
    | .enqLoadSize elem => .access fun q => (q, .enqStoreSize elem q.pcqCurrentSize)
    | .enqStoreSize elem size => .access fun q =>
        ({ q with pcqCurrentSize := szAdd size 1, enqueued := q.enqueued ++ [elem] }, .enqSignal)
    | .enqSignal => .signal .popper .enqUnlockPusher
    | .enqUnlockPusher => .unlock .pusher .enqUnlockTail
    | .enqUnlockTail => .unlock .tail .enqUnlockSize
    | .enqUnlockSize => .unlock .currentSize .idle
    -- pcq_dequeue
    | .deqLockTail => .lock .tail .deqTest
    | .deqTest => .access fun q => (q, if q.pcqCurrentSize = 0 then .deqWait else .deqLoadHead)
    | .deqWait => .wait .popper .tail .deqTest
    | .deqLoadHead => .access fun q => (q, .deqLoadElem q.pcqHead)
    | .deqLoadElem head => .access fun q => (q, .deqReloadHead (q.pcqBuffer head))
    | .deqReloadHead result => .access fun q => (q, .deqStoreHead result q.pcqHead)
    | .deqStoreHead result head => .access fun q =>
        ({ q with pcqHead := szAdd head 1 % q.pcqCapacity }, .deqLoadSize result)
    | .deqLoadSize result => .access fun q => (q, .deqStoreSize result q.pcqCurrentSize)
    | .deqStoreSize result size => .access fun q =>
        ({ q with pcqCurrentSize := szSub size 1, dequeued := q.dequeued ++ [result] },
          .deqSignal result)
    | .deqSignal result => .signal .pusher (.deqUnlockTail result)
    | .deqUnlockTail _ => .unlock .tail .idle

/-- The points of `pcq_dequeue`. -/
def Pc.dequeuing : Pc E → Bool
  | .deqLockTail | .deqTest | .deqWait | .deqLoadHead | .deqLoadElem _ | .deqReloadHead _
  | .deqStoreHead .. | .deqLoadSize _ | .deqStoreSize .. | .deqSignal _ | .deqUnlockTail _ => true
  | _ => false

/-- The points of the two functions. -/
def Pc.inside : Pc E → Bool
  | .idle => false
  | _ => true

/-- The mutexes that a thread at this point holds. -/
def Pc.holds : Pc E → Lock → Prop
  | .idle, _ | .enqLockSize _, _ | .deqLockTail, _ => False
  | .enqLockTail _, l | .enqUnlockSize, l => l = .currentSize
  | .enqLockPusher _, l | .enqUnlockTail, l => l ≠ .pusher
  | .deqTest, l | .deqWait, l | .deqLoadHead, l | .deqLoadElem _, l | .deqReloadHead _, l
  | .deqStoreHead .., l | .deqLoadSize _, l | .deqStoreSize .., l | .deqSignal _, l
  | .deqUnlockTail _, l => l = .tail
  | _, _ => True

/-- Threads of the broker over one queue. -/
abbrev System (T E : Type) := Machine T Lock Cond (PcQueue E) (Pc E)

/-- All threads outside of the two functions. -/
def System.start {T : Type} (q : PcQueue E) : System T E where
  memory := q
  owner := fun _ => none
  status := fun _ => .running .idle

/-- The states a successful `pcq_create` may leave, for a capacity that a `size_t`
can have and that is not 0. -/
def Initial {T : Type} (s : System T E) : Prop :=
  ∃ malloc capacity q, 1 ≤ capacity ∧ capacity < 2 ^ 64 ∧
    pcqCreate malloc capacity = some q ∧ s = .start q

variable {T : Type} [Fintype T] [DecidableEq T]

/-- A turn of a thread. -/
abbrev Steps : System T E → Turn T (Pc E) → System T E → Prop := Turns program

/-- The mutexes held at each point are those that the points on the way to it took. -/
theorem holding : Holding (program (E := E)) Pc.holds where
  idle {p} hi k := by
    cases p <;> cases hi
    exact id
  entry {p} he k := by
    cases p <;> cases he <;> exact id
  lock {p l q} hi k := by
    cases p <;> cases hi <;> cases k <;> simp [Pc.holds]
  unlock {p l q} hi := by
    cases p <;> cases hi <;> refine ⟨by simp [Pc.holds], fun k => ?_⟩ <;>
      cases k <;> simp [Pc.holds]
  wait {p c l q} hi := by
    cases p <;> cases hi <;> exact ⟨by simp [Pc.holds], fun k => Iff.rfl⟩
  signal {p c q} hi k := by
    cases p <;> cases hi <;> exact Iff.rfl
  access {p run} hi m k := by
    cases p <;> cases hi
    case enqTest elem =>
      dsimp only
      split <;> exact Iff.rfl
    case deqTest =>
      dsimp only
      split <;> exact Iff.rfl
    all_goals exact Iff.rfl

/-! ## A small queue -/

/-- Three threads and a queue of this capacity, just created. -/
def small (capacity : Nat) : System (Fin 3) Nat :=
  .start
    { pcqBuffer := fun _ => 0
      pcqCapacity := capacity
      pcqCurrentSize := 0
      pcqHead := 0
      pcqTail := 0
      enqueued := []
      dequeued := [] }

theorem initial_small {capacity : Nat} (hpos : 1 ≤ capacity) (hlt : capacity < 2 ^ 64) :
    Initial (small capacity) :=
  ⟨some fun _ => 0, capacity, _, hpos, hlt, rfl, rfl⟩

/-- `n` turns of thread `t`, whose signal wakes thread 1. -/
def turnsOf (t : Fin 3) (n : Nat) : List (Turn (Fin 3) (Pc Nat)) :=
  List.replicate n (.run t fun u => u = 1)

/-- A call of thread `t` that begins at `p`, and `n` turns of it. -/
def callOf (t : Fin 3) (p : Pc Nat) (n : Nat) : List (Turn (Fin 3) (Pc Nat)) :=
  .call t p :: turnsOf t n

end MBroker.Queue
