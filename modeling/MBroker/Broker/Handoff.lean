import Mathlib.Logic.Function.Basic
import MBroker.Lib.Transition
import MBroker.Wire.Register

/- The hand-off of requests from `main` to the workers. `main` decodes into its
   local `task_op` and enqueues the address of it, the same on every turn of the
   loop; a worker dequeues an address and then reads the fields behind it, one
   after another, while `main` goes on. The queue is taken as what it is proved to
   be elsewhere, first in, first out and bounded.

   `requests` and `takings` are the record of a run: the requests enqueued, in
   order, and for each address taken from the queue, in order, what its worker
   read behind it. -/
namespace MBroker.Broker
open MBroker.Lib MBroker.Wire Function
open MBroker.Fs (CString)

/-- `&task_op`. -/
def taskOp : Addr := 0

def maxQueueSize : Nat := 1024

/-- The fields of a task that the workers act on. -/
inductive Field where
  | opcode
  | pipePath
  | boxName
  deriving DecidableEq, Repr

inductive FieldValue where
  | code (c : UInt8)
  | text (s : CString)
  deriving DecidableEq, Repr

def Field.of (t : Task) : Field → FieldValue
  | .opcode => .code t.opcode
  | .pipePath => .text t.pipePath
  | .boxName => .text t.boxName

/-- One address taken from the queue: by whom, and what was read behind it. -/
structure Taking (W : Type) where
  worker : W
  seen : List (Field × FieldValue)

structure Handoff (W : Type) where
  memory : Addr → Task
  /-- The request decoded and not yet enqueued. -/
  decoded : Option Task
  queue : List Addr
  /-- The number of the taking a worker is at, and its address. -/
  worker : W → Option (Nat × Addr)
  requests : List Task
  takings : List (Taking W)

inductive HandoffStep (W : Type) where
  | decode (r : Task)
  | enqueue
  | dequeue (w : W)
  | look (w : W) (f : Field)
  | finish (w : W)

variable {W : Type}

namespace Handoff

def Initial (s : Handoff W) : Prop :=
  s.decoded = none ∧ s.queue = [] ∧ (∀ w, s.worker w = none) ∧ s.requests = [] ∧ s.takings = []

variable [DecidableEq W]

def next (s : Handoff W) : HandoffStep W → Option (Handoff W)
  | .decode r =>
    if s.decoded = none then
      some { s with
        memory := update s.memory taskOp r
        decoded := if Enqueues r.opcode then some r else none }
    else none
  | .enqueue =>
    match s.decoded with
    | none => none
    | some r =>
      if s.queue.length < maxQueueSize then
        some { s with
          decoded := none
          queue := s.queue ++ [taskOp]
          requests := s.requests ++ [r] }
      else none
  | .dequeue w =>
    match s.worker w, s.queue with
    | none, p :: queue =>
      some { s with
        queue := queue
        worker := update s.worker w (some (s.takings.length, p))
        takings := s.takings ++ [⟨w, []⟩] }
    | _, _ => none
  | .look w f =>
    match s.worker w with
    | none => none
    | some (k, p) =>
      some { s with
        takings := s.takings.modify k fun taking =>
          { taking with seen := taking.seen ++ [(f, f.of (s.memory p))] } }
  | .finish w =>
    if s.worker w = none then none
    else some { s with worker := update s.worker w none }

def Steps (s : Handoff W) (a : HandoffStep W) (t : Handoff W) : Prop := s.next a = some t

/-- The takings are the requests taken from the queue so far, each once and with its
own contents. -/
def ExactlyOnce (s : Handoff W) : Prop :=
  ∀ (k : Nat) (taking : Taking W), s.takings[k]? = some taking →
    ∃ r, s.requests[k]? = some r ∧ ∀ x ∈ taking.seen, x.2 = x.1.of r

/-- A worker that reads a field finds in `task_op` what the field of its own request
is: `main` has not since decoded another request over it that differs there. -/
def Fresh (s : Handoff W) : HandoffStep W → Prop
  | .look w f => ∀ k p, s.worker w = some (k, p) →
    ∃ r, s.requests[k]? = some r ∧ f.of (s.memory taskOp) = f.of r
  | .decode _ | .enqueue | .dequeue _ | .finish _ => True

/-- Every request enqueued is in the queue or was taken, and every address around
is that of `task_op`. -/
structure Accounted (s : Handoff W) : Prop where
  count : s.requests.length = s.takings.length + s.queue.length
  queued : ∀ p ∈ s.queue, p = taskOp
  held : ∀ w k p, s.worker w = some (k, p) → k < s.takings.length ∧ p = taskOp

variable {s t : Handoff W}

omit [DecidableEq W] in
theorem Initial.accounted (h : Initial s) : Accounted s := by
  obtain ⟨-, hq, hw, hr, ht⟩ := h
  refine ⟨?_, ?_, ?_⟩
  · simp [hq, hr, ht]
  · simp [hq]
  · simp [hw]

/-! ## The steps -/

theorem decode_cases {r : Task} (h : Steps s (.decode r) t) :
    t = { s with
      memory := update s.memory taskOp r
      decoded := if Enqueues r.opcode then some r else none } := by
  simp only [Steps, next] at h
  split at h
  · exact (Option.some.inj h).symm
  · cases h

theorem enqueue_cases (h : Steps s .enqueue t) :
    ∃ r, t = { s with
      decoded := none
      queue := s.queue ++ [taskOp]
      requests := s.requests ++ [r] } := by
  simp only [Steps, next] at h
  split at h
  · cases h
  · next r _ =>
    split at h
    · exact ⟨r, (Option.some.inj h).symm⟩
    · cases h

theorem dequeue_cases {w : W} (h : Steps s (.dequeue w) t) :
    ∃ p queue, s.queue = p :: queue ∧ t = { s with
      queue := queue
      worker := update s.worker w (some (s.takings.length, p))
      takings := s.takings ++ [⟨w, []⟩] } := by
  simp only [Steps, next] at h
  split at h
  · next p queue _ hq => exact ⟨p, queue, hq, (Option.some.inj h).symm⟩
  · cases h

theorem look_cases {w : W} {f : Field} (h : Steps s (.look w f) t) :
    ∃ k p, s.worker w = some (k, p) ∧ t = { s with
      takings := s.takings.modify k fun taking =>
        { taking with seen := taking.seen ++ [(f, f.of (s.memory p))] } } := by
  simp only [Steps, next] at h
  split at h
  · cases h
  · next k p hw => exact ⟨k, p, hw, (Option.some.inj h).symm⟩

theorem finish_cases {w : W} (h : Steps s (.finish w) t) :
    t = { s with worker := update s.worker w none } := by
  simp only [Steps, next] at h
  split at h
  · cases h
  · exact (Option.some.inj h).symm

theorem Accounted.step {a : HandoffStep W} (hA : Accounted s) (h : Steps s a t) :
    Accounted t := by
  obtain ⟨hcount, hqueued, hheld⟩ := hA
  cases a with
  | decode r =>
    rw [decode_cases h]
    exact ⟨hcount, hqueued, hheld⟩
  | enqueue =>
    obtain ⟨r, rfl⟩ := enqueue_cases h
    refine ⟨?_, ?_, ?_⟩
    · simp only [List.length_append, hcount, List.length_singleton]
      omega
    · intro p hp
      rcases List.mem_append.mp hp with hp | hp
      · exact hqueued p hp
      · exact List.mem_singleton.mp hp
    · exact hheld
  | dequeue w =>
    obtain ⟨p, queue, hq, rfl⟩ := dequeue_cases h
    refine ⟨?_, ?_, ?_⟩
    · simp only [hcount, hq, List.length_append, List.length_cons, List.length_nil]
      omega
    · intro p' hp
      exact hqueued p' (by rw [hq]; exact List.mem_cons_of_mem _ hp)
    · intro w' k p' hw
      simp only [List.length_append, List.length_singleton]
      -- the worker itself has the last taking now
      by_cases hww : w' = w
      · subst hww
        simp only [update_self, Option.some.injEq, Prod.mk.injEq] at hw
        obtain ⟨rfl, rfl⟩ := hw
        exact ⟨Nat.lt_succ_self _, hqueued p (by rw [hq]; exact List.mem_cons_self)⟩
      · simp only [update_of_ne hww] at hw
        obtain ⟨hk, hp⟩ := hheld w' k p' hw
        exact ⟨Nat.lt_succ_of_lt hk, hp⟩
  | look w f =>
    obtain ⟨k, p, -, rfl⟩ := look_cases h
    refine ⟨?_, ?_, ?_⟩
    · simp [hcount]
    · exact hqueued
    · intro w' k' p' hw
      simpa using hheld w' k' p' hw
  | finish w =>
    rw [finish_cases h]
    refine ⟨hcount, hqueued, fun w' k p hw => ?_⟩
    by_cases hww : w' = w
    · subst hww
      simp at hw
    · simp only [update_of_ne hww] at hw
      exact hheld w' k p hw

/-! ## One step -/

/-- A read adds what it saw to its taking, and to no other. -/
theorem exactlyOnce_look {w : W} {f : Field} (hA : Accounted s) (hs : ExactlyOnce s)
    (h : Steps s (.look w f) t) : ExactlyOnce t ↔ Fresh s (.look w f) := by
  obtain ⟨k, p, hw, rfl⟩ := look_cases h
  obtain ⟨hk, rfl⟩ := hA.held w k p hw
  have htaking : s.takings[k]? = some s.takings[k] := List.getElem?_eq_getElem hk
  obtain ⟨r, hr, hseen⟩ := hs k _ htaking
  -- the taking after the read
  generalize hlook : (fun taking : Taking W =>
    { taking with seen := taking.seen ++ [(f, f.of (s.memory taskOp))] }) = look
  have hnew : (s.takings.modify k look)[k]? = some (look s.takings[k]) := by
    rw [List.getElem?_modify_eq, htaking]
    rfl
  have hmem : ∀ x, x ∈ (look s.takings[k]).seen ↔
      x ∈ s.takings[k].seen ∨ x = (f, f.of (s.memory taskOp)) := by
    intro x
    rw [← hlook]
    simp
  refine ⟨?_, ?_⟩
  · intro ht k' p' hw'
    rw [hw, Option.some.injEq, Prod.mk.injEq] at hw'
    obtain ⟨rfl, -⟩ := hw'
    refine ⟨r, hr, ?_⟩
    obtain ⟨r', hr', hall⟩ := ht k _ hnew
    rw [hr, Option.some.injEq] at hr'
    subst hr'
    exact hall _ ((hmem _).mpr (.inr rfl))
  · intro hf j taking hj
    obtain ⟨r', hr', hval⟩ := hf k taskOp hw
    rw [hr, Option.some.injEq] at hr'
    subst hr'
    by_cases hkj : k = j
    · subst hkj
      rw [hnew, Option.some.injEq] at hj
      subst hj
      refine ⟨r, hr, fun x hx => ?_⟩
      rcases (hmem x).mp hx with hx | rfl
      · exact hseen x hx
      · exact hval
    · -- another taking is as it was
      have hold : (s.takings.modify k look)[j]? = s.takings[j]? := by
        simp [hkj]
      exact hs j taking (hold.symm.trans hj)

theorem exactlyOnce_step {a : HandoffStep W} (hA : Accounted s) (hs : ExactlyOnce s)
    (h : Steps s a t) : ExactlyOnce t ↔ Fresh s a := by
  cases a with
  | look w f => exact exactlyOnce_look hA hs h
  | decode r =>
    rw [decode_cases h]
    exact iff_of_true hs trivial
  | finish w =>
    rw [finish_cases h]
    exact iff_of_true hs trivial
  | enqueue =>
    obtain ⟨r, rfl⟩ := enqueue_cases h
    refine iff_of_true (fun k taking hk => ?_) trivial
    obtain ⟨r', hr', hseen⟩ := hs k taking hk
    exact ⟨r', by rw [List.getElem?_append_left (List.getElem?_eq_some_iff.mp hr').1, hr'], hseen⟩
  | dequeue w =>
    obtain ⟨p, queue, hq, rfl⟩ := dequeue_cases h
    refine iff_of_true (fun k taking hk => ?_) trivial
    by_cases hlt : k < s.takings.length
    · rw [List.getElem?_append_left hlt] at hk
      exact hs k taking hk
    · -- the new taking: its request is enqueued, and nothing is read yet
      have hcount := hA.count
      rw [hq, List.length_cons] at hcount
      rw [List.getElem?_append_right (by omega)] at hk
      have hk0 : k - s.takings.length = 0 := by
        have := (List.getElem?_eq_some_iff.mp hk).1
        rw [List.length_singleton] at this
        omega
      rw [hk0, List.getElem?_cons_zero, Option.some.injEq] at hk
      have hlt' : k < s.requests.length := by omega
      refine ⟨s.requests[k], List.getElem?_eq_getElem hlt', ?_⟩
      rw [← hk]
      simp

/-! ## Runs -/

/-- Along a run the requests taken are handled exactly once, with their own contents,
exactly when no worker reads a field that a later request has changed. -/
theorem exactlyOnce_iff {ρ : List (HandoffStep W × Handoff W)} (h0 : Initial s)
    (hr : Run Steps s ρ) : EveryState ExactlyOnce s ρ ↔ EveryStep Fresh s ρ := by
  have hstart : ExactlyOnce s := by
    intro k taking hk
    rw [h0.2.2.2.2] at hk
    cases hk
  apply Run.everyState_iff (I := Accounted) _ _ h0.accounted hstart hr
  · intro s a t hA hst
    exact hA.step hst
  · intro s a t hA hs hst
    exact exactlyOnce_step hA hs hst

/-- A publisher's and a subscriber's login. -/
def publisherTask : Task := (⟨fun _ => 0⟩ : Task).setOpcode .loginPub

def subscriberTask : Task := (⟨fun _ => 0⟩ : Task).setOpcode .loginSub

def emptyHandoff : Handoff Unit where
  memory := fun _ => ⟨fun _ => 0⟩
  decoded := none
  queue := []
  worker := fun _ => none
  requests := []
  takings := []

theorem emptyHandoff_initial : Initial emptyHandoff := ⟨rfl, rfl, fun _ => rfl, rfl, rfl⟩

/-- The subscriber's login is decoded before a worker looks at the publisher's. -/
def overtaken : List (HandoffStep Unit × Handoff Unit) :=
  along next emptyHandoff [.decode publisherTask, .enqueue, .decode subscriberTask, .dequeue (),
    .look () .opcode]

theorem exactlyOnce_iff_overtaken :
    EveryState ExactlyOnce emptyHandoff overtaken ↔ EveryStep Fresh emptyHandoff overtaken :=
  exactlyOnce_iff emptyHandoff_initial (run_along _ _ _)

/-- The worker that takes the publisher's login finds a subscriber's. -/
theorem request_overtaken :
    ¬ ∀ (s : Handoff Unit) ρ, Initial s → Run Steps s ρ → EveryState ExactlyOnce s ρ := by
  intro h
  have hall := h emptyHandoff overtaken emptyHandoff_initial (run_along _ _ _)
  have hlast := hall.2.2.2.2.2
  obtain ⟨r, hr, hseen⟩ := hlast 0 ⟨(), [(.opcode, .code 2)]⟩ rfl
  have hpub : some publisherTask = some r := hr
  rw [← Option.some.inj hpub] at hseen
  have hcode := hseen (.opcode, .code 2) List.mem_cons_self
  cases hcode

end Handoff

end MBroker.Broker
