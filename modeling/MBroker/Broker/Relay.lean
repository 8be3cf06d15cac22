import Mathlib.Data.Fintype.Option
import MBroker.Broker.Handoff
import MBroker.Lib.Stutter
import MBroker.Queue.Linear

/- The hand-off with `task_queue` as it is. `main` is in `pcq_enqueue` and the workers are in
   `pcq_dequeue`, one turn after another, at their locks and waits, while the others decode
   and read fields. Every run shows a run of the hand-off with a queue of one piece, in which
   a request goes in and an address comes out where the size is stored (`relay_shows`). -/
namespace MBroker.Broker
open MBroker.Lib MBroker.Queue Function
open MBroker.Wire (Addr Task Enqueues)

structure Relay (W : Type) where
  memory : Addr → Task
  /-- The request decoded whose `pcq_enqueue` has not returned. -/
  decoded : Option Task
  /-- The address that a worker's `pcq_dequeue` returned, until it is done with it. -/
  worker : W → Option Addr
  /-- `task_queue`, with `none` for the thread of `main`. -/
  taskQueue : System (Option W) Addr

inductive RelayStep (W : Type) where
  | decode (r : Task)
  /-- `main` calls `pcq_enqueue`. -/
  | enqueue
  /-- A worker calls `pcq_dequeue`. -/
  | dequeue (w : W)
  /-- A thread takes a turn in its call. -/
  | turn (t : Option W) (woken : Option W → Bool)
  | spurious (t : Option W)
  | look (w : W) (f : Field)
  | finish (w : W)

variable {W : Type}

namespace Relay

structure Initial (s : Relay W) : Prop where
  decoded : s.decoded = none
  worker : ∀ w, s.worker w = none
  taskQueue : ∃ malloc q, pcqCreate malloc maxQueueSize = some q ∧ s.taskQueue = .start q

variable [DecidableEq W]

/-- The end of a turn that thread `t` took at a point of its call: where the call returns,
the thread goes on with what it returned. -/
def resume (s : Relay W) : Option W → Pc Addr → Relay W
  | none, .enqUnlockSize => { s with decoded := none }
  | some w, .deqUnlockTail result => { s with worker := update s.worker w (some result) }
  | _, _ => s

def next [Fintype W] (s : Relay W) : RelayStep W → Option (Relay W)
  | .decode r =>
    if s.decoded = none then
      some { s with
        memory := update s.memory taskOp r
        decoded := if Enqueues r.opcode then some r else none }
    else none
  | .enqueue =>
    if s.decoded = none then none
    else
      (turn program s.taskQueue (.call none (.enqLockSize taskOp))).map fun taskQueue =>
        { s with taskQueue }
  | .dequeue w =>
    if s.worker w = none then
      (turn program s.taskQueue (.call (some w) .deqLockTail)).map fun taskQueue =>
        { s with taskQueue }
    else none
  | .turn t woken =>
    (turn program s.taskQueue (.run t woken)).map fun taskQueue =>
      { s with taskQueue }.resume t (s.taskQueue.status t).point
  | .spurious t =>
    (turn program s.taskQueue (.spurious t)).map fun taskQueue => { s with taskQueue }
  | .look w _ => if s.worker w = none then none else some s
  | .finish w =>
    if s.worker w = none then none else some { s with worker := update s.worker w none }

def Steps [Fintype W] (s : Relay W) (a : RelayStep W) (t : Relay W) : Prop := s.next a = some t

/-- What `main` has decoded, by how far it is in `pcq_enqueue`: the hand-off with a queue
of one piece has it no longer once it is in the queue. -/
inductive MainAt : Stage (Request Addr) (Option Addr) → Option Task → Option Task → Prop
  | outside (decoded : Option Task) : MainAt .outside decoded decoded
  | asked (r : Task) : MainAt (.asked (.enqueue taskOp)) (some r) (some r)
  | done (r : Task) : MainAt (.done none) (some r) none

/-- What a worker has taken, by how far it is in `pcq_dequeue`. -/
inductive WorkerAt :
    Stage (Request Addr) (Option Addr) → Option Addr → Option (Nat × Addr) → Prop
  | outside (taken : Option (Nat × Addr)) : WorkerAt .outside (taken.map Prod.snd) taken
  | asked : WorkerAt (.asked .dequeue) none none
  | done (k : Nat) (p : Addr) : WorkerAt (.done (some p)) none (some (k, p))

/-- `s` is at what the hand-off `h` is at, with its queue of one piece. -/
structure Shows (s : Relay W) (h : Handoff W) : Prop where
  sound : Sound s.taskQueue
  memory : h.memory = s.memory
  buffer : s.taskQueue.memory.buffer = ⟨maxQueueSize, h.queue⟩
  main : MainAt (s.taskQueue.stageOf Pc.stage none) s.decoded h.decoded
  workers : ∀ w, WorkerAt (s.taskQueue.stageOf Pc.stage (some w)) (s.worker w) (h.worker w)

/-- The step of the hand-off that a step shows: an address goes in or comes out where a call
of the queue takes effect. -/
def label (s : Relay W) (a : RelayStep W) (s' : Relay W) : Option (HandoffStep W) :=
  match a with
  | .decode r => some (.decode r)
  | .look w f => some (.look w f)
  | .finish w => some (.finish w)
  | .turn t _ =>
    match (s.taskQueue.stageOf Pc.stage t).deed (s'.taskQueue.stageOf Pc.stage t), t with
    | some (.effect ..), none => some .enqueue
    | some (.effect ..), some w => some (.dequeue w)
    | _, _ => none
  | .enqueue | .dequeue _ | .spurious _ => none

variable {s s' : Relay W} {h : Handoff W} {a : RelayStep W} {w : W} {p : Pc Addr}
  {taskQueue : System (Option W) Addr} {woken : Option W → Bool}

/-! ## Where a call returns -/

theorem resume_of_not_returns (hp : p.returns = false) (t : Option W) : s.resume t p = s := by
  cases t <;> cases p <;> first | rfl | cases hp

theorem resume_main (hp : p.stage = .done none) (hr : p.returns = true) :
    s.resume none p = { s with decoded := none } := by
  cases p <;> cases hr <;> cases hp
  rfl

theorem resume_worker {result : Addr} (hp : p.stage = .done (some result))
    (hr : p.returns = true) :
    s.resume (some w) p = { s with worker := update s.worker w (some result) } := by
  cases p <;> cases hr <;> cases hp
  rfl

variable [Fintype W]

/-- The queue after a turn of one of its threads. -/
theorem Shows.turned (hS : Shows s h) {x : Turn (Option W) (Pc Addr)}
    (hst : Queue.Steps s.taskQueue x taskQueue) :
    Sound taskQueue ∧
      Stage.Step Buffer.step ⟨maxQueueSize, h.queue⟩ (s.taskQueue.stageOf Pc.stage x.thread)
        (taskQueue.stageOf Pc.stage x.thread) taskQueue.memory.buffer ∧
      ∀ u, u ≠ x.thread → taskQueue.stageOf Pc.stage u = s.taskQueue.stageOf Pc.stage u := by
  refine ⟨hS.sound.step hst, ?_, fun u hu => congrArg Pc.stage (hst.move.point hu)⟩
  rw [← hS.buffer]
  exact commits.move guarding hS.sound.owned hS.sound.guarded hst.move

omit [DecidableEq W] [Fintype W] in
/-- Something of worker `w` only changes. -/
theorem Shows.workersAt (hS : Shows s h)
    (hother : ∀ t, t ≠ some w → taskQueue.stageOf Pc.stage t = s.taskQueue.stageOf Pc.stage t)
    {worker : W → Option Addr} {held : W → Option (Nat × Addr)}
    (hframe : ∀ u, u ≠ w → worker u = s.worker u ∧ held u = h.worker u)
    (hw : WorkerAt (taskQueue.stageOf Pc.stage (some w)) (worker w) (held w)) (u : W) :
    WorkerAt (taskQueue.stageOf Pc.stage (some u)) (worker u) (held u) := by
  by_cases hu : u = w
  · rw [hu]
    exact hw
  · obtain ⟨hworker, hheld⟩ := hframe u hu
    rw [hworker, hheld, hother (some u) fun heq => hu (Option.some.inj heq)]
    exact hS.workers u

/-- As long as its call does not return, a thread does not go on. -/
theorem Shows.resumed (hS : Shows s h) {t : Option W}
    (hst : Queue.Steps s.taskQueue (.run t woken) taskQueue)
    (hin : taskQueue.stageOf Pc.stage t ≠ .outside) :
    { s with taskQueue }.resume t (s.taskQueue.status t).point = { s with taskQueue } := by
  obtain ⟨-, hends⟩ := run_returns hS.sound.owned hst.move
  rw [Ne, hends, Bool.not_eq_true] at hin
  exact resume_of_not_returns hin t

/-- `main` takes a turn in `pcq_enqueue`. -/
theorem Shows.mainTurn (hS : Shows s h)
    (hst : Queue.Steps s.taskQueue (.run none woken) taskQueue)
    (hs' : s' = { s with taskQueue }.resume none (s.taskQueue.status none).point) :
    ∃ h', Follows Handoff.Steps h (label s (.turn none woken) s') h' ∧ Shows s' h' := by
  obtain ⟨hsound, hstep, hother⟩ := hS.turned hst
  obtain ⟨hin, hends⟩ := run_returns hS.sound.owned hst.move
  have hworkers : ∀ w, WorkerAt (taskQueue.stageOf Pc.stage (some w)) (s.worker w)
      (h.worker w) := by
    intro w
    rw [hother (some w) (Option.some_ne_none w)]
    exact hS.workers w
  have hmain := hS.main
  generalize hx : s.taskQueue.stageOf Pc.stage none = x at hmain hin
  generalize hd : s.decoded = d at hmain
  generalize he : h.decoded = e at hmain
  rw [show (Turn.run none woken : Turn (Option W) (Pc Addr)).thread = none from rfl, hx] at hstep
  cases hmain with
  | outside => exact absurd rfl hin
  | asked r =>
    rcases hstep.of_asked with ⟨hy, hbuffer⟩ | ⟨answer, hy, hput⟩
    · obtain rfl := hs'.trans (hS.resumed hst (by simp [hy]))
      refine ⟨h, ?_, hsound, hS.memory, hbuffer, ?_, hworkers⟩
      · simp [label, hx, hy, Follows]
      · rw [hy, he, hd]
        exact .asked r
    · -- the address goes in
      obtain rfl := hs'.trans (hS.resumed hst (by simp [hy]))
      obtain ⟨hroom, rfl, hbuffer⟩ := enqueue_ok hput
      refine ⟨{ h with
        decoded := none
        queue := h.queue ++ [taskOp]
        requests := h.requests ++ [r] }, ?_, hsound, hS.memory, hbuffer, ?_, hworkers⟩
      · have hlabel : label s (.turn none woken) { s with taskQueue } = some .enqueue := by
          simp [label, hx, hy, Stage.deed]
        rw [hlabel]
        simp only [Follows, Handoff.Steps, Handoff.next, he, if_pos hroom]
      · rw [hy, hd]
        exact .done r
  | done =>
    obtain ⟨hy | hy, hbuffer⟩ := hstep.of_done
    · obtain rfl := hs'.trans (hS.resumed hst (by simp [hy]))
      refine ⟨h, ?_, hsound, hS.memory, hbuffer, ?_, hworkers⟩
      · simp [label, hx, hy, Follows]
      · rw [hy, he, hd]
        exact .done _
    · -- the call returns
      rw [resume_main hx (hends.mp hy)] at hs'
      subst hs'
      refine ⟨h, ?_, hsound, hS.memory, hbuffer, ?_, hworkers⟩
      · simp [label, hx, hy, Follows, Stage.deed]
      · show MainAt (taskQueue.stageOf Pc.stage none) none h.decoded
        rw [hy, he]
        exact .outside none

/-- A worker takes a turn in `pcq_dequeue`. -/
theorem Shows.workerTurn (hS : Shows s h)
    (hst : Queue.Steps s.taskQueue (.run (some w) woken) taskQueue)
    (hs' : s' = { s with taskQueue }.resume (some w) (s.taskQueue.status (some w)).point) :
    ∃ h', Follows Handoff.Steps h (label s (.turn (some w) woken) s') h' ∧ Shows s' h' := by
  obtain ⟨hsound, hstep, hother⟩ := hS.turned hst
  obtain ⟨hin, hends⟩ := run_returns hS.sound.owned hst.move
  have hmain : MainAt (taskQueue.stageOf Pc.stage none) s.decoded h.decoded := by
    rw [hother none (Option.some_ne_none w).symm]
    exact hS.main
  have hw := hS.workers w
  generalize hx : s.taskQueue.stageOf Pc.stage (some w) = x at hw hin
  generalize hd : s.worker w = d at hw
  generalize he : h.worker w = e at hw
  rw [show (Turn.run (some w) woken : Turn (Option W) (Pc Addr)).thread = some w from rfl,
    hx] at hstep
  cases hw with
  | outside => exact absurd rfl hin
  | asked =>
    rcases hstep.of_asked with ⟨hy, hbuffer⟩ | ⟨answer, hy, htake⟩
    · obtain rfl := hs'.trans (hS.resumed hst (by simp [hy]))
      refine ⟨h, ?_, hsound, hS.memory, hbuffer, hmain,
        hS.workersAt hother (fun u _ => ⟨rfl, rfl⟩) ?_⟩
      · simp [label, hx, hy, Follows]
      · rw [hy, he, hd]
        exact .asked
    · -- an address comes out
      obtain rfl := hs'.trans (hS.resumed hst (by simp [hy]))
      obtain ⟨p, queue, hqueue, rfl, hbuffer⟩ := dequeue_ok htake
      refine ⟨{ h with
        queue := queue
        worker := update h.worker w (some (h.takings.length, p))
        takings := h.takings ++ [⟨w, []⟩] }, ?_, hsound, hS.memory, hbuffer, hmain,
        hS.workersAt hother (fun u hu => ⟨rfl, update_of_ne hu ..⟩) ?_⟩
      · have hlabel : label s (.turn (some w) woken) { s with taskQueue } =
            some (.dequeue w) := by
          simp [label, hx, hy, Stage.deed]
        have hqueue' : h.queue = p :: queue := hqueue
        rw [hlabel]
        simp only [Follows, Handoff.Steps, Handoff.next, he, hqueue']
      · show WorkerAt _ (s.worker w) (update h.worker w _ w)
        rw [hy, hd, update_self]
        exact .done _ p
  | done k p =>
    obtain ⟨hy | hy, hbuffer⟩ := hstep.of_done
    · obtain rfl := hs'.trans (hS.resumed hst (by simp [hy]))
      refine ⟨h, ?_, hsound, hS.memory, hbuffer, hmain,
        hS.workersAt hother (fun u _ => ⟨rfl, rfl⟩) ?_⟩
      · simp [label, hx, hy, Follows]
      · rw [hy, he, hd]
        exact .done k p
    · -- the call returns
      rw [resume_worker hx (hends.mp hy)] at hs'
      subst hs'
      refine ⟨h, ?_, hsound, hS.memory, hbuffer, hmain,
        hS.workersAt hother (fun u hu => ⟨update_of_ne hu .., rfl⟩) ?_⟩
      · simp [label, hx, hy, Follows, Stage.deed]
      · show WorkerAt _ (update s.worker w (some p) w) _
        rw [hy, he, update_self]
        exact .outside (some (k, p))

omit [DecidableEq W] [Fintype W] in
/-- A thread calls the queue, or wakes up of its own: the queue and what the threads have
taken from it are as they were. -/
theorem Shows.kept (hS : Shows s h) (hsound : Sound taskQueue)
    (hmem : taskQueue.memory = s.taskQueue.memory)
    (hmain : MainAt (taskQueue.stageOf Pc.stage none) s.decoded h.decoded)
    (hworkers : ∀ w, WorkerAt (taskQueue.stageOf Pc.stage (some w)) (s.worker w) (h.worker w)) :
    Shows { s with taskQueue } h := by
  refine ⟨hsound, hS.memory, ?_, hmain, hworkers⟩
  show taskQueue.memory.buffer = _
  rw [hmem]
  exact hS.buffer

omit [DecidableEq W] [Fintype W] in
/-- A worker that is at an address has returned from `pcq_dequeue`. -/
theorem Shows.taken (hS : Shows s h) (hsome : s.worker w ≠ none) :
    ∃ k p, h.worker w = some (k, p) ∧ s.worker w = some p ∧
      s.taskQueue.stageOf Pc.stage (some w) = .outside := by
  have hw := hS.workers w
  generalize hd : s.worker w = d at hw hsome
  generalize he : h.worker w = e at hw
  generalize s.taskQueue.stageOf Pc.stage (some w) = x at hw
  cases hw with
  | outside =>
    cases e with
    | none => exact absurd rfl hsome
    | some x => exact ⟨x.1, x.2, rfl, rfl, rfl⟩
  | asked | done => exact absurd rfl hsome

theorem Shows.step (hS : Shows s h) (hst : Steps s a s') :
    ∃ h', Follows Handoff.Steps h (label s a s') h' ∧ Shows s' h' := by
  unfold Steps next at hst
  cases a with
  | decode r =>
    dsimp only at hst
    split at hst
    · next hnone =>
      cases hst
      -- `main` is not in `pcq_enqueue`
      have hmain := hS.main
      rw [hnone] at hmain
      generalize hx : s.taskQueue.stageOf Pc.stage none = x at hmain
      generalize he : h.decoded = e at hmain
      cases hmain
      refine ⟨{ h with
        memory := update h.memory taskOp r
        decoded := if Enqueues r.opcode then some r else none }, ?_, hS.sound, ?_, hS.buffer, ?_,
        hS.workers⟩
      · simp only [label, Follows, Handoff.Steps, Handoff.next, he, if_true]
      · show update h.memory taskOp r = update s.memory taskOp r
        rw [hS.memory]
      · show MainAt (s.taskQueue.stageOf Pc.stage none) _ _
        rw [hx]
        exact .outside _
    · cases hst
  | enqueue =>
    dsimp only at hst
    split at hst
    · cases hst
    · next hsome =>
      obtain ⟨taskQueue, hturn, rfl⟩ := Option.map_eq_some_iff.mp hst
      obtain ⟨hsound, -, hother⟩ := hS.turned hturn
      obtain ⟨hbefore, hafter, hmem⟩ := call_enters (Turns.move hturn)
      refine ⟨h, rfl, hS.kept hsound hmem ?_ fun w => ?_⟩
      · have hmain := hS.main
        rw [hbefore] at hmain
        obtain ⟨r, hr⟩ := Option.ne_none_iff_exists'.mp hsome
        generalize he : h.decoded = e at hmain
        rw [hr] at hmain ⊢
        cases hmain
        rw [hafter]
        exact .asked r
      · rw [hother (some w) (Option.some_ne_none w)]
        exact hS.workers w
  | dequeue w =>
    dsimp only at hst
    split at hst
    · next hnone =>
      obtain ⟨taskQueue, hturn, rfl⟩ := Option.map_eq_some_iff.mp hst
      obtain ⟨hsound, -, hother⟩ := hS.turned hturn
      obtain ⟨hbefore, hafter, hmem⟩ := call_enters (Turns.move hturn)
      refine ⟨h, rfl, hS.kept hsound hmem ?_
        (hS.workersAt hother (fun u _ => ⟨rfl, rfl⟩) ?_)⟩
      · rw [hother none (Option.some_ne_none w).symm]
        exact hS.main
      · have hw := hS.workers w
        rw [hbefore] at hw
        generalize hd : s.worker w = d at hw hnone
        generalize he : h.worker w = e at hw
        cases hw
        obtain rfl := Option.map_eq_none_iff.mp hnone
        rw [hafter]
        exact .asked
    · cases hst
  | turn t woken =>
    obtain ⟨taskQueue, hturn, hs'⟩ := Option.map_eq_some_iff.mp hst
    cases t with
    | none => exact hS.mainTurn hturn hs'.symm
    | some w => exact hS.workerTurn hturn hs'.symm
  | spurious t =>
    obtain ⟨taskQueue, hturn, rfl⟩ := Option.map_eq_some_iff.mp hst
    obtain ⟨hsound, -, hother⟩ := hS.turned hturn
    obtain ⟨hself, hmem⟩ := spurious_stays (Turns.move hturn)
    have hall : ∀ u, taskQueue.stageOf Pc.stage u = s.taskQueue.stageOf Pc.stage u := by
      intro u
      by_cases hu : u = t
      · rw [hu, hself]
      · exact hother u hu
    refine ⟨h, rfl, hS.kept hsound hmem ?_ fun w => ?_⟩
    · rw [hall]
      exact hS.main
    · rw [hall]
      exact hS.workers w
  | look w f =>
    dsimp only at hst
    split at hst
    · cases hst
    · next hsome =>
      cases hst
      obtain ⟨k, p, hk, -, -⟩ := hS.taken hsome
      refine ⟨{ h with
        takings := h.takings.modify k fun taking =>
          { taking with seen := taking.seen ++ [(f, f.of (h.memory p))] } }, ?_,
        hS.sound, hS.memory, hS.buffer, hS.main, hS.workers⟩
      simp only [label, Follows, Handoff.Steps, Handoff.next, hk]
  | finish w =>
    dsimp only at hst
    split at hst
    · cases hst
    · next hsome =>
      cases hst
      obtain ⟨k, p, hk, -, hx⟩ := hS.taken hsome
      refine ⟨{ h with worker := update h.worker w none }, ?_, hS.sound, hS.memory, hS.buffer,
        hS.main, hS.workersAt (fun _ _ => rfl)
          (fun u hu => ⟨update_of_ne hu .., update_of_ne hu ..⟩) ?_⟩
      · simp [label, Follows, Handoff.Steps, Handoff.next, hk]
      · show WorkerAt _ (update s.worker w none w) (update h.worker w none w)
        rw [hx, update_self, update_self]
        exact .outside none

omit [DecidableEq W] [Fintype W] in
theorem Initial.shows (h0 : Initial s) : ∃ h, Handoff.Initial h ∧ Shows s h := by
  obtain ⟨malloc, q, hq, hs⟩ := h0.taskQueue
  refine ⟨⟨s.memory, none, [], fun _ => none, [], []⟩, ⟨rfl, rfl, fun _ => rfl, rfl, rfl⟩, ?_, rfl,
    ?_, ?_, fun w => ?_⟩
  · exact .initial ⟨malloc, maxQueueSize, q, by decide, by decide, hq, hs⟩
  · obtain ⟨cells, -, rfl⟩ := Option.map_eq_some_iff.mp hq
    rw [hs]
    rfl
  · rw [hs, h0.decoded]
    exact .outside none
  · rw [hs, h0.worker w]
    exact .outside none

/-- Every run of the threads shows a run of the hand-off with a queue of one piece. -/
theorem relay_shows (h0 : Initial s) {ρ : List (RelayStep W × Relay W)} (hr : Run Steps s ρ) :
    ∃ h σ, Handoff.Initial h ∧ Run Handoff.Steps h σ ∧ σ.map Prod.fst = shown label s ρ ∧
      Shows (lastState s ρ) (lastState h σ) := by
  obtain ⟨h, hh, hS⟩ := h0.shows
  obtain ⟨σ, hσ, hlabels, hlast⟩ := Run.shows (fun _ _ _ _ hS hst => hS.step hst) hS hr
  exact ⟨h, σ, hh, hσ, hlabels, hlast⟩

/-- One worker, and an empty queue. -/
def emptyRelay : Relay Unit where
  memory := fun _ => ⟨fun _ => 0⟩
  decoded := none
  worker := fun _ => none
  taskQueue := .start
    { pcqBuffer := fun _ => 0
      pcqCapacity := maxQueueSize
      pcqCurrentSize := 0
      pcqHead := 0
      pcqTail := 0
      enqueued := []
      dequeued := [] }

theorem emptyRelay_initial : Initial emptyRelay :=
  ⟨rfl, fun _ => rfl, some fun _ => 0, _, rfl, rfl⟩

/-- The worker waits; `main` decodes a publisher's login, its call of `pcq_enqueue` wakes the
worker, and the worker's own call returns with the address, behind which it looks. -/
def handedOver : List (RelayStep Unit × Relay Unit) :=
  along next emptyRelay
    ([.dequeue ()] ++ List.replicate 3 (.turn (some ()) fun _ => false) ++
      [.decode Handoff.publisherTask, .enqueue] ++
      List.replicate 14 (.turn none fun t => t.isSome) ++
      List.replicate 10 (.turn (some ()) fun _ => false) ++ [.look () .opcode])

theorem relay_shows_handedOver :
    shown label emptyRelay handedOver =
        [.decode Handoff.publisherTask, .enqueue, .dequeue (), .look () .opcode] ∧
      ∃ h σ, Handoff.Initial h ∧ Run Handoff.Steps h σ ∧
        σ.map Prod.fst = shown label emptyRelay handedOver ∧
        Shows (lastState emptyRelay handedOver) (lastState h σ) :=
  ⟨by rfl, relay_shows emptyRelay_initial (run_along _ _ _)⟩

end Relay

end MBroker.Broker
