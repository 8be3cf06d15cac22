import MBroker.Broker.Boxes
import MBroker.Broker.Handoff

/- The broker with all its workers. `main` decodes every request into `task_op` and
   enqueues its address; a worker takes an address, runs the handler of the operation
   it finds behind it, and is then in a session, waiting again or, after a creation,
   on its way into the removal that the case runs on into. The sessions go on turn by
   turn. A step is a handler up to its end or to the loop of its session, or one turn
   of that loop; the steps of `main` and of the workers come in any order.

   The program takes no lock there: the handlers and turns of several workers run side by
   side, and what two of them do to each other half-way is left out. Two subscriptions
   that lose an increment, or a removal that moves entries between the comparison of a
   subscription and its count, are no runs of this crew. The four calls of a publisher's
   turn have their own steps in `Publish`.

   A full queue only holds `main` up, so the queue is not bounded here. An `exit` in
   one worker ends the process. -/
namespace MBroker.Broker
open MBroker.Lib MBroker.Fs MBroker.Wire Function

/-- Where a worker is. -/
inductive WorkerPlace where
  /-- In `pcq_dequeue`. -/
  | waiting
  /-- Past a creation, and in the case of a removal. -/
  | removing (builder : Addr)
  | publishing (builder : Addr) (i : Nat)
  | subscribing (builder : Addr) (tfsFd : Int) (bufferBox : Mem)

/-- Where a handler leaves its worker, which is at `returned` once it has returned. -/
def Outcome.place (o : Outcome) (returned : WorkerPlace) : Except Halt WorkerPlace :=
  match o.phase with
  | .idle => .ok returned
  | .publishing builder i => .ok (.publishing builder i)
  | .subscribing builder tfsFd bufferBox => .ok (.subscribing builder tfsFd bufferBox)
  | .stopped halt => .error halt

structure Crew (W : Type) where
  server : Server
  queue : List Addr
  place : W → WorkerPlace
  /-- How the process ended. -/
  halt : Option Halt

inductive CrewStep (W : Type) where
  /-- `main` decodes a request. -/
  | request (task : Task)
  /-- A worker takes an address from the queue; `stack` is what the locals held. -/
  | take (w : W) (stack : Mem)
  | remove (w : W) (stack : Mem)
  | publish (w : W) (turn : Turn)
  | deliver (w : W)

/-- Where a worker is when the handler of an operation has returned. -/
def afterCase (op : OpCode) (builder : Addr) : WorkerPlace :=
  match op with
  | .createBox => .removing builder
  | _ => .waiting

/-- Of what holds as long as the process runs, where the steps that break it do not end
the process. -/
theorem running_iff {halt : Option Halt} {holds breaks : Prop} (halive : breaks → halt = none)
    (h : halt = none → (holds ↔ ¬ breaks)) : (halt = none → holds) ↔ ¬ breaks := by
  by_cases hrun : halt = none
  · rw [← h hrun]
    exact ⟨fun hholds => hholds hrun, fun hholds _ => hholds⟩
  · exact iff_of_true (fun hno => absurd hno hrun) (fun hbreaks => hrun (halive hbreaks))

variable {W : Type}

namespace Crew

structure Initial (c : Crew W) : Prop where
  server : c.server.Initial
  queue : c.queue = []
  place : ∀ w, c.place w = .waiting
  halt : c.halt = none

variable [DecidableEq W]

def goTo (c : Crew W) (w : W) (place : WorkerPlace) (server : Server) : Crew W :=
  { c with server, place := update c.place w place }

def settle (c : Crew W) (w : W) (returned : WorkerPlace) (o : Outcome) : Crew W :=
  match o.place returned with
  | .ok place => c.goTo w place o.server
  | .error halt => { c with server := o.server, halt := some halt }

def next (c : Crew W) (a : CrewStep W) : Option (Crew W) :=
  if c.halt.isSome then none
  else
    match a with
    | .request task =>
      some { c with
        server := c.server.receive taskOp task
        queue := if Enqueues task.opcode then c.queue ++ [taskOp] else c.queue }
    | .take w stack =>
      match c.place w, c.queue with
      | .waiting, builder :: queue =>
        let c := { c with queue }
        match OpCode.ofCode? (c.server.tasks builder).opcode with
        | none => some c
        | some op => some (c.settle w (afterCase op builder) (c.server.handle op builder stack))
      | _, _ => none
    | .remove w stack =>
      match c.place w with
      | .removing builder =>
        some (c.settle w .waiting (c.server.boxRemoveRequest builder stack))
      | _ => none
    | .publish w turn =>
      match c.place w with
      | .publishing builder i =>
        if turn.chunk.length ≤ Server.pubRequestSize then
          some (c.settle w .waiting (c.server.pubTurn builder i turn))
        else none
      | _ => none
    | .deliver w =>
      match c.place w with
      | .subscribing builder tfsFd bufferBox =>
        some (c.settle w .waiting (c.server.subTurn builder tfsFd bufferBox))
      | _ => none

def Steps (c : Crew W) (a : CrewStep W) (d : Crew W) : Prop := c.next a = some d

/-- The steps, each with what holds before it. -/
inductive Move (c : Crew W) : CrewStep W → Crew W → Prop
  | request (task : Task) : Move c (.request task)
      { c with
        server := c.server.receive taskOp task
        queue := if Enqueues task.opcode then c.queue ++ [taskOp] else c.queue }
  | skip {w : W} {stack : Mem} {builder : Addr} {queue : List Addr}
      (hplace : c.place w = .waiting) (hqueue : c.queue = builder :: queue)
      (hop : OpCode.ofCode? (c.server.tasks builder).opcode = none) :
      Move c (.take w stack) { c with queue }
  | take {w : W} {stack : Mem} {builder : Addr} {queue : List Addr} {op : OpCode}
      (hplace : c.place w = .waiting) (hqueue : c.queue = builder :: queue)
      (hop : OpCode.ofCode? (c.server.tasks builder).opcode = some op) :
      Move c (.take w stack)
        (settle { c with queue } w (afterCase op builder) (c.server.handle op builder stack))
  | remove {w : W} {stack : Mem} {builder : Addr} (hplace : c.place w = .removing builder) :
      Move c (.remove w stack)
        (c.settle w .waiting (c.server.boxRemoveRequest builder stack))
  | publish {w : W} {turn : Turn} {builder : Addr} {i : Nat}
      (hplace : c.place w = .publishing builder i)
      (hchunk : turn.chunk.length ≤ Server.pubRequestSize) :
      Move c (.publish w turn) (c.settle w .waiting (c.server.pubTurn builder i turn))
  | deliver {w : W} {builder : Addr} {tfsFd : Int} {bufferBox : Mem}
      (hplace : c.place w = .subscribing builder tfsFd bufferBox) :
      Move c (.deliver w) (c.settle w .waiting (c.server.subTurn builder tfsFd bufferBox))

variable {c d : Crew W} {a : CrewStep W} {w : W} {returned : WorkerPlace} {o : Outcome}

theorem Steps.move (h : c.Steps a d) : c.halt = none ∧ c.Move a d := by
  unfold Steps next at h
  split at h
  · cases h
  next halt =>
  refine ⟨Option.not_isSome_iff_eq_none.mp halt, ?_⟩
  cases a with
  | request task =>
    cases h
    exact .request task
  | take w stack =>
    dsimp only at h
    split at h
    swap
    · cases h
    next builder queue hplace hqueue =>
    split at h
    · next hop =>
      cases h
      exact .skip hplace hqueue hop
    · next op hop =>
      cases h
      exact .take hplace hqueue hop
  | remove w stack =>
    dsimp only at h
    split at h
    · next builder hplace =>
      cases h
      exact .remove hplace
    · cases h
  | publish w turn =>
    dsimp only at h
    split at h
    swap
    · cases h
    next builder i hplace =>
    split at h
    · next hchunk =>
      cases h
      exact .publish hplace hchunk
    · cases h
  | deliver w =>
    dsimp only at h
    split at h
    · next builder tfsFd bufferBox hplace =>
      cases h
      exact .deliver hplace
    · cases h

omit [DecidableEq W] in
/-- What is said of the task that a waiting worker takes is said of the first in the queue. -/
theorem exists_taken_iff {P : Addr → Prop} {builder : Addr} {queue : List Addr}
    (hplace : c.place w = .waiting) (hqueue : c.queue = builder :: queue) :
    (∃ builder' queue', c.place w = .waiting ∧ c.queue = builder' :: queue' ∧ P builder') ↔
      P builder := by
  refine ⟨?_, fun h => ⟨builder, queue, hplace, hqueue, h⟩⟩
  intro h
  obtain ⟨builder', queue', -, hq, h⟩ := h
  rw [hqueue, List.cons.injEq] at hq
  obtain ⟨rfl, -⟩ := hq
  exact h

/-! ## Where a worker settles -/

@[simp] theorem goTo_place (c : Crew W) (w : W) (place : WorkerPlace) (server : Server) :
    (c.goTo w place server).place w = place := by
  unfold goTo
  exact update_self ..

/-- What a place tells is told by every worker as before, where it is by the one that moves. -/
theorem apply_goTo {α : Type} {f : WorkerPlace → α} {place old : WorkerPlace} {server : Server}
    (hplace : c.place w = old) (h : f place = f old) (v : W) :
    f ((c.goTo w place server).place v) = f (c.place v) := by
  unfold goTo
  dsimp only
  by_cases hv : v = w
  · subst hv
    rw [update_self, hplace, h]
  · rw [update_of_ne hv]

theorem settle_ok {place : WorkerPlace} (h : o.place returned = .ok place) :
    c.settle w returned o = c.goTo w place o.server := by
  unfold settle
  rw [h]

omit [DecidableEq W] in
theorem place_idle (h : o.phase = .idle) : o.place returned = .ok returned := by
  unfold Outcome.place
  rw [h]

omit [DecidableEq W] in
theorem place_publishing {builder : Addr} {i : Nat} (h : o.phase = .publishing builder i) :
    o.place returned = .ok (.publishing builder i) := by
  unfold Outcome.place
  rw [h]

omit [DecidableEq W] in
theorem place_subscribing {builder : Addr} {tfsFd : Int} {bufferBox : Mem}
    (h : o.phase = .subscribing builder tfsFd bufferBox) :
    o.place returned = .ok (.subscribing builder tfsFd bufferBox) := by
  unfold Outcome.place
  rw [h]

omit [DecidableEq W] in
theorem place_stopped {halt : Halt} (h : o.phase = .stopped halt) :
    o.place returned = .error halt := by
  unfold Outcome.place
  rw [h]

theorem settle_stopped {halt : Halt} (h : o.phase = .stopped halt) :
    (c.settle w returned o).halt ≠ none := by
  unfold settle
  rw [place_stopped h]
  exact Option.some_ne_none halt

end Crew

end MBroker.Broker
