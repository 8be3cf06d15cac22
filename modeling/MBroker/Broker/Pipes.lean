import MBroker.Broker.Lifetime
import MBroker.Clients.Programs

/- The broker with the pipes it opens. `main` opens the register pipe and only then starts
   the workers; it then decodes what it reads. Each handler of a worker opens the client's
   pipe, by the path in its task, before it does anything else: those of a publisher and of
   a subscriber end the process where that fails, and the other two go on without a pipe,
   to end the process if they have something to write to it. -/
namespace MBroker.Broker
open MBroker.Lib MBroker.Fs MBroker.Wire Function
open MBroker.Clients (Shy)

/-- A handler in the `open` it begins with. -/
structure Handling where
  op : OpCode
  builder : Addr
  pipePath : CString

inductive BrokerMain where
  | openingServer
  | serving

structure Piped (W : Type) where
  pipeName : CString
  main : BrokerMain
  crew : Crew W
  handling : W → Option Handling

inductive PipedStep (W : Type) where
  /-- `main` comes to the `open` of the register pipe. -/
  | comes
  | opens
  | fails
  /-- A turn of the loop of `main`. -/
  | request (turn : Turn)
  /-- A worker takes an address and comes to the `open` of its handler. -/
  | take (w : W)
  /-- A worker comes from a creation to the `open` of the removal. -/
  | fallThrough (w : W)
  /-- The `open` of a handler comes back with a descriptor; `stack` is what the locals held. -/
  | enter (w : W) (stack : Mem)
  /-- It comes back without. -/
  | refuse (w : W) (stack : Mem)
  | publish (w : W) (turn : Turn)
  | deliver (w : W)

/-- The end of the client's pipe that a handler opens; none where there is no handler. -/
def handlerSide : OpCode → Option PipeEnd
  | .loginPub => some .reading
  | .loginSub | .createBox | .removeBox => some .writing
  | _ => none

namespace Piped

variable {W : Type} [DecidableEq W]

/-- The handler where nothing can be written to the client's pipe. -/
def mute (c : Crew W) (w : W) (returned : WorkerPlace) (o : Outcome) : Crew W :=
  if o.replies = [] then c.settle w returned o else { c with halt := some exitFailure }

/-- The handler past its `open`. -/
def run (b : Piped W) (w : W) (h : Handling) (stack : Mem) : Crew W :=
  let o := b.crew.server.handle h.op h.builder stack
  match h.op with
  | .loginPub => mute b.crew w .waiting o -- the pipe is open for reading
  | op => b.crew.settle w (afterCase op h.builder) o

/-- The handler where its `open` failed. -/
def unopened (b : Piped W) (w : W) (h : Handling) (stack : Mem) : Crew W :=
  match h.op with
  | .createBox | .removeBox =>
    mute b.crew w (afterCase h.op h.builder) (b.crew.server.handle h.op h.builder stack)
  | _ => { b.crew with halt := some exitFailure }

/-- The worker comes to the `open` of the handler of `op`. -/
def handle (b : Piped W) (crew : Crew W) (w : W) (op : OpCode) (builder : Addr) :
    Event CString × Piped W :=
  let pipePath := (crew.server.tasks builder).pipePath
  match handlerSide op with
  | none => (.inner, { b with crew })
  | some side =>
    (.asks pipePath side,
      { b with crew, handling := update b.handling w (some ⟨op, builder, pipePath⟩) })

def take (b : Piped W) (w : W) : Option (Event CString × Piped W) :=
  match b.handling w, b.crew.place w, b.crew.queue with
  | none, .waiting, builder :: queue =>
    let crew := { b.crew with queue }
    match OpCode.ofCode? (crew.server.tasks builder).opcode with
    | none => some (.inner, { b with crew })
    | some op => some (b.handle crew w op builder)
  | _, _, _ => none

def next (b : Piped W) (a : PipedStep W) : Option (Event CString × Piped W) :=
  if b.crew.halt.isSome then none
  else
    match b.main, a with
    | .openingServer, .comes => some (.asks b.pipeName .reading, b)
    | .openingServer, .opens =>
      if b.pipeName.bytes = [] then none
      else some (.gets b.pipeName .reading, { b with main := .serving })
    | .openingServer, .fails => some (.inner, { b with crew.halt := some exitFailure })
    | .serving, .request turn =>
      match turn.decode requestSize with
      | .error halt => some (.inner, { b with crew.halt := some halt })
      | .ok task => (b.crew.next (.request task)).map fun crew => (.inner, { b with crew })
    | .serving, .take w => b.take w
    | .serving, .fallThrough w =>
      match b.handling w, b.crew.place w with
      | none, .removing builder => some (b.handle b.crew w .removeBox builder)
      | _, _ => none
    | .serving, .enter w stack =>
      match b.handling w with
      | some h =>
        match handlerSide h.op with
        | some side =>
          if h.pipePath.bytes = [] then none
          else
            some (.gets h.pipePath side,
              { b with crew := b.run w h stack, handling := update b.handling w none })
        | none => none
      | none => none
    | .serving, .refuse w stack =>
      match b.handling w with
      | some h =>
        some (.inner,
          { b with crew := b.unopened w h stack, handling := update b.handling w none })
      | none => none
    | .serving, .publish w turn =>
      match b.crew.place w with
      | .publishing builder i =>
        if turn.chunk.length ≤ Server.pubRequestSize then
          some (.inner,
            { b with crew := mute b.crew w .waiting (b.crew.server.pubTurn builder i turn) })
        else none
      | _ => none
    | .serving, .deliver w =>
      (b.crew.next (.deliver w)).map fun crew => (.inner, { b with crew })
    | _, _ => none

/-! ## Before any session -/

/-- No worker is in a session, and no task that is still to be handled has a path. -/
structure Unnamed (b : Piped W) : Prop where
  idle : ∀ w, (b.crew.place w).session = none
  queue : ∀ builder ∈ b.crew.queue, (b.crew.server.tasks builder).pipePath.bytes = []
  removing : ∀ w builder, b.crew.place w = .removing builder →
    (b.crew.server.tasks builder).pipePath.bytes = []
  handling : ∀ w h, b.handling w = some h →
    h.pipePath.bytes = [] ∧ (b.crew.server.tasks h.builder).pipePath.bytes = []

variable {b : Piped W} {c d : Crew W} {w : W} {builder : Addr} {o : Outcome} {stack : Mem}
  {returned : WorkerPlace} {a : PipedStep W}

theorem decode_pipePath {size : Nat} {turn : Turn} {t : Task} (h : turn.decode size = .ok t) :
    t.pipePath.bytes = [] := by
  unfold Turn.decode at h
  split at h
  · cases h
  · split at h
    · cases h
    · exact pipePath_of_stringToTask h

/-- A handler that writes no task and begins no session. -/
structure Quiet (s : Server) (o : Outcome) : Prop where
  tasks : o.server.tasks = s.tasks
  phase : o.phase = .idle ∨ ∃ halt, o.phase = .stopped halt

theorem quiet_create (s : Server) : Quiet s (s.boxCreateRequest builder stack) := by
  unfold Server.boxCreateRequest
  dsimp only
  split
  · exact ⟨rfl, .inr ⟨_, rfl⟩⟩
  · split
    · exact ⟨rfl, .inr ⟨_, rfl⟩⟩
    · exact ⟨rfl, .inl rfl⟩

theorem quiet_remove (s : Server) : Quiet s (s.boxRemoveRequest builder stack) := by
  unfold Server.boxRemoveRequest
  dsimp only
  split
  · exact ⟨rfl, .inr ⟨_, rfl⟩⟩
  · exact ⟨rfl, .inl rfl⟩

/-- What the end of a worker's handler leaves as it was. -/
structure Ends (c : Crew W) (w : W) (returned : WorkerPlace) (d : Crew W) : Prop where
  queue : d.queue = c.queue
  tasks : d.server.tasks = c.server.tasks
  place : ∀ v, d.place v = c.place v ∨ v = w ∧ d.place v = returned

omit [DecidableEq W] in
theorem Ends.halted {halt : Halt} : Ends c w returned { c with halt := some halt } :=
  ⟨rfl, rfl, fun _ => .inl rfl⟩

theorem Quiet.mute (h : Quiet c.server o) : Ends c w returned (mute c w returned o) := by
  unfold Piped.mute
  split
  swap
  · exact .halted
  rcases h.phase with hidle | ⟨halt, hstopped⟩
  · rw [Crew.settle_ok (Crew.place_idle hidle)]
    refine ⟨rfl, h.tasks, fun v => ?_⟩
    by_cases hv : v = w
    · subst hv
      exact .inr ⟨rfl, Crew.goTo_place _ _ _ _⟩
    · exact .inl (update_of_ne hv _ _)
  · unfold Crew.settle Outcome.place
    rw [hstopped]
    exact ⟨rfl, h.tasks, fun _ => .inl rfl⟩

/-- Where the `open` of a handler has failed. -/
theorem ends_unopened (b : Piped W) (w : W) (h : Handling) (stack : Mem) :
    Ends b.crew w (afterCase h.op h.builder) (b.unopened w h stack) := by
  unfold unopened
  split
  · next hop =>
    rw [hop]
    exact (quiet_create _).mute
  · next hop =>
    rw [hop]
    exact (quiet_remove _).mute
  · exact .halted

theorem session_afterCase (op : OpCode) (builder : Addr) :
    (afterCase op builder).session = none := by
  cases op <;> rfl

theorem Unnamed.refused (hu : b.Unnamed) {h : Handling} (hw : b.handling w = some h) :
    Unnamed { b with crew := b.unopened w h stack, handling := update b.handling w none } := by
  have hends := ends_unopened b w h stack
  refine ⟨fun v => ?_, fun builder hmem => ?_, fun v builder hat => ?_, fun v h' hv => ?_⟩
  · rcases hends.place v with hsame | ⟨-, hret⟩
    · exact (congrArg _ hsame).trans (hu.idle v)
    · exact (congrArg _ hret).trans (session_afterCase _ _)
  · rw [hends.tasks]
    exact hu.queue builder (hends.queue ▸ hmem)
  · rw [hends.tasks]
    rcases hends.place v with hsame | ⟨-, hret⟩
    · exact hu.removing v builder (hsame.symm.trans hat)
    · -- a creation leaves its worker at the task it had
      have heq : afterCase h.op h.builder = .removing builder := hret.symm.trans hat
      unfold afterCase at heq
      split at heq
      · cases heq
        exact (hu.handling w h hw).2
      · cases heq
  · rw [hends.tasks]
    change update b.handling w none v = some h' at hv
    by_cases hvw : v = w
    · subst hvw
      rw [update_self] at hv
      cases hv
    · rw [update_of_ne hvw] at hv
      exact hu.handling v h' hv

omit [DecidableEq W] in
theorem Unnamed.received (hu : b.Unnamed) {t : Task} (ht : t.pipePath.bytes = []) {queue}
    (hqueue : ∀ builder ∈ queue, builder = taskOp ∨ builder ∈ b.crew.queue) :
    Unnamed { b with
      crew := { b.crew with server := b.crew.server.receive taskOp t, queue } } := by
  -- what is written has no path, and the other tasks stay
  have htasks : ∀ builder, builder = taskOp ∨ (b.crew.server.tasks builder).pipePath.bytes = [] →
      (update b.crew.server.tasks taskOp t builder).pipePath.bytes = [] := by
    intro builder h
    by_cases hat : builder = taskOp
    · rw [hat, update_self]
      exact ht
    · rw [update_of_ne hat]
      exact h.resolve_left hat
  refine ⟨hu.idle, fun builder hmem => ?_, fun v builder hat => ?_, fun v h hv => ?_⟩
  · exact htasks _ ((hqueue builder hmem).imp_right (hu.queue builder))
  · exact htasks _ (.inr (hu.removing v builder hat))
  · exact ⟨(hu.handling v h hv).1, htasks _ (.inr (hu.handling v h hv).2)⟩

omit [DecidableEq W] in
theorem Unnamed.halted (hu : b.Unnamed) {halt : Option Halt} :
    Unnamed { b with crew := { b.crew with halt } } :=
  ⟨hu.idle, hu.queue, hu.removing, hu.handling⟩

omit [DecidableEq W] in
theorem Unnamed.dequeued (hu : b.Unnamed) {queue : List Addr}
    (hqueue : ∀ builder ∈ queue, builder ∈ b.crew.queue) :
    Unnamed { b with crew := { b.crew with queue } } :=
  ⟨hu.idle, fun builder hmem => hu.queue builder (hqueue builder hmem), hu.removing, hu.handling⟩

/-- A step that no session can have come before: the pipes it comes to open are the register
and such as have an empty path. -/
structure Goes (b : Piped W) (event : Event CString) (b' : Piped W) : Prop where
  unnamed : b'.Unnamed
  pipeName : b'.pipeName = b.pipeName
  shy : Shy b.pipeName none (∃ w, (b'.crew.place w).session.isSome) event

omit [DecidableEq W] in
theorem Unnamed.not_served (hu : b.Unnamed) : ¬ ∃ w, (b.crew.place w).session.isSome := by
  rintro ⟨w, hw⟩
  rw [hu.idle w] at hw
  cases hw

omit [DecidableEq W] in
theorem Goes.quietly {b' : Piped W} (hu : b'.Unnamed) (hname : b'.pipeName = b.pipeName) :
    b.Goes .inner b' :=
  ⟨hu, hname, .inner hu.not_served⟩

theorem Goes.handle {op : OpCode} {event : Event CString} {b' : Piped W}
    (hu : Unnamed { b with crew := c }) (hpath : (c.server.tasks builder).pipePath.bytes = [])
    (h : some (b.handle c w op builder) = some (event, b')) : b.Goes event b' := by
  unfold Piped.handle at h
  dsimp only at h
  split at h
  · cases h
    exact .quietly hu rfl
  · cases h
    refine Goes.mk (b := b) ?asked rfl (.asksNowhere hpath (Unnamed.not_served ?asked))
    refine ⟨hu.idle, hu.queue, hu.removing, fun v hd hv => ?_⟩
    change update b.handling w _ v = some hd at hv
    by_cases hvw : v = w
    · subst hvw
      rw [update_self] at hv
      cases hv
      exact ⟨hpath, hpath⟩
    · rw [update_of_ne hvw] at hv
      exact hu.handling v hd hv

theorem Goes.take {event : Event CString} {b' : Piped W} (hu : b.Unnamed)
    (h : b.take w = some (event, b')) : b.Goes event b' := by
  unfold Piped.take at h
  split at h
  swap
  · cases h
  next builder queue _ _ hqueue =>
  have hsub : ∀ builder' ∈ queue, builder' ∈ b.crew.queue := by
    intro builder' hmem
    rw [hqueue]
    exact List.mem_cons_of_mem _ hmem
  have hu' : Unnamed { b with crew := { b.crew with queue } } := hu.dequeued hsub
  have hpath := hu.queue builder (by rw [hqueue]; exact List.mem_cons_self)
  dsimp only at h
  split at h
  · cases h
    exact .quietly hu' rfl
  · exact .handle hu' hpath h

theorem Goes.request {event : Event CString} {b' : Piped W} {t : Task} (hu : b.Unnamed)
    (ht : t.pipePath.bytes = [])
    (h : ((b.crew.next (.request t)).map fun crew => (.inner, { b with crew })) =
      some (event, b')) : b.Goes event b' := by
  obtain ⟨crew, hcrew, heq⟩ := Option.map_eq_some_iff.mp h
  obtain ⟨-, hmove⟩ := Crew.Steps.move hcrew
  cases heq
  cases hmove
  refine .quietly (hu.received ht fun builder hmem => ?_) rfl
  split at hmem
  · rcases List.mem_append.mp hmem with hold | hnew
    · exact .inr hold
    · exact .inl (List.mem_singleton.mp hnew)
  · exact .inr hmem

theorem Unnamed.next (hu : b.Unnamed) {event : Event CString} {b' : Piped W}
    (h : b.next a = some (event, b')) : b.Goes event b' := by
  unfold Piped.next at h
  split at h
  · cases h
  split at h
  · cases h
    exact ⟨hu, rfl, .asksRegister hu.not_served⟩
  · split at h
    · cases h
    · next hname =>
      cases h
      have hu' : Unnamed { b with main := .serving } :=
        ⟨hu.idle, hu.queue, hu.removing, hu.handling⟩
      exact ⟨hu', rfl, .getsRegister hname hu'.not_served⟩
  · cases h
    exact .quietly hu.halted rfl
  · next turn _ =>
    split at h
    · cases h
      exact .quietly hu.halted rfl
    · next t hdecode => exact .request hu (decode_pipePath hdecode) h
  · exact .take hu h
  · next w _ =>
    split at h
    · next builder _ hplace => exact .handle hu (hu.removing w builder hplace) h
    · cases h
  · next w stack _ =>
    -- no path is anything but empty, so no handler's `open` comes back
    split at h
    · next hd hhandling =>
      split at h
      · rw [if_pos (hu.handling w hd hhandling).1] at h
        cases h
      · cases h
    · cases h
  · next w stack _ =>
    split at h
    · next hd hhandling =>
      cases h
      exact .quietly (hu.refused hhandling) rfl
    · cases h
  · next w turn _ =>
    split at h
    · next builder i hplace =>
      have hno := hu.idle w
      rw [hplace] at hno
      cases hno
    · cases h
  · next w _ =>
    obtain ⟨crew, hcrew, -⟩ := Option.map_eq_some_iff.mp h
    obtain ⟨-, hmove⟩ := Crew.Steps.move hcrew
    cases hmove with
    | deliver hplace =>
      have hno := hu.idle w
      rw [hplace] at hno
      cases hno
  · cases h

end Piped

end MBroker.Broker
