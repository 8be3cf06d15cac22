import MBroker.Broker.Crew

/- What each step of the workers does that the process survives, with what held before
   it. A handler that comes to `exit` ends the process, so of a step survived it is
   known that every call of TecnicoFS in it went well (`Move.effect`). The callers argue
   from these and not from the steps. -/
namespace MBroker.Broker
open MBroker.Lib MBroker.Fs MBroker.Wire Function

open Server

variable {s : Server} {builder : Addr} {fs fs' : FsState} {box message : CString}

/-! ## Handlers -/

/-- The handles are as before. -/
structure Returned (s t : FsState) : Prop where
  inv : Inv t
  taken : takenHandles t = takenHandles s

/-- The handle `h` is taken, and was free. -/
structure Took (s t : FsState) (h : Nat) : Prop where
  inv : Inv t
  free : freeHandle s = some h
  taken : takenHandles t = insert h (takenHandles s)

theorem Took.openHandle (hI : Inv fs) {x : List UInt8} {h n : Nat} (hl : lookup fs x = some n)
    (hfree : freeHandle fs = some h) :
    Took fs (fs.openHandle h n (fs.inodeTable n).iSize) h :=
  ⟨(Keeps.openHandle hI hl (Nat.le_refl _)).inv, hfree, takenHandles_insert rfl hfree rfl⟩

/-- A publisher's message is never longer than a box. -/
theorem message_le_of_decode {turn : Turn} {taskOp : Task}
    (h : turn.decode pubRequestSize = .ok taskOp) : taskOp.message.bytes.length ≤ 1024 := by
  unfold Turn.decode at h
  split at h
  · cases h
  split at h
  · cases h
  next building hbuilding =>
  have hmessage := message_length_le h
  have hword := word_length_le building.bytes
  have hlen := (bufferString_eq_some.mp hbuilding).2
  have hat : messageAt - opcodeAt = 33 := by decide
  have hsize : pubRequestSize = 1026 := rfl
  omega

/-- The message, no longer than a box, is put into the box of that name. -/
structure Sent (s t : FsState) (box message : CString) : Prop where
  puttable : Puttable s box message
  fits : message.bytes.length ≤ 1024
  call : putMessage s box message = .ok (true, t)

theorem Sent.put (hI : Inv fs) (h : Sent fs fs' box message) :
    ∃ n, lookup fs box.tail.bytes = some n ∧ Put fs fs' n message := by
  obtain ⟨n, t, hl, hput, hstored⟩ := putMessage_puttable hI h.puttable h.fits
  rw [h.call, Except.ok.injEq, Prod.mk.injEq] at hput
  obtain ⟨-, rfl⟩ := hput
  exact ⟨n, hl, hstored⟩

/-- It gives back the handle it is written through. -/
theorem Sent.returned (hI : Inv fs) (h : Sent fs fs' box message) : Returned fs fs' := by
  obtain ⟨n, -, hstored⟩ := h.put hI
  exact ⟨hstored.inv, takenHandles_congr hstored.params hstored.entries⟩

/-- The file of the box of that name is unlinked. -/
structure Unlinked (s t : FsState) (box : CString) : Prop where
  removable : Removable s box
  call : tfsUnlink s (some box) = .ok (0, t)

theorem Unlinked.removed (hI : Inv fs) (h : Unlinked fs fs' box) :
    Removed fs fs' box.tail.bytes := .of_unlink hI h.removable h.call

theorem Unlinked.returned (hI : Inv fs) (h : Unlinked fs fs' box) : Returned fs fs' :=
  ⟨(h.removed hI).inv, takenHandles_congr (h.removed hI).params (h.removed hI).entries⟩

/-- A read gives no handle back and takes none, whatever file it is on. -/
theorem tfsRead_keeps (hI : Inv fs) {fhandle r : Int} {len : Nat} {bytes : List UInt8}
    (h : tfsRead fs fhandle len = .ok ((r, bytes), fs')) :
    Keeps fs fs' ∧ takenHandles fs' = takenHandles fs := by
  have hst : step fs (.read fhandle len) = .ok (⟨r, bytes⟩, fs') := by
    simp only [step, h]
    rfl
  have ht := hI.step ⟨_, hst⟩
  cases step_effect hI hst with
  | readBad | readNone => exact ⟨.refl hI, rfl⟩
  | readSome => exact ⟨.of_slots hI ht rfl fun _ _ => rfl, takenHandles_congr rfl rfl⟩

theorem Took.of_entered {x : List UInt8} {h : Nat} (hentered : Entered fs fs' x h) :
    Took fs fs' h :=
  ⟨hentered.inv, hentered.free,
    takenHandles_insert hentered.params hentered.free hentered.entries⟩

/-- A turn of a publisher's session that does not stop sends its message. -/
theorem pubTurn_sent (hI : Inv s.fs) (builder : Addr) (i : Nat) (turn : Turn) :
    (∃ halt, (s.pubTurn builder i turn).phase = .stopped halt) ∨
      ∃ taskOp fs, turn.decode pubRequestSize = .ok taskOp ∧
        Sent s.fs fs (s.tasks builder).boxName taskOp.message ∧
        s.pubTurn builder i turn = ⟨{ s with fs }, .publishing builder i, [], []⟩ := by
  unfold pubTurn
  cases hd : turn.decode pubRequestSize with
  | error halt => exact .inl ⟨halt, rfl⟩
  | ok taskOp =>
    have hlen := message_le_of_decode hd
    dsimp only
    by_cases hp : Puttable s.fs (s.tasks builder).boxName taskOp.message
    · obtain ⟨n, fs, -, hput, -⟩ := putMessage_puttable hI hp hlen
      rw [hput]
      exact .inr ⟨taskOp, fs, rfl, ⟨hp, hlen, hput⟩, rfl⟩
    · obtain ⟨halt, herr⟩ := putMessage_error hI hp
      rw [herr]
      exact .inl ⟨halt, rfl⟩

/-- A turn of a subscriber's session that does not stop reads through its handle. -/
theorem subTurn_read (s : Server) (builder : Addr) (tfsFd : Int) (bufferBox : Mem) :
    (∃ halt, (s.subTurn builder tfsFd bufferBox).phase = .stopped halt) ∨
      ∃ bytesRead bytes fs buffer,
        tfsRead s.fs tfsFd messageMaxSize = .ok ((bytesRead, bytes), fs) ∧
        s.subTurn builder tfsFd bufferBox =
          ⟨{ s with fs }, .subscribing builder tfsFd buffer, [], []⟩ := by
  unfold subTurn
  cases hread : tfsRead s.fs tfsFd messageMaxSize with
  | error f => exact .inl ⟨_, rfl⟩
  | ok result =>
    obtain ⟨⟨bytesRead, bytes⟩, fs⟩ := result
    dsimp only
    split
    · exact .inl ⟨_, rfl⟩
    · split
      · exact .inl ⟨_, rfl⟩
      · exact .inr ⟨bytesRead, bytes, fs, _, rfl, rfl⟩

/-- A publisher let in is at a box of the name that has not one publisher. -/
theorem pubLoop_publishing {n i j : Nat} {b : Addr}
    (h : (s.pubLoop builder n i).phase = .publishing b j) :
    b = builder ∧ i ≤ j ∧ j < i + n ∧ (s.tasks builder).boxName = s.boxName j ∧
      (s.boxes j).numPublishers ≠ 1 := by
  induction n generalizing i with
  | zero => cases h
  | succ n ih =>
    unfold pubLoop at h
    split at h
    · next hname =>
      split at h
      · obtain ⟨hb, hij, hj, hrest⟩ := ih h
        exact ⟨hb, by omega, by omega, hrest⟩
      · next hpub =>
        cases h
        exact ⟨rfl, Nat.le_refl _, by omega, hname, hpub⟩
    · obtain ⟨hb, hij, hj, hrest⟩ := ih h
      exact ⟨hb, by omega, by omega, hrest⟩

/-- One turned away finds a publisher on every box of the name. -/
theorem pubLoop_idle {n i j : Nat} (h : (s.pubLoop builder n i).phase = .idle) (hij : i ≤ j)
    (hj : j < i + n) (hname : (s.tasks builder).boxName = s.boxName j) :
    (s.boxes j).numPublishers = 1 := by
  induction n generalizing i with
  | zero => omega
  | succ n ih =>
    unfold pubLoop at h
    split at h
    · split at h
      · next hpub =>
        rcases Nat.eq_or_lt_of_le hij with rfl | hlt
        · exact hpub
        · exact ih h hlt (by omega)
      · cases h
    · next hne =>
      rcases Nat.eq_or_lt_of_le hij with rfl | hlt
      · exact absurd hname hne
      · exact ih h hlt (by omega)

/-! ## Steps -/

namespace Crew

variable {W : Type} [DecidableEq W] {c d : Crew W} {a : CrewStep W} {w : W}

/-- The steps that the process survives, each with its calls and what made them succeed. -/
inductive Effect (c : Crew W) : CrewStep W → Crew W → Prop
  | request (task : Task) : Effect c (.request task)
      { c with
        server := c.server.receive taskOp task
        queue := if Enqueues task.opcode then c.queue ++ [taskOp] else c.queue }
  /-- There is nothing to do, or no box of the name. -/
  | idle {w : W} {stack : Mem} {builder : Addr} {queue : List Addr}
      (hplace : c.place w = .waiting) (hqueue : c.queue = builder :: queue)
      (hcreate : OpCode.ofCode? (c.server.tasks builder).opcode ≠ some .createBox)
      (hremove : OpCode.ofCode? (c.server.tasks builder).opcode ≠ some .removeBox)
      (hlogin : OpCode.ofCode? (c.server.tasks builder).opcode = some .loginPub →
        ∀ i : Nat, i < c.server.size → (c.server.tasks builder).boxName = c.server.boxName i →
          (c.server.boxes i).numPublishers = 1)
      (hsub : OpCode.ofCode? (c.server.tasks builder).opcode = some .loginSub →
        c.server.firstBox builder = none) :
      Effect c (.take w stack) { c with queue }
  | login {w : W} {stack : Mem} {builder : Addr} {queue : List Addr} {i : Nat}
      (hplace : c.place w = .waiting) (hqueue : c.queue = builder :: queue)
      (hop : OpCode.ofCode? (c.server.tasks builder).opcode = some .loginPub)
      (hi : i < c.server.size) (hname : (c.server.tasks builder).boxName = c.server.boxName i)
      (hpub : (c.server.boxes i).numPublishers ≠ 1) :
      Effect c (.take w stack) (goTo { c with queue } w (.publishing builder i) c.server)
  | subscribe {w : W} {stack : Mem} {builder : Addr} {queue : List Addr} {i h : Nat} {fs : FsState}
      (hplace : c.place w = .waiting) (hqueue : c.queue = builder :: queue)
      (hop : OpCode.ofCode? (c.server.tasks builder).opcode = some .loginSub)
      (hfirst : c.server.firstBox builder = some i) (hs : c.server.Subscribable builder i)
      (hfs : Took c.server.fs fs h)
      (hopen : ∃ n, lookup c.server.fs (c.server.tasks builder).boxName.tail.bytes = some n ∧
        fs = c.server.fs.openHandle h n (c.server.fs.inodeTable n).iSize) :
      Effect c (.take w stack) (goTo { c with queue } w (.subscribing builder h stack)
        (c.server.withSubscriber builder i fs))
  | create {w : W} {stack : Mem} {builder : Addr} {queue : List Addr} {h : Nat} {fs : FsState}
      (hplace : c.place w = .waiting) (hqueue : c.queue = builder :: queue)
      (hop : OpCode.ofCode? (c.server.tasks builder).opcode = some .createBox)
      (hc : Creatable c.server.fs (c.server.tasks builder).boxName)
      (hfs : Took c.server.fs fs h)
      (hopen : tfsOpen c.server.fs (some (c.server.tasks builder).boxName) tfsOCreat =
        .ok ((h : Int), fs)) :
      Effect c (.take w stack) (goTo { c with queue } w (.removing builder)
        ({ c.server with fs }.addBox builder))
  | removeAsked {w : W} {stack : Mem} {builder : Addr} {queue : List Addr} {fs : FsState}
      (hplace : c.place w = .waiting) (hqueue : c.queue = builder :: queue)
      (hop : OpCode.ofCode? (c.server.tasks builder).opcode = some .removeBox)
      (hfs : Returned c.server.fs fs)
      (hunlink : Unlinked c.server.fs fs (c.server.tasks builder).boxName) :
      Effect c (.take w stack) (goTo { c with queue } w .waiting (c.server.without builder fs))
  | remove {w : W} {stack : Mem} {builder : Addr} {fs : FsState}
      (hplace : c.place w = .removing builder) (hfs : Returned c.server.fs fs)
      (hunlink : Unlinked c.server.fs fs (c.server.tasks builder).boxName) :
      Effect c (.remove w stack) (c.goTo w .waiting (c.server.without builder fs))
  | publish {w : W} {turn : Turn} {builder : Addr} {i : Nat} {fs : FsState}
      (hplace : c.place w = .publishing builder i) (hfs : Returned c.server.fs fs)
      (hsent : ∃ taskOp, turn.decode pubRequestSize = .ok taskOp ∧
        Sent c.server.fs fs (c.server.tasks builder).boxName taskOp.message) :
      Effect c (.publish w turn) (c.goTo w (.publishing builder i) { c.server with fs })
  | deliver {w : W} {builder : Addr} {tfsFd : Int} {bufferBox buffer : Mem} {fs : FsState}
      (hplace : c.place w = .subscribing builder tfsFd bufferBox)
      (hfs : Returned c.server.fs fs)
      (hread : ∃ bytesRead bytes,
        tfsRead c.server.fs tfsFd messageMaxSize = .ok ((bytesRead, bytes), fs)) :
      Effect c (.deliver w) (c.goTo w (.subscribing builder tfsFd buffer) { c.server with fs })

/-- A worker that waits goes on waiting. -/
theorem goTo_waiting (h : c.place w = .waiting) : c.goTo w .waiting c.server = c := by
  unfold goTo
  rw [← h, update_eq_self]

/-- A handler that has nothing to do leaves everything as it is. -/
theorem settle_nothing {o : Outcome} (hplace : c.place w = .waiting) (hphase : o.phase = .idle)
    (hserver : o.server = c.server) : c.settle w .waiting o = c := by
  rw [settle_ok (place_idle hphase), hserver, goTo_waiting hplace]

section Take

variable {stack : Mem} {builder : Addr} {queue : List Addr}

theorem Effect.of_login (hplace : c.place w = .waiting) (hqueue : c.queue = builder :: queue)
    (hop : OpCode.ofCode? (c.server.tasks builder).opcode = some .loginPub) :
    Effect c (.take w stack)
      (settle { c with queue } w .waiting (c.server.pubConnectRequest builder)) := by
  unfold pubConnectRequest
  have hserver := pubLoop_server c.server builder c.server.size 0
  rcases pubLoop_phase c.server builder c.server.size 0 with hidle | ⟨i, hi⟩
  · rw [settle_nothing (c := { c with queue }) hplace hidle hserver]
    refine .idle hplace hqueue (by simp [hop]) (by simp [hop]) ?_ (by simp [hop])
    intro _ i hi hname
    exact pubLoop_idle hidle (Nat.zero_le i) (by omega) hname
  · obtain ⟨-, -, hlt, hname, hpub⟩ := pubLoop_publishing hi
    rw [settle_ok (place_publishing hi), hserver]
    exact .login hplace hqueue hop (by omega) hname hpub

theorem Effect.of_subscribe (hI : Inv c.server.fs) (hplace : c.place w = .waiting)
    (hqueue : c.queue = builder :: queue)
    (hop : OpCode.ofCode? (c.server.tasks builder).opcode = some .loginSub)
    (hd : (settle { c with queue } w .waiting
      (c.server.subConnectRequest builder stack)).halt = none) :
    Effect c (.take w stack)
      (settle { c with queue } w .waiting (c.server.subConnectRequest builder stack)) := by
  cases hfirst : c.server.firstBox builder with
  | none =>
    obtain ⟨hserver, hidle, -⟩ := subConnectRequest_none stack hfirst
    rw [settle_nothing (c := { c with queue }) hplace hidle hserver]
    exact .idle hplace hqueue (by simp [hop]) (by simp [hop]) (by simp [hop]) fun _ => hfirst
  | some i =>
    obtain ⟨hserver, hphase, -⟩ := subConnectRequest_first stack hfirst
    by_cases hs : c.server.Subscribable builder i
    · obtain ⟨h, n, hl, hfree, heq⟩ := subscribe_eq stack hI hs
      rw [heq] at hphase hserver
      rw [settle_ok (place_subscribing hphase), hserver]
      exact .subscribe hplace hqueue hop hfirst hs (.openHandle hI hl hfree) ⟨n, hl, rfl⟩
    · obtain ⟨halt, hstopped⟩ := subscribe_error stack hI hs
      exact absurd hd (settle_stopped (hphase.trans hstopped))

theorem Effect.of_create (hI : Inv c.server.fs) (hplace : c.place w = .waiting)
    (hqueue : c.queue = builder :: queue)
    (hop : OpCode.ofCode? (c.server.tasks builder).opcode = some .createBox)
    (hd : (settle { c with queue } w (.removing builder)
      (c.server.boxCreateRequest builder stack)).halt = none) :
    Effect c (.take w stack)
      (settle { c with queue } w (.removing builder)
        (c.server.boxCreateRequest builder stack)) := by
  by_cases hc : Creatable c.server.fs (c.server.tasks builder).boxName
  · obtain ⟨h, fs, hopen, hentered, hserver, hphase, -⟩ := boxCreateRequest_eq stack hI hc
    rw [settle_ok (place_idle hphase), hserver]
    exact .create hplace hqueue hop hc (.of_entered hentered) hopen
  · obtain ⟨hstopped, -⟩ := boxCreateRequest_error stack hI hc
    exact absurd hd (settle_stopped hstopped)

/-- The removal, asked for or run into. -/
theorem settle_remove (hI : Inv c.server.fs)
    (hd : (c.settle w .waiting (c.server.boxRemoveRequest builder stack)).halt = none) :
    ∃ fs, Unlinked c.server.fs fs (c.server.tasks builder).boxName ∧
      c.settle w .waiting (c.server.boxRemoveRequest builder stack) =
        c.goTo w .waiting (c.server.without builder fs) := by
  by_cases hc : Removable c.server.fs (c.server.tasks builder).boxName
  · obtain ⟨fs, hunlink, -, hserver, hphase⟩ := boxRemoveRequest_eq stack hI hc
    rw [settle_ok (place_idle hphase), hserver]
    exact ⟨fs, ⟨hc, hunlink⟩, rfl⟩
  · exact absurd hd (settle_stopped (boxRemoveRequest_error stack hI hc))

theorem Effect.of_take {op : OpCode} (hI : Inv c.server.fs) (hplace : c.place w = .waiting)
    (hqueue : c.queue = builder :: queue)
    (hop : OpCode.ofCode? (c.server.tasks builder).opcode = some op)
    (hd : (settle { c with queue } w (afterCase op builder)
      (c.server.handle op builder stack)).halt = none) :
    Effect c (.take w stack)
      (settle { c with queue } w (afterCase op builder) (c.server.handle op builder stack)) := by
  cases op with
  | loginPub => exact .of_login hplace hqueue hop
  | loginSub => exact .of_subscribe hI hplace hqueue hop hd
  | createBox => exact .of_create hI hplace hqueue hop hd
  | removeBox =>
    obtain ⟨fs, hunlink, heq⟩ := settle_remove (c := { c with queue }) hI hd
    show Effect c _ (settle { c with queue } w .waiting (c.server.boxRemoveRequest builder stack))
    rw [heq]
    exact .removeAsked hplace hqueue hop (hunlink.returned hI) hunlink
  | _ =>
    -- the broker has no handler for it
    show Effect c _ (settle { c with queue } w .waiting ⟨c.server, .idle, [], []⟩)
    rw [settle_nothing (c := { c with queue }) hplace rfl rfl]
    exact .idle hplace hqueue (by simp [hop]) (by simp [hop]) (by simp [hop]) (by simp [hop])

end Take

theorem Move.effect (hI : Inv c.server.fs) (h : c.Move a d) (hd : d.halt = none) :
    Effect c a d := by
  cases h with
  | request task => exact .request task
  | skip hplace hqueue hop =>
    exact .idle hplace hqueue (by simp [hop]) (by simp [hop]) (by simp [hop]) (by simp [hop])
  | take hplace hqueue hop => exact .of_take hI hplace hqueue hop hd
  | remove hplace =>
    obtain ⟨fs, hunlink, heq⟩ := settle_remove hI hd
    rw [heq]
    exact .remove hplace (hunlink.returned hI) hunlink
  | @publish w turn builder i hplace hchunk =>
    rcases pubTurn_sent hI builder i turn with ⟨halt, hstopped⟩ | ⟨taskOp, fs, hdec, hsent, heq⟩
    · exact absurd hd (settle_stopped hstopped)
    · rw [heq, settle_ok (place_publishing rfl)]
      exact .publish hplace (hsent.returned hI) ⟨taskOp, hdec, hsent⟩
  | @deliver w builder tfsFd bufferBox hplace =>
    rcases subTurn_read c.server builder tfsFd bufferBox with
      ⟨halt, hstopped⟩ | ⟨bytesRead, bytes, fs, buffer, hread, heq⟩
    · exact absurd hd (settle_stopped hstopped)
    · obtain ⟨hkeeps, htaken⟩ := tfsRead_keeps hI hread
      rw [heq, settle_ok (place_subscribing rfl)]
      exact .deliver hplace ⟨hkeeps.inv, htaken⟩ ⟨bytesRead, bytes, hread⟩

theorem Effect.inv (hI : Inv c.server.fs) (h : Effect c a d) : Inv d.server.fs := by
  cases h with
  | request | idle | login => exact hI
  | subscribe _ _ _ _ _ hfs => exact hfs.inv
  | create _ _ _ _ hfs => exact hfs.inv
  | removeAsked _ _ _ hfs => exact hfs.inv
  | remove _ hfs => exact hfs.inv
  | publish _ hfs => exact hfs.inv
  | deliver _ hfs => exact hfs.inv

end Crew

end MBroker.Broker
