import MBroker.Broker.Boxes

/- A worker that handles one task after another: a task is taken up when the one
   before is done, and a session goes on turn by turn. Which handler a task goes to is
   left open here. -/
namespace MBroker.Broker
open MBroker.Lib MBroker.Fs MBroker.Wire Function

structure Worker where
  server : Server
  phase : Phase

inductive WorkerStep where
  /-- A task is decoded to `builder` and handled; `stack` is what the locals held. -/
  | task (builder : Addr) (task : Task) (stack : Mem)
  /-- A turn of the message loop; the read is of no more than its buffer. -/
  | publish (turn : Turn)
  /-- A turn of the delivery loop. -/
  | deliver

/-- The worker that a handler or a turn leaves. -/
def Outcome.worker (o : Outcome) : Worker := ⟨o.server, o.phase⟩

namespace Worker

def next (handler : Server → Addr → Mem → Outcome) (w : Worker) : WorkerStep → Option Worker
  | .task builder task stack =>
    match w.phase with
    | .idle => some (handler (w.server.receive builder task) builder stack).worker
    | _ => none
  | .publish turn =>
    match w.phase with
    | .publishing builder i =>
      if turn.chunk.length ≤ Server.pubRequestSize then
        some (w.server.pubTurn builder i turn).worker
      else none
    | _ => none
  | .deliver =>
    match w.phase with
    | .subscribing builder tfsFd bufferBox =>
      some (w.server.subTurn builder tfsFd bufferBox).worker
    | _ => none

/-- The process has ended. -/
def Stopped (w : Worker) : Prop := ∃ halt, w.phase = .stopped halt

/-- A turn of a publisher's session decodes what it reads and finds room for the
message; one of a subscriber's finds a NUL in its buffer. -/
def GoesOn (w : Worker) : WorkerStep → Prop
  | .publish turn => ∀ builder i, w.phase = .publishing builder i →
      ∃ taskOp, turn.decode Server.pubRequestSize = .ok taskOp ∧
        Server.Puttable w.server.fs (w.server.tasks builder).boxName taskOp.message
  | .deliver => ∀ builder tfsFd bufferBox, w.phase = .subscribing builder tfsFd bufferBox →
      Server.Terminated w.server.fs tfsFd bufferBox
  | .task _ _ _ => True

/-- The file system is sound, and a subscriber's session has a handle of a file. -/
structure Sound (w : Worker) : Prop where
  inv : Inv w.server.fs
  session : ∀ builder tfsFd bufferBox, w.phase = .subscribing builder tfsFd bufferBox →
    ∃ (h n : Nat) (x : List UInt8), tfsFd = h ∧ Within w.server.fs h n ∧
      lookup w.server.fs x = some n

end Worker

open Server Worker

variable {handler : Server → Addr → Mem → Outcome} {w v : Worker} {s : Server} {builder : Addr}
  {stack : Mem} {turn : Turn}

/-- A subscriber is let in if there is a box of the name. -/
def Admissible (s : Server) (builder : Addr) : Prop :=
  ∀ i, s.firstBox builder = some i → s.Subscribable builder i

theorem view_of_keeps {t : Server} (hk : Keeps s.fs t.fs) (hn : t.names = s.names) :
    t.view = s.view := by
  rw [view, view, hn, hk.files]

theorem not_stopped_of_idle (h : v.phase = .idle) : ¬ v.Stopped := by
  intro hs
  obtain ⟨halt, hs⟩ := hs
  rw [h] at hs
  cases hs

theorem not_stopped_of_phase (h : v.phase = .idle ∨ (∃ j, v.phase = .publishing builder j) ∨
    ∃ tfsFd m, v.phase = .subscribing builder tfsFd m) : ¬ v.Stopped := by
  intro hs
  obtain ⟨halt, hs⟩ := hs
  rw [hs] at h
  rcases h with h | ⟨j, h⟩ | ⟨tfsFd, m, h⟩ <;> cases h

/-- Without a subscriber's session there is only the file system to be sound. -/
theorem Worker.Sound.of_phase (hI : Inv v.server.fs)
    (h : v.phase = .idle ∨ ∃ j, v.phase = .publishing builder j) : v.Sound := by
  refine ⟨hI, fun _ _ _ hp => ?_⟩
  rw [hp] at h
  rcases h with h | ⟨j, h⟩ <;> cases h

theorem Worker.Sound.of_idle (hI : Inv v.server.fs) (h : v.phase = .idle) : v.Sound := by
  refine ⟨hI, fun _ _ _ hp => ?_⟩
  rw [h] at hp
  cases hp

theorem Worker.Sound.of_session {h n : Nat} {x : List UInt8} {m : Mem} (hI : Inv v.server.fs)
    (hphase : v.phase = .subscribing builder h m) (hW : Within v.server.fs h n)
    (hl : lookup v.server.fs x = some n) : v.Sound := by
  refine ⟨hI, fun b fd m' hp => ?_⟩
  rw [hphase] at hp
  cases hp
  exact ⟨h, n, x, rfl, hW, hl⟩

/-! ## Turns -/

theorem publish_spec (hS : w.Sound) (hst : w.next handler (.publish turn) = some v) :
    (GoesOn w (.publish turn) → ¬ v.Stopped ∧ v.Sound ∧ v.server.view = w.server.view) ∧
      (¬ GoesOn w (.publish turn) → v.Stopped) := by
  obtain ⟨s, phase⟩ := w
  cases phase with
  | idle | subscribing | stopped => cases hst
  | publishing builder i =>
    unfold Worker.next at hst
    dsimp only at hst
    split at hst
    swap
    · cases hst
    cases hst
    refine ⟨?_, ?_⟩
    · intro hgo
      obtain ⟨taskOp, hd, hp⟩ := hgo builder i rfl
      obtain ⟨hphase, hnames, hkeeps⟩ := pubTurn_ok (i := i) hS.inv hd hp
      refine ⟨?_, .of_phase hkeeps.inv hphase, view_of_keeps hkeeps hnames⟩
      exact not_stopped_of_phase (hphase.imp_right .inl)
    · intro hgo
      refine pubTurn_error hS.inv fun taskOp hd hp => hgo fun b j hbj => ?_
      cases hbj
      exact ⟨taskOp, hd, hp⟩

theorem deliver_spec (hS : w.Sound) (hst : w.next handler .deliver = some v) :
    (GoesOn w .deliver → ¬ v.Stopped ∧ v.Sound ∧ v.server.view = w.server.view) ∧
      (¬ GoesOn w .deliver → v.Stopped) := by
  obtain ⟨s, phase⟩ := w
  cases phase with
  | idle | publishing | stopped => cases hst
  | subscribing builder tfsFd bufferBox =>
    cases hst
    obtain ⟨h, n, x, rfl, hW, hl⟩ := hS.session builder tfsFd bufferBox rfl
    obtain ⟨hnames, hkeeps, hW', hgoes, hstops⟩ :=
      subTurn_eq builder hS.inv hW (hS.inv.lookup_taken hl).2 bufferBox
    refine ⟨?_, ?_⟩
    · intro hgo
      obtain ⟨m, hphase⟩ := hgoes (hgo builder h bufferBox rfl)
      exact ⟨not_stopped_of_phase (.inr (.inr ⟨h, m, hphase⟩)),
        .of_session hkeeps.inv hphase hW' ((hkeeps.lookup x).trans hl),
        view_of_keeps hkeeps hnames⟩
    · intro hgo
      refine ⟨_, hstops fun ht => hgo fun b fd m hp => ?_⟩
      cases hp
      exact ht

/-! ## Logins -/

theorem pubConnectRequest_spec (hI : Inv s.fs) :
    ¬ (s.pubConnectRequest builder).worker.Stopped ∧ (s.pubConnectRequest builder).worker.Sound ∧
      (s.pubConnectRequest builder).server.view = s.view := by
  have hserver : (s.pubConnectRequest builder).server = s := pubLoop_server ..
  have hphase := pubLoop_phase s builder s.size 0
  refine ⟨not_stopped_of_phase (hphase.imp_right .inl), .of_phase ?_ hphase, ?_⟩
  · show Inv (s.pubConnectRequest builder).server.fs
    rw [hserver]
    exact hI
  · rw [hserver]

theorem subConnectRequest_spec (builder : Addr) (stack : Mem) (hI : Inv s.fs) :
    (Admissible s builder → ¬ (s.subConnectRequest builder stack).worker.Stopped ∧
      (s.subConnectRequest builder stack).worker.Sound ∧
      (s.subConnectRequest builder stack).server.view = s.view) ∧
    (¬ Admissible s builder → (s.subConnectRequest builder stack).worker.Stopped) := by
  unfold Admissible
  cases hfirst : s.firstBox builder with
  | none =>
    obtain ⟨hserver, hphase, -⟩ := subConnectRequest_none stack hfirst
    refine ⟨fun _ => ⟨not_stopped_of_idle hphase, .of_idle ?_ hphase, ?_⟩, fun hno => ?_⟩
    · show Inv (s.subConnectRequest builder stack).server.fs
      rw [hserver]
      exact hI
    · rw [hserver]
    · exact absurd (fun i hi => by cases hi) hno
  | some i =>
    obtain ⟨hserver, hphase, -⟩ := subConnectRequest_first stack hfirst
    refine ⟨?_, ?_⟩
    · intro hadm
      -- the session begins with a handle of the box's file
      obtain ⟨tfsFd, n, hlet, hnames, hkeeps, hW, hl⟩ :=
        subscribe_ok stack hI (hadm i rfl)
      rw [hlet] at hphase
      rw [← hserver] at hnames hkeeps hW
      exact ⟨not_stopped_of_phase (.inr (.inr ⟨_, _, hphase⟩)),
        .of_session hkeeps.inv hphase hW ((hkeeps.lookup _).trans hl),
        view_of_keeps hkeeps hnames⟩
    · intro hadm
      obtain ⟨halt, hstop⟩ := subscribe_error stack hI fun hsub => hadm fun j hj => by
        cases hj
        exact hsub
      exact ⟨halt, hphase.trans hstop⟩

/-! ## Requests -/

/-- The operations other than a creation and a removal leave the boxes alone; of these
only a subscriber that is not let in stops the worker. -/
theorem handle_spec (builder : Addr) (stack : Mem) (hI : Inv s.fs) {op : OpCode}
    (hc : op ≠ .createBox) (hr : op ≠ .removeBox) :
    ((op = .loginSub → Admissible s builder) → ¬ (s.handle op builder stack).worker.Stopped ∧
      (s.handle op builder stack).worker.Sound ∧
      (s.handle op builder stack).server.view = s.view) ∧
    (¬ (op = .loginSub → Admissible s builder) → (s.handle op builder stack).worker.Stopped) := by
  have hother : ∀ P Q : Prop, op ≠ .loginSub → P →
      ((op = .loginSub → Admissible s builder) → P) ∧
        (¬ (op = .loginSub → Admissible s builder) → Q) :=
    fun P Q hne hp => ⟨fun _ => hp, fun hno => absurd (fun heq => absurd heq hne) hno⟩
  cases op with
  | loginPub => exact hother _ _ (by decide) (pubConnectRequest_spec hI)
  | loginSub =>
    obtain ⟨hlet, hnot⟩ := subConnectRequest_spec builder stack hI
    exact ⟨fun h => hlet (h rfl), fun h => hnot fun hadm => h fun _ => hadm⟩
  | createBox => exact absurd rfl hc
  | removeBox => exact absurd rfl hr
  | _ =>
    exact hother _ _ (by decide) ⟨not_stopped_of_idle rfl, .of_idle hI rfl, rfl⟩

theorem create_spec (builder : Addr) (stack : Mem) (hI : Inv s.fs) :
    (Creatable s.fs (s.tasks builder).boxName →
      ¬ (s.boxCreateRequest builder stack).worker.Stopped ∧
      (s.boxCreateRequest builder stack).worker.Sound) ∧
    (¬ Creatable s.fs (s.tasks builder).boxName →
      (s.boxCreateRequest builder stack).worker.Stopped) := by
  refine ⟨?_, ?_⟩
  · intro hc
    obtain ⟨hphase, -, hadded⟩ := boxCreateRequest_ok stack hI hc
    obtain ⟨h, hentered⟩ := hadded.fs
    exact ⟨not_stopped_of_idle hphase, .of_idle hentered.inv hphase⟩
  · intro hc
    exact ⟨_, (boxCreateRequest_error stack hI hc).1⟩

theorem remove_spec (builder : Addr) (stack : Mem) (hI : Inv s.fs) :
    (Removable s.fs (s.tasks builder).boxName →
      ¬ (s.boxRemoveRequest builder stack).worker.Stopped ∧
      (s.boxRemoveRequest builder stack).worker.Sound) ∧
    (¬ Removable s.fs (s.tasks builder).boxName →
      (s.boxRemoveRequest builder stack).worker.Stopped) := by
  refine ⟨?_, ?_⟩
  · intro hc
    obtain ⟨hphase, htaken⟩ := boxRemoveRequest_ok stack hI hc
    exact ⟨not_stopped_of_idle hphase, .of_idle htaken.fs.inv hphase⟩
  · intro hc
    exact ⟨_, boxRemoveRequest_error stack hI hc⟩

end MBroker.Broker
