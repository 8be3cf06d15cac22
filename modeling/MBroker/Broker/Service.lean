import MBroker.Broker.Sessions

/- Whether requests stop the broker, over whole histories of requests, each handled by
   the handler of its own operation. A handler makes the process exit wherever a call
   of TecnicoFS returns -1, so what a request asks in vain ends the broker for every
   client. What is left over is a duplicate: the name is added once more. -/
namespace MBroker.Broker
open MBroker.Lib MBroker.Fs MBroker.Wire Server Worker

/-- The handler of the task's operation, by itself. -/
def ownHandler (s : Server) (builder : Addr) (stack : Mem) : Outcome :=
  match OpCode.ofCode? (s.tasks builder).opcode with
  | some op => s.handle op builder stack
  | none => ⟨s, .idle, [], []⟩

/-- There can be such a box and it is new; or there is the box. -/
def Satisfiable (s : Server) (op : OpCode) (builder : Addr) : Prop :=
  match op with
  | .createBox => (s.tasks builder).boxName ∉ s.names ∧ Creatable s.fs (s.tasks builder).boxName
  | .removeBox => (s.tasks builder).boxName ∈ s.names ∧ Removable s.fs (s.tasks builder).boxName
  | _ => (s.tasks builder).boxName ∈ s.names

/-- The handler has not exited, and has left alone the boxes of a request that cannot be
satisfied. -/
def Withstood (s : Server) (op : OpCode) (builder : Addr) (o : Outcome) : Prop :=
  ¬ o.worker.Stopped ∧ (¬ Satisfiable s op builder → o.server.view = s.view)

/-- A creation or a removal can be satisfied; a subscriber of a box there is can be let in. -/
def Tolerable (s : Server) (op : OpCode) (builder : Addr) : Prop :=
  match op with
  | .createBox => Satisfiable s .createBox builder
  | .removeBox => Satisfiable s .removeBox builder
  | .loginSub => Admissible s builder
  | _ => True

/-- The step does not stop the broker. -/
def Withstands (w : Worker) : WorkerStep → Worker → Prop
  | .task builder task stack, _ =>
    ∀ op, OpCode.ofCode? task.opcode = some op →
      Withstood (w.server.receive builder task) op builder
        ((w.server.receive builder task).handle op builder stack)
  | .publish _, v | .deliver, v => ¬ v.Stopped

/-- The request is one the broker can bear; a session's turn goes on. -/
def Bearable (w : Worker) : WorkerStep → Prop
  | .task builder task _ =>
    ∀ op, OpCode.ofCode? task.opcode = some op →
      Tolerable (w.server.receive builder task) op builder
  | .publish turn => w.GoesOn (.publish turn)
  | .deliver => w.GoesOn .deliver

variable {w v : Worker} {s : Server} {builder : Addr} {task : Task} {stack : Mem}
  {a : WorkerStep} {op : OpCode}

/-! ## One request -/

/-- A box created again is in the table once more. -/
theorem create_withstood_iff (hI : Inv s.fs) :
    Withstood s .createBox builder (s.boxCreateRequest builder stack) ↔
      Satisfiable s .createBox builder := by
  refine ⟨?_, ?_⟩
  · intro h
    obtain ⟨hrun, hsame⟩ := h
    by_contra hno
    have hc : Creatable s.fs (s.tasks builder).boxName := by
      by_contra hc
      exact hrun ((create_spec _ _ hI).2 hc)
    -- accepted and yet in vain: the box was there
    have hmem : (s.tasks builder).boxName ∈ s.names := by
      by_contra hnew
      exact hno ⟨hnew, hc⟩
    have hpos : 0 < s.names.length := List.length_pos_of_mem hmem
    rw [length_names, size] at hpos
    obtain ⟨-, -, hadded⟩ := boxCreateRequest_ok stack hI hc
    -- so the table grows, where it should stay
    have hnames := hadded.names (by omega)
    rw [show (s.boxCreateRequest builder stack).server.names = s.names from
      congrArg Boxes.names (hsame hno)] at hnames
    simpa using congrArg List.length hnames
  · intro h
    exact ⟨((create_spec _ _ hI).1 h.2).1, fun hno => absurd h hno⟩

/-- A file without a box is removed. -/
theorem remove_withstood_iff (hI : Inv s.fs) :
    Withstood s .removeBox builder (s.boxRemoveRequest builder stack) ↔
      Satisfiable s .removeBox builder := by
  refine ⟨?_, ?_⟩
  · intro h
    obtain ⟨hrun, hsame⟩ := h
    by_contra hno
    have hc : Removable s.fs (s.tasks builder).boxName := by
      by_contra hc
      exact hrun ((remove_spec _ _ hI).2 hc)
    obtain ⟨-, htaken⟩ := boxRemoveRequest_ok stack hI hc
    -- accepted and yet in vain: a file goes that should stay
    have hfiles := htaken.fs.files
    rw [show fileNames (s.boxRemoveRequest builder stack).server.fs = fileNames s.fs from
      congrArg Boxes.files (hsame hno)] at hfiles
    have hfile : (s.tasks builder).boxName.tail.bytes ∈ fileNames s.fs := hc.2
    rw [hfiles] at hfile
    exact hfile.2 rfl
  · intro h
    exact ⟨((remove_spec _ _ hI).1 h.2).1, fun hno => absurd h hno⟩

theorem handle_withstood_iff (hI : Inv s.fs) :
    Withstood s op builder (s.handle op builder stack) ↔ Tolerable s op builder := by
  by_cases hc : op = .createBox
  · rw [hc]
    exact create_withstood_iff hI
  by_cases hr : op = .removeBox
  · rw [hr]
    exact remove_withstood_iff hI
  -- only a subscriber's login can fail
  have htol : Tolerable s op builder ↔ (op = .loginSub → Admissible s builder) := by
    cases op with
    | createBox => exact absurd rfl hc
    | removeBox => exact absurd rfl hr
    | loginSub => exact ⟨fun h _ => h, fun h => h rfl⟩
    | _ => exact iff_of_true trivial nofun
  obtain ⟨hlet, hnot⟩ := handle_spec builder stack hI hc hr
  rw [htol]
  refine ⟨?_, ?_⟩
  · intro h
    by_contra hno
    exact h.1 (hnot hno)
  · intro h
    obtain ⟨hrun, -, hsame⟩ := hlet h
    exact ⟨hrun, fun _ => hsame⟩

/-- A worker that has not stopped is sound. -/
theorem handle_sound (hI : Inv s.fs) (hrun : ¬ (s.handle op builder stack).worker.Stopped) :
    (s.handle op builder stack).worker.Sound := by
  by_cases hc : op = .createBox
  · subst hc
    by_cases hok : Creatable s.fs (s.tasks builder).boxName
    · exact ((create_spec _ _ hI).1 hok).2
    · exact absurd ((create_spec _ _ hI).2 hok) hrun
  by_cases hr : op = .removeBox
  · subst hr
    by_cases hok : Removable s.fs (s.tasks builder).boxName
    · exact ((remove_spec _ _ hI).1 hok).2
    · exact absurd ((remove_spec _ _ hI).2 hok) hrun
  obtain ⟨hlet, hnot⟩ := handle_spec builder stack hI hc hr
  by_cases hok : op = .loginSub → Admissible s builder
  · exact (hlet hok).2.1
  · exact absurd (hnot hok) hrun

/-! ## Histories -/

theorem of_request_step (hst : w.next ownHandler (.task builder task stack) = some v) :
    v = (ownHandler (w.server.receive builder task) builder stack).worker := by
  obtain ⟨s, phase⟩ := w
  cases phase with
  | idle =>
    cases hst
    rfl
  | publishing | subscribing | stopped => cases hst

theorem withstands_iff (hS : w.Sound) (hst : w.next ownHandler a = some v) :
    Withstands w a v ↔ Bearable w a := by
  cases a with
  | task builder task stack =>
    have hI : Inv (w.server.receive builder task).fs := hS.inv
    exact forall₂_congr fun op _ => handle_withstood_iff hI
  | publish turn =>
    obtain ⟨hgoes, hstops⟩ := publish_spec hS hst
    exact ⟨fun hrun => by_contra fun hno => hrun (hstops hno), fun h => (hgoes h).1⟩
  | deliver =>
    obtain ⟨hgoes, hstops⟩ := deliver_spec hS hst
    exact ⟨fun hrun => by_contra fun hno => hrun (hstops hno), fun h => (hgoes h).1⟩

theorem sound_of_withstands (hS : w.Sound) (hst : w.next ownHandler a = some v)
    (h : Withstands w a v) : v.Sound := by
  cases a with
  | task builder task stack =>
    have hI : Inv (w.server.receive builder task).fs := hS.inv
    rw [of_request_step hst, ownHandler, receive_task]
    cases hop : OpCode.ofCode? task.opcode with
    | none => exact .of_idle hI rfl
    | some op => exact handle_sound hI (h op hop).1
  | publish turn => exact ((publish_spec hS hst).1 ((withstands_iff hS hst).mp h)).2.1
  | deliver => exact ((deliver_spec hS hst).1 ((withstands_iff hS hst).mp h)).2.1

/-- The broker withstands exactly the histories of requests it can bear. -/
theorem withstands_all_iff {ρ : List (WorkerStep × Worker)} (hidle : w.phase = .idle)
    (hfs : Reachable (Fs.Initial tfsDefaultParams) Fs.Steps w.server.fs)
    (hr : Run (fun w a v => w.next ownHandler a = some v) w ρ) :
    EveryMove Withstands w ρ ↔ EveryStep Bearable w ρ := by
  have hsound : w.Sound :=
    .of_idle (inv_of_reachable tfsDefaultParams_sane hfs) hidle
  apply Run.everyMove_iff _ _ hsound hr
  · intro w a v hS hst hW
    exact sound_of_withstands hS hst hW
  · intro w a v hS hst
    exact withstands_iff hS hst

/-- The removal of `/b`, which is not there. -/
def vainRemoval : List (WorkerStep × Worker) :=
  along (fun w a => w.next ownHandler a) ⟨started, .idle⟩
    [.task 0 (requestFor .removeBox pathB) fun _ => 0]

theorem withstands_all_iff_vain :
    EveryMove Withstands ⟨started, .idle⟩ vainRemoval ↔
      EveryStep Bearable ⟨started, .idle⟩ vainRemoval :=
  withstands_all_iff rfl reachable_volume (run_along _ _ _)

/-- It makes the broker exit. -/
theorem removal_stops_broker : ¬ ∀ (w : Worker) ρ, w.server.Initial → w.phase = .idle →
    Run (fun w a v => w.next ownHandler a = some v) w ρ → EveryMove Withstands w ρ := by
  intro h
  have hmove := h ⟨started, .idle⟩ vainRemoval started_initial rfl (run_along _ _ _)
  have hrun := (hmove.1 .removeBox (by decide)).1
  have hvain : ¬ Removable (started.receive 0 (requestFor .removeBox pathB)).fs
      (((started.receive 0 (requestFor .removeBox pathB)).tasks 0).boxName) := by
    decide +kernel
  have hI : Inv (started.receive 0 (requestFor .removeBox pathB)).fs :=
    inv_of_reachable tfsDefaultParams_sane reachable_volume
  exact hrun ⟨_, boxRemoveRequest_error _ hI hvain⟩

end MBroker.Broker
