import MBroker.Broker.Sessions

/- `task_handler` over whole histories: the boxes it leaves, against those that the
   operations named by the tasks' codes would. The boxes asked for are carried beside
   the worker.

   The case of `OP_CODE_CREATE_BOX` runs on into the next one, so a creation takes its
   own box away again, or the box that was there before. No creation can be right. -/
namespace MBroker.Broker
open MBroker.Lib MBroker.Fs MBroker.Wire Function

structure Dispatched extends Worker where
  boxes : Boxes

namespace Dispatched

/-- What a step asks of the boxes. -/
def asked (b : Boxes) : WorkerStep → Boxes
  | .task _ task _ =>
    match OpCode.ofCode? task.opcode with
    | some op => b.apply op task.boxName
    | none => b
  | .publish _ | .deliver => b

def next (d : Dispatched) (a : WorkerStep) : Option Dispatched :=
  (d.toWorker.next Server.taskHandler a).map fun w => ⟨w, asked d.boxes a⟩

def Steps (d : Dispatched) (a : WorkerStep) (e : Dispatched) : Prop := next d a = some e

/-- The table and the files are those asked for, and the broker runs. -/
def AsNamed (d : Dispatched) : Prop := ¬ d.Stopped ∧ d.server.view = d.boxes

/-- The step is not the creation of a box; a removal is of a box there is; a subscriber
of a box there is can be let in; no request is stored over the name of another box; and
a session's turn goes on. -/
def Heeded (d : Dispatched) : WorkerStep → Prop
  | .task builder task _ => d.server.Unshared builder task ∧
    match OpCode.ofCode? task.opcode with
    | some .createBox => False
    | some .removeBox => task.boxName ∈ d.server.names ∧ Removable d.server.fs task.boxName
    | some .loginSub => Admissible (d.server.receive builder task) builder
    | _ => True
  | .publish turn => d.GoesOn (.publish turn)
  | .deliver => d.GoesOn .deliver

end Dispatched

open Server Dispatched

variable {d e : Dispatched} {s : Server} {builder : Addr} {task : Task} {stack : Mem}
  {a : WorkerStep} {op : OpCode}

/-! ## One task -/

/-- Every operation but a creation goes to its own handler. -/
theorem taskHandler_eq (hop : OpCode.ofCode? task.opcode = some op) (hne : op ≠ .createBox) :
    (s.receive builder task).taskHandler builder stack =
      (s.receive builder task).handle op builder stack := by
  unfold taskHandler
  rw [receive_task, hop]
  cases op <;> first | rfl | exact absurd rfl hne

theorem taskHandler_none (hop : OpCode.ofCode? task.opcode = none) :
    (s.receive builder task).taskHandler builder stack =
      ⟨s.receive builder task, .idle, [], []⟩ := by
  unfold taskHandler
  rw [receive_task, hop]

/-- A creation stops the worker, or is of a name a box can have and leaves no file of it. -/
theorem taskHandler_create (builder : Addr) (stack : Mem) (hI : Inv s.fs)
    (hop : OpCode.ofCode? task.opcode = some .createBox) :
    ((s.receive builder task).taskHandler builder stack).worker.Stopped ∨
      validPathname task.boxName = true ∧ task.boxName.tail.bytes ∉
        fileNames ((s.receive builder task).taskHandler builder stack).server.fs := by
  have htask := receive_task s builder task
  have hname := receive_boxName s builder task
  unfold taskHandler
  rw [htask, hop]
  dsimp only
  by_cases hc : Creatable s.fs task.boxName
  swap
  · obtain ⟨hphase, -⟩ := boxCreateRequest_error (s := s.receive builder task) stack hI
      (mt (creatable_receive builder).mp hc)
    rw [hphase]
    exact .inl ⟨_, hphase⟩
  obtain ⟨hphase, -, hadded⟩ := boxCreateRequest_ok (s := s.receive builder task) stack hI
    ((creatable_receive builder).mpr hc)
  obtain ⟨h, hentered⟩ := hadded.fs
  have htasks := congrFun hadded.tasks builder
  rw [htask] at htasks
  rw [hname] at hentered
  rw [hphase]
  -- the file is there, so the removal finds it
  have hremovable : Removable ((s.receive builder task).boxCreateRequest builder stack).server.fs
      task.boxName := by
    refine ⟨hc.1, ?_⟩
    rw [← mem_fileNames, hentered.files]
    exact Set.mem_insert _ _
  obtain ⟨-, htaken⟩ := boxRemoveRequest_ok stack hentered.inv
    (by rw [htasks]; exact hremovable)
  refine .inr ⟨hc.1, ?_⟩
  show _ ∉ fileNames (boxRemoveRequest _ _ _).server.fs
  rw [htaken.fs.files, htasks]
  simp

/-- What a creation asks for has a file of the name. -/
theorem mem_files_create {b : Boxes} (hb : b.Sound) {name : CString}
    (hv : validPathname name = true) : name.tail.bytes ∈ (b.create name).files := by
  by_cases hmem : name ∈ b.names
  · rw [show b.create name = b from if_pos (.inl hmem)]
    exact (hb.mem_files_iff hv).mpr hmem
  · rw [Boxes.create_of_new hv hmem]
    exact Set.mem_insert _ _

theorem view_receive_eq_iff :
    (s.receive builder task).view = s.view ↔ s.Unshared builder task := by
  rw [view, view, Boxes.mk.injEq]
  exact (and_iff_left rfl).trans names_receive_eq_iff

theorem asked_task {b : Boxes} (hop : OpCode.ofCode? task.opcode = some op) :
    asked b (.task builder task stack) = b.apply op task.boxName := by
  rw [asked, hop]

theorem asked_none {b : Boxes} (hop : OpCode.ofCode? task.opcode = none) :
    asked b (.task builder task stack) = b := by
  rw [asked, hop]

theorem of_task_step (hst : next d (.task builder task stack) = some e) :
    e.toWorker = ((d.server.receive builder task).taskHandler builder stack).worker ∧
      e.boxes = asked d.boxes (.task builder task stack) := by
  obtain ⟨⟨s, phase⟩, b⟩ := d
  cases phase with
  | idle =>
    cases hst
    exact ⟨rfl, rfl⟩
  | publishing | subscribing | stopped => cases hst

theorem of_turn_step (ha : ∀ b t m, a ≠ .task b t m) (hst : next d a = some e) :
    d.toWorker.next taskHandler a = some e.toWorker ∧ e.boxes = d.boxes := by
  unfold Dispatched.next at hst
  obtain ⟨w, hw, rfl⟩ := Option.map_eq_some_iff.mp hst
  cases a with
  | task b t m => exact absurd rfl (ha b t m)
  | publish | deliver => exact ⟨hw, rfl⟩

theorem boxes_of_step (hst : next d a = some e) : e.boxes = asked d.boxes a := by
  obtain ⟨w, -, rfl⟩ := Option.map_eq_some_iff.mp hst
  rfl

theorem Boxes.Sound.asked {b : Boxes} (h : b.Sound) (a : WorkerStep) :
    (Dispatched.asked b a).Sound := by
  cases a with
  | task builder task stack =>
    cases hop : OpCode.ofCode? task.opcode with
    | none => rwa [asked_none hop]
    | some op =>
      rw [asked_task hop]
      exact h.apply op _
  | publish | deliver => exact h

/-! ## One step -/

/-- A step that is heeded does what its task names, from whatever boxes. -/
theorem asNamed_of_heeded (hS : d.toWorker.Sound) (hA : AsNamed d) (hst : next d a = some e)
    (hc : Heeded d a) : AsNamed e ∧ e.toWorker.Sound := by
  obtain ⟨-, hview⟩ := hA
  cases a with
  | publish turn =>
    obtain ⟨hw, hboxes⟩ := of_turn_step (by simp) hst
    obtain ⟨hrun, hsound, hsame⟩ := (publish_spec hS hw).1 hc
    exact ⟨⟨hrun, by rw [hsame, hview, hboxes]⟩, hsound⟩
  | deliver =>
    obtain ⟨hw, hboxes⟩ := of_turn_step (by simp) hst
    obtain ⟨hrun, hsound, hsame⟩ := (deliver_spec hS hw).1 hc
    exact ⟨⟨hrun, by rw [hsame, hview, hboxes]⟩, hsound⟩
  | task builder task stack =>
    obtain ⟨hw, hboxes⟩ := of_task_step hst
    obtain ⟨hU, hop⟩ := hc
    have hview' := view_receive_eq_iff.mpr hU
    have hI : Inv (d.server.receive builder task).fs := hS.inv
    unfold AsNamed
    rw [hw, hboxes]
    cases hcode : OpCode.ofCode? task.opcode with
    | none =>
      rw [taskHandler_none hcode, asked_none hcode, ← hview, ← hview']
      exact ⟨⟨not_stopped_of_idle rfl, rfl⟩, .of_idle hI rfl⟩
    | some op =>
      rw [hcode] at hop
      by_cases hc : op = .createBox
      · rw [hc] at hop
        exact hop.elim
      -- only its own handler is called, and that one does what is asked
      rw [taskHandler_eq hcode hc, asked_task hcode, ← hview]
      by_cases hr : op = .removeBox
      · subst hr
        obtain ⟨hmem, hremovable⟩ := hop
        obtain ⟨hrun, hsound⟩ := (remove_spec builder stack hI).1
          ((removable_receive builder).mpr hremovable)
        exact ⟨⟨hrun, remove_view hI hmem hU hremovable⟩, hsound⟩
      · have hadm : op = .loginSub → Admissible (d.server.receive builder task) builder := by
          intro heq
          rw [heq] at hop
          exact hop
        obtain ⟨hrun, hsound, hsame⟩ := (handle_spec builder stack hI hc hr).1 hadm
        refine ⟨⟨hrun, ?_⟩, hsound⟩
        rw [Outcome.worker, hsame, hview', Boxes.apply_other hc hr]

/-- From the boxes of a sound table, a step that does what its task names is heeded. -/
theorem heeded_of_asNamed (hS : d.toWorker.Sound) (hb : d.boxes.Sound) (hA : AsNamed d)
    (hst : next d a = some e) (hA' : AsNamed e) : Heeded d a := by
  obtain ⟨-, hview⟩ := hA
  obtain ⟨hrun, hview'⟩ := hA'
  cases a with
  | publish turn =>
    obtain ⟨hw, -⟩ := of_turn_step (by simp) hst
    by_contra hno
    exact hrun ((publish_spec hS hw).2 hno)
  | deliver =>
    obtain ⟨hw, -⟩ := of_turn_step (by simp) hst
    by_contra hno
    exact hrun ((deliver_spec hS hw).2 hno)
  | task builder task stack =>
    obtain ⟨hw, hboxes⟩ := of_task_step hst
    have hI : Inv (d.server.receive builder task).fs := hS.inv
    rw [hw] at hrun hview'
    rw [hboxes] at hview'
    dsimp only [Heeded]
    cases hcode : OpCode.ofCode? task.opcode with
    | none =>
      rw [taskHandler_none hcode, asked_none hcode, ← hview] at hview'
      exact ⟨view_receive_eq_iff.mp hview', trivial⟩
    | some op =>
      by_cases hc : op = .createBox
      · -- the file asked for is not there, or the worker has stopped
        exfalso
        subst hc
        rcases taskHandler_create builder stack hS.inv hcode with
          hstop | ⟨hv, hno⟩
        · exact hrun hstop
        · apply hno
          have hfiles := mem_files_create hb hv
          rw [asked_task hcode] at hview'
          rw [show d.boxes.create task.boxName = _ from hview'.symm] at hfiles
          exact hfiles
      rw [taskHandler_eq hcode hc] at hrun hview'
      rw [asked_task hcode, ← hview] at hview'
      by_cases hr : op = .removeBox
      · subst hr
        -- a removal that does not exit has found the file
        have hremovable : Removable d.server.fs task.boxName := by
          by_contra hno
          exact hrun ((remove_spec builder stack hI).2 (mt (removable_receive builder).mp hno))
        rw [← hview] at hb
        exact ⟨(remove_view_iff builder stack hS.inv hb hremovable).mp hview',
          mem_names_of_removable hb hremovable, hremovable⟩
      · -- a subscriber that is not let in stops the worker
        have hadm : op = .loginSub → Admissible (d.server.receive builder task) builder := by
          by_contra hno
          exact hrun ((handle_spec builder stack hI hc hr).2 hno)
        obtain ⟨-, -, hsame⟩ := (handle_spec builder stack hI hc hr).1 hadm
        rw [Outcome.worker, hsame, Boxes.apply_other hc hr] at hview'
        refine ⟨view_receive_eq_iff.mp hview', ?_⟩
        cases op with
        | loginSub => exact hadm rfl
        | createBox => exact absurd rfl hc
        | removeBox => exact absurd rfl hr
        | _ => trivial

/-! ## Histories -/

/-- From a broker at rest: where every step is heeded, the boxes are those that the
tasks' codes name, throughout; and from a sound table only there. -/
theorem dispatched_as_named {ρ : List (WorkerStep × Dispatched)} (hidle : d.phase = .idle)
    (hfs : Reachable (Fs.Initial tfsDefaultParams) Fs.Steps d.server.fs)
    (hb : d.boxes = d.server.view) (hr : Run Dispatched.Steps d ρ) :
    (EveryStep Heeded d ρ → EveryState AsNamed d ρ) ∧
      (d.boxes.Sound → EveryState AsNamed d ρ → EveryStep Heeded d ρ) := by
  have hsound : d.toWorker.Sound :=
    .of_idle (inv_of_reachable tfsDefaultParams_sane hfs) hidle
  have hnamed : AsNamed d := ⟨not_stopped_of_idle hidle, hb.symm⟩
  refine ⟨?_, ?_⟩
  · intro hheeded
    have hall : EveryState (fun d => AsNamed d ∧ d.toWorker.Sound) d ρ := by
      apply Run.everyState _ ⟨hnamed, hsound⟩ hr hheeded
      intro d a e hI hc hst
      exact asNamed_of_heeded hI.2 hI.1 hst hc
    exact hall.mono fun _ h => h.1
  · intro hboxes hall
    apply Run.everyStep (I := fun d => (AsNamed d ∧ d.toWorker.Sound) ∧ d.boxes.Sound) _
      ⟨⟨hnamed, hsound⟩, hboxes⟩ hr hall
    intro d a e hI hst hA
    obtain ⟨⟨hnamed, hsound⟩, hboxes⟩ := hI
    have hheeded := heeded_of_asNamed hsound hboxes hnamed hst hA
    refine ⟨hheeded, asNamed_of_heeded hsound hnamed hst hheeded, ?_⟩
    rw [boxes_of_step hst]
    exact hboxes.asked a

def atRest : Dispatched := ⟨⟨started, .idle⟩, started.view⟩

/-- `/b` created, and then a publisher logging in to it. -/
def createdThenUsed : List (WorkerStep × Dispatched) :=
  along next atRest [.task 0 (requestFor .createBox pathB) fun _ => 0,
    .task 1 (requestFor .loginPub pathB) fun _ => 0]

theorem dispatched_as_named_login :
    (EveryStep Heeded atRest createdThenUsed → EveryState AsNamed atRest createdThenUsed) ∧
      (atRest.boxes.Sound → EveryState AsNamed atRest createdThenUsed →
        EveryStep Heeded atRest createdThenUsed) :=
  dispatched_as_named rfl reachable_volume rfl (run_along _ _ _)

/-- The box is gone before the publisher asks for it. -/
theorem created_box_is_gone :
    ¬ ∀ (d : Dispatched) ρ, d.phase = .idle →
      Reachable (Fs.Initial tfsDefaultParams) Fs.Steps d.server.fs → d.boxes = d.server.view →
      Run Dispatched.Steps d ρ → EveryState AsNamed d ρ := by
  intro h
  have hlast := (h _ _ rfl reachable_volume rfl (run_along next _ _)).last (ρ := createdThenUsed)
  have hnames := congrArg Boxes.names hlast.2
  revert hnames
  decide +kernel

end MBroker.Broker
