import MBroker.Fs.Names
import MBroker.Lib.Table
import MBroker.Wire.Register

/- The broker's own state: the table of boxes beside the file system, and the tasks
   in memory. A box holds no name but a pointer to the name in the task that asked
   for it, so storing another request in that task renames the box. -/
namespace MBroker.Broker
open MBroker.Lib MBroker.Fs MBroker.Wire Function

def maxBoxes : Nat := 32

/-- `exit(EXIT_FAILURE)`. -/
def exitFailure : Halt := .exit 1

structure MailBox where
  /-- The task whose `box_name` is pointed to. -/
  boxName : Addr
  last : UInt8
  boxSize : UInt64
  numPublishers : UInt64
  numSubscribers : UInt64
  subsArrayPipePath : Mem

structure Server where
  fs : FsState
  tasks : Addr → Task
  /-- `boxes`, and what lies before and after it. -/
  boxes : Int → MailBox
  currentBoxes : Int

namespace Server

/-- How often a loop up to `current_boxes` runs. -/
def size (s : Server) : Nat := s.currentBoxes.toNat

/-- The name a box has, with these tasks in memory. -/
def nameOf (tasks : Addr → Task) (box : MailBox) : CString := (tasks box.boxName).boxName

def boxName (s : Server) (i : Int) : CString := nameOf s.tasks (s.boxes i)

/-- `boxes[0 .. current_boxes)`. -/
def table (s : Server) : List MailBox := entries s.boxes s.size

def names (s : Server) : List CString := s.table.map (nameOf s.tasks)

/-- A request decoded into the task at `builder`. -/
def receive (s : Server) (builder : Addr) (task : Task) : Server :=
  { s with tasks := update s.tasks builder task }

/-- No box has its name in that task, unless it is the same name. -/
def Unshared (s : Server) (builder : Addr) (task : Task) : Prop :=
  ∀ box ∈ s.table, box.boxName = builder → nameOf s.tasks box = task.boxName

/-- Before the first request. -/
structure Initial (s : Server) : Prop where
  fs : Fs.Initial tfsDefaultParams s.fs
  currentBoxes : s.currentBoxes = 0

end Server

open Server

variable {s : Server} {builder : Addr} {task : Task} {name : CString}

theorem names_eq (s : Server) : s.names = entries s.boxName s.size :=
  map_entries (nameOf s.tasks) s.boxes s.size

theorem mem_names : name ∈ s.names ↔ ∃ i : Nat, i < s.size ∧ s.boxName i = name := by
  rw [names_eq, mem_entries]

@[simp] theorem length_names (s : Server) : s.names.length = s.size := by
  rw [names_eq, length_entries]

/-- A box written over with one of its own name keeps every name. -/
theorem nameOf_update {boxes : Int → MailBox} {i : Int} {box : MailBox}
    (h : box.boxName = (boxes i).boxName) (tasks : Addr → Task) (k : Int) :
    nameOf tasks (update boxes i box k) = nameOf tasks (boxes k) := by
  by_cases hk : k = i
  · subst hk
    rw [update_self, nameOf, h, nameOf]
  · rw [update_of_ne hk]

theorem nameOf_receive (box : MailBox) :
    nameOf (s.receive builder task).tasks box =
      if box.boxName = builder then task.boxName else nameOf s.tasks box := by
  unfold nameOf receive
  dsimp only
  split
  · next h => rw [h, update_self]
  · next h => rw [update_of_ne h]

theorem names_receive_eq_iff :
    (s.receive builder task).names = s.names ↔ s.Unshared builder task := by
  unfold names
  show s.table.map _ = s.table.map _ ↔ _
  rw [List.map_inj_left]
  refine ⟨?_, ?_⟩
  · intro h box hbox heq
    have hname := h box hbox
    rw [nameOf_receive, if_pos heq] at hname
    exact hname.symm
  · intro h box hbox
    rw [nameOf_receive]
    split
    · next heq => exact (h box hbox heq).symm
    · rfl

/-- Where no two boxes have the same name, a request stored over a box's name shows in
the names, those of the request's own name aside. -/
theorem erase_names_receive_eq_iff (hd : s.names.Nodup) :
    (s.receive builder task).names.erase task.boxName = s.names.erase task.boxName ↔
      s.Unshared builder task := by
  refine ⟨fun h box hbox heq => ?_, fun h => by rw [names_receive_eq_iff.mpr h]⟩
  by_contra hne
  -- the old name is among the new ones still
  have hmem : nameOf s.tasks box ∈ (s.receive builder task).names := by
    apply List.mem_of_mem_erase (b := task.boxName)
    rw [h, List.mem_erase_of_ne hne]
    exact List.mem_map_of_mem hbox
  obtain ⟨other, hother, hname⟩ := List.mem_map.mp hmem
  rw [nameOf_receive] at hname
  split at hname
  · exact hne hname.symm
  · next hother' =>
    have hsame : other = box := List.inj_on_of_nodup_map hd hother hbox hname
    exact hother' (hsame ▸ heq)

/-! ## The broker started -/

def started : Server where
  fs := volume
  tasks := fun _ => ⟨fun _ => 0⟩
  boxes := fun _ => ⟨0, 0, 0, 0, 0, fun _ => 0⟩
  currentBoxes := 0

theorem started_initial : started.Initial where
  fs := ⟨tablesOf 0, tfsInit_eq (by decide) (by decide)⟩
  currentBoxes := rfl

/-- A task as a decoded request for a box would be. -/
def requestFor (op : OpCode) (box : CString) : Task :=
  ((⟨fun _ => 0⟩ : Task).setOpcode op).setStr boxNameAt box

end MBroker.Broker
