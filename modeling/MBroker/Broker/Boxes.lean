import MBroker.Broker.Outcomes

/- The table of boxes and the root directory, against what the two are for: the boxes
   there are, in the order of their creation, and a file for each. -/
namespace MBroker.Broker
open MBroker.Lib MBroker.Fs MBroker.Wire Function

structure Boxes where
  names : List CString
  files : Set (List UInt8)

namespace Boxes

/-- A box there is already changes nothing, and neither does a name no box can have. -/
def create (b : Boxes) (name : CString) : Boxes :=
  if name ∈ b.names ∨ validPathname name = false then b
  else ⟨b.names ++ [name], insert name.tail.bytes b.files⟩

def remove (b : Boxes) (name : CString) : Boxes :=
  if name ∈ b.names then ⟨b.names.erase name, b.files \ {name.tail.bytes}⟩ else b

/-- The operation that a code names, on the box. -/
def apply (b : Boxes) (op : OpCode) (name : CString) : Boxes :=
  match op with
  | .createBox => b.create name
  | .removeBox => b.remove name
  | _ => b

/-- Each box is there once, and its file is, and no other file. -/
structure Sound (b : Boxes) : Prop where
  nodup : b.names.Nodup
  paths : ∀ name ∈ b.names, validPathname name = true
  files : b.files = {x | ∃ name ∈ b.names, name.tail.bytes = x}

variable {b : Boxes} {name : CString}

theorem apply_other {op : OpCode} (hc : op ≠ .createBox) (hr : op ≠ .removeBox) :
    b.apply op name = b := by
  cases op <;> first | rfl | exact absurd rfl hc | exact absurd rfl hr

theorem Sound.mem_files_iff (h : b.Sound) (hv : validPathname name = true) :
    name.tail.bytes ∈ b.files ↔ name ∈ b.names := by
  rw [h.files]
  refine ⟨?_, ?_⟩
  · intro hfile
    obtain ⟨other, hother, htail⟩ := hfile
    rwa [← eq_of_tail_eq (h.paths other hother) hv htail]
  · intro hname
    exact ⟨name, hname, rfl⟩

theorem create_of_new (hv : validPathname name = true) (h : name ∉ b.names) :
    b.create name = ⟨b.names ++ [name], insert name.tail.bytes b.files⟩ := by
  rw [create, if_neg]
  simp [h, hv]

theorem Sound.create (h : b.Sound) (name : CString) : (b.create name).Sound := by
  by_cases hc : name ∈ b.names ∨ validPathname name = false
  · rw [Boxes.create, if_pos hc]
    exact h
  rw [not_or, Bool.not_eq_false] at hc
  obtain ⟨hnew, hv⟩ := hc
  rw [create_of_new hv hnew]
  refine ⟨?_, ?_, ?_⟩
  · rw [List.nodup_append_comm]
    exact List.nodup_cons.mpr ⟨hnew, h.nodup⟩
  · intro other hother
    rcases List.mem_append.mp hother with hold | hlast
    · exact h.paths other hold
    · rwa [List.mem_singleton.mp hlast]
  · ext x
    -- a file is the new one or that of an old box
    simp only [Set.mem_insert_iff, h.files, Set.mem_ofPred_eq, List.mem_append, List.mem_singleton]
    refine ⟨?_, ?_⟩
    · rintro (rfl | ⟨other, hother, rfl⟩)
      · exact ⟨name, .inr rfl, rfl⟩
      · exact ⟨other, .inl hother, rfl⟩
    · rintro ⟨other, hother | rfl, rfl⟩
      · exact .inr ⟨other, hother, rfl⟩
      · exact .inl rfl

theorem Sound.remove (h : b.Sound) (name : CString) : (b.remove name).Sound := by
  unfold Boxes.remove
  split
  swap
  · exact h
  next hname =>
  refine ⟨h.nodup.erase name, fun other hother => h.paths other (List.mem_of_mem_erase hother), ?_⟩
  ext x
  simp only [Set.mem_sdiff, Set.mem_singleton_iff, h.files, Set.mem_ofPred_eq,
    h.nodup.mem_erase_iff]
  refine ⟨?_, ?_⟩
  · rintro ⟨⟨other, hother, rfl⟩, hx⟩
    refine ⟨other, ⟨?_, hother⟩, rfl⟩
    intro heq
    exact hx (by rw [heq])
  · rintro ⟨other, ⟨hne, hother⟩, rfl⟩
    -- two paths with one file name are the same
    refine ⟨⟨other, hother, rfl⟩, fun htail => hne ?_⟩
    exact eq_of_tail_eq (h.paths other hother) (h.paths name hname) htail

theorem Sound.apply (h : b.Sound) (op : OpCode) (name : CString) : (b.apply op name).Sound := by
  cases op with
  | createBox => exact h.create name
  | removeBox => exact h.remove name
  | _ => exact h

end Boxes

/-- The boxes as the table and the directory have them. -/
def Server.view (s : Server) : Boxes := ⟨s.names, fileNames s.fs⟩

open Server

variable {s : Server} {b : Boxes} {builder : Addr} {task : Task} {stack : Mem}

/-- In a sound view the file of a path is there exactly when the box is. -/
theorem mem_names_of_removable (hb : s.view.Sound) (hc : Removable s.fs task.boxName) :
    task.boxName ∈ s.names := (hb.mem_files_iff hc.1).mp hc.2

theorem receive_task (s : Server) (builder : Addr) (task : Task) :
    (s.receive builder task).tasks builder = task := by
  simp [receive]

theorem receive_boxName (s : Server) (builder : Addr) (task : Task) :
    ((s.receive builder task).tasks builder).boxName = task.boxName := by
  rw [receive_task]

theorem creatable_receive (builder : Addr) :
    Creatable (s.receive builder task).fs ((s.receive builder task).tasks builder).boxName ↔
      Creatable s.fs task.boxName := by
  rw [receive_boxName]
  exact Iff.rfl

theorem removable_receive (builder : Addr) :
    Removable (s.receive builder task).fs ((s.receive builder task).tasks builder).boxName ↔
      Removable s.fs task.boxName := by
  rw [receive_boxName]
  exact Iff.rfl

theorem mem_names_receive (h : task.boxName ∈ s.names) :
    task.boxName ∈ (s.receive builder task).names := by
  obtain ⟨box, hbox, hname⟩ := List.mem_map.mp h
  refine List.mem_map.mpr ⟨box, hbox, ?_⟩
  rw [nameOf_receive]
  split
  · rfl
  · exact hname

/-- An accepted creation does what one is for exactly where the box is new and the request is
not stored over the name of another. -/
theorem create_view_iff (builder : Addr) (stack : Mem) (hI : Inv s.fs) (h0 : 0 ≤ s.currentBoxes)
    (hc : Creatable s.fs task.boxName) :
    ((s.receive builder task).boxCreateRequest builder stack).server.view =
        s.view.create task.boxName ↔
      task.boxName ∉ s.names ∧ s.Unshared builder task := by
  obtain ⟨-, -, hadded⟩ := boxCreateRequest_ok (s := s.receive builder task) stack hI
    ((creatable_receive builder).mpr hc)
  obtain ⟨h, hentered⟩ := hadded.fs
  have hnames := hadded.names h0
  have hfiles := hentered.files
  rw [receive_boxName] at hnames hfiles
  have hview : ((s.receive builder task).boxCreateRequest builder stack).server.view =
      ⟨(s.receive builder task).names ++ [task.boxName],
        insert task.boxName.tail.bytes (fileNames s.fs)⟩ := by
    rw [view, hnames, hfiles]
    rfl
  rw [hview]
  by_cases hmem : task.boxName ∈ s.names
  · have hsame : s.view.create task.boxName = s.view := if_pos (.inl hmem)
    rw [hsame]
    refine ⟨?_, ?_⟩
    · intro h
      -- the table has one entry more, and should have none
      have hlen := congrArg (fun b : Boxes => b.names.length) h
      simp only [view, List.length_append, length_names, List.length_singleton] at hlen
      change s.size + 1 = s.size at hlen
      omega
    · intro h
      exact absurd hmem h.1
  · rw [Boxes.create_of_new hc.1 hmem, Boxes.mk.injEq]
    simp only [view, hmem, not_false_eq_true, true_and, and_true, List.append_cancel_right_eq]
    exact names_receive_eq_iff

/-- What an accepted removal leaves. -/
theorem remove_view_eq (builder : Addr) (stack : Mem) (hI : Inv s.fs)
    (hmem : task.boxName ∈ s.names) (hc : Removable s.fs task.boxName) :
    ((s.receive builder task).boxRemoveRequest builder stack).server.view =
        ⟨(s.receive builder task).names.erase task.boxName,
          fileNames s.fs \ {task.boxName.tail.bytes}⟩ ∧
      s.view.remove task.boxName =
        ⟨s.names.erase task.boxName, fileNames s.fs \ {task.boxName.tail.bytes}⟩ := by
  obtain ⟨-, htaken⟩ := boxRemoveRequest_ok (s := s.receive builder task) stack hI
    ((removable_receive builder).mpr hc)
  have hnames := htaken.names (by rw [receive_boxName]; exact mem_names_receive hmem)
  have hfiles := htaken.fs.files
  rw [receive_boxName] at hnames hfiles
  refine ⟨?_, if_pos hmem⟩
  rw [view, hnames, hfiles]
  rfl

theorem remove_view (hI : Inv s.fs) (hmem : task.boxName ∈ s.names)
    (hU : s.Unshared builder task) (hc : Removable s.fs task.boxName) :
    ((s.receive builder task).boxRemoveRequest builder stack).server.view =
      s.view.remove task.boxName := by
  obtain ⟨hview, hspec⟩ := remove_view_eq builder stack hI hmem hc
  rw [hview, hspec, names_receive_eq_iff.mpr hU]

/-- An accepted removal of a sound table's box does what one is for exactly where the
request is not stored over the name of another. -/
theorem remove_view_iff (builder : Addr) (stack : Mem) (hI : Inv s.fs) (hb : s.view.Sound)
    (hc : Removable s.fs task.boxName) :
    ((s.receive builder task).boxRemoveRequest builder stack).server.view =
        s.view.remove task.boxName ↔ s.Unshared builder task := by
  obtain ⟨hview, hspec⟩ := remove_view_eq builder stack hI
    (mem_names_of_removable hb hc) hc
  rw [hview, hspec, Boxes.mk.injEq, and_iff_left rfl]
  exact erase_names_receive_eq_iff hb.nodup

end MBroker.Broker
