import MBroker.Fs.State
import MBroker.Lib.Scan

/- The `task` struct and the operation codes of utils/lib.h. A task is the bytes
   of the struct: the decoder stores words into it that run on from one field
   into the next, so where the fields lie matters. The offsets are those of an
   LP64 target. A field that is a C string reads up to the first NUL, from
   wherever in the struct that NUL is. -/
namespace MBroker.Wire
open MBroker.Lib
open MBroker.Fs (CString)

def pipePathMaxSize : Nat := 256
def messageMaxSize : Nat := 1024
def maxBoxName : Nat := 32
def maxErrorSize : Nat := 1024

inductive OpCode where
  | loginPub
  | loginSub
  | createBox
  | createBoxResponse
  | removeBox
  | removeBoxResponse
  | list
  | listBoxesResponse
  | write
  | read
  deriving DecidableEq, Repr

def OpCode.code : OpCode → UInt8
  | .loginPub => 1
  | .loginSub => 2
  | .createBox => 3
  | .createBoxResponse => 4
  | .removeBox => 5
  | .removeBoxResponse => 6
  | .list => 7
  | .listBoxesResponse => 8
  | .write => 9
  | .read => 10

/-- The operation a byte names, as a `switch` on it finds it. -/
def OpCode.ofCode? (b : UInt8) : Option OpCode :=
  match b.toNat with
  | 1 => some .loginPub
  | 2 => some .loginSub
  | 3 => some .createBox
  | 4 => some .createBoxResponse
  | 5 => some .removeBox
  | 6 => some .removeBoxResponse
  | 7 => some .list
  | 8 => some .listBoxesResponse
  | 9 => some .write
  | 10 => some .read
  | _ => none

theorem OpCode.ofCode?_eq_some {b : UInt8} {op : OpCode} : ofCode? b = some op ↔ b = op.code := by
  refine ⟨?_, ?_⟩
  · intro h
    apply UInt8.toNat_inj.mp
    unfold ofCode? at h
    split at h <;> cases h <;> assumption
  · intro h
    subst h
    cases op <;> rfl

/-! ## Layout -/

def pipePathAt : Nat := 0
def opcodeAt : Nat := pipePathAt + pipePathMaxSize
def boxNameAt : Nat := opcodeAt + 1
def messageAt : Nat := boxNameAt + maxBoxName
/-- `thread` is aligned to 8 bytes and takes 8. -/
def threadAt : Nat := 1320
def errorAt : Nat := threadAt + 8
def returnValueAt : Nat := errorAt + maxErrorSize
/-- `sizeof(task)`: after `return_value` come `box_size`, aligned to 8 bytes, and `last`,
padded to 8. -/
def taskSize : Nat := 2376

structure Task where
  bytes : Mem

/-- The address of a task. -/
abbrev Addr := Nat

namespace Task

/-- The C string that starts `a` bytes into the struct. -/
def str (t : Task) (a : Nat) : CString :=
  ⟨t.bytes.cstr a (taskSize - a), Mem.zero_not_mem_cstr _ _ _⟩

def pipePath (t : Task) : CString := t.str pipePathAt
def opcode (t : Task) : UInt8 := t.bytes opcodeAt
def boxName (t : Task) : CString := t.str boxNameAt
def message (t : Task) : CString := t.str messageAt
def error (t : Task) : CString := t.str errorAt
def returnValue (t : Task) : Int := t.bytes.loadInt returnValueAt

/-- `strcpy` into the struct, `a` bytes from its start. -/
def setStr (t : Task) (a : Nat) (s : CString) : Task := ⟨t.bytes.storeStr a s.bytes⟩

def setOpcode (t : Task) (op : OpCode) : Task := ⟨t.bytes.write opcodeAt 1 fun _ => op.code⟩

def setReturnValue (t : Task) (v : Int) : Task := ⟨t.bytes.storeInt returnValueAt v⟩

/-- A task with a message of one character. -/
def letter (c : UInt8) (h : 0 ∉ [c]) : Task := (⟨fun _ => 0⟩ : Task).setStr messageAt ⟨[c], h⟩

def letterA : Task := .letter 97 (by decide)

def letterB : Task := .letter 98 (by decide)

end Task

/-- The string in a buffer of `size` bytes, where the buffer holds its NUL. -/
def bufferString (buffer : Mem) (size : Nat) : Option CString :=
  if (buffer.cstr 0 size).length < size
  then some ⟨buffer.cstr 0 size, Mem.zero_not_mem_cstr _ _ _⟩ else none

/-! ## Reading back -/

theorem bufferString_eq_some {buffer : Mem} {size : Nat} {s : CString} :
    bufferString buffer size = some s ↔ s.bytes = buffer.cstr 0 size ∧ s.bytes.length < size := by
  unfold bufferString
  refine ⟨?_, ?_⟩
  · intro h
    split at h
    · next hlen =>
      cases h
      exact ⟨rfl, hlen⟩
    · cases h
  · intro h
    obtain ⟨hbytes, hlen⟩ := h
    obtain ⟨bytes, hnul⟩ := s
    dsimp only at hbytes hlen
    subst hbytes
    rw [if_pos hlen]

theorem bufferString_eq_none {buffer : Mem} {size : Nat} :
    bufferString buffer size = none ↔ ¬ ∃ i, i < size ∧ buffer i = 0 := by
  have hlen := Mem.cstr_length_lt_iff (m := buffer) (a := 0) (n := size)
  simp only [Nat.zero_add] at hlen
  rw [← hlen]
  unfold bufferString
  simp

theorem Task.str_length_le (t : Task) (a : Nat) : (t.str a).bytes.length ≤ taskSize := by
  have hle := (List.takeWhile_sublist (· ≠ 0) (l := t.bytes.read a (taskSize - a))).length_le
  rw [Mem.read_length] at hle
  exact Nat.le_trans hle (Nat.sub_le _ _)

theorem Task.str_eq_nil {t : Task} {a : Nat} (ha : a < taskSize) (h : t.bytes a = 0) :
    (t.str a).bytes = [] := by
  obtain ⟨n, hn⟩ : ∃ n, taskSize - a = n + 1 := ⟨taskSize - a - 1, by omega⟩
  show t.bytes.cstr a (taskSize - a) = []
  rw [hn, Mem.cstr_succ, if_pos h]

/-- The bytes of a string and its NUL are read as the string. -/
theorem Task.str_eq {t : Task} {a : Nat} {s : CString} (h : a + s.bytes.length < taskSize)
    (hb : ∀ i, i ≤ s.bytes.length → t.bytes (a + i) = Mem.padded s.bytes i) : t.str a = s := by
  have hcut : t.bytes.cstr a (s.bytes.length + 1) = s.bytes :=
    Mem.cstr_padded s.noNul (Nat.lt_succ_self _) fun i hi => hb i (Nat.le_of_lt_succ hi)
  have hs : t.bytes.cstr a (taskSize - a) = s.bytes := by
    rw [Mem.cstr_of_le (by rw [hcut]; exact Nat.lt_succ_self _) (by omega), hcut]
  cases s
  simp only [Task.str, hs]

theorem Task.setStr_bytes {t : Task} {a : Nat} {s : CString} {i : Nat} (h : i ≤ s.bytes.length) :
    (t.setStr a s).bytes (a + i) = Mem.padded s.bytes i := Mem.write_in (Nat.lt_succ_of_le h)

theorem Task.str_setStr {t : Task} {a : Nat} {s : CString} (h : a + s.bytes.length < taskSize) :
    (t.setStr a s).str a = s := Task.str_eq h fun _ hi => Task.setStr_bytes hi

theorem Task.opcode_setOpcode (t : Task) (op : OpCode) : (t.setOpcode op).opcode = op.code := by
  show t.bytes.write opcodeAt 1 (fun _ => op.code) (opcodeAt + 0) = op.code
  exact Mem.write_in (by decide)

theorem Task.setOpcode_out {t : Task} {op : OpCode} {x : Nat} (h : x ≠ opcodeAt) :
    (t.setOpcode op).bytes x = t.bytes x := by
  show t.bytes.write opcodeAt 1 (fun _ => op.code) x = t.bytes x
  exact Mem.write_out (by omega)

theorem Task.opcode_setStr {t : Task} {a : Nat} {s : CString} (ha : opcodeAt < a) :
    (t.setStr a s).opcode = t.opcode := Mem.storeStr_out (.inl ha)

end MBroker.Wire
