import MBroker.Wire.Register

/- The request of manager/manager.c: `start_server_connection` up to the write to the
   register pipe.

   It has one buffer for each command. Only `req_create` is ever filled, by `create`
   and by `remove`, and each command writes its own; so what `remove` and `list` send
   is what the stack held. -/
namespace MBroker.Clients
open MBroker.Lib MBroker.Wire
open MBroker.Fs (CString)

inductive Command where
  | create
  | remove
  | list
  deriving DecidableEq

/-- What the stack holds where `start_server_connection` has its locals. -/
structure RequestLocals where
  taskOp : Mem
  reqCreate : Mem
  reqRemove : Mem
  reqList : Mem

/-- `strncpy` into the name of the box. -/
def copyName (t : Task) (boxName : CString) : Task :=
  ⟨t.bytes.write boxNameAt maxBoxName (Mem.padded boxName.bytes)⟩

/-- The task for an operation on a box. -/
def boxOp (stack : RequestLocals) (op : OpCode) (pipePath boxName : CString) : Task :=
  copyName (((⟨stack.taskOp⟩ : Task).setStr pipePathAt pipePath).setOpcode op) boxName

/-- The locals after the encoding, and the bytes written to the register pipe. -/
def startServerConnection (stack : RequestLocals) (pipePath boxName : CString) :
    Command → RequestLocals × List UInt8
  | .create =>
    let taskOp := boxOp stack .createBox pipePath boxName
    let reqCreate := stack.reqCreate.storeStr 0 (Manager.taskToString taskOp).bytes
    ({ stack with taskOp := taskOp.bytes, reqCreate }, reqCreate.read 0 requestSize)
  | .remove =>
    let taskOp := boxOp stack .removeBox pipePath boxName
    let reqCreate := stack.reqCreate.storeStr 0 (Manager.taskToString taskOp).bytes
    ({ stack with taskOp := taskOp.bytes, reqCreate }, stack.reqRemove.read 0 requestSize)
  | .list =>
    let taskOp := ((⟨stack.taskOp⟩ : Task).setStr pipePathAt pipePath).setOpcode .list
    ({ stack with taskOp := taskOp.bytes }, stack.reqList.read 0 listRequestSize)

/-- The bytes up to the first NUL. -/
def requestOf (stack : RequestLocals) (pipePath boxName : CString) (command : Command) :
    List UInt8 :=
  (startServerConnection stack pipePath boxName command).2.takeWhile (· ≠ 0)

/-- The encoding of the request that a command asks for. -/
def encoding (pipePath boxName : CString) : Command → List UInt8
  | .create =>
    decimal OpCode.createBox.code.toNat ++ [bar] ++ pipePath.bytes ++ [bar] ++ boxName.bytes
  | .remove =>
    decimal OpCode.removeBox.code.toNat ++ [bar] ++ pipePath.bytes ++ [bar] ++ boxName.bytes
  | .list => decimal OpCode.list.code.toNat ++ [bar] ++ pipePath.bytes

/-- Two runs that differ only in what the stack held write the same request. -/
def SameRequest (pipePath boxName : CString) (command : Command) : Prop :=
  ∀ stack stack', requestOf stack pipePath boxName command =
    requestOf stack' pipePath boxName command

/-- The request is the one asked for, whatever the stack held. -/
structure SendsAsked (pipePath boxName : CString) (command : Command) : Prop where
  encoded : ∀ stack, requestOf stack pipePath boxName command = encoding pipePath boxName command
  same : SameRequest pipePath boxName command

variable {stack : RequestLocals} {op : OpCode} {pipePath boxName : CString} {command : Command}

/-! ## A task for a box -/

theorem copyName_out {t : Task} {x : Nat} (h : x < boxNameAt) :
    (copyName t boxName).bytes x = t.bytes x := by
  show t.bytes.write boxNameAt maxBoxName (Mem.padded boxName.bytes) x = t.bytes x
  exact Mem.write_out (.inl h)

theorem boxOp_opcode (stack : RequestLocals) (op : OpCode) (pipePath boxName : CString) :
    (boxOp stack op pipePath boxName).opcode = op.code :=
  (copyName_out (by decide)).trans (Task.opcode_setOpcode _ op)

theorem boxOp_pipePath (hpipe : pipePath.bytes.length < pipePathMaxSize) :
    (boxOp stack op pipePath boxName).pipePath = pipePath := by
  have hsize : pipePathAt + pipePathMaxSize < taskSize := by decide
  have hopcode : pipePathAt + pipePathMaxSize ≤ opcodeAt := by decide
  have hname : opcodeAt < boxNameAt := by decide
  -- the path ends before the fields that are stored after it
  refine Task.str_eq (by omega) fun i hi => ?_
  calc (boxOp stack op pipePath boxName).bytes (pipePathAt + i)
      = (((⟨stack.taskOp⟩ : Task).setStr pipePathAt pipePath).setOpcode op).bytes
          (pipePathAt + i) := copyName_out (by omega)
    _ = ((⟨stack.taskOp⟩ : Task).setStr pipePathAt pipePath).bytes (pipePathAt + i) :=
        Task.setOpcode_out (by omega)
    _ = Mem.padded pipePath.bytes i := Task.setStr_bytes hi

theorem boxOp_boxName (hbox : boxName.bytes.length < maxBoxName) :
    (boxOp stack op pipePath boxName).boxName = boxName := by
  have hsize : boxNameAt + maxBoxName < taskSize := by decide
  exact Task.str_eq (by omega) fun i hi => Mem.write_in (by omega)

/-! ## The request -/

/-- A creation is sent as it is asked for. -/
theorem requestOf_create (hpipe : pipePath.bytes.length < pipePathMaxSize)
    (hbox : boxName.bytes.length < maxBoxName) :
    requestOf stack pipePath boxName .create = encoding pipePath boxName .create := by
  have hsizes : pipePathMaxSize = 256 ∧ maxBoxName = 32 ∧ messageMaxSize = 1024 ∧
      requestSize = 291 := ⟨rfl, rfl, rfl, rfl⟩
  have hone : (decimal OpCode.createBox.code.toNat).length = 1 := by decide
  have htext : (Manager.taskToString (boxOp stack .createBox pipePath boxName)).bytes =
      encoding pipePath boxName .create :=
    requestText_bytes (boxOp_opcode _ _ _ _) (boxOp_pipePath hpipe) (boxOp_boxName hbox) (by omega)
  have hlen : (encoding pipePath boxName .create).length < requestSize := by
    unfold encoding
    simp only [List.length_append, List.length_singleton, hone]
    omega
  rw [← htext] at hlen ⊢
  exact Mem.cstr_storeStr (CString.noNul _) hlen

/-- The other requests are what the stack held. -/
theorem requestOf_leftover (hc : command ≠ .create) :
    requestOf stack pipePath boxName command =
      if command = .remove then stack.reqRemove.cstr 0 requestSize
      else stack.reqList.cstr 0 listRequestSize := by
  cases command with
  | create => exact absurd rfl hc
  | remove => rfl
  | list => rfl

theorem sameRequest_iff (hpipe : pipePath.bytes.length < pipePathMaxSize)
    (hbox : boxName.bytes.length < maxBoxName) :
    SameRequest pipePath boxName command ↔ command = .create := by
  refine ⟨?_, ?_⟩
  · intro hsame
    by_contra hc
    -- a stack of NULs, and one of another byte
    have hfill := hsame ⟨fun _ => 0, fun _ => 0, fun _ => 0, fun _ => 0⟩
      ⟨fun _ => 0, fun _ => 0, fun _ => 1, fun _ => 1⟩
    rw [requestOf_leftover hc, requestOf_leftover hc] at hfill
    split at hfill
    · rw [requestSize, Mem.cstr_succ, Mem.cstr_succ] at hfill
      cases hfill
    · rw [listRequestSize, Mem.cstr_succ, Mem.cstr_succ] at hfill
      cases hfill
  · rintro rfl stack stack'
    rw [requestOf_create hpipe hbox, requestOf_create hpipe hbox]

/-- The manager sends what it was asked to send exactly when that is a creation. -/
theorem sendsAsked_iff (hpipe : pipePath.bytes.length < pipePathMaxSize)
    (hbox : boxName.bytes.length < maxBoxName) :
    SendsAsked pipePath boxName command ↔ command = .create := by
  refine ⟨?_, ?_⟩
  · intro h
    exact (sameRequest_iff hpipe hbox).mp h.same
  · intro hc
    refine ⟨?_, (sameRequest_iff hpipe hbox).mpr hc⟩
    subst hc
    exact fun stack => requestOf_create hpipe hbox

theorem sendsAsked_iff_greeting :
    SendsAsked greeting greeting .create ↔ Command.create = .create :=
  sendsAsked_iff (by decide) (by decide)

/-- A removal is not encoded into the buffer that is written. -/
theorem removal_not_sent : ¬ ∀ (pipePath boxName : CString) command,
    pipePath.bytes.length < pipePathMaxSize → boxName.bytes.length < maxBoxName →
      SendsAsked pipePath boxName command := by
  intro h
  have hsame := (h greeting greeting .remove (by decide) (by decide)).same
  have hcreate := (sameRequest_iff (by decide) (by decide)).mp hsame
  cases hcreate

end MBroker.Clients
