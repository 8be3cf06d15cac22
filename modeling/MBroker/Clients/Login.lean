import MBroker.Wire.Register

/- The login of publisher/pub.c, from the check of the arguments in `main` to the
   request in its buffer.

   The check counts characters and lets a name be as long as its field, so a name of
   that length leaves no room for its NUL. That of `pipe_path` is the next field's
   only byte, the operation code that has been set before it; that of `box_name` is
   the first byte of `message`. -/
namespace MBroker.Clients
open MBroker.Lib MBroker.Wire
open MBroker.Fs (CString)

def pathMaxSize : Nat := 32

/-- The arguments that `main` goes on with. -/
def Accepted (pipeName boxName : CString) : Prop :=
  ¬ (pathMaxSize < boxName.bytes.length ∨ pipePathMaxSize < pipeName.bytes.length)

/-- `task_op` of `start_server_connection`. -/
def loginOp (stack : Mem) (pipePath boxName : CString) : Task :=
  (((⟨stack⟩ : Task).setOpcode .loginPub).setStr pipePathAt pipePath).setStr boxNameAt boxName

/-- The names fit their fields and the request its buffer, each with its NUL, and the
request is the encoding of a login with these names. -/
structure LoginFits (stack : Mem) (pipePath boxName : CString) : Prop where
  pathFits : pipePath.bytes.length + 1 ≤ pipePathMaxSize
  nameFits : boxName.bytes.length + 1 ≤ maxBoxName
  requestFits : (Publisher.taskToString (loginOp stack pipePath boxName)).bytes.length + 1 ≤
    requestSize
  text : (Publisher.taskToString (loginOp stack pipePath boxName)).bytes =
    decimal OpCode.loginPub.code.toNat ++ [bar] ++ pipePath.bytes ++ [bar] ++ boxName.bytes

variable {stack : Mem} {pipePath boxName : CString}

/-- The operation code after both copies. -/
def loginCode (pipePath : CString) : UInt8 :=
  if pipePath.bytes.length = pipePathMaxSize then 0 else OpCode.loginPub.code

theorem Accepted.lengths (h : Accepted pipePath boxName) :
    pipePath.bytes.length ≤ 256 ∧ boxName.bytes.length ≤ 32 := by
  obtain ⟨hbox, hpipe⟩ := not_or.mp h
  exact ⟨Nat.le_of_not_lt hpipe, Nat.le_of_not_lt hbox⟩

theorem loginOp_opcode (h : Accepted pipePath boxName) :
    (loginOp stack pipePath boxName).opcode = loginCode pipePath := by
  have hle := h.lengths.1
  unfold loginOp loginCode
  rw [Task.opcode_setStr (by decide)]
  split
  · next hfull =>
    -- the NUL of the path is stored over the code
    have hnul := Task.setStr_bytes (t := (⟨stack⟩ : Task).setOpcode .loginPub) (a := pipePathAt)
      (s := pipePath) (Nat.le_refl _)
    rw [hfull] at hnul
    refine Eq.trans hnul ?_
    simp [Mem.padded, hfull]
  · next hshort =>
    rw [← Task.opcode_setOpcode ⟨stack⟩ .loginPub]
    refine Mem.storeStr_out (.inr ?_)
    show 0 + pipePath.bytes.length < 256
    have hne : pipePath.bytes.length ≠ 256 := hshort
    omega

theorem loginOp_pipePath (h : Accepted pipePath boxName) :
    (loginOp stack pipePath boxName).pipePath = pipePath := by
  have hle := h.lengths.1
  have hat : pipePathAt + 256 < boxNameAt := by decide
  have hsize : boxNameAt < taskSize := by decide
  refine Task.str_eq (by omega) fun i hi => ?_
  refine Eq.trans (Mem.storeStr_out (.inl ?_)) (Task.setStr_bytes hi)
  omega

theorem loginOp_boxName (h : Accepted pipePath boxName) :
    (loginOp stack pipePath boxName).boxName = boxName := by
  have hle := h.lengths.2
  have hsize : boxNameAt + 32 < taskSize := by decide
  exact Task.str_setStr (by omega)

/-- Whatever the lengths, the request has the names in it, and a code. -/
theorem login_text (stack : Mem) (h : Accepted pipePath boxName) :
    (Publisher.taskToString (loginOp stack pipePath boxName)).bytes =
      decimal (loginCode pipePath).toNat ++ [bar] ++ pipePath.bytes ++ [bar] ++
        boxName.bytes := by
  obtain ⟨hpipe, hbox⟩ := h.lengths
  apply requestText_bytes (loginOp_opcode h) (loginOp_pipePath h) (loginOp_boxName h)
  have hdecimal : (decimal (loginCode pipePath).toNat).length = 1 := by
    unfold loginCode
    split <;> decide
  have hmax : messageMaxSize = 1024 := rfl
  omega

/-- The login fits exactly when both names leave room for their NULs. -/
theorem loginFits_iff (h : Accepted pipePath boxName) : LoginFits stack pipePath boxName ↔
    pipePath.bytes.length ≠ pipePathMaxSize ∧ boxName.bytes.length ≠ pathMaxSize := by
  obtain ⟨hpipe, hbox⟩ := h.lengths
  have hfields : pipePathMaxSize = 256 ∧ maxBoxName = 32 ∧ pathMaxSize = 32 := ⟨rfl, rfl, rfl⟩
  refine ⟨?_, ?_⟩
  · intro hfits
    have hpath := hfits.pathFits
    have hname := hfits.nameFits
    omega
  · intro hshort
    have hcode : loginCode pipePath = OpCode.loginPub.code := if_neg hshort.1
    have htext := login_text stack h
    rw [hcode] at htext
    refine ⟨by omega, by omega, ?_, htext⟩
    have hone : (decimal OpCode.loginPub.code.toNat).length = 1 := by decide
    have hsize : requestSize = 291 := rfl
    rw [htext]
    simp only [List.length_append, List.length_singleton, hone]
    omega

theorem loginFits_iff_greeting : LoginFits (fun _ => 0) greeting greeting ↔
    greeting.bytes.length ≠ pipePathMaxSize ∧ greeting.bytes.length ≠ pathMaxSize :=
  loginFits_iff (by unfold Accepted; decide)

/-- A path of 256 characters. -/
def longPath : CString :=
  ⟨47 :: List.replicate 255 112, by
    rw [List.mem_cons, List.mem_replicate]
    decide⟩

/-- It is let through, and its NUL is stored past its field. -/
theorem longPath_accepted : ¬ ∀ stack pipePath boxName, Accepted pipePath boxName →
    LoginFits stack pipePath boxName := by
  intro h
  have hlength : longPath.bytes.length = 256 := by
    rw [longPath, List.length_cons, List.length_replicate]
  have haccepted : Accepted longPath greeting := by
    unfold Accepted
    rw [hlength]
    decide
  have hfits := (h (fun _ => 0) longPath greeting haccepted).pathFits
  rw [hlength] at hfits
  exact absurd hfits (by decide)

end MBroker.Clients
