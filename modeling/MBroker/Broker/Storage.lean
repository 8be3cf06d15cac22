import MBroker.Broker.Effects

/- One message of a publisher and the box it goes to, with no other user of the box.

   The loop opens the box for appending, reads, and compares what it read and the
   length of the message with the size of a box. A handle opened for appending
   stands at the end, so the read finds nothing and the comparison never sees how
   full the box is. The write then takes what there is room for, and no message
   that a frame can carry ends the loop. -/
namespace MBroker.Broker
open MBroker.Lib MBroker.Fs MBroker.Wire Function

namespace Server

/-- The turn of the session at box `i` comes to its end. The message is in the box as
a whole, or nothing of it is and the loop is left. -/
structure StoredWhole (s : Server) (o : Outcome) (builder : Addr) (i n : Nat)
    (message : CString) : Prop where
  survives : ∀ halt, o.phase ≠ .stopped halt
  whole : (contents s.fs n).length + message.bytes.length ≤ 1024 →
    contents o.server.fs n = contents s.fs n ++ message.bytes
  rejected : 1024 < (contents s.fs n).length + message.bytes.length →
    contents o.server.fs n = contents s.fs n ∧ o.phase ≠ .publishing builder i

/-- There is room for the message, a handle, and a block where the box has none. -/
structure Storable (fs : FsState) (n : Nat) (message : CString) : Prop where
  handle : freeHandle fs ≠ none
  room : (contents fs n).length + message.bytes.length ≤ 1024
  block : message.bytes = [] ∨ freeBlock fs ≠ none ∨ 0 < (contents fs n).length

end Server

open Server

variable {s : Server} {builder : Addr} {i n : Nat} {turn : Turn} {taskOp : Task}

/-- The turn stores as much of the message as there is room for, and the loop goes on. -/
theorem pubTurn_short (hI : Inv s.fs) {h : Nat}
    (hv : validPathname (s.tasks builder).boxName = true)
    (hl : lookup s.fs (s.tasks builder).boxName.tail.bytes = some n)
    (hd : turn.decode pubRequestSize = .ok taskOp) (hfree : freeHandle s.fs = some h)
    (hroom : taskOp.message.bytes = [] ∨ freeBlock s.fs ≠ none ∨ 0 < (contents s.fs n).length) :
    (s.pubTurn builder i turn).phase = .publishing builder i ∧
      Put s.fs (s.pubTurn builder i turn).server.fs n taskOp.message := by
  rw [contents_length] at hroom
  obtain ⟨t, hput, hstored⟩ := putMessage_short hI hv hl hfree (message_le_of_decode hd) hroom
  unfold pubTurn
  rw [hd]
  dsimp only
  rw [hput]
  exact ⟨rfl, hstored⟩

/-- Without a handle, or with no block for the first bytes of the box, the broker exits. -/
theorem pubTurn_stopped (hI : Inv s.fs)
    (hl : lookup s.fs (s.tasks builder).boxName.tail.bytes = some n)
    (hd : turn.decode pubRequestSize = .ok taskOp)
    (h : freeHandle s.fs = none ∨ ¬ (taskOp.message.bytes = [] ∨ freeBlock s.fs ≠ none ∨
      0 < (contents s.fs n).length)) :
    ∃ halt, (s.pubTurn builder i turn).phase = .stopped halt := by
  apply pubTurn_error hI
  intro taskOp' hd' hp
  rw [hd, Except.ok.injEq] at hd'
  subst hd'
  rcases h with hnone | hblock
  · exact hp.1.2 hnone
  · apply hblock
    rw [contents_length]
    exact hp.room hl (message_le_of_decode hd)

/-- A message is stored whole or not at all exactly when it fits the box, and the file
system can take it. -/
theorem storedWhole_iff (hfs : Reachable (Fs.Initial tfsDefaultParams) Fs.Steps s.fs)
    (hv : validPathname (s.tasks builder).boxName = true)
    (hl : lookup s.fs (s.tasks builder).boxName.tail.bytes = some n)
    (hd : turn.decode pubRequestSize = .ok taskOp) :
    s.StoredWhole (s.pubTurn builder i turn) builder i n taskOp.message ↔
      Storable s.fs n taskOp.message := by
  have hI : Inv s.fs := inv_of_reachable tfsDefaultParams_sane hfs
  have hparams : s.fs.fsParams = tfsDefaultParams := fsParams_of_reachable tfsDefaultParams_sane hfs
  have hbs : s.fs.fsParams.blockSize = 1024 := by
    rw [hparams]
    rfl
  refine ⟨?_, ?_⟩
  · intro hw
    have hgo : ¬ (freeHandle s.fs = none ∨ ¬ (taskOp.message.bytes = [] ∨
        freeBlock s.fs ≠ none ∨ 0 < (contents s.fs n).length)) := by
      intro hstop
      obtain ⟨halt, hphase⟩ := pubTurn_stopped (i := i) hI hl hd hstop
      exact hw.survives halt hphase
    rw [not_or, not_not] at hgo
    obtain ⟨hhandle, hblock⟩ := hgo
    obtain ⟨h, hfree⟩ := Option.ne_none_iff_exists'.mp hhandle
    obtain ⟨hphase, -⟩ := pubTurn_short (i := i) hI hv hl hd hfree hblock
    refine ⟨hhandle, ?_, hblock⟩
    -- otherwise the loop would have ended
    by_contra hlong
    exact (hw.rejected (Nat.lt_of_not_le hlong)).2 hphase
  · intro hs
    obtain ⟨h, hfree⟩ := Option.ne_none_iff_exists'.mp hs.handle
    obtain ⟨hphase, hput⟩ := pubTurn_short (i := i) hI hv hl hd hfree hs.block
    refine ⟨?_, ?_, ?_⟩
    · intro halt hstop
      rw [hphase] at hstop
      cases hstop
    · intro hroom
      rw [hput.contents, List.take_of_length_le (by omega)]
    · intro hlong
      have hroom := hs.room
      omega

/-- A frame that is decoded to the message `hello`: a code, 32 bytes that go to the name
of a box, and the message. -/
def hello : CString :=
  ⟨1 :: List.replicate 32 120 ++ [104, 101, 108, 108, 111], by decide⟩

def helloTurn : Turn := ⟨hello.bytes ++ [0], fun _ => 0, fun _ => 0⟩

def helloTask : Task := ⟨received (fun _ => 0) hello⟩

theorem helloTurn_decode : helloTurn.decode pubRequestSize = .ok helloTask := by
  have hstring : bufferString (helloTurn.request.write 0 helloTurn.chunk.length
      (Mem.padded helloTurn.chunk)) pubRequestSize = some hello := by
    rw [bufferString_eq_some]
    decide +kernel
  unfold Turn.decode
  rw [if_neg (by decide), hstring]
  dsimp only
  have hfits : WordFits hello := by
    unfold WordFits
    decide
  exact stringToTask_ok_iff.mpr ⟨hfits, ⟨.loginPub, by decide⟩, rfl⟩

theorem helloTask_message : helloTask.message.bytes = [104, 101, 108, 108, 111] := by
  decide +kernel

/-- The box `/b` with 1020 bytes in it. -/
def almostFull : FsState := after boxB [.open (some pathB) tfsOAppend,
  .write 0 (fun _ => 120) 1020, .close 0]

/-- The broker with the session of a publisher of `/b`. -/
def publishingB (fs : FsState) : Server :=
  { started with fs, tasks := fun _ => requestFor .loginPub pathB }

theorem publishingB_fs (fs : FsState) : (publishingB fs).fs = fs := rfl

theorem storedWhole_iff_hello :
    (publishingB boxB).StoredWhole ((publishingB boxB).pubTurn 0 0 helloTurn) 0 0 1
      helloTask.message ↔ Storable boxB 1 helloTask.message :=
  storedWhole_iff (s := publishingB boxB) reachable_boxB (by decide) (by decide) helloTurn_decode

/-- Of a message of 5 bytes a box with 1020 in it takes 4, and the loop goes on. -/
theorem message_cut : ¬ ∀ (s : Server) builder i n turn taskOp,
    Reachable (Fs.Initial tfsDefaultParams) Fs.Steps s.fs →
      validPathname (s.tasks builder).boxName = true →
        lookup s.fs (s.tasks builder).boxName.tail.bytes = some n →
          turn.decode pubRequestSize = .ok taskOp →
            s.StoredWhole (s.pubTurn builder i turn) builder i n taskOp.message := by
  intro h
  have hreach : Reachable (Fs.Initial tfsDefaultParams) Fs.Steps (publishingB almostFull).fs := by
    rw [publishingB_fs]
    exact reachable_after reachable_boxB _
  have hl : lookup (publishingB almostFull).fs
      ((publishingB almostFull).tasks 0).boxName.tail.bytes = some 1 := by decide +kernel
  have hsize : (contents (publishingB almostFull).fs 1).length = 1020 := by
    rw [contents_length]
    decide +kernel
  have hfree : freeHandle (publishingB almostFull).fs = some 0 := by decide +kernel
  have hv : validPathname ((publishingB almostFull).tasks 0).boxName = true := by decide
  have hw := h (publishingB almostFull) 0 0 1 helloTurn helloTask hreach hv hl helloTurn_decode
  obtain ⟨hphase, -⟩ := pubTurn_short (s := publishingB almostFull) (i := 0)
    (inv_of_reachable tfsDefaultParams_sane hreach) hv hl helloTurn_decode hfree
    (.inr (.inr (by omega)))
  refine (hw.rejected ?_).2 hphase
  rw [helloTask_message, hsize]
  decide

end MBroker.Broker
