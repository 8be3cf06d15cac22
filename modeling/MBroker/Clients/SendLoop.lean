import MBroker.Lib.Overlay
import MBroker.Lib.Transition
import MBroker.Wire.Codec

/- The loop of publisher/pub.c that sends its standard input, message by message.

   A chunk is what one `read` delivers; after the last of them every read finds the
   end of file. The buffer is cleared once, before the loop, so a chunk is read over
   what the chunks before it left there. No signal comes, and every write to the pipe
   succeeds; the locals of `send_msg_server` start out as what the stack held.

   The inner loop is left only where a read finds the end of file and the buffer holds
   a single newline, and then the outer loop begins it again. -/
namespace MBroker.Clients
open MBroker.Lib MBroker.Wire
open MBroker.Fs (CString)

/-- `"\n"`. -/
def newline : List UInt8 := [10]

/-- `sizeof(pub_wr_request)`. -/
def pubWrRequestSize : Nat := 1026

/-- What the stack holds where `send_msg_server` has its locals. -/
structure SendLocals where
  taskOp : Mem
  pubWrRequest : Mem

/-- The bytes `send_msg_server` writes to the pipe. -/
def sendMsgServer (stack : SendLocals) (pipePath message : CString) : List UInt8 :=
  let taskOp := ((⟨stack.taskOp⟩ : Task).setOpcode .write).setStr pipePathAt pipePath
  (stack.pubWrRequest.storeStr 0 (Publisher.wrTaskToString taskOp message).bytes).read 0
    pubWrRequestSize

/-- Where the loop is. -/
inductive LoopPlace where
  /-- At the guard of the outer loop. -/
  | outer
  /-- At the guard of the inner one. -/
  | inner
  /-- After the loop. -/
  | ended
  /-- A string function has run past the buffer. -/
  | stopped
  deriving DecidableEq

structure Sender where
  /-- The chunks that are still to be read. -/
  stdin : List (List UInt8)
  buffer1 : Mem
  sessionActive : Bool
  place : LoopPlace
  /-- The calls of `send_msg_server`, each with its message and what it wrote. -/
  sent : List (CString × List UInt8)

namespace Sender

/-- Before the loop, with the buffer cleared. -/
def start (chunks : List (List UInt8)) : Sender := ⟨chunks, fun _ => 0, true, .outer, []⟩

/-- `read(STDIN_FILENO, buffer1, sizeof(buffer1))`. -/
def read (s : Sender) : Nat × Sender :=
  match s.stdin with
  | [] => (0, s)
  | chunk :: stdin =>
    (chunk.length,
      { s with stdin, buffer1 := s.buffer1.write 0 chunk.length (Mem.padded chunk) })

/-- The guard of the inner loop, and its body where that holds. -/
def turn (pipeName : CString) (stack : SendLocals) (s : Sender) : Sender :=
  let (bytesRead, s) := s.read
  match bufferString s.buffer1 messageMaxSize with
  | none => { s with place := .stopped }
  | some message =>
    if 0 < bytesRead ∨ ¬ s.buffer1.strEq 0 newline then
      { s with sent := s.sent ++ [(message, sendMsgServer stack pipeName message)] }
    else { s with place := .outer }

def next (pipeName : CString) (s : Sender) (stack : SendLocals) : Option Sender :=
  match s.place with
  | .outer => some { s with place := if s.sessionActive then .inner else .ended }
  | .inner => some (s.turn pipeName stack)
  | .ended | .stopped => none

def Steps (pipeName : CString) (s : Sender) (stack : SendLocals) (t : Sender) : Prop :=
  next pipeName s stack = some t

/-- What the loop comes to with these chunks. -/
def Reached (pipeName : CString) (chunks : List (List UInt8)) (s : Sender) : Prop :=
  Reachable (· = start chunks) (Steps pipeName) s

/-- Not empty, without a NUL, and with room for one in the buffer. -/
def Deliverable (chunks : List (List UInt8)) : Prop :=
  ∀ chunk ∈ chunks, chunk ≠ [] ∧ 0 ∉ chunk ∧ chunk.length < messageMaxSize

/-- At every point the messages sent are the chunks read, in order. -/
def SendsChunks (pipeName : CString) (chunks : List (List UInt8)) : Prop :=
  ∀ s, Reached pipeName chunks s → (s.sent.map fun x => x.1.bytes) ++ s.stdin = chunks

/-- The messages sent are the chunks, and the loop ends. -/
structure SendsOnce (pipeName : CString) (chunks : List (List UInt8)) : Prop where
  messages : SendsChunks pipeName chunks
  ends : ∃ s, Reached pipeName chunks s ∧ s.place = .ended

/-- The buffer has a text in it, and NULs after it. -/
structure Holds (m : Mem) (text : List UInt8) : Prop where
  bytes : ∀ i, i < messageMaxSize → m i = Mem.padded text i
  noNul : 0 ∉ text
  fits : text.length < messageMaxSize

/-- What a call of `send_msg_server` wrote is a whole frame, with the message first. -/
def Framed (x : CString × List UInt8) : Prop :=
  x.2.length = pubWrRequestSize ∧ x.2.take (x.1.bytes.length + 1) = x.1.bytes ++ [0]

/-- One more message has been sent, the text that the buffer now holds. -/
structure Sends (s t : Sender) (text : List UInt8) : Prop where
  sent : ∃ x : CString × List UInt8, x.1.bytes = text ∧ Framed x ∧ t.sent = s.sent ++ [x]
  holds : Holds t.buffer1 text
  place : t.place = s.place
  active : t.sessionActive = s.sessionActive

variable {pipeName : CString} {stack : SendLocals} {s t : Sender} {m : Mem}
  {text chunk : List UInt8} {rest chunks : List (List UInt8)}

/-! ## The buffer -/

theorem Holds.cstr (h : Holds m text) : m.cstr 0 messageMaxSize = text :=
  Mem.cstr_padded h.noNul h.fits fun i hi => by rw [Nat.zero_add, h.bytes i hi]

theorem Holds.string (h : Holds m text) :
    bufferString m messageMaxSize = some ⟨text, h.noNul⟩ :=
  bufferString_eq_some.mpr ⟨h.cstr.symm, h.fits⟩

theorem Holds.newline_iff (h : Holds m text) : m.strEq 0 newline = true ↔ text = newline := by
  rw [Mem.strEq_iff (n := messageMaxSize) (by decide) (by decide), h.cstr]

theorem Holds.overlay (h : Holds m text) (hnul : 0 ∉ chunk)
    (hlen : chunk.length < messageMaxSize) :
    Holds (m.write 0 chunk.length (Mem.padded chunk)) (overlay text chunk) := by
  refine ⟨Mem.write_overlay h.bytes, ?_, ?_⟩
  · intro h0
    rcases mem_overlay h0 with hnew | hold
    · exact hnul hnew
    · exact h.noNul hold
  · rw [length_overlay]
    exact max_lt hlen h.fits

theorem sendMsgServer_framed {message : CString} (hlen : message.bytes.length < messageMaxSize) :
    Framed (message, sendMsgServer stack pipeName message) := by
  have hsize : messageMaxSize ≤ pubWrRequestSize := by decide
  refine ⟨Mem.read_length _ _ _, ?_⟩
  have htake := Mem.read_drop_take (stack.pubWrRequest.storeStr 0 message.bytes) 0
    pubWrRequestSize 0 (message.bytes.length + 1)
  rw [List.drop_zero, Nat.min_eq_left (by omega), Mem.read_storeStr] at htake
  exact htake

/-! ## A turn -/

theorem turn_chunk (pipeName : CString) (stack : SendLocals) (hB : Holds s.buffer1 text)
    (hstdin : s.stdin = chunk :: rest) (hne : chunk ≠ []) (hnul : 0 ∉ chunk)
    (hlen : chunk.length < messageMaxSize) :
    Sends s (s.turn pipeName stack) (overlay text chunk) ∧
      (s.turn pipeName stack).stdin = rest := by
  have hpos := List.length_pos_of_ne_nil hne
  have hover := hB.overlay hnul hlen
  unfold turn read
  rw [hstdin]
  dsimp only
  rw [hover.string]
  dsimp only
  rw [if_pos (.inl hpos)]
  exact ⟨⟨⟨_, rfl, sendMsgServer_framed hover.fits, rfl⟩, hover, rfl, rfl⟩, rfl⟩

/-- At the end of the file the buffer is sent once more, unless it is a newline. -/
theorem turn_end (pipeName : CString) (stack : SendLocals) (hB : Holds s.buffer1 text)
    (hstdin : s.stdin = []) (hne : text ≠ newline) :
    Sends s (s.turn pipeName stack) text ∧ (s.turn pipeName stack).stdin = [] := by
  unfold turn read
  rw [hstdin]
  dsimp only
  rw [hB.string]
  dsimp only
  rw [if_pos (.inr fun heq => hne (hB.newline_iff.mp heq))]
  exact ⟨⟨⟨_, rfl, sendMsgServer_framed hB.fits, rfl⟩, hB, rfl, rfl⟩, hstdin⟩

theorem turn_newline (hB : Holds s.buffer1 text) (hstdin : s.stdin = []) (heq : text = newline) :
    s.turn pipeName stack = { s with place := .outer } := by
  unfold turn read
  rw [hstdin]
  dsimp only
  rw [hB.string]
  dsimp only
  rw [if_neg (not_or.mpr ⟨Nat.lt_irrefl 0, not_not.mpr (hB.newline_iff.mpr heq)⟩), hstdin]

/-! ## Runs -/

/-- The chunks taken from the input have been sent as they stood in the buffer, and since
the end of the file what it holds `k` times more. -/
structure Following (chunks : List (List UInt8)) (s : Sender) : Prop where
  progress : ∃ taken k, chunks = taken ++ s.stdin ∧ Holds s.buffer1 (taken.foldl overlay []) ∧
    s.sent.map (fun x => x.1.bytes) =
      texts [] taken ++ List.replicate k (taken.foldl overlay []) ∧
    (k ≠ 0 → s.stdin = [] ∧ taken.foldl overlay [] ≠ newline)
  frames : ∀ x ∈ s.sent, Framed x
  active : s.sessionActive = true
  place : s.place = .outer ∨ s.place = .inner

theorem Following.start (chunks : List (List UInt8)) : Following chunks (start chunks) := by
  refine ⟨⟨[], 0, rfl, ⟨fun i _ => ?_, ?_, ?_⟩, rfl, ?_⟩, ?_, rfl, .inl rfl⟩
  · rfl
  · exact List.not_mem_nil
  · decide
  · exact fun h => absurd rfl h
  · exact fun x hx => absurd hx List.not_mem_nil

theorem Sends.frames (h : Sends s t text) (hs : ∀ x ∈ s.sent, Framed x) :
    ∀ x ∈ t.sent, Framed x := by
  obtain ⟨x, -, hframed, hsent⟩ := h.sent
  rw [hsent]
  intro y hy
  rcases List.mem_append.mp hy with hold | hnew
  · exact hs y hold
  · rw [List.mem_singleton.mp hnew]
    exact hframed

theorem Sends.texts (h : Sends s t text) :
    t.sent.map (fun x => x.1.bytes) = s.sent.map (fun x => x.1.bytes) ++ [text] := by
  obtain ⟨x, hx, -, hsent⟩ := h.sent
  rw [hsent, List.map_append, List.map_singleton, hx]

theorem Following.turn (hd : Deliverable chunks) (hF : Following chunks s)
    (hin : s.place = .inner) : Following chunks (s.turn pipeName stack) := by
  obtain ⟨taken, k, hchunks, hB, hsent, hk⟩ := hF.progress
  cases hstdin : s.stdin with
  | cons chunk rest =>
    -- another chunk, and so nothing was sent twice
    have hk0 : k = 0 := by
      by_contra hne
      rw [(hk hne).1] at hstdin
      cases hstdin
    have hmem : chunk ∈ chunks := by
      rw [hchunks, hstdin]
      exact List.mem_append_right _ List.mem_cons_self
    obtain ⟨hne, hnul, hlen⟩ := hd chunk hmem
    obtain ⟨hsends, hrest⟩ := turn_chunk pipeName stack hB hstdin hne hnul hlen
    have hfold : (taken ++ [chunk]).foldl overlay [] = overlay (taken.foldl overlay []) chunk := by
      rw [List.foldl_append, List.foldl_cons, List.foldl_nil]
    refine ⟨⟨taken ++ [chunk], 0, ?_, ?_, ?_, fun h => absurd rfl h⟩, hsends.frames hF.frames,
      hsends.active.trans hF.active, .inr (hsends.place.trans hin)⟩
    · rw [hrest, hchunks, hstdin, List.append_assoc, List.singleton_append]
    · rw [hfold]
      exact hsends.holds
    · rw [hsends.texts, hsent, hk0, texts_append]
      simp [Lib.texts]
  | nil =>
    by_cases heq : taken.foldl overlay [] = newline
    · rw [turn_newline hB hstdin heq]
      exact ⟨⟨taken, k, hchunks, hB, hsent, hk⟩, hF.frames, hF.active, .inl rfl⟩
    · obtain ⟨hsends, hnil⟩ := turn_end pipeName stack hB hstdin heq
      refine ⟨⟨taken, k + 1, ?_, hsends.holds, ?_, fun _ => ⟨hnil, heq⟩⟩, hsends.frames hF.frames,
        hsends.active.trans hF.active, .inr (hsends.place.trans hin)⟩
      · rw [hnil, hchunks, hstdin]
      · rw [hsends.texts, hsent, List.append_assoc, List.replicate_succ']

theorem Following.step (hd : Deliverable chunks) (hF : Following chunks s)
    (h : Steps pipeName s stack t) : Following chunks t := by
  unfold Steps next at h
  rcases hF.place with hplace | hplace
  · rw [hplace] at h
    cases h
    rw [hF.active]
    exact ⟨hF.progress, hF.frames, rfl, .inr rfl⟩
  · rw [hplace] at h
    cases h
    exact hF.turn hd hplace

theorem Reached.following (hd : Deliverable chunks) (h : Reached pipeName chunks s) :
    Following chunks s := by
  apply Reachable.invariant _ _ h
  · rintro s rfl
    exact .start chunks
  · intro s stack t hF hst
    exact hF.step hd hst

/-- The loop is never left. -/
theorem Reached.not_ended (hd : Deliverable chunks) (h : Reached pipeName chunks s) :
    s.place ≠ .ended := by
  intro hended
  rcases (h.following hd).place with hplace | hplace <;> rw [hplace] at hended <;> cases hended

/-- Every frame written is whole and carries its message. -/
theorem Reached.frames (hd : Deliverable chunks) (h : Reached pipeName chunks s) :
    ∀ x ∈ s.sent, Framed x := (h.following hd).frames

/-- Any part of the chunks is read in time. -/
theorem exists_reached (hd : Deliverable chunks) (pipeName : CString) (stack : SendLocals)
    {taken : List (List UInt8)} (h : chunks = taken ++ rest) :
    ∃ s, Reached pipeName chunks s ∧ s.place = .inner ∧ s.stdin = rest := by
  induction taken using List.reverseRecOn generalizing rest with
  | nil =>
    rw [List.nil_append] at h
    subst h
    exact ⟨{ Sender.start chunks with place := .inner }, .step (a := stack) (.start rfl) rfl, rfl,
      rfl⟩
  | append_singleton taken chunk ih =>
    have hsplit : chunks = taken ++ chunk :: rest := by
      rw [h, List.append_assoc]
      rfl
    obtain ⟨s, hs, hplace, hstdin⟩ := ih hsplit
    have hmem : chunk ∈ chunks := by
      rw [h]
      simp
    obtain ⟨hne, hnul, hlen⟩ := hd chunk hmem
    obtain ⟨read, k, -, hB, -⟩ := (hs.following hd).progress
    obtain ⟨hsends, hrest⟩ := turn_chunk pipeName stack hB hstdin hne hnul hlen
    refine ⟨s.turn pipeName stack, .step (a := stack) hs ?_, hsends.place.trans hplace, hrest⟩
    unfold Steps next
    rw [hplace]

/-- Where the messages are the chunks, the texts in the buffer were, and it is a newline
in the end. -/
theorem SendsChunks.texts (hd : Deliverable chunks) (h : SendsChunks pipeName chunks) :
    texts [] chunks = chunks ∧ chunks.foldl overlay [] = newline := by
  have stack : SendLocals := ⟨fun _ => 0, fun _ => 0⟩
  obtain ⟨s, hs, hplace, hstdin⟩ := exists_reached hd pipeName stack (List.append_nil chunks).symm
  obtain ⟨taken, k, hchunks, hB, hsent, -⟩ := (hs.following hd).progress
  have hall := h s hs
  rw [hstdin, List.append_nil] at hchunks hall
  subst hchunks
  refine ⟨?_, ?_⟩
  · have hlength := congrArg List.length (hsent.symm.trans hall)
    rw [List.length_append, length_texts, List.length_replicate] at hlength
    obtain rfl : k = 0 := by omega
    rw [List.replicate_zero, List.append_nil] at hsent
    exact hsent.symm.trans hall
  · by_contra hne
    -- one turn more sends a message more
    obtain ⟨hsends, hnil⟩ := turn_end pipeName stack hB hstdin hne
    have hnext : Reached pipeName chunks (s.turn pipeName stack) := by
      refine .step hs (a := stack) ?_
      unfold Steps next
      rw [hplace]
    have hmore := congrArg List.length (h _ hnext)
    rw [hsends.texts, hall, hnil, List.append_nil, List.length_append,
      List.length_singleton] at hmore
    omega

theorem sendsChunks_iff (hd : Deliverable chunks) : SendsChunks pipeName chunks ↔
    (∀ chunk ∈ chunks, chunk.length = 1) ∧ chunks.getLast? = some newline := by
  rw [newline, ← texts_single_iff fun chunk hmem => (hd chunk hmem).1]
  refine ⟨SendsChunks.texts hd, ?_⟩
  intro h s hs
  obtain ⟨htexts, hnewline⟩ := h
  obtain ⟨taken, k, hchunks, -, hsent, hk⟩ := (hs.following hd).progress
  -- with all chunks read, what the buffer holds is the newline
  have hk0 : k = 0 := by
    by_contra hne
    obtain ⟨hnil, hno⟩ := hk hne
    rw [hnil, List.append_nil] at hchunks
    subst hchunks
    exact hno hnewline
  rw [hchunks] at htexts
  rw [hsent, hk0, texts_of_append htexts, List.replicate_zero, List.append_nil, hchunks]

/-- The loop never ends; and the messages are the chunks only where each is a single
byte and the last of them a newline. -/
theorem sendsOnce_never (pipeName : CString) (hd : Deliverable chunks) :
    ¬ SendsOnce pipeName chunks ∧ (SendsChunks pipeName chunks ↔
      (∀ chunk ∈ chunks, chunk.length = 1) ∧ chunks.getLast? = some newline) := by
  refine ⟨?_, sendsChunks_iff hd⟩
  intro h
  obtain ⟨s, hs, hended⟩ := h.ends
  exact hs.not_ended hd hended

/-- The chunk `hi`, and then the chunk `a`. -/
def hiThenA : List (List UInt8) := [[104, 105], [97]]

theorem hiThenA_deliverable : Deliverable hiThenA := by
  unfold Deliverable
  decide

theorem sendsOnce_never_hiThenA :
    ¬ SendsOnce loginTask.pipePath hiThenA ∧ (SendsChunks loginTask.pipePath hiThenA ↔
      (∀ chunk ∈ hiThenA, chunk.length = 1) ∧ hiThenA.getLast? = some newline) :=
  sendsOnce_never loginTask.pipePath hiThenA_deliverable

/-- The second message is `ai`, and is sent for ever. -/
theorem chunk_keeps_leftovers : ¬ ∀ pipeName chunks, Deliverable chunks →
    SendsOnce pipeName chunks := by
  intro h
  have hsends := (h loginTask.pipePath hiThenA hiThenA_deliverable).messages
  have hone := ((sendsChunks_iff hiThenA_deliverable).mp hsends).1 [104, 105] (by decide)
  cases hone

end Sender

end MBroker.Clients
