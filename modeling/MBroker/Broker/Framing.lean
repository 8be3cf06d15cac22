import Mathlib.Algebra.GroupWithZero.Nat
import MBroker.Broker.Deliver

/- A subscriber's pipe, from the frames the broker writes to the messages the subscriber
   counts. A frame is as long as `sub_rd_request`, 1026 bytes, and is written whole. The
   receive loop of src/subscriber/sub.c asks for `sizeof(message)`, 1025, into `sub_res`,
   which is as long as a frame, and decodes what `sub_res` then holds. So no read gets a
   frame, and the first leaves a byte of its own in the pipe.

   `frames` and `reads` are the record of a run: what was written, in order, and of each
   read that got anything, in order, where in the stream it began and what it got. -/
namespace MBroker.Broker
open MBroker.Lib
open MBroker.Fs (CString)
open MBroker.Wire (Task OpCode Halt messageAt bufferString stringToTask received_not_decoded
  not_hasCase taskToStr printed_head)

/-- `sizeof(message)`. -/
def messageSize : Nat := 1025

/-- The subscriber in its receive loop, and its pipe. -/
structure Receiver where
  /-- What was written and not read. -/
  pipe : List UInt8
  /-- `sub_res`, from address 0 on. -/
  subRes : Mem
  numMessages : Nat
  /-- How the process ended. -/
  halt : Option Halt
  frames : List (List UInt8)
  reads : List (Nat × List UInt8)

inductive ReceiveStep where
  /-- The broker writes a frame. -/
  | write (frame : List UInt8)
  /-- A turn of the loop that gets something; `stack` is what the decoder's local held. -/
  | read (stack : Mem)

namespace Receiver

/-- How much of the stream the reads took. -/
def consumed (s : Receiver) : Nat := (s.reads.map fun r => r.2.length).sum

def turn (s : Receiver) (stack : Mem) : Receiver :=
  let bytes := s.pipe.take messageSize
  let subRes := s.subRes.write 0 bytes.length (Mem.padded bytes)
  let s :=
    { s with pipe := s.pipe.drop messageSize, subRes, reads := s.reads ++ [(s.consumed, bytes)] }
  match bufferString subRes subRequestSize with
  | none => { s with halt := some (.fault .undefined) }
  | some building =>
    match stringToTask stack building with
    | .error halt => { s with halt := some halt }
    | .ok _ => { s with numMessages := s.numMessages + 1 }

def next (s : Receiver) : ReceiveStep → Option Receiver
  | .write frame =>
    if frame.length = subRequestSize then
      some { s with pipe := s.pipe ++ frame, frames := s.frames ++ [frame] }
    else none
  | .read stack => if s.halt.isSome ∨ s.pipe = [] then none else some (s.turn stack)

def Steps (s : Receiver) (a : ReceiveStep) (t : Receiver) : Prop := s.next a = some t

/-- Nothing has been written, and the loop has not begun. -/
structure Initial (s : Receiver) : Prop where
  pipe : s.pipe = []
  numMessages : s.numMessages = 0
  halt : s.halt = none
  frames : s.frames = []
  reads : s.reads = []

/-- The reads are the frames, one after the other, each decoded from its first byte, and
every one is counted. -/
structure Framed (s : Receiver) : Prop where
  obtained : s.reads.map Prod.snd = s.frames.take s.reads.length
  starts : ∀ k r, s.reads[k]? = some r → r.1 = k * subRequestSize
  counted : s.numMessages = s.reads.length

/-- Every read begins at the first byte of a frame. -/
def Aligned (s : Receiver) : Prop := ∀ r ∈ s.reads, r.1 % subRequestSize = 0

/-- The step is a read that gets something. -/
def Obtains : ReceiveStep → Prop
  | .read _ => True
  | .write _ => False

/-- The first read takes all of a frame but its last byte, and the second begins there. -/
structure Paced (s : Receiver) : Prop where
  frames : ∀ frame ∈ s.frames, frame.length = subRequestSize
  unread : s.reads = [] → s.pipe = s.frames.flatten
  first : ∀ r, s.reads[0]? = some r → r.1 = 0 ∧ r.2.length = messageSize
  second : ∀ r, s.reads[1]? = some r → r.1 = messageSize

variable {s t : Receiver} {a : ReceiveStep}

/-! ## Steps -/

theorem write_cases {frame : List UInt8} (h : s.Steps (.write frame) t) :
    frame.length = subRequestSize ∧
      t = { s with pipe := s.pipe ++ frame, frames := s.frames ++ [frame] } := by
  simp only [Steps, next] at h
  split at h
  · next hlen =>
    cases h
    exact ⟨hlen, rfl⟩
  · cases h

theorem read_cases {stack : Mem} (h : s.Steps (.read stack) t) :
    s.halt = none ∧ s.pipe ≠ [] ∧ t = s.turn stack := by
  simp only [Steps, next] at h
  split at h
  · cases h
  · next hgo =>
    cases h
    rw [not_or, Option.not_isSome_iff_eq_none] at hgo
    exact ⟨hgo.1, hgo.2, rfl⟩

/-- Whatever comes of the bytes, the turn has taken them from the pipe. -/
theorem turn_spec (s : Receiver) (stack : Mem) :
    (s.turn stack).pipe = s.pipe.drop messageSize ∧ (s.turn stack).frames = s.frames ∧
      (s.turn stack).reads = s.reads ++ [(s.consumed, s.pipe.take messageSize)] := by
  unfold turn
  dsimp only
  split
  · exact ⟨rfl, rfl, rfl⟩
  · split <;> exact ⟨rfl, rfl, rfl⟩

/-- With no read yet, what is in the pipe is a frame at least. -/
theorem Paced.length_first (hP : s.Paced) (hnone : s.reads = []) (hpipe : s.pipe ≠ []) :
    (s.pipe.take messageSize).length = messageSize := by
  have hunread := hP.unread hnone
  cases hframes : s.frames with
  | nil =>
    rw [hframes, List.flatten_nil] at hunread
    exact absurd hunread hpipe
  | cons frame frames =>
    have hlen := hP.frames frame (by rw [hframes]; exact List.mem_cons_self)
    have hsize : messageSize ≤ subRequestSize := by decide
    rw [hunread, hframes, List.flatten_cons, List.length_take, List.length_append]
    omega

theorem Paced.write (hP : s.Paced) {frame : List UInt8} (hlen : frame.length = subRequestSize) :
    Paced { s with pipe := s.pipe ++ frame, frames := s.frames ++ [frame] } := by
  refine ⟨fun f hf => ?_, fun hnone => ?_, hP.first, hP.second⟩
  · rcases List.mem_append.mp hf with hold | hnew
    · exact hP.frames f hold
    · rw [List.mem_singleton.mp hnew]
      exact hlen
  · show s.pipe ++ frame = (s.frames ++ [frame]).flatten
    rw [hP.unread hnone, List.flatten_append, List.flatten_singleton]

theorem Paced.turn (hP : s.Paced) (hpipe : s.pipe ≠ []) (stack : Mem) : (s.turn stack).Paced := by
  obtain ⟨-, hframes, hreads⟩ := s.turn_spec stack
  refine ⟨?_, ?_, ?_, ?_⟩
  · rw [hframes]
    exact hP.frames
  · rw [hreads]
    intro hnone
    exact absurd hnone (by simp)
  · intro r hr
    rw [hreads] at hr
    cases hold : s.reads with
    | nil =>
      rw [hold, List.nil_append, List.getElem?_cons_zero, Option.some.injEq] at hr
      rw [← hr]
      refine ⟨?_, hP.length_first hold hpipe⟩
      simp [consumed, hold]
    | cons r' rs =>
      rw [hold, List.cons_append, List.getElem?_cons_zero, Option.some.injEq] at hr
      rw [← hr]
      exact hP.first r' (by rw [hold]; rfl)
  · intro r hr
    rw [hreads] at hr
    match hold : s.reads with
    | [] =>
      rw [hold] at hr
      cases hr
    | [r'] =>
      -- the second read begins where the first has ended
      rw [hold] at hr
      have hsecond : (s.consumed, s.pipe.take messageSize) = r := Option.some.inj hr
      rw [← hsecond]
      obtain ⟨-, hfirst⟩ := hP.first r' (by rw [hold]; rfl)
      simp [consumed, hold, hfirst]
    | r' :: r'' :: rs =>
      rw [hold] at hr
      have hsecond : r'' = r := Option.some.inj hr
      rw [← hsecond]
      exact hP.second r'' (by rw [hold]; rfl)

theorem Paced.step (hP : s.Paced) (h : s.Steps a t) : t.Paced := by
  cases a with
  | write frame =>
    obtain ⟨hlen, rfl⟩ := write_cases h
    exact hP.write hlen
  | read stack =>
    obtain ⟨-, hpipe, rfl⟩ := read_cases h
    exact hP.turn hpipe stack

/-- A read gets less than a frame. -/
theorem Paced.not_framed_turn (hP : s.Paced) (stack : Mem) : ¬ (s.turn stack).Framed := by
  obtain ⟨-, hframes, hreads⟩ := s.turn_spec stack
  intro hF
  have hobtained := congrArg (fun l => l[s.reads.length]?) hF.obtained
  rw [hframes, hreads] at hobtained
  simp only [List.map_append, List.map_singleton, List.length_append, List.length_singleton,
    List.getElem?_take, Nat.lt_succ_self, if_true] at hobtained
  rw [List.getElem?_append_right (by simp), List.length_map, Nat.sub_self,
    List.getElem?_cons_zero] at hobtained
  have hmem := List.mem_of_getElem? hobtained.symm
  have hlen := hP.frames _ hmem
  rw [List.length_take] at hlen
  have hmessage : messageSize = 1025 := rfl
  have hframe : subRequestSize = 1026 := rfl
  omega

theorem Paced.framed_step_iff (hP : s.Paced) (hF : s.Framed) (h : s.Steps a t) :
    t.Framed ↔ ¬ Obtains a := by
  cases a with
  | write frame =>
    obtain ⟨hlen, rfl⟩ := write_cases h
    refine iff_of_true ⟨?_, hF.starts, hF.counted⟩ (fun h => h)
    have hle : s.reads.length ≤ s.frames.length := by
      have hcount := congrArg List.length hF.obtained
      rw [List.length_map, List.length_take] at hcount
      omega
    show s.reads.map Prod.snd = (s.frames ++ [frame]).take s.reads.length
    rw [List.take_append_of_le_length hle]
    exact hF.obtained
  | read stack =>
    obtain ⟨-, hpipe, rfl⟩ := read_cases h
    exact iff_of_false (hP.not_framed_turn stack) (fun hno => hno trivial)

/-- The second read is the first out of step. -/
theorem Paced.aligned_iff (hP : s.Paced) : s.Aligned ↔ s.reads.length ≤ 1 := by
  refine ⟨?_, ?_⟩
  · intro hA
    by_contra hlong
    have hlt : 1 < s.reads.length := by omega
    have hzero := hA _ (List.getElem_mem hlt)
    rw [hP.second _ (List.getElem?_eq_getElem hlt)] at hzero
    cases hzero
  · intro hshort r hr
    obtain ⟨k, hk, hget⟩ := List.mem_iff_getElem.mp hr
    obtain rfl : k = 0 := by omega
    obtain ⟨hstart, -⟩ := hP.first r (by rw [List.getElem?_eq_getElem hk, hget])
    rw [hstart, Nat.zero_mod]

theorem Aligned.of_step (h : s.Steps a t) (hA : t.Aligned) : s.Aligned := by
  cases a with
  | write frame =>
    obtain ⟨-, rfl⟩ := write_cases h
    exact hA
  | read stack =>
    obtain ⟨-, -, rfl⟩ := read_cases h
    obtain ⟨-, -, hreads⟩ := s.turn_spec stack
    intro r hr
    exact hA r (by rw [hreads]; exact List.mem_append_left _ hr)

/-! ## Runs -/

theorem Initial.paced (h : s.Initial) : s.Paced := by
  refine ⟨fun f hf => ?_, fun _ => ?_, fun r hr => ?_, fun r hr => ?_⟩
  · rw [h.frames] at hf
    cases hf
  · rw [h.pipe, h.frames]
    rfl
  · rw [h.reads] at hr
    cases hr
  · rw [h.reads] at hr
    cases hr

theorem Initial.framed (h : s.Initial) : s.Framed := by
  refine ⟨?_, fun k r hr => ?_, ?_⟩
  · rw [h.reads]
    rfl
  · rw [h.reads] at hr
    cases hr
  · rw [h.reads, h.numMessages]
    rfl

/-- Along a run the reads are the frames, and are counted, exactly when none gets anything;
and they all begin with a frame exactly when there is at most one. -/
theorem reads_framed_iff {ρ : List (ReceiveStep × Receiver)} (h0 : s.Initial)
    (hr : Run Steps s ρ) :
    (EveryState Framed s ρ ↔ EveryStep (fun _ a => ¬ Obtains a) s ρ) ∧
      (EveryState Aligned s ρ ↔ (lastState s ρ).reads.length ≤ 1) := by
  have hpaced : EveryState Paced s ρ :=
    Run.invariant (fun s a t hP hst => hP.step hst) h0.paced hr
  refine ⟨?_, ?_⟩
  · apply Run.everyState_iff (I := Paced) _ _ h0.paced h0.framed hr
    · intro s a t hP hst
      exact hP.step hst
    · intro s a t hP hF hst
      exact hP.framed_step_iff hF hst
  · rw [← hpaced.last.aligned_iff]
    refine ⟨EveryState.last, ?_⟩
    apply Run.everyState_of_last (I := Paced) _ _ h0.paced hr
    · intro s a t hP hst
      exact hP.step hst
    · intro s a t _ hst hA
      exact hA.of_step hst

/-! ## The broker's frames -/

/-- What is written is a frame of the delivery loop. -/
def Delivered : ReceiveStep → Prop
  | .write frame => ∃ task request message, frame = Delivery.frame task request message
  | .read _ => True

/-- A frame begins with the code of a message in decimal. -/
theorem frame_head (task : Task) (request : Mem) (message : CString) :
    (Delivery.frame task request message).head? = some 49 := by
  have hop : ((task.setOpcode .read).setStr messageAt message).opcode = OpCode.read.code := by
    rw [Task.opcode_setStr (by decide), Task.opcode_setOpcode]
  have htext : (taskToStr ((task.setOpcode .read).setStr messageAt message)).bytes.head? =
      some 49 := by
    have hten : decimal OpCode.read.code.toNat = [49, 48] := by decide
    simp only [taskToStr, hop, hten]
    exact printed_head rfl
  unfold Delivery.frame subRequestSize
  rw [Mem.read, List.head?_cons, Mem.storeStr_head htext]

/-- No code is a digit, so the subscriber exits on the frame and does not count it. -/
theorem turn_frame {task : Task} {request : Mem} {message : CString} {rest : List UInt8}
    (hpipe : s.pipe = Delivery.frame task request message ++ rest) (stack : Mem) :
    (s.turn stack).halt ≠ none ∧ (s.turn stack).numMessages = s.numMessages := by
  have hfirst : (s.pipe.take messageSize).head? = some 49 := by
    obtain ⟨bytes, hframe⟩ := List.head?_eq_some_iff.mp (frame_head task request message)
    rw [hpipe, hframe]
    rfl
  unfold turn
  dsimp only
  cases hstring : bufferString (s.subRes.write 0 (s.pipe.take messageSize).length
      (Mem.padded (s.pipe.take messageSize))) subRequestSize with
  | none => exact ⟨Option.some_ne_none _, rfl⟩
  | some building =>
    dsimp only
    cases hdecode : stringToTask stack building with
    | error halt => exact ⟨Option.some_ne_none _, rfl⟩
    | ok t =>
      refine absurd hdecode (received_not_decoded ?_ hfirst ?_ ?_ (not_hasCase ?_) hstring)
      all_goals decide

/-- Nothing is read of the frames yet, or the first has made the subscriber exit. -/
structure Uncounted (s : Receiver) : Prop where
  frames : ∀ frame ∈ s.frames, ∃ task request message, frame = Delivery.frame task request message
  numMessages : s.numMessages = 0
  reads : s.reads = [] ∧ s.pipe = s.frames.flatten ∨ s.reads.length = 1 ∧ s.halt ≠ none

theorem Uncounted.step (hU : s.Uncounted) (hd : Delivered a) (h : s.Steps a t) : t.Uncounted := by
  cases a with
  | write frame =>
    obtain ⟨-, rfl⟩ := write_cases h
    refine ⟨fun f hf => ?_, hU.numMessages, ?_⟩
    · rcases List.mem_append.mp hf with hold | hnew
      · exact hU.frames f hold
      · rw [List.mem_singleton.mp hnew]
        exact hd
    · refine hU.reads.imp_left fun hnone => ⟨hnone.1, ?_⟩
      show s.pipe ++ frame = (s.frames ++ [frame]).flatten
      rw [hnone.2, List.flatten_append, List.flatten_singleton]
  | read stack =>
    obtain ⟨halive, hpipe, rfl⟩ := read_cases h
    obtain ⟨-, hframes, hreads⟩ := s.turn_spec stack
    rcases hU.reads with ⟨hnone, hflat⟩ | ⟨-, hhalt⟩
    · cases hall : s.frames with
      | nil =>
        rw [hall] at hflat
        exact absurd hflat hpipe
      | cons frame frames =>
        have hmem : frame ∈ s.frames := by
          rw [hall]
          exact List.mem_cons_self
        obtain ⟨task, request, message, rfl⟩ := hU.frames frame hmem
        rw [hall, List.flatten_cons] at hflat
        obtain ⟨hhalt, hcount⟩ := turn_frame hflat stack
        refine ⟨?_, hcount.trans hU.numMessages, .inr ⟨?_, hhalt⟩⟩
        · rw [hframes]
          exact hU.frames
        · rw [hreads, hnone]
          rfl
    · exact absurd halive hhalt

/-- Of the frames the broker delivers the subscriber reads one at most, and counts none. -/
theorem delivered_not_counted {ρ : List (ReceiveStep × Receiver)} (h0 : s.Initial)
    (hr : Run Steps s ρ) (hd : EveryStep (fun _ a => Delivered a) s ρ) :
    EveryState (fun s => s.numMessages = 0 ∧ s.reads.length ≤ 1) s ρ := by
  have hstart : s.Uncounted := by
    refine ⟨fun f hf => ?_, h0.numMessages, .inl ⟨h0.reads, ?_⟩⟩
    · rw [h0.frames] at hf
      cases hf
    · rw [h0.pipe, h0.frames]
      rfl
  have hall : EveryState Uncounted s ρ :=
    Run.everyState (fun s a t hU hd hst => hU.step hd hst) hstart hr hd
  refine hall.mono fun s hU => ⟨hU.numMessages, ?_⟩
  rcases hU.reads with ⟨hnone, -⟩ | ⟨hone, -⟩
  · rw [hnone]
    exact Nat.zero_le 1
  · rw [hone]

/-- The subscriber at the start of its loop. -/
def opened : Receiver := ⟨[], fun _ => 0, 0, none, [], []⟩

theorem opened_initial : opened.Initial := ⟨rfl, rfl, rfl, rfl, rfl⟩

/-- The frame with the message `a`. -/
def frameA : List UInt8 := Delivery.frame .letterA (fun _ => 0) Task.letterA.message

theorem length_frameA : frameA.length = subRequestSize := Mem.read_length _ _ _

def queued : Receiver := { opened with pipe := frameA, frames := [frameA] }

theorem queued_paced : queued.Paced := opened_initial.paced.write length_frameA

/-- It is delivered and read. -/
def delivery : List (ReceiveStep × Receiver) :=
  [(.write frameA, queued), (.read fun _ => 0, queued.turn fun _ => 0)]

theorem run_delivery : Run Steps opened delivery := by
  refine ⟨?_, ?_, trivial⟩
  · simp only [Steps, next]
    rw [if_pos length_frameA]
    rfl
  · have hpipe : queued.pipe ≠ [] := by
      apply List.ne_nil_of_length_pos
      show 0 < frameA.length
      rw [length_frameA]
      decide
    have hgo : ¬ (queued.halt.isSome ∨ queued.pipe = []) := not_or.mpr ⟨Bool.false_ne_true, hpipe⟩
    simp only [Steps, next]
    rw [if_neg hgo]

theorem delivered_not_counted_delivery :
    EveryState (fun s => s.numMessages = 0 ∧ s.reads.length ≤ 1) opened delivery :=
  delivered_not_counted opened_initial run_delivery ⟨⟨.letterA, _, _, rfl⟩, trivial, trivial⟩

theorem reads_framed_iff_delivery :
    (EveryState Framed opened delivery ↔ EveryStep (fun _ a => ¬ Obtains a) opened delivery) ∧
      (EveryState Aligned opened delivery ↔ (lastState opened delivery).reads.length ≤ 1) :=
  reads_framed_iff opened_initial run_delivery

/-- The read gets all of the frame but its last byte. -/
theorem read_cuts_frame : ¬ ∀ (s : Receiver) ρ, s.Initial → Run Steps s ρ →
    EveryState Framed s ρ := by
  intro h
  have hall := h opened delivery opened_initial run_delivery
  exact queued_paced.not_framed_turn (fun _ => 0) hall.2.2.head

end Receiver

end MBroker.Broker
