import MBroker.Fs.Handle
import MBroker.Wire.Codec

/- The delivery loop of `sub_connect_request` on one box, among the calls of the
   publishers on it. Each turn reads what is new in the box into `buffer_box`,
   takes the buffer as a C string and writes it to the subscriber behind the
   header `10|`.

   Nothing ends the string where the bytes read end: what an earlier turn left in
   the buffer, or the stack before the first, is sent along, and the frame has
   room for 1020 bytes of it. `Clean` is the condition on a turn under which it
   sends what it read and nothing else. -/
namespace MBroker.Broker
open MBroker.Lib MBroker.Fs Function
open MBroker.Wire (Task OpCode messageAt messageMaxSize bufferString bufferString_eq_some
  taskToStr bar)

/-- `sizeof(sub_rd_request)`. -/
def subRequestSize : Nat := 1026

/-- The subscriber's session, past its `tfs_open`. -/
structure Delivery where
  fs : FsState
  tfsFd : Int
  /-- `buffer_box`, from address 0 to 1024. -/
  bufferBox : Mem
  /-- The frames written to the subscriber's pipe. -/
  frames : List (List UInt8)
  /-- The box's bytes, from where the subscriber opened it on, at its last read. -/
  arrived : List UInt8
  ended : Bool
  /-- `strcpy` ran past the end of `buffer_box`. -/
  overran : Bool

inductive PublisherCall where
  | «open»
  | read (fhandle : Int)
  | write (fhandle : Int) (taskOp : Task)
  | close (fhandle : Int)

def PublisherCall.op (box : CString) : PublisherCall → Op
  | .open => .open (some box) tfsOAppend
  | .read fhandle => .read fhandle messageMaxSize
  | .write fhandle taskOp =>
    .write fhandle (Mem.padded taskOp.message.bytes) taskOp.message.bytes.length
  | .close fhandle => .close fhandle

/-- The result makes the publisher's worker call `exit`. -/
def PublisherCall.fatal (value : Int) : PublisherCall → Bool
  | .open | .write _ _ => value = -1
  | .read _ => value < 0
  | .close _ => false

/-- The handle a call is made on. -/
def PublisherCall.handle? : PublisherCall → Option Int
  | .open => none
  | .read fhandle | .write fhandle _ | .close fhandle => some fhandle

inductive DeliverStep where
  | publisher (call : PublisherCall)
  /-- A turn of the loop; `task` and `request` are what its locals held. -/
  | turn (task : Task) (request : Mem)

namespace Delivery

/-- The frame written for a message. -/
def frame (task : Task) (request : Mem) (message : CString) : List UInt8 :=
  let taskOp := (task.setOpcode .read).setStr messageAt message
  (request.storeStr 0 (taskToStr taskOp).bytes).read 0 subRequestSize

/-- `start` is the size the box had when the subscriber opened it. -/
def turn (n start : Nat) (s : Delivery) (task : Task) (request : Mem) : Delivery :=
  match tfsRead s.fs s.tfsFd messageMaxSize with
  | .error _ => { s with ended := true }
  | .ok ((bytesRead, bytes), fs) =>
    if bytesRead < 0 then { s with fs, ended := true }
    else
      let buffer := s.bufferBox.write 0 bytes.length (Mem.padded bytes)
      let arrived := (contents fs n).drop start
      match bufferString buffer messageMaxSize with
      | none => { s with fs, bufferBox := buffer, arrived, ended := true, overran := true }
      | some message =>
        { s with
          fs, bufferBox := buffer, arrived, frames := s.frames ++ [frame task request message] }

def next (box : CString) (n start : Nat) (s : Delivery) : DeliverStep → Option Delivery
  | .publisher call =>
    if s.ended = true ∨ call.handle? = some s.tfsFd then none
    else
      match step s.fs (call.op box) with
      | .error _ => some { s with ended := true }
      | .ok (r, fs) => some { s with fs, ended := call.fatal r.value }
  | .turn task request => if s.ended = true then none else some (s.turn n start task request)

def Steps (box : CString) (n start : Nat) (s : Delivery) (a : DeliverStep) (t : Delivery) : Prop :=
  next box n start s a = some t

/-- The subscriber has just opened the box, in any state of the file system that
calls of it lead to. -/
structure Initial (box : CString) (n start : Nat) (s : Delivery) : Prop where
  opened : ∃ fs, Reachable (Fs.Initial tfsDefaultParams) Fs.Steps fs ∧
    lookup fs box.tail.bytes = some n ∧ (fs.inodeTable n).iSize = start ∧
    tfsOpen fs (some box) tfsOAppend = .ok (s.tfsFd, s.fs)
  path : validPathname box = true
  handle : s.tfsFd ≠ -1
  frames : s.frames = []
  arrived : s.arrived = []
  overran : s.overran = false

/-- The message part of a frame: what follows the header in its string. -/
def payload (frame : List UInt8) : List UInt8 :=
  ((frame.takeWhile (· ≠ 0)).dropWhile (· ≠ bar)).tail

/-- The frames carry the bytes that arrived, each once. -/
def Exact (s : Delivery) : Prop :=
  s.overran = false ∧ (s.frames.map payload).flatten = s.arrived

/-- A publisher's write adds to the end of the box. -/
def Appends (n : Nat) (s : Delivery) : DeliverStep → Prop
  | .publisher (.write fhandle taskOp) => 0 ≤ fhandle ∧ Within s.fs fhandle.toNat n ∧
    (taskOp.message.bytes = [] ∨
      (s.fs.openFileTable fhandle.toNat).ofOffset = (s.fs.inodeTable n).iSize)
  | .publisher .open | .publisher (.read _) | .publisher (.close _) | .turn _ _ => True

/-- The turn finds a NUL in its buffer right after the bytes it reads; where these are
1020, as many as a frame has room for, a NUL further on will do. -/
def Clean (n : Nat) (s : Delivery) : DeliverStep → Prop
  | .turn _ _ =>
    let fresh := readable s.fs s.tfsFd.toNat n messageMaxSize
    (fresh ≤ 1020 ∧ s.bufferBox fresh = 0) ∨
      (fresh = 1020 ∧ ∃ i, 1020 < i ∧ i < messageMaxSize ∧ s.bufferBox i = 0)
  | .publisher _ => True

/-! ## A frame -/

/-- The message part of a frame is as much of the message as has room. -/
theorem payload_frame (task : Task) (request : Mem) {message : CString}
    (h : message.bytes.length < messageMaxSize) :
    payload (frame task request message) = message.bytes.take 1020 := by
  have hop : ((task.setOpcode .read).setStr messageAt message).opcode = OpCode.read.code := by
    rw [Task.opcode_setStr (by decide), Task.opcode_setOpcode]
  have hmsg : ((task.setOpcode .read).setStr messageAt message).message = message := by
    apply Task.str_setStr
    have : messageAt + messageMaxSize < Wire.taskSize := by decide
    omega
  have htext : (taskToStr ((task.setOpcode .read).setStr messageAt message)).bytes =
      49 :: 48 :: bar :: message.bytes.take 1020 := by
    have hten : decimal OpCode.read.code.toNat = [49, 48] := by decide
    simp only [taskToStr, Wire.printed, hop, hmsg, hten]
    simp [snprintf, messageMaxSize]
  have hstring : (frame task request message).takeWhile (· ≠ 0) =
      49 :: 48 :: bar :: message.bytes.take 1020 := by
    rw [← htext]
    refine Mem.cstr_storeStr (CString.noNul _) ?_
    rw [htext]
    have hle := List.length_take_le 1020 message.bytes
    simp only [List.length_cons, subRequestSize]
    omega
  rw [payload, hstring]
  rfl

/-- What a turn sends of the bytes read into the buffer: those bytes, exactly when a
NUL follows where `Clean` asks for one. -/
theorem sends_exactly_iff {buffer : Mem} {bytes : List UInt8} (h0 : 0 ∉ bytes)
    (hlen : bytes.length ≤ messageMaxSize) :
    (∃ message, bufferString (buffer.write 0 bytes.length (Mem.padded bytes)) messageMaxSize =
        some message ∧ message.bytes.take 1020 = bytes) ↔
    (bytes.length ≤ 1020 ∧ buffer bytes.length = 0) ∨
      (bytes.length = 1020 ∧ ∃ i, 1020 < i ∧ i < messageMaxSize ∧ buffer i = 0) := by
  have hmax : messageMaxSize = 1024 := rfl
  have hstr := Mem.cstr_write_padded (m := buffer) (a := 0) h0 hlen
  rw [Nat.zero_add] at hstr
  -- what stood in the buffer after the bytes
  obtain ⟨k, hk⟩ : ∃ k, messageMaxSize - bytes.length = k := ⟨_, rfl⟩
  have hlength : (bytes ++ buffer.cstr bytes.length k).length < messageMaxSize ↔
      (buffer.cstr bytes.length k).length < k := by
    rw [List.length_append]
    omega
  simp only [bufferString_eq_some, hstr, hk]
  refine ⟨?_, ?_⟩
  · intro h
    obtain ⟨message, ⟨hbytes, hroom⟩, htake⟩ := h
    rw [hbytes, hlength, Mem.cstr_length_lt_iff] at hroom
    obtain ⟨i, hi, hi0⟩ := hroom
    have hshort : bytes.length ≤ 1020 := by
      rw [← htake]
      exact List.length_take_le _ _
    rw [hbytes, List.take_append, List.take_of_length_le hshort, List.append_right_eq_self] at htake
    rcases Nat.lt_or_ge bytes.length 1020 with hlt | hge
    · refine .inl ⟨hshort, ?_⟩
      obtain ⟨k, rfl⟩ : ∃ k', k = k' + 1 := ⟨k - 1, by omega⟩
      -- a frame with room left shows whatever follows the bytes
      obtain ⟨j, hj⟩ : ∃ j, 1020 - bytes.length = j + 1 := ⟨1020 - bytes.length - 1, by omega⟩
      rw [hj, Mem.cstr_succ] at htake
      by_contra hne
      rw [if_neg hne] at htake
      cases htake
    · rcases Nat.eq_zero_or_pos i with rfl | hpos
      · exact .inl ⟨hshort, hi0⟩
      · exact .inr ⟨by omega, bytes.length + i, by omega, by omega, hi0⟩
  · intro h
    -- in both cases strcpy stops in the buffer
    have hnul : ∃ i, i < k ∧ buffer (bytes.length + i) = 0 := by
      rcases h with ⟨hshort, hz⟩ | ⟨hfull, i, hlo, hhi, hz⟩
      · exact ⟨0, by omega, hz⟩
      · exact ⟨i - bytes.length, by omega, by rwa [Nat.add_sub_cancel' (by omega)]⟩
    have hroom := Mem.cstr_length_lt_iff.mpr hnul
    refine ⟨⟨bytes ++ buffer.cstr bytes.length k, ?_⟩, ⟨rfl, hlength.mpr hroom⟩, ?_⟩
    · simp [h0, Mem.zero_not_mem_cstr]
    show (bytes ++ buffer.cstr bytes.length k).take 1020 = bytes
    rcases h with ⟨hshort, hz⟩ | ⟨hfull, -⟩
    · obtain ⟨k, rfl⟩ : ∃ k', k = k' + 1 := ⟨k - 1, by omega⟩
      rw [Mem.cstr_succ, if_pos hz, List.append_nil, List.take_of_length_le hshort]
    · rw [← hfull]
      exact List.take_left' rfl

/-! ## The subscriber's handle -/

/-- The subscriber's handle `h` on the box: what arrived is what was added to the box
and lies before the handle, and nothing added has a NUL in it. -/
structure Attached (n start h : Nat) (arrived : List UInt8) (fs : FsState) : Prop where
  inv : Inv fs
  blockSize : fs.fsParams.blockSize = 1024
  pos : 0 < n
  taken : TakenInode fs n
  within : Within fs h n
  start_le : start ≤ (fs.openFileTable h).ofOffset
  arrived : arrived = ((contents fs n).drop start).take ((fs.openFileTable h).ofOffset - start)
  nulFree : 0 ∉ (contents fs n).drop start

variable {box : CString} {n start h g : Nat} {arrived : List UInt8} {fs fs' : FsState}

/-- A call that leaves the box and the handle as they are. -/
theorem Attached.frame (hA : Attached n start h arrived fs) (hI : Inv fs')
    (hp : fs'.fsParams = fs.fsParams) (hn : fs'.freeinodeTs = fs.freeinodeTs)
    (hc : contents fs' n = contents fs n) (hW : Within fs' h n)
    (hf : fs'.openFileTable h = fs.openFileTable h) : Attached n start h arrived fs' := by
  refine ⟨hI, by rw [hp]; exact hA.blockSize, hA.pos, ?_, hW, ?_, ?_, ?_⟩
  · unfold TakenInode
    rw [hp, hn]
    exact hA.taken
  · rw [hf]
    exact hA.start_le
  · rw [hf, hc]
    exact hA.arrived
  · rw [hc]
    exact hA.nulFree

theorem Attached.step_open (hA : Attached n start h arrived fs) {r : Ret}
    (hst : step fs (.open (some box) tfsOAppend) = .ok (r, fs')) :
    Attached n start h arrived fs' := by
  have hI := hA.inv
  have hI' := hI.step ⟨r, hst⟩
  cases step_effect hI hst with
  | openInvalid | openMissing => exact hA
  | openNoInode _ _ hc | openNoEntry _ _ hc | openCreated _ _ hc => cases hc
  | @openFound p mode i m hv hb =>
    have hcut : fs.cut tfsOAppend m = fs := cut_eq_self _ _ rfl
    rw [hcut] at hI' ⊢
    cases hg : freeHandle fs with
    | none =>
      rw [addToOpenFileTable_of_none hg]
      exact hA
    | some g =>
      rw [addToOpenFileTable_of_some hg] at hI' ⊢
      -- the publisher gets another handle
      obtain ⟨hne, hW⟩ := hA.within.openHandle m (fs.openOffset tfsOAppend m) hg
      exact hA.frame hI' rfl rfl rfl hW (by simp [hne])

theorem Attached.step_read (hA : Attached n start h arrived fs) {fhandle : Int} {len : Nat}
    (hne : fhandle ≠ h) {r : Ret} (hst : step fs (.read fhandle len) = .ok (r, fs')) :
    Attached n start h arrived fs' := by
  have hI := hA.inv
  have hI' := hI.step ⟨r, hst⟩
  cases step_effect hI hst with
  | readBad | readNone => exact hA
  | @readSome g len k b ht hk hk0 hb hbc ha =>
    have hgh : h ≠ g := by
      intro heq
      exact hne (by rw [heq])
    exact hA.frame hI' rfl rfl rfl (hA.within.advance hgh k) (by simp [hgh])

theorem Attached.step_close (hA : Attached n start h arrived fs) {fhandle : Int}
    (hne : fhandle ≠ h) {r : Ret} (hst : step fs (.close fhandle) = .ok (r, fs')) :
    Attached n start h arrived fs' := by
  have hI := hA.inv
  have hI' := hI.step ⟨r, hst⟩
  cases step_effect hI hst with
  | closeBad => exact hA
  | @closeDone g ht =>
    have hgh : h ≠ g := by
      intro heq
      exact hne (by rw [heq])
    exact hA.frame hI' rfl rfl rfl (hA.within.closeHandle hgh) rfl

/-- Bytes added to the end of the box have not arrived yet. -/
theorem Attached.append (hA : Attached n start h arrived fs) (hg : Within fs g n) (hgh : h ≠ g)
    {data : List UInt8} (hw : Wrote fs fs' g n data) (h0 : 0 ∉ data)
    (hend : data = [] ∨ (fs.openFileTable g).ofOffset = (fs.inodeTable n).iSize) :
    Attached n start h arrived fs' := by
  have hcontents : contents fs' n = contents fs n ++ data := by
    rw [hw.contents]
    rcases hend with hnil | hoff
    · rw [hnil, overwrite_nil, List.append_nil]
    · rw [hoff, ← contents_length, overwrite_end]
  have hoffset : fs'.openFileTable h = fs.openFileTable h := by
    rw [hw.moved, update_of_ne hgh]
  have hle := hA.within.offset
  have hstart := hA.start_le
  rw [← contents_length] at hle
  -- what is new comes behind what the subscriber opened at
  have hdrop : (contents fs' n).drop start = (contents fs n).drop start ++ data := by
    rw [hcontents, List.drop_append_of_le_length (by omega)]
  obtain ⟨name, hname⟩ := hA.inv.exists_name hA.pos hA.taken
  refine ⟨hw.inv, by rw [hw.params]; exact hA.blockSize, hA.pos, ?_, ?_, ?_, ?_, ?_⟩
  · exact (hw.inv.lookup_taken ((hw.lookup _).trans hname)).2
  · exact hA.within.wrote_ne hg hgh hw
  · rw [hoffset]
    exact hstart
  · rw [hoffset, hdrop, List.take_append_of_le_length (by rw [List.length_drop]; omega)]
    exact hA.arrived
  · rw [hdrop, List.mem_append]
    intro hmem
    exact hmem.elim hA.nulFree h0

theorem Attached.step_write (hA : Attached n start h arrived fs) (hg : Within fs g n) (hgh : h ≠ g)
    {taskOp : Task} (hend : taskOp.message.bytes = [] ∨
      (fs.openFileTable g).ofOffset = (fs.inodeTable n).iSize) {r : Ret}
    (hst : step fs (PublisherCall.op box (.write g taskOp)) = .ok (r, fs')) :
    Attached n start h arrived fs' := by
  have hlen : taskOp.message.bytes.length < 2 ^ 63 :=
    Nat.lt_of_le_of_lt (Task.str_length_le _ _) (by decide)
  simp only [PublisherCall.op, step, silent] at hst
  rcases tfsWrite_within hA.inv hg hA.pos hA.taken (Mem.padded taskOp.message.bytes)
      hlen rfl with
    ⟨-, -, -, hwrite⟩ | ⟨fs₁, hwrite, hwrote⟩
  · rw [hwrite] at hst
    cases hst
    exact hA
  · rw [hwrite] at hst
    cases hst
    rw [Mem.read_padded _ _ (Nat.min_le_left _ _)] at hwrote
    refine hA.append hg hgh hwrote (fun hmem => taskOp.message.noNul (List.mem_of_mem_take hmem)) ?_
    rcases hend with hnil | hoff
    · exact .inl (by rw [hnil, List.take_nil])
    · exact .inr hoff

/-! ## A turn of the loop -/

/-- The session while it lasts, its handle being `h`. -/
structure Serving (n start h : Nat) (s : Delivery) : Prop
    extends Attached n start h s.arrived s.fs where
  handle : s.tfsFd = h

variable {s t : Delivery}

/-- A turn reads all that is new in the box. -/
theorem Serving.read (hS : Serving n start h s) :
    tfsRead s.fs s.tfsFd messageMaxSize = .ok
      (((readable s.fs h n messageMaxSize : Int),
        (contents s.fs n).drop (s.fs.openFileTable h).ofOffset),
        s.fs.advance h (readable s.fs h n messageMaxSize)) := by
  have hsize := hS.inv.blocks.size n hS.taken
  rw [hS.handle, tfsRead_within hS.inv hS.within hsize, List.take_of_length_le]
  rw [List.length_drop, contents_length]
  have hb := hS.blockSize
  simp only [messageMaxSize]
  omega

theorem Serving.length_fresh (hS : Serving n start h s) :
    ((contents s.fs n).drop (s.fs.openFileTable h).ofOffset).length =
      readable s.fs h n messageMaxSize := by
  have hsize := hS.inv.blocks.size n hS.taken
  have hb := hS.blockSize
  rw [List.length_drop, contents_length]
  simp only [readable, messageMaxSize]
  omega

/-- What arrived before a turn and what it reads is what was added to the box. -/
theorem Serving.arrived_append (hS : Serving n start h s) :
    (contents s.fs n).drop start =
      s.arrived ++ (contents s.fs n).drop (s.fs.openFileTable h).ofOffset := by
  have hstart := hS.start_le
  calc (contents s.fs n).drop start
      = ((contents s.fs n).drop start).take ((s.fs.openFileTable h).ofOffset - start) ++
          ((contents s.fs n).drop start).drop ((s.fs.openFileTable h).ofOffset - start) :=
        (List.take_append_drop _ _).symm
    _ = s.arrived ++ (contents s.fs n).drop (s.fs.openFileTable h).ofOffset := by
        rw [← hS.arrived, List.drop_drop, Nat.add_sub_cancel' hstart]

theorem Serving.advanced (hS : Serving n start h s) :
    Attached n start h ((contents s.fs n).drop start)
      (s.fs.advance h (readable s.fs h n messageMaxSize)) := by
  have hsize := hS.inv.blocks.size n hS.taken
  have hkeeps := Keeps.advance hS.inv hS.within hsize messageMaxSize
  have hstart := hS.start_le
  have hfresh := hS.length_fresh
  have hoffset : ((s.fs.advance h (readable s.fs h n messageMaxSize)).openFileTable h).ofOffset =
      (s.fs.openFileTable h).ofOffset + readable s.fs h n messageMaxSize := by simp
  refine ⟨hkeeps.inv, hS.blockSize, hS.pos, hS.taken, hS.within.advanced _, ?_, ?_, hS.nulFree⟩
  · rw [hoffset]
    omega
  · rw [hoffset]
    symm
    apply List.take_of_length_le
    rw [List.length_drop] at hfresh ⊢
    show (contents s.fs n).length - start ≤ _
    omega

theorem turn_cases {task : Task} {request : Mem}
    (hst : Steps box n start s (.turn task request) t) :
    t = s.turn n start task request := by
  unfold Steps next at hst
  dsimp only at hst
  split at hst
  · cases hst
  · exact (Option.some.inj hst).symm

/-- After a turn everything added to the box has arrived. -/
theorem Serving.turn (hS : Serving n start h s) (task : Task) (request : Mem) :
    Serving n start h (s.turn n start task request) := by
  unfold Delivery.turn
  rw [hS.read]
  dsimp only
  rw [if_neg (by omega)]
  split
  · exact ⟨hS.advanced, hS.handle⟩
  · exact ⟨hS.advanced, hS.handle⟩

/-- It went out as it arrived exactly when the turn was clean. -/
theorem turn_exact_iff (hS : Serving n start h s) (hE : Exact s) (task : Task) (request : Mem) :
    Exact (s.turn n start task request) ↔ Clean n s (.turn task request) := by
  obtain ⟨hover, hframes⟩ := hE
  have hlength := hS.length_fresh
  have hle : readable s.fs h n messageMaxSize ≤ messageMaxSize := Nat.min_le_left _ _
  have h0 : 0 ∉ (contents s.fs n).drop (s.fs.openFileTable h).ofOffset := by
    intro hmem
    apply hS.nulFree
    rw [hS.arrived_append]
    exact List.mem_append_right _ hmem
  obtain ⟨fresh, hf⟩ : ∃ fresh, (contents s.fs n).drop (s.fs.openFileTable h).ofOffset = fresh :=
    ⟨_, rfl⟩
  -- the bytes read are NUL-free, and `Clean` is about what follows them
  have hclean : Clean n s (.turn task request) ↔
      ∃ message, bufferString (s.bufferBox.write 0 fresh.length (Mem.padded fresh))
        messageMaxSize = some message ∧ message.bytes.take 1020 = fresh := by
    rw [sends_exactly_iff (by rwa [← hf]) (by rw [← hf, hlength]; exact hle), ← hf, hlength]
    simp only [Clean, hS.handle, Int.toNat_natCast]
  rw [hclean]
  unfold Delivery.turn
  rw [hS.read]
  dsimp only
  rw [if_neg (by omega), hf]
  cases hb : bufferString (s.bufferBox.write 0 fresh.length (Mem.padded fresh)) messageMaxSize with
  | none => simp [Exact]
  | some message =>
    obtain ⟨-, hlen⟩ := bufferString_eq_some.mp hb
    have hadded : (contents (s.fs.advance h (readable s.fs h n messageMaxSize)) n).drop start =
        s.arrived ++ fresh := by rw [← hf]; exact hS.arrived_append
    simp only [Exact, hover, true_and, List.map_append, List.flatten_append, hframes, hadded,
      List.map_singleton, List.flatten_singleton, List.append_cancel_left_eq,
      payload_frame task request hlen, Option.some.injEq]
    refine ⟨?_, ?_⟩
    · intro h
      exact ⟨message, rfl, h⟩
    · intro h
      obtain ⟨m, rfl, h⟩ := h
      exact h

/-! ## Runs -/

theorem Initial.serving (h0 : Initial box n start s) : ∃ h, Serving n start h s := by
  obtain ⟨fs, hreach, hl, rfl, hopen⟩ := h0.opened
  have hI : Inv fs := inv_of_reachable tfsDefaultParams_sane hreach
  have hparams : fs.fsParams = tfsDefaultParams :=
    fsParams_of_reachable tfsDefaultParams_sane hreach
  obtain ⟨hpos, htaken⟩ := hI.lookup_taken hl
  rw [tfsOpen_append hI h0.path hl] at hopen
  cases hg : freeHandle fs with
  | none =>
    -- no handle: the open would have returned -1
    rw [addToOpenFileTable_of_none hg] at hopen
    exact absurd (congrArg Prod.fst (Except.ok.inj hopen)).symm h0.handle
  | some h =>
    rw [addToOpenFileTable_of_some hg] at hopen
    have hfd : (h : Int) = s.tfsFd := congrArg Prod.fst (Except.ok.inj hopen)
    have hfs : fs.openHandle h n (fs.inodeTable n).iSize = s.fs :=
      congrArg Prod.snd (Except.ok.inj hopen)
    have hkeeps := Keeps.openHandle (h := h) hI hl (Nat.le_refl _)
    have hW : Within (fs.openHandle h n (fs.inodeTable n).iSize) h n :=
      .opened hg (Nat.le_refl _)
    have hdrop : (contents s.fs n).drop (fs.inodeTable n).iSize = [] := by
      rw [← hfs]
      exact List.drop_eq_nil_of_le (Nat.le_of_eq (contents_length fs n))
    refine ⟨h, ⟨by rw [← hfs]; exact hkeeps.inv, ?_, hpos, ?_, by rw [← hfs]; exact hW, ?_, ?_, ?_⟩,
      hfd.symm⟩
    · rw [← hfs]
      show fs.fsParams.blockSize = 1024
      rw [hparams]
      rfl
    · rw [← hfs]
      exact htaken
    · rw [← hfs]
      simp
    · rw [h0.arrived, hdrop, List.take_nil]
    · rw [hdrop]
      exact List.not_mem_nil

/-- Nothing has been sent, and nothing has arrived. -/
theorem Initial.exact (h0 : Initial box n start s) : Exact s := by
  refine ⟨h0.overran, ?_⟩
  rw [h0.frames, h0.arrived]
  rfl

/-- A publisher's call leaves the session as it was, but for what is new in the box. -/
theorem Serving.publisher (hS : Serving n start h s) {call : PublisherCall}
    (happ : Appends n s (.publisher call)) (hst : Steps box n start s (.publisher call) t) :
    Serving n start h t ∧ t.frames = s.frames ∧ t.arrived = s.arrived ∧
      t.overran = s.overran := by
  simp only [Steps, next] at hst
  split at hst
  · cases hst
  next hguard =>
  rw [not_or] at hguard
  split at hst
  · cases hst
    exact ⟨⟨hS.toAttached, hS.handle⟩, rfl, rfl, rfl⟩
  next r fs hcall =>
  cases hst
  refine ⟨⟨?_, hS.handle⟩, rfl, rfl, rfl⟩
  show Attached n start h s.arrived fs
  have hother : ∀ fhandle : Int, call.handle? = some fhandle → fhandle ≠ h := by
    intro fhandle hfh heq
    apply hguard.2
    rw [hfh, heq, hS.handle]
  cases call with
  | «open» => exact hS.toAttached.step_open hcall
  | read fhandle => exact hS.toAttached.step_read (hother fhandle rfl) hcall
  | close fhandle => exact hS.toAttached.step_close (hother fhandle rfl) hcall
  | write fhandle taskOp =>
    obtain ⟨h0, hg, hend⟩ := happ
    obtain ⟨g, rfl⟩ := Int.eq_ofNat_of_zero_le h0
    rw [Int.toNat_natCast] at hg hend
    have hgh : h ≠ g := by
      intro heq
      exact hother g rfl (by rw [heq])
    exact hS.toAttached.step_write hg hgh hend hcall

theorem Serving.step (hS : Serving n start h s) {a : DeliverStep} (happ : Appends n s a)
    (hst : Steps box n start s a t) : Serving n start h t := by
  cases a with
  | publisher call => exact (hS.publisher happ hst).1
  | turn task request =>
    rw [turn_cases hst]
    exact hS.turn task request

theorem step_exact_iff (hS : Serving n start h s) (hE : Exact s) {a : DeliverStep}
    (happ : Appends n s a) (hst : Steps box n start s a t) : Exact t ↔ Clean n s a := by
  cases a with
  | publisher call =>
    obtain ⟨-, hframes, harrived, hover⟩ := hS.publisher happ hst
    simp only [Exact, hframes, harrived, hover, Clean, iff_true]
    exact hE
  | turn task request =>
    rw [turn_cases hst]
    exact turn_exact_iff hS hE task request

/-- Where the publishers' writes add to the end of the box and every turn is clean, the
subscriber gets exactly what arrives; and where they add to the end, only then. -/
theorem delivered_exactly {ρ : List (DeliverStep × Delivery)} (h0 : Initial box n start s)
    (hr : Run (Steps box n start) s ρ) :
    (EveryStep (fun s a => Appends n s a ∧ Clean n s a) s ρ → EveryState Exact s ρ) ∧
      (EveryStep (Appends n) s ρ → EveryState Exact s ρ → EveryStep (Clean n) s ρ) := by
  obtain ⟨h, hS⟩ := h0.serving
  have hiff : EveryStep (Appends n) s ρ → (EveryState Exact s ρ ↔ EveryStep (Clean n) s ρ) := by
    intro happ
    apply Run.everyState_iff _ _ hS h0.exact (hr.restrict happ)
    · intro s' a u hI hst
      exact hI.step hst.2 hst.1
    · intro s' a u hI hE hst
      exact step_exact_iff hI hE hst.2 hst.1
  refine ⟨?_, ?_⟩
  · intro hc
    exact (hiff (hc.mono fun _ _ h => h.1)).mpr (hc.mono fun _ _ h => h.2)
  · intro happ
    exact (hiff happ).mp

instance (n : Nat) (s : Delivery) : (a : DeliverStep) → Decidable (Appends n s a)
  | .publisher (.write fhandle _) =>
    inferInstanceAs (Decidable (0 ≤ fhandle ∧ Within s.fs fhandle.toNat n ∧ (_ ∨ _)))
  | .publisher .open | .publisher (.read _) | .publisher (.close _) | .turn _ _ =>
    inferInstanceAs (Decidable True)

/-- A subscriber that has just opened the empty box `/b`, its buffer zeroed. -/
def deliveryB : Delivery where
  fs := boxB.openHandle 0 1 0
  tfsFd := 0
  bufferBox := fun _ => 0
  frames := []
  arrived := []
  ended := false
  overran := false

/-- One message of one character, and a turn too many. -/
def repeated : List (DeliverStep × Delivery) :=
  along (next pathB 1 0) deliveryB [.publisher .open,
    .publisher (.write 1 .letterA),
    .turn ⟨fun _ => 0⟩ (fun _ => 0), .turn ⟨fun _ => 0⟩ (fun _ => 0)]

theorem deliveryB_initial : Initial pathB 1 0 deliveryB where
  opened := by
    have hfree : freeHandle boxB = some 0 := by decide +kernel
    have hl : lookup boxB pathB.tail.bytes = some 1 := by decide +kernel
    have hsize : (boxB.inodeTable 1).iSize = 0 := by decide +kernel
    refine ⟨boxB, reachable_boxB, hl, hsize, ?_⟩
    rw [tfsOpen_append (inv_of_reachable tfsDefaultParams_sane reachable_boxB) (by decide) hl,
      addToOpenFileTable_of_some hfree, hsize]
    rfl
  path := by decide
  handle := by decide
  frames := rfl
  arrived := rfl
  overran := rfl

theorem delivered_exactly_repeated :
    (EveryStep (fun s a => Appends 1 s a ∧ Clean 1 s a) deliveryB repeated →
        EveryState Exact deliveryB repeated) ∧
      (EveryStep (Appends 1) deliveryB repeated → EveryState Exact deliveryB repeated →
        EveryStep (Clean 1) deliveryB repeated) :=
  delivered_exactly deliveryB_initial (run_along _ _ _)

/-- The second turn, with nothing new in the box, sends the message again. -/
theorem message_repeated : ¬ ∀ (box : CString) n start s ρ, Initial box n start s →
    Run (Steps box n start) s ρ → EveryStep (Appends n) s ρ → EveryState Exact s ρ := by
  intro h
  have happ : EveryStep (Appends 1) deliveryB repeated := by decide +kernel
  have hexact := (h _ _ _ _ _ deliveryB_initial (run_along _ _ _) happ).last
  revert hexact
  unfold Exact
  decide +kernel

end Delivery

end MBroker.Broker
