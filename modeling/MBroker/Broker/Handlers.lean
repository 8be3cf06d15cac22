import MBroker.Broker.Server

/- The handlers of src/mbroker/mbroker.c, each as what it does up to its end or to
   the loop of its session, and one turn of either session.

   A handler is given the address of its task. Its locals start out as what the
   stack held, `stack` in each. An index into `boxes` that lies outside of it reads
   and writes what is there; so the store to `boxes[-1]` of a first creation, undefined
   in the source, is harmless here. Opening, writing and closing a client's pipe
   succeeds, and so does the answer of a publisher's handler on a pipe it opened to read. -/
namespace MBroker.Broker
open MBroker.Lib MBroker.Fs MBroker.Wire Function

/-- Where a handler is. -/
inductive Phase where
  /-- At its end. -/
  | idle
  /-- In the message loop of `pub_connect_request`, at box `i`. -/
  | publishing (builder : Addr) (i : Nat)
  /-- In the delivery loop of `sub_connect_request`. -/
  | subscribing (builder : Addr) (tfsFd : Int) (bufferBox : Mem)
  | stopped (halt : Halt)

/-- A response written to a client's pipe. -/
structure Reply where
  pipePath : CString
  value : Int
  /-- The text with the value in it; none where the value goes out as an `int`. -/
  text : Option CString

structure Outcome where
  server : Server
  phase : Phase
  /-- The indices used on `boxes`. -/
  indices : List Int
  replies : List Reply

namespace Outcome

/-- After these indices and replies. -/
def after (o : Outcome) (indices : List Int) (replies : List Reply) : Outcome :=
  { o with indices := indices ++ o.indices, replies := replies ++ o.replies }

end Outcome

namespace Server

/-- An `int` written to the client of the task at `builder`. -/
def answer (s : Server) (builder : Addr) (value : Int) : Reply :=
  ⟨(s.tasks builder).pipePath, value, none⟩

/-- The task a refusal is printed from. -/
def refusal (stack : Mem) (error : CString) : Task :=
  (((⟨stack⟩ : Task).setOpcode .createBoxResponse).setReturnValue (-1)).setStr errorAt error

def refuse (s : Server) (builder : Addr) (stack : Mem) (error : CString) : Reply :=
  ⟨(s.tasks builder).pipePath, (refusal stack error).returnValue,
    some (taskErrorBoxToStr (refusal stack error))⟩

/-! ## Publishers -/

/-- The loop over the boxes, for `n` of them from box `i` on, and what follows it. -/
def pubLoop (s : Server) (builder : Addr) : Nat → Nat → Outcome
  | 0, _ => ⟨s, .idle, [], [s.answer builder (-1)]⟩
  | n + 1, i =>
    if (s.tasks builder).boxName = s.boxName i then
      if (s.boxes i).numPublishers = 1 then
        (s.pubLoop builder n (i + 1)).after [i] [s.answer builder (-1)]
      else ⟨s, .publishing builder i, [i], []⟩
    else (s.pubLoop builder n (i + 1)).after [i] []

def pubConnectRequest (s : Server) (builder : Addr) : Outcome := s.pubLoop builder s.size 0

/-- `sizeof(pub_wr_request)`. -/
def pubRequestSize : Nat := 1026

/-- A call of TecnicoFS, and `exit` where it returns -1. -/
def orExit (call : Except Fault (Int × FsState)) : Except Halt (Int × FsState) :=
  match call with
  | .error f => .error (.fault f)
  | .ok (r, fs) => if r = -1 then .error exitFailure else .ok (r, fs)

/-- A message put into the box: whether the loop goes on. -/
def putMessage (fs : FsState) (box message : CString) : Except Halt (Bool × FsState) := do
  let (boxFhandle, fs) ← orExit (tfsOpen fs (some box) tfsOAppend)
  let ((bytesRead, _), fs) ← (tfsRead fs boxFhandle messageMaxSize).mapError Halt.fault
  if bytesRead < 0 then throw exitFailure
  if 1024 < bytesRead + message.bytes.length then return (false, fs)
  let (_, fs) ← orExit (tfsWrite fs boxFhandle (Mem.padded message.bytes) message.bytes.length)
  let (_, fs) ← (tfsClose fs boxFhandle).mapError Halt.fault
  return (true, fs)

/-- A turn of the message loop of the session at box `i`. -/
def pubTurn (s : Server) (builder : Addr) (i : Nat) (turn : Turn) : Outcome :=
  match turn.decode pubRequestSize with
  | .error halt => ⟨s, .stopped halt, [], []⟩
  | .ok taskOp =>
    match putMessage s.fs (s.tasks builder).boxName taskOp.message with
    | .error halt => ⟨s, .stopped halt, [], []⟩
    | .ok (true, fs) => ⟨{ s with fs }, .publishing builder i, [], []⟩
    | .ok (false, fs) => { s with fs }.pubLoop builder (s.size - (i + 1)) (i + 1)

/-! ## Subscribers -/

/-- The box found: up to the delivery loop. -/
def subscribe (s : Server) (builder : Addr) (stack : Mem) (i : Nat) : Outcome :=
  let box := s.boxes i
  let path := (s.tasks builder).pipePath
  if 1024 ≤ box.numSubscribers.toNat + path.bytes.length then
    ⟨s, .stopped (.fault .undefined), [i], []⟩
  else
    let box :=
      { box with
        subsArrayPipePath := box.subsArrayPipePath.storeStr box.numSubscribers.toNat path.bytes
        numSubscribers := box.numSubscribers + 1 }
    let s := { s with boxes := update s.boxes i box }
    match orExit (tfsOpen s.fs (some (s.tasks builder).boxName) tfsOAppend) with
    | .error halt => ⟨s, .stopped halt, [i], []⟩
    | .ok (tfsFd, fs) => ⟨{ s with fs }, .subscribing builder tfsFd stack, [i], []⟩

def subLoop (s : Server) (builder : Addr) (stack : Mem) : Nat → Nat → Outcome
  | 0, _ => ⟨s, .idle, [], []⟩
  | n + 1, i =>
    if (s.tasks builder).boxName = s.boxName i then s.subscribe builder stack i
    else (s.subLoop builder stack n (i + 1)).after [i] [s.answer builder 1]

def subConnectRequest (s : Server) (builder : Addr) (stack : Mem) : Outcome :=
  s.subLoop builder stack s.size 0

/-- A turn of the delivery loop, up to the frame. -/
def subTurn (s : Server) (builder : Addr) (tfsFd : Int) (bufferBox : Mem) : Outcome :=
  match tfsRead s.fs tfsFd messageMaxSize with
  | .error f => ⟨s, .stopped (.fault f), [], []⟩
  | .ok ((bytesRead, bytes), fs) =>
    let s := { s with fs }
    if bytesRead < 0 then ⟨s, .stopped exitFailure, [], []⟩
    else
      let bufferBox := bufferBox.write 0 bytes.length (Mem.padded bytes)
      match bufferString bufferBox messageMaxSize with
      | none => ⟨s, .stopped (.fault .undefined), [], []⟩
      | some _ => ⟨s, .subscribing builder tfsFd bufferBox, [], []⟩

/-! ## Boxes -/

/-- `"THE BOX ALREADY EXISTS"`. -/
def alreadyExists : CString :=
  ⟨[84, 72, 69, 32, 66, 79, 88, 32, 65, 76, 82, 69, 65, 68, 89, 32, 69, 88, 73, 83, 84, 83],
    by decide⟩

/-- `"THERE AREN'T ANY BOXES"`. -/
def noBoxes : CString :=
  ⟨[84, 72, 69, 82, 69, 32, 65, 82, 69, 78, 39, 84, 32, 65, 78, 89, 32, 66, 79, 88, 69, 83],
    by decide⟩

def newBox (builder : Addr) : MailBox where
  boxName := builder
  last := 1
  boxSize := 1024
  numPublishers := 0
  numSubscribers := 0
  subsArrayPipePath := Mem.padded [48]

/-- The indices a loop over the first `n` boxes uses. -/
def upTo (n : Nat) : List Int := (List.range n).map Int.ofNat

/-- `boxes[current_boxes-1].last = 0`, which of an empty table is a store before the array,
and the box put at the end. -/
def addBox (s : Server) (builder : Addr) : Server :=
  let n := s.currentBoxes
  let boxes := update s.boxes (n - 1) { s.boxes (n - 1) with last := 0 }
  { s with boxes := update boxes n (newBox builder), currentBoxes := n + 1 }

def boxCreateRequest (s : Server) (builder : Addr) (stack : Mem) : Outcome :=
  let name := (s.tasks builder).boxName
  let replies := (s.names.filter (· = name)).map fun _ => s.refuse builder stack alreadyExists
  match tfsOpen s.fs (some name) tfsOCreat with
  | .error f => ⟨s, .stopped (.fault f), upTo s.size, replies⟩
  | .ok (fhandle, fs) =>
    if fhandle = -1 then ⟨{ s with fs }, .stopped (.exit (-1)), upTo s.size, replies⟩
    else
      ⟨{ s with fs }.addBox builder, .idle,
        upTo s.size ++ [s.currentBoxes - 1, s.currentBoxes], replies⟩

/-- The loop that takes the first box of that name out of the table, and the indices
it uses. -/
def takeOut (s : Server) (name : CString) : (Int → MailBox) × List Int :=
  match firstIndex (fun i => s.boxName i = name) s.size with
  | none => (s.boxes, upTo s.size)
  | some i =>
    let moved := s.size - 1 - i
    (shift s.boxes i moved,
      upTo (i + 1) ++
        (List.range moved).flatMap fun j => [((i + j : Nat) : Int), (i + j + 1 : Nat)])

def boxRemoveRequest (s : Server) (builder : Addr) (stack : Mem) : Outcome :=
  let name := (s.tasks builder).boxName
  let replies := if s.currentBoxes = 0 then [s.refuse builder stack noBoxes] else []
  let (boxes, indices) := s.takeOut name
  match orExit (tfsUnlink s.fs (some name)) with
  | .error halt => ⟨{ s with boxes }, .stopped halt, indices, replies⟩
  | .ok (_, fs) =>
    ⟨{ s with fs, boxes, currentBoxes := s.currentBoxes - 1 }, .idle, indices, replies⟩

/-! ## Dispatch -/

/-- The handler of an operation; the broker has none for the others. -/
def handle (s : Server) (op : OpCode) (builder : Addr) (stack : Mem) : Outcome :=
  match op with
  | .loginPub => s.pubConnectRequest builder
  | .loginSub => s.subConnectRequest builder stack
  | .createBox => s.boxCreateRequest builder stack
  | .removeBox => s.boxRemoveRequest builder stack
  | _ => ⟨s, .idle, [], []⟩

/-- A turn of `task_handler`, from its task on. -/
def taskHandler (s : Server) (builder : Addr) (stack : Mem) : Outcome :=
  match OpCode.ofCode? (s.tasks builder).opcode with
  | none => ⟨s, .idle, [], []⟩
  | some .createBox =>
    -- the case has no `break`
    let o := s.boxCreateRequest builder stack
    match o.phase with
    | .idle => (o.server.boxRemoveRequest builder stack).after o.indices o.replies
    | _ => o
  | some op => s.handle op builder stack

end Server

end MBroker.Broker
