import MBroker.Wire.Codec

/- The register pipe: what the clients write to it, and the loop of the broker's
   `main` that reads it.

   A client writes one buffer, of its own size, from its stack. The loop asks for
   `sizeof(task)` bytes on each turn, into a buffer of 291, and decodes what the
   buffer then holds whatever the read returned. A turn gives what the read
   delivered and what the locals held before; a full queue only delays the loop
   and is left out. -/
namespace MBroker.Wire
open MBroker.Lib
open MBroker.Fs (CString)

/-- `sizeof` the request buffers, `sizeof(uint8_t) + 2 + 256 + 32`. -/
def requestSize : Nat := 291

/-- `sizeof(req_list)`. -/
def listRequestSize : Nat := 258

/-! ## Clients -/

/-- The places a request is written at. -/
inductive Client where
  | publisher
  | subscriber
  | managerCreate
  | managerRemove
  | managerList
  deriving DecidableEq, Repr

def Client.opcode : Client → OpCode
  | .publisher => .loginPub
  | .subscriber => .loginSub
  | .managerCreate => .createBox
  | .managerRemove => .removeBox
  | .managerList => .list

/-- The bytes a client writes: `task` is its `task_op`, `stack` what stands from
its buffer on. The subscriber calls `strcpu`, which no file defines, and writes
past its buffer; the manager's remove and list never fill theirs. -/
def Client.frame (strcpu : Mem → CString → Mem) (task : Task) (stack : Mem) : Client → List UInt8
  | .publisher => (stack.storeStr 0 (Publisher.taskToString task).bytes).read 0 requestSize
  | .subscriber => (strcpu stack (Subscriber.taskToString task)).read 0 taskSize
  | .managerCreate => (stack.storeStr 0 (Manager.taskToString task).bytes).read 0 requestSize
  | .managerRemove => stack.read 0 requestSize
  | .managerList => stack.read 0 listRequestSize

/-- A request a client writes. Its pipe path named a FIFO that was made, and the
text copied to the buffer fits there. -/
structure Registration where
  client : Client
  task : Task
  stack : Mem
  opcode : task.opcode = client.opcode.code
  pipePath : task.pipePath.bytes ≠ []
  fits : client = .publisher ∨ client = .managerCreate →
    (requestText task).bytes.length < requestSize

def Registration.frame (strcpu : Mem → CString → Mem) (r : Registration) : List UInt8 :=
  r.client.frame strcpu r.task r.stack

/-- What a task asks for: its operation, the client's pipe, and the box, which a
list request does not name. -/
def Task.request (t : Task) : UInt8 × CString × Option CString :=
  (t.opcode, t.pipePath, if t.opcode = OpCode.list.code then none else some t.boxName)

/-! ## The broker's loop -/

structure Turn where
  /-- The bytes `read` delivered; none when every writer has closed. -/
  chunk : List UInt8
  /-- What stood from the request buffer on. -/
  request : Mem
  /-- What the decoder's local held. -/
  stack : Mem

/-- The codes `main` enqueues a task for. -/
def Enqueues (code : UInt8) : Prop :=
  code ∈ [OpCode.loginPub, .loginSub, .createBox, .list, .removeBox].map OpCode.code

instance (code : UInt8) : Decidable (Enqueues code) :=
  inferInstanceAs (Decidable (code ∈ _))

/-- The read into a buffer of `size` bytes and the decoding of one turn. -/
def Turn.decode (size : Nat) (turn : Turn) : Except Halt Task :=
  -- the read wrote past the buffer
  if size < turn.chunk.length then .error (.fault .undefined)
  else
    match bufferString (turn.request.write 0 turn.chunk.length (Mem.padded turn.chunk)) size with
    | none => .error (.fault .undefined)
    | some building => stringToTask turn.stack building

/-- The tasks enqueued, in order. -/
def mainLoop : List Turn → List Task
  | [] => []
  | turn :: turns =>
    match turn.decode requestSize with
    | .error _ => []
    | .ok task => if Enqueues task.opcode then task :: mainLoop turns else mainLoop turns

/-! ## Framing -/

/-- The turns' reads deliver the bytes written, at most a task's size at a time. -/
structure Delivers (strcpu : Mem → CString → Mem) (rs : List Registration) (turns : List Turn) :
    Prop where
  stream : (turns.map Turn.chunk).flatten = (rs.map (Registration.frame strcpu)).flatten
  limit : ∀ turn ∈ turns, turn.chunk.length ≤ taskSize

/-- The requests enqueued are those written, and every read fits its buffer. -/
structure Framed (rs : List Registration) (turns : List Turn) : Prop where
  requests : (mainLoop turns).map Task.request = rs.map fun r => r.task.request
  fits : ∀ turn ∈ turns, turn.chunk.length ≤ requestSize

/-- The code a turn takes from a buffer that nothing was read into. -/
def Turn.leftover (turn : Turn) : Option UInt8 :=
  (bufferString turn.request requestSize).map (decodedCode turn.stack)

/-- As far as the loop gets, no turn finds a request in what its buffer held. -/
def Quiet : List Turn → Prop
  | [] => True
  | turn :: turns =>
    ∀ code, turn.leftover = some code → ¬ Enqueues code ∧ (HasCase code → Quiet turns)

theorem hasCase_of_enqueues {code : UInt8} (h : Enqueues code) : HasCase code := by
  obtain ⟨op, hop, rfl⟩ := List.mem_map.mp h
  refine ⟨op, OpCode.ofCode?_eq_some.mpr rfl, ?_⟩
  intro heq
  subst heq
  simp at hop

theorem pipePath_of_mem_mainLoop {turns : List Turn} {t : Task} (h : t ∈ mainLoop turns) :
    t.pipePath.bytes = [] := by
  induction turns with
  | nil => cases h
  | cons turn turns ih =>
    unfold mainLoop at h
    split at h
    · cases h
    · next task hdecode =>
      -- the turn's own task has none, and the rest is the induction
      have htask : task.pipePath.bytes = [] := by
        unfold Turn.decode at hdecode
        split at hdecode
        · cases hdecode
        · split at hdecode
          · cases hdecode
          · exact pipePath_of_stringToTask hdecode
      split at h
      · rcases List.mem_cons.mp h with rfl | hmem
        · exact htask
        · exact ih hmem
      · exact ih h

/-- Nothing that is enqueued is a request that was written. -/
theorem Framed.nothing_written {rs : List Registration} {turns : List Turn}
    (h : Framed rs turns) : rs = [] := by
  cases rs with
  | nil => rfl
  | cons r rs =>
    exfalso
    have hreq := h.requests
    rw [List.map_cons] at hreq
    obtain ⟨t, ts, hts, ht, -⟩ := List.map_eq_cons_iff.mp hreq
    have hmem : t ∈ mainLoop turns := by
      rw [hts]
      exact List.mem_cons_self
    -- the first request has a pipe path, the first task none
    have hpath := pipePath_of_mem_mainLoop hmem
    simp only [Task.request, Prod.mk.injEq] at ht
    rw [ht.2.1] at hpath
    exact r.pipePath hpath

theorem wordFits_of_bufferString {request : Mem} {building : CString}
    (h : bufferString request requestSize = some building) : WordFits building := by
  have hword := word_length_le building.bytes
  have hlen := (bufferString_eq_some.mp h).2
  have hsize : opcodeAt + requestSize < taskSize := by decide
  unfold WordFits
  omega

/-- A turn that reads nothing decodes what its buffer held. -/
theorem Turn.decode_leftover {turn : Turn} (hc : turn.chunk = []) :
    turn.decode requestSize = match bufferString turn.request requestSize with
      | none => .error (.fault .undefined)
      | some building => stringToTask turn.stack building := by
  unfold Turn.decode
  simp only [hc, List.length_nil, Mem.write_zero]
  exact if_neg (Nat.not_lt_zero _)

theorem mainLoop_eq_nil_iff {turns : List Turn} (h : ∀ turn ∈ turns, turn.chunk = []) :
    mainLoop turns = [] ↔ Quiet turns := by
  induction turns with
  | nil => simp [mainLoop, Quiet]
  | cons turn turns ih =>
    have ih := ih fun t ht => h t (List.mem_cons_of_mem _ ht)
    have hdecode := Turn.decode_leftover (h turn List.mem_cons_self)
    unfold mainLoop Quiet Turn.leftover
    rw [hdecode]
    cases hs : bufferString turn.request requestSize with
    | none => simp
    | some building =>
      have hf := wordFits_of_bufferString hs
      simp only [Option.map_some, Option.some.injEq, forall_eq']
      cases ht : stringToTask turn.stack building with
      | error e =>
        -- the loop ends here, so what follows does not matter
        have hcase : ¬ HasCase (decodedCode turn.stack building) := by
          intro hc
          rw [stringToTask_ok_iff.mpr ⟨hf, hc, rfl⟩] at ht
          cases ht
        have hne : ¬ Enqueues (decodedCode turn.stack building) := by
          intro he
          exact hcase (hasCase_of_enqueues he)
        simp [hcase, hne]
      | ok task =>
        obtain ⟨-, hcase, -⟩ := stringToTask_ok_iff.mp ht
        rw [← opcode_of_stringToTask ht] at hcase ⊢
        by_cases he : Enqueues task.opcode
        · simp [he]
        · simp [he, hcase, ih]

/-- The broker enqueues exactly the requests written when none is written, and it
finds none in the leftovers it decodes. -/
theorem framed_iff {strcpu : Mem → CString → Mem} {rs : List Registration} {turns : List Turn}
    (h : Delivers strcpu rs turns) : Framed rs turns ↔ rs = [] ∧ Quiet turns := by
  have hempty : rs = [] → ∀ turn ∈ turns, turn.chunk = [] := by
    intro hrs turn ht
    have hstream := h.stream
    rw [hrs, List.map_nil, List.flatten_nil, List.flatten_eq_nil_iff] at hstream
    exact hstream _ (List.mem_map_of_mem ht)
  refine ⟨?_, ?_⟩
  · intro hframed
    have hrs := hframed.nothing_written
    refine ⟨hrs, (mainLoop_eq_nil_iff (hempty hrs)).mp ?_⟩
    have hreq := hframed.requests
    rw [hrs, List.map_nil, List.map_eq_nil_iff] at hreq
    exact hreq
  · intro hquiet
    obtain ⟨hrs, hq⟩ := hquiet
    have hchunk := hempty hrs
    refine ⟨?_, ?_⟩
    · rw [(mainLoop_eq_nil_iff hchunk).mpr hq, hrs]
      rfl
    · intro turn ht
      rw [hchunk turn ht]
      exact Nat.zero_le _

/-- The publisher's login on pipe `/p` for box `/b`, as it is sent. -/
def loginRegistration : Registration where
  client := .publisher
  task := loginTask
  stack := fun _ => 0
  opcode := by decide
  pipePath := by decide
  fits := by decide

/-- Its frame, delivered whole by one read. -/
def loginTurns : List Turn :=
  [{ chunk := loginRegistration.frame fun m _ => m, request := fun _ => 0, stack := fun _ => 0 }]

theorem loginTurns_delivers : Delivers (fun m _ => m) [loginRegistration] loginTurns where
  stream := rfl
  limit := by
    intro turn ht
    rw [List.mem_singleton.mp ht]
    exact (Mem.read_length _ _ _).le.trans (by decide)

theorem framed_iff_login :
    Delivers (fun m _ => m) [loginRegistration] loginTurns ∧
      (Framed [loginRegistration] loginTurns ↔ [loginRegistration] = [] ∧ Quiet loginTurns) :=
  ⟨loginTurns_delivers, framed_iff loginTurns_delivers⟩

/-- A single login, read whole, is not enqueued. -/
theorem login_not_framed :
    ¬ ∀ rs turns, Delivers (fun m _ => m) rs turns → Framed rs turns := by
  intro h
  have hnone := (h _ _ loginTurns_delivers).nothing_written
  cases hnone

end MBroker.Wire
