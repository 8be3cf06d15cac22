import MBroker.Wire.Task

/- What the programs print into their pipes, and the one decoder for it
   (utils/lib.h): `stringToTask` scans the text twice, first for the operation
   code and then with the format of that code.

   Every format starts with `%s|`. The word takes the whole text up to white
   space, bars included, and goes to the byte of the code and on into the fields
   after it; the bar then never matches, so nothing else is ever scanned
   (`stringToTask_ok_iff`). The code is the first byte of that word, and the
   encoders print codes as decimal digits, none of which is a code. -/
namespace MBroker.Wire
open MBroker.Lib
open MBroker.Fs (CString Fault)

/-- The ways a function does not return to its caller. -/
inductive Halt where
  | exit (status : Int)
  | fault (f : Fault)
  deriving DecidableEq, Repr

def bar : UInt8 := 124

/-! ## Encoders -/

/-- A string printed by `snprintf` into the 1025 bytes each encoder allocates. -/
def printed (parts : List (List UInt8)) (h : ∀ p ∈ parts, 0 ∉ p) : CString :=
  ⟨snprintf messageMaxSize parts, zero_not_mem_snprintf h⟩

/-- `"%hhu|%s|%s"`, the text of a request. -/
def requestText (t : Task) : CString :=
  printed [decimal t.opcode.toNat, [bar], t.pipePath.bytes, [bar], t.boxName.bytes] (by
    simp [zero_not_mem_decimal, bar, t.pipePath.noNul, t.boxName.noNul])

/-- A request that is not cut. -/
theorem requestText_bytes {t : Task} {code : UInt8} {pipePath boxName : CString}
    (hcode : t.opcode = code) (hpath : t.pipePath = pipePath) (hname : t.boxName = boxName)
    (h : (decimal code.toNat).length + pipePath.bytes.length + boxName.bytes.length + 2 <
      messageMaxSize) :
    (requestText t).bytes =
      decimal code.toNat ++ [bar] ++ pipePath.bytes ++ [bar] ++ boxName.bytes := by
  unfold requestText printed snprintf
  dsimp only
  rw [hcode, hpath, hname, List.take_of_length_le]
  · simp
  · simp only [List.flatten_cons, List.flatten_nil, List.length_append, List.length_singleton,
      List.length_nil]
    omega

/-- `task_to_string` of publisher/pub.c. -/
def Publisher.taskToString (t : Task) : CString := requestText t

/-- `task_to_string` of subscriber/sub.c. -/
def Subscriber.taskToString (t : Task) : CString := requestText t

/-- `task_to_string` of manager/manager.c. -/
def Manager.taskToString (t : Task) : CString := requestText t

/-- `wr_task_to_string`: the operands of the comma operators before the last are
dropped, and with them the header. -/
def Publisher.wrTaskToString (_ : Task) (message : CString) : CString := message

def taskErrorBoxToStr (t : Task) : CString :=
  printed [decimal t.opcode.toNat, [bar], decimalInt t.returnValue, [bar], t.error.bytes] (by
    simp [zero_not_mem_decimal, zero_not_mem_decimalInt, bar, t.error.noNul])

def taskToStr (t : Task) : CString :=
  printed [decimal t.opcode.toNat, [bar], t.message.bytes] (by
    simp [zero_not_mem_decimal, bar, t.message.noNul])

/-! ## The decoder -/

/-- The `memset`s at the start of `string_to_task`. -/
def clearedTask (builder : Mem) : Mem :=
  let builder := builder.write pipePathAt pipePathMaxSize fun _ => 0
  let builder := builder.write boxNameAt maxBoxName fun _ => 0
  let builder := builder.write errorAt maxErrorSize fun _ => 0
  builder.write messageAt messageMaxSize fun _ => 0

/-- `sscanf` of `building` into the fields of a task. -/
def scanTask (builder : Mem) (building : CString) (format : List Directive) : Except Halt Mem :=
  match sscanf taskSize builder building.bytes format with
  | some builder => .ok builder
  | none => .error (.fault .undefined)

/-- `string_to_task`; `stack` is what its local task held before. -/
def stringToTask (stack : Mem) (building : CString) : Except Halt Task := do
  let builder ← scanTask (clearedTask stack) building [.word opcodeAt, .literal bar]
  match OpCode.ofCode? (builder opcodeAt) with
  | some .loginPub | some .loginSub | some .createBox | some .removeBox =>
    return ⟨← scanTask builder building [.word opcodeAt, .literal bar, .word pipePathAt,
      .literal bar, .word boxNameAt]⟩
  | some .createBoxResponse | some .removeBoxResponse =>
    return ⟨← scanTask builder building [.word opcodeAt, .literal bar, .integer returnValueAt,
      .literal bar, .word messageAt]⟩
  | some .list =>
    return ⟨← scanTask builder building [.word opcodeAt, .literal bar, .word pipePathAt]⟩
  | some .write | some .read =>
    return ⟨← scanTask builder building [.word opcodeAt, .literal bar, .word messageAt]⟩
  | some .listBoxesResponse | none => throw (.exit 1)

/-! ## What it decodes -/

/-- The byte the decoder takes for the operation code: the first of the word, or
what its local held where there is no word. -/
def decodedCode (stack : Mem) (building : CString) : UInt8 :=
  (word building.bytes).head?.getD (stack opcodeAt)

/-- The codes the decoder has a case for. -/
def HasCase (b : UInt8) : Prop := ∃ op, OpCode.ofCode? b = some op ∧ op ≠ .listBoxesResponse

/-- The task with the word stored from the code on. -/
def received (stack : Mem) (building : CString) : Mem :=
  if word building.bytes = [] then clearedTask stack
  else (clearedTask stack).storeStr opcodeAt (word building.bytes)

/-- The word and its NUL lie in the struct. -/
def WordFits (building : CString) : Prop := opcodeAt + (word building.bytes).length < taskSize

theorem clearedTask_opcode (stack : Mem) : clearedTask stack opcodeAt = stack opcodeAt := by
  unfold clearedTask
  rw [Mem.write_out, Mem.write_out, Mem.write_out, Mem.write_out] <;> decide

theorem clearedTask_pipePath (stack : Mem) : clearedTask stack pipePathAt = 0 := by
  unfold clearedTask
  rw [Mem.write_out, Mem.write_out, Mem.write_out]
  · exact Mem.write_in (i := 0) (by decide)
  all_goals decide

theorem clearedTask_message (stack : Mem) : clearedTask stack messageAt = 0 := by
  unfold clearedTask
  exact Mem.write_in (i := 0) (by decide)

theorem received_opcode (stack : Mem) (building : CString) :
    received stack building opcodeAt = decodedCode stack building := by
  unfold received decodedCode
  split
  · next h => simp [h, clearedTask_opcode]
  · next h =>
    obtain ⟨c, w, hw⟩ := List.exists_cons_of_ne_nil h
    rw [Mem.storeStr_head (c := c) (by rw [hw]; rfl), hw]
    rfl

/-- Every format scans to the same: the word, and nothing after it. -/
theorem scanTask_eq (m : Mem) (building : CString) (format : List Directive) :
    scanTask m building (.word opcodeAt :: .literal bar :: format) =
      if word building.bytes = [] then .ok m
      else if opcodeAt + (word building.bytes).length < taskSize
      then .ok (m.storeStr opcodeAt (word building.bytes)) else .error (.fault .undefined) := by
  unfold scanTask
  rw [sscanf_word_literal (by decide)]
  unfold sscanf
  by_cases hw : word building.bytes = []
  · rw [if_pos hw, if_pos hw]
  · rw [if_neg hw, if_neg hw]
    by_cases hf : opcodeAt + (word building.bytes).length < taskSize
    · rw [if_pos hf, if_pos hf]
      rfl
    · rw [if_neg hf, if_neg hf]

theorem scanTask_cleared {stack : Mem} {building : CString} (hf : WordFits building)
    (format : List Directive) :
    scanTask (clearedTask stack) building (.word opcodeAt :: .literal bar :: format) =
      .ok (received stack building) := by
  unfold WordFits at hf
  rw [scanTask_eq, if_pos hf]
  unfold received
  split <;> rfl

theorem scanTask_received {stack : Mem} {building : CString} (hf : WordFits building)
    (format : List Directive) :
    scanTask (received stack building) building (.word opcodeAt :: .literal bar :: format) =
      .ok (received stack building) := by
  unfold WordFits at hf
  rw [scanTask_eq, if_pos hf]
  unfold received
  split
  · rfl
  · rw [Mem.storeStr_storeStr]

theorem stringToTask_of_fits {stack : Mem} {building : CString} (hf : WordFits building) :
    stringToTask stack building =
      match OpCode.ofCode? (decodedCode stack building) with
      | some .listBoxesResponse | none => .error (.exit 1)
      | some _ => .ok ⟨received stack building⟩ := by
  unfold stringToTask
  simp only [scanTask_cleared hf, scanTask_received hf, received_opcode, bind, Except.bind]
  cases OpCode.ofCode? (decodedCode stack building) with
  | none => rfl
  | some op => cases op <;> rfl

/-- What the decoder returns: the cleared task with the word run into it, where the
word fits and its first byte is a code the switch knows. -/
theorem stringToTask_ok_iff {stack : Mem} {building : CString} {t : Task} :
    stringToTask stack building = .ok t ↔
      WordFits building ∧ HasCase (decodedCode stack building) ∧ t = ⟨received stack building⟩ := by
  by_cases hf : WordFits building
  · rw [stringToTask_of_fits hf]
    unfold HasCase
    cases hop : OpCode.ofCode? (decodedCode stack building) with
    | none => simp
    | some op => cases op <;> simp [hf, eq_comm]
  · simp only [hf, false_and, iff_false]
    intro h
    unfold WordFits at hf
    -- a word too long is written past the struct by the first scan
    have hw : word building.bytes ≠ [] := by
      intro hw
      apply hf
      rw [hw]
      decide
    rw [stringToTask, scanTask_eq, if_neg hw, if_neg hf] at h
    cases h

section Decoded

variable {stack : Mem} {building : CString} {t : Task}

theorem opcode_of_stringToTask (h : stringToTask stack building = .ok t) :
    t.opcode = decodedCode stack building := by
  obtain ⟨-, -, rfl⟩ := stringToTask_ok_iff.mp h
  exact received_opcode stack building

/-- No decoded task has a pipe path. -/
theorem pipePath_of_stringToTask (h : stringToTask stack building = .ok t) :
    t.pipePath.bytes = [] := by
  obtain ⟨-, -, rfl⟩ := stringToTask_ok_iff.mp h
  apply Task.str_eq_nil (by decide)
  show received stack building pipePathAt = 0
  unfold received
  split
  · exact clearedTask_pipePath stack
  · rw [Mem.storeStr_out (.inl (by decide)), clearedTask_pipePath]

/-- A text that starts with a byte that is neither white space nor a code with a case ends
the process, or is undefined. -/
theorem stringToTask_of_head {c : UInt8} (hs : isSpace c = false) (hc : ¬ HasCase c)
    (hhead : building.bytes.head? = some c) : stringToTask stack building ≠ .ok t := by
  intro h
  obtain ⟨-, hcase, -⟩ := stringToTask_ok_iff.mp h
  have hcode : decodedCode stack building = c := by
    obtain ⟨s, hb⟩ := List.head?_eq_some_iff.mp hhead
    rw [decodedCode, hb, word_cons hs]
    rfl
  rw [hcode] at hcase
  exact hc hcase

theorem not_hasCase {c : UInt8} (h : OpCode.ofCode? c = none) : ¬ HasCase c := by
  intro hc
  obtain ⟨op, hop, -⟩ := hc
  rw [h] at hop
  cases hop

/-- Nor is what is received in a buffer and starts with such a byte. -/
theorem received_not_decoded {buffer : Mem} {received : List UInt8} {size : Nat} {c : UInt8}
    (hsize : 0 < size) (hfirst : received.head? = some c) (hnul : c ≠ 0)
    (hs : isSpace c = false) (hc : ¬ HasCase c)
    (h : bufferString (buffer.write 0 received.length (Mem.padded received)) size =
      some building) : stringToTask stack building ≠ .ok t := by
  obtain ⟨rest, rfl⟩ := List.head?_eq_some_iff.mp hfirst
  obtain ⟨n, rfl⟩ := Nat.exists_eq_succ_of_ne_zero hsize.ne'
  have hbyte : buffer.write 0 (c :: rest).length (Mem.padded (c :: rest)) 0 = c :=
    Mem.write_in (a := 0) (i := 0) (Nat.succ_pos _)
  apply stringToTask_of_head hs hc
  rw [(bufferString_eq_some.mp h).1, Mem.cstr_succ, hbyte, if_neg hnul]
  rfl

/-- A message is what of the word runs on past the code and the name of the box. -/
theorem message_length_le (h : stringToTask stack building = .ok t) :
    t.message.bytes.length ≤ (word building.bytes).length - (messageAt - opcodeAt) := by
  obtain ⟨hfits, -, rfl⟩ := stringToTask_ok_iff.mp h
  unfold WordFits at hfits
  have hlt : messageAt < taskSize := by decide
  have hle : opcodeAt ≤ messageAt := by decide
  show ((received stack building).cstr messageAt (taskSize - messageAt)).length ≤ _
  -- the NUL is where the word has it, or right at the start
  obtain ⟨k, hk, hnul⟩ : ∃ k, k = (word building.bytes).length - (messageAt - opcodeAt) ∧
      received stack building (messageAt + k) = 0 := by
    refine ⟨_, rfl, ?_⟩
    unfold received
    split
    · next hw =>
      rw [hw, List.length_nil, Nat.zero_sub, Nat.add_zero]
      exact clearedTask_message stack
    rcases Nat.lt_or_ge (opcodeAt + (word building.bytes).length) messageAt with hin | hout
    · have hzero : (word building.bytes).length - (messageAt - opcodeAt) = 0 := by omega
      rw [hzero, Nat.add_zero, Mem.storeStr_out (.inr hin)]
      exact clearedTask_message stack
    · have hend : messageAt + ((word building.bytes).length - (messageAt - opcodeAt)) =
          opcodeAt + (word building.bytes).length := by omega
      rw [hend, Mem.storeStr, Mem.write_in (Nat.lt_succ_self _)]
      simp [Mem.padded]
  have hcut := Mem.cstr_length_lt_iff.mpr ⟨k, Nat.lt_succ_self k, hnul⟩
  rw [Mem.cstr_of_le hcut (by omega)]
  omega

/-- No text is decoded to the code of a message that is written: it is white space. -/
theorem message_of_stringToTask (h : stringToTask stack building = .ok t)
    (hw : t.opcode = OpCode.write.code) : t.message.bytes = [] := by
  rw [opcode_of_stringToTask h] at hw
  obtain ⟨-, -, rfl⟩ := stringToTask_ok_iff.mp h
  -- the code came from the stack: a word does not start with white space
  have hnil : word building.bytes = [] := by
    cases hword : word building.bytes with
    | nil => rfl
    | cons c w =>
      have hspace := not_isSpace_of_head?_word (s := building.bytes) (c := c) (by rw [hword]; rfl)
      rw [decodedCode, hword, List.head?_cons, Option.getD_some] at hw
      subst hw
      cases hspace
  apply Task.str_eq_nil (by decide)
  show received stack building messageAt = 0
  rw [received, if_pos hnil, clearedTask_message]

end Decoded

/-! ## Round trips -/

/-- A decoded request is the one encoded. -/
def RequestSurvives (stack : Mem) (encode : Task → CString) (t : Task) : Prop :=
  ∃ u, stringToTask stack (encode t) = .ok u ∧
    u.opcode = t.opcode ∧ u.pipePath = t.pipePath ∧ u.boxName = t.boxName

def ResponseSurvives (stack : Mem) (t : Task) : Prop :=
  ∃ u, stringToTask stack (taskErrorBoxToStr t) = .ok u ∧
    u.opcode = t.opcode ∧ u.returnValue = t.returnValue ∧ u.error = t.error

/-- A text with neither white space nor a bar. -/
def Plain (s : CString) : Prop := ∀ c ∈ s.bytes, isSpace c = false ∧ c ≠ bar

/-- A request a client can mean to send. -/
structure Request (t : Task) : Prop where
  opcode : ∃ op, op ∈ [OpCode.loginPub, .loginSub, .createBox, .removeBox] ∧ t.opcode = op.code
  pipePath : t.pipePath.bytes ≠ [] ∧ t.pipePath.bytes.length < pipePathMaxSize ∧ Plain t.pipePath
  boxName : t.boxName.bytes ≠ [] ∧ t.boxName.bytes.length < maxBoxName ∧ Plain t.boxName

/-- A response the broker can mean to send: one whose text is not cut. -/
structure Response (t : Task) : Prop where
  opcode : ∃ op, op ∈ [OpCode.createBoxResponse, .removeBoxResponse] ∧ t.opcode = op.code
  fits : (decimal t.opcode.toNat ++ [bar] ++ decimalInt t.returnValue ++ [bar] ++
    t.error.bytes).length < messageMaxSize

/-- A code printed in decimal starts with a digit, which is no code. -/
theorem decimal_code (op : OpCode) :
    ∃ c ds, decimal op.code.toNat = c :: ds ∧ isSpace c = false ∧ OpCode.ofCode? c = none := by
  cases op <;> exact ⟨_, _, rfl, by decide, by decide⟩

theorem printed_head {parts : List (List UInt8)} {h : ∀ p ∈ parts, 0 ∉ p} {c : UInt8}
    (hc : parts.flatten.head? = some c) : (printed parts h).bytes.head? = some c := by
  show (parts.flatten.take (messageMaxSize - 1)).head? = some c
  rw [List.head?_take, if_neg (by decide), hc]

/-- Nothing that starts with a printed code is decoded. -/
theorem stringToTask_printed {op : OpCode} {parts : List (List UInt8)}
    {h : ∀ p ∈ decimal op.code.toNat :: parts, 0 ∉ p} {stack : Mem} {t : Task} :
    stringToTask stack (printed (decimal op.code.toNat :: parts) h) ≠ .ok t := by
  obtain ⟨c, ds, hd, hs, hc⟩ := decimal_code op
  apply stringToTask_of_head hs (not_hasCase hc)
  apply printed_head
  rw [List.flatten_cons, hd]
  rfl

theorem requestText_not_decoded {t u : Task} {stack : Mem} (hr : Request t) :
    stringToTask stack (requestText t) ≠ .ok u := by
  obtain ⟨op, -, hop⟩ := hr.opcode
  simp only [requestText, hop]
  exact stringToTask_printed

theorem taskErrorBoxToStr_not_decoded {t u : Task} {stack : Mem} (hr : Response t) :
    stringToTask stack (taskErrorBoxToStr t) ≠ .ok u := by
  obtain ⟨op, -, hop⟩ := hr.opcode
  simp only [taskErrorBoxToStr, hop]
  exact stringToTask_printed

/-- No request of any client and no response of the broker is decoded to itself. -/
theorem no_request_or_response_survives (stack : Mem) (t : Task) :
    (Request t → ¬ RequestSurvives stack Publisher.taskToString t ∧
      ¬ RequestSurvives stack Subscriber.taskToString t ∧
      ¬ RequestSurvives stack Manager.taskToString t) ∧
    (Response t → ¬ ResponseSurvives stack t) := by
  refine ⟨?_, ?_⟩
  · intro hr
    have hnone : ¬ RequestSurvives stack requestText t := by
      intro h
      obtain ⟨u, hu, -⟩ := h
      exact requestText_not_decoded hr hu
    exact ⟨hnone, hnone, hnone⟩
  · intro hr h
    obtain ⟨u, hu, -⟩ := h
    exact taskErrorBoxToStr_not_decoded hr hu

/-- The publisher's login on pipe `/p` for box `/b`. -/
def loginTask : Task :=
  let t : Task := (⟨fun _ => 0⟩ : Task).setOpcode .loginPub
  (t.setStr pipePathAt ⟨[47, 112], by decide⟩).setStr boxNameAt ⟨[47, 98], by decide⟩

/-- The answer that box creation succeeded. -/
def createdTask : Task := (⟨fun _ => 0⟩ : Task).setOpcode .createBoxResponse

theorem loginTask_request : Request loginTask where
  opcode := ⟨.loginPub, by decide, by decide⟩
  pipePath := by
    refine ⟨by decide, by decide, ?_⟩
    show ∀ c ∈ loginTask.pipePath.bytes, isSpace c = false ∧ c ≠ bar
    decide +kernel
  boxName := by
    refine ⟨by decide, by decide, ?_⟩
    show ∀ c ∈ loginTask.boxName.bytes, isSpace c = false ∧ c ≠ bar
    decide +kernel

theorem createdTask_response : Response createdTask where
  opcode := ⟨.createBoxResponse, by decide, by decide⟩
  fits := by decide

theorem no_request_or_response_survives_login :
    (Request loginTask ∧ ¬ RequestSurvives (fun _ => 0) Publisher.taskToString loginTask) ∧
      Response createdTask ∧ ¬ ResponseSurvives (fun _ => 0) createdTask := by
  have hlogin := no_request_or_response_survives (fun _ => 0) loginTask
  have hcreated := no_request_or_response_survives (fun _ => 0) createdTask
  refine ⟨⟨loginTask_request, ?_⟩, createdTask_response, ?_⟩
  · exact (hlogin.1 loginTask_request).1
  · exact hcreated.2 createdTask_response

/-- `1|/p|/b` ends the process that decodes it. -/
theorem login_is_not_decoded :
    ¬ ∀ stack t, Request t → RequestSurvives stack Publisher.taskToString t := by
  intro h
  obtain ⟨u, hu, -⟩ := h (fun _ => 0) loginTask loginTask_request
  exact requestText_not_decoded loginTask_request hu

/-! ## Messages -/

/-- `m`, sent as `text`, is decoded to itself under the code of `op`. -/
def MessageSurvives (stack : Mem) (op : OpCode) (text m : CString) : Prop :=
  ∃ u, stringToTask stack text = .ok u ∧ u.opcode = op.code ∧ u.message = m

/-- A message as the publisher reads it: at least one byte, and room for its NUL. -/
def IsMessage (m : CString) : Prop := 1 ≤ m.bytes.length ∧ m.bytes.length ≤ messageMaxSize - 1

theorem published_message_lost {stack : Mem} {t : Task} {m : CString} (hm : IsMessage m) :
    ¬ MessageSurvives stack .write (Publisher.wrTaskToString t m) m := by
  intro h
  obtain ⟨u, hu, hop, hmsg⟩ := h
  have hnil := message_of_stringToTask hu hop
  rw [hmsg] at hnil
  have hlen := hm.1
  rw [hnil] at hlen
  cases hlen

theorem delivered_message_lost {stack : Mem} {t : Task} (hop : t.opcode = OpCode.read.code) :
    ¬ MessageSurvives stack .read (taskToStr t) t.message := by
  intro h
  obtain ⟨u, hu, -⟩ := h
  simp only [taskToStr, hop] at hu
  exact stringToTask_printed hu

/-- No message is decoded to itself, on its way to the broker or from it. -/
theorem no_message_survives {m : CString} (hm : IsMessage m) :
    (∀ stack t, t.opcode = OpCode.write.code →
      ¬ MessageSurvives stack .write (Publisher.wrTaskToString t m) m) ∧
    ∀ stack t, t.opcode = OpCode.read.code → t.message = m →
      ¬ MessageSurvives stack .read (taskToStr t) m := by
  refine ⟨?_, ?_⟩
  · intro stack t _
    exact published_message_lost hm
  · intro stack t hop ht
    rw [← ht]
    exact delivered_message_lost hop

/-- The message `hi`. -/
def greeting : CString := ⟨[104, 105], by decide⟩

def greetingTask (op : OpCode) : Task :=
  ((⟨fun _ => 0⟩ : Task).setOpcode op).setStr messageAt greeting

theorem no_message_survives_greeting :
    IsMessage greeting ∧
      ¬ MessageSurvives (fun _ => 0) .write
        (Publisher.wrTaskToString (greetingTask .write) greeting) greeting ∧
      ¬ MessageSurvives (fun _ => 0) .read (taskToStr (greetingTask .read)) greeting := by
  have hm : IsMessage greeting := by
    unfold IsMessage
    decide
  have h := no_message_survives hm
  refine ⟨hm, ?_, ?_⟩
  · exact h.1 (fun _ => 0) (greetingTask .write) (by decide)
  · exact h.2 (fun _ => 0) (greetingTask .read) (by decide) (by decide)

/-- `hi` does not reach the broker as a message. -/
theorem greeting_is_lost :
    ¬ ∀ stack t m, IsMessage m → t.opcode = OpCode.write.code →
      MessageSurvives stack .write (Publisher.wrTaskToString t m) m := by
  intro h
  have hm : IsMessage greeting := by
    unfold IsMessage
    decide
  exact published_message_lost hm (h (fun _ => 0) (greetingTask .write) greeting hm (by decide))

end MBroker.Wire
