import MBroker.Broker.Handlers

/- What a handler comes to: the condition under which each call of TecnicoFS in it
   does not make it exit, and then the table, the names, the files and the replies
   it leaves. The callers argue from these and not from the handlers' text. -/
namespace MBroker.Broker
open MBroker.Lib MBroker.Fs MBroker.Wire Function

namespace Server

/-- The first box of the task's name. -/
def firstBox (s : Server) (builder : Addr) : Option Nat :=
  firstIndex (fun i => s.boxName i = (s.tasks builder).boxName) s.size

/-- The path of the subscriber's pipe fits the list of box `i`. -/
def ListsPipe (s : Server) (builder : Addr) (i : Nat) : Prop :=
  (s.boxes i).numSubscribers.toNat + (s.tasks builder).pipePath.bytes.length < 1024

/-- The subscriber can be let into box `i`: there is room for its pipe, and a handle. -/
def Subscribable (s : Server) (builder : Addr) (i : Nat) : Prop :=
  s.ListsPipe builder i ∧ Openable s.fs (s.tasks builder).boxName

/-- Box `i` with the subscriber's pipe on its list. -/
def joined (s : Server) (builder : Addr) (i : Nat) : MailBox :=
  let box := s.boxes i
  { box with
    subsArrayPipePath := box.subsArrayPipePath.storeStr box.numSubscribers.toNat
      (s.tasks builder).pipePath.bytes
    numSubscribers := box.numSubscribers + 1 }

/-- The server that the subscriber of box `i` has its handle in. -/
def withSubscriber (s : Server) (builder : Addr) (i : Nat) (fs : FsState) : Server :=
  { s with fs, boxes := update s.boxes i (s.joined builder i) }

/-- The server after the removal that leaves `fs`. -/
def without (s : Server) (builder : Addr) (fs : FsState) : Server :=
  { s with
    fs
    boxes := (s.takeOut (s.tasks builder).boxName).1
    currentBoxes := s.currentBoxes - 1 }

/-- The subscriber's next read leaves a NUL in the buffer. -/
def Terminated (fs : FsState) (tfsFd : Int) (bufferBox : Mem) : Prop :=
  let h := tfsFd.toNat
  let fresh := ((contents fs (handleInode fs h)).drop (fs.openFileTable h).ofOffset).take
    messageMaxSize
  ∃ i, i < messageMaxSize ∧ bufferBox.write 0 fresh.length (Mem.padded fresh) i = 0

/-- The message finds its box, a handle, and a block where the box has none. -/
def Puttable (fs : FsState) (box message : CString) : Prop :=
  Openable fs box ∧ (message.bytes = [] ∨ 1024 < message.bytes.length ∨ freeBlock fs ≠ none ∨
    ∃ n, lookup fs box.tail.bytes = some n ∧ 0 < (fs.inodeTable n).iSize)

end Server

open Server

variable {s : Server} {builder : Addr} {stack : Mem} {fs : FsState} {box message name : CString}

theorem firstBox_eq_none : s.firstBox builder = none ↔ (s.tasks builder).boxName ∉ s.names := by
  rw [firstBox, firstIndex_eq_none, mem_names]
  simp

/-! ## Publishers -/

theorem orExit_ok {call : Except Fault (Int × FsState)} {r : Int} (h : call = .ok (r, fs))
    (hr : r ≠ -1) : orExit call = .ok (r, fs) := by
  rw [h, orExit, if_neg hr]

theorem orExit_error {call : Except Fault (Int × FsState)} (h : call = .ok (-1, fs)) :
    orExit call = .error exitFailure := by
  rw [h]
  rfl

theorem pubLoop_server (s : Server) (builder : Addr) (n i : Nat) :
    (s.pubLoop builder n i).server = s := by
  induction n generalizing i with
  | zero => rfl
  | succ n ih =>
    unfold pubLoop
    split
    · split
      · exact ih _
      · rfl
    · exact ih _

theorem pubLoop_phase (s : Server) (builder : Addr) (n i : Nat) :
    (s.pubLoop builder n i).phase = .idle ∨
      ∃ j, (s.pubLoop builder n i).phase = .publishing builder j := by
  induction n generalizing i with
  | zero => exact .inl rfl
  | succ n ih =>
    unfold pubLoop
    split
    · split
      · exact ih _
      · exact .inr ⟨i, rfl⟩
    · exact ih _

theorem pubLoop_replies (s : Server) (builder : Addr) (n i : Nat) :
    ∀ r ∈ (s.pubLoop builder n i).replies, r = s.answer builder (-1) := by
  induction n generalizing i with
  | zero => exact fun r hr => List.mem_singleton.mp hr
  | succ n ih =>
    unfold pubLoop
    split
    · split
      · intro r hr
        rcases List.mem_append.mp hr with hr | hr
        · exact List.mem_singleton.mp hr
        · exact ih _ r hr
      · intro r hr
        cases hr
    · exact ih _

/-- Where no box has the name, the loop comes to its end. -/
theorem pubLoop_of_none {n i : Nat}
    (h : ∀ j : Nat, i ≤ j → j < i + n → (s.tasks builder).boxName ≠ s.boxName j) :
    (s.pubLoop builder n i).phase = .idle ∧
      (s.pubLoop builder n i).replies = [s.answer builder (-1)] := by
  induction n generalizing i with
  | zero => exact ⟨rfl, rfl⟩
  | succ n ih =>
    unfold pubLoop
    rw [if_neg (h i (Nat.le_refl i) (by omega))]
    exact ih fun j hij hj => h j (by omega) (by omega)

theorem pubLoop_replies_pos {n i : Nat} (h : (s.pubLoop builder n i).phase = .idle) :
    1 ≤ (s.pubLoop builder n i).replies.length := by
  induction n generalizing i with
  | zero => exact Nat.le_refl 1
  | succ n ih =>
    unfold pubLoop at h ⊢
    by_cases heq : (s.tasks builder).boxName = s.boxName i
    · rw [if_pos heq] at h ⊢
      split at h
      · next hpub =>
        rw [if_pos hpub]
        simp [Outcome.after]
      · cases h
    · rw [if_neg heq] at h ⊢
      exact ih h

/-- Where a box has it, the loop ends in a session, or answers that box and again at
its end. -/
theorem pubLoop_of_some {n i j : Nat} (hij : i ≤ j) (hj : j < i + n)
    (hname : (s.tasks builder).boxName = s.boxName j) :
    (∃ k, (s.pubLoop builder n i).phase = .publishing builder k) ∨
      (s.pubLoop builder n i).phase = .idle ∧ 2 ≤ (s.pubLoop builder n i).replies.length := by
  induction n generalizing i with
  | zero => omega
  | succ n ih =>
    unfold pubLoop
    by_cases heq : (s.tasks builder).boxName = s.boxName i
    · rw [if_pos heq]
      split
      · -- a publisher is there: an answer, and at least one more at the end
        rcases pubLoop_phase s builder n (i + 1) with hidle | ⟨k, hk⟩
        · have hpos := pubLoop_replies_pos hidle
          refine .inr ⟨hidle, ?_⟩
          simp only [Outcome.after, List.length_append, List.length_singleton]
          omega
        · exact .inl ⟨k, hk⟩
      · exact .inl ⟨i, rfl⟩
    · rw [if_neg heq]
      have hne : i ≠ j := by
        intro h
        subst h
        exact heq hname
      exact ih (by omega) (by omega)

theorem pubConnectRequest_none (h : (s.tasks builder).boxName ∉ s.names) :
    (s.pubConnectRequest builder).phase = .idle ∧
      (s.pubConnectRequest builder).replies = [s.answer builder (-1)] := by
  refine pubLoop_of_none fun j _ hj heq => h ?_
  exact mem_names.mpr ⟨j, by omega, heq.symm⟩

theorem pubConnectRequest_some (h : (s.tasks builder).boxName ∈ s.names) :
    (∃ k, (s.pubConnectRequest builder).phase = .publishing builder k) ∨
      (s.pubConnectRequest builder).phase = .idle ∧
        2 ≤ (s.pubConnectRequest builder).replies.length := by
  obtain ⟨j, hj, hname⟩ := mem_names.mp h
  exact pubLoop_of_some (Nat.zero_le j) (by omega) hname.symm

/-! ## A message -/

/-- What is known of the box and of a handle opened at its end. -/
theorem opened_at_end (hI : Inv fs) {h n : Nat} (hl : lookup fs box.tail.bytes = some n)
    (hfree : freeHandle fs = some h) : 0 < n ∧ TakenInode fs n ∧
      Keeps fs (fs.openHandle h n (fs.inodeTable n).iSize) ∧
      Within (fs.openHandle h n (fs.inodeTable n).iSize) h n := by
  obtain ⟨hn0, hn⟩ := hI.lookup_taken hl
  exact ⟨hn0, hn, .openHandle hI hl (Nat.le_refl _), .opened hfree (Nat.le_refl _)⟩

/-- The handle is at the end of the box, so the read before the write finds nothing. -/
theorem putMessage_eq (hI : Inv fs) {h n : Nat} (hv : validPathname box = true)
    (hl : lookup fs box.tail.bytes = some n) (hfree : freeHandle fs = some h) :
    putMessage fs box message =
      if 1024 < message.bytes.length then .ok (false, fs.openHandle h n (fs.inodeTable n).iSize)
      else (do
        let (_, fs) ← orExit (tfsWrite (fs.openHandle h n (fs.inodeTable n).iSize) h
          (Mem.padded message.bytes) message.bytes.length)
        let (_, fs) ← (tfsClose fs h).mapError Halt.fault
        return (true, fs)) := by
  obtain ⟨hn0, hn, hkeeps, hW⟩ := opened_at_end hI hl hfree
  have hsize : (fs.inodeTable n).iSize ≤ fs.fsParams.blockSize := hI.blocks.size n hn
  have hopen : tfsOpen fs (some box) tfsOAppend =
      .ok ((h : Int), fs.openHandle h n (fs.inodeTable n).iSize) := by
    rw [tfsOpen_append hI hv hl, addToOpenFileTable_of_some hfree]
  -- opened at the end, so nothing is left to read
  have hnone : readable (fs.openHandle h n (fs.inodeTable n).iSize) h n messageMaxSize = 0 := by
    simp [readable]
  have hread := tfsRead_within hkeeps.inv hW hsize messageMaxSize
  rw [hnone, advance_zero] at hread
  unfold putMessage
  rw [orExit_ok hopen (by omega)]
  simp only [bind, Except.bind, hread, Except.mapError]
  rw [if_neg (by omega)]
  by_cases hlen : 1024 < message.bytes.length
  · rw [if_pos (by omega), if_pos hlen]
    rfl
  · rw [if_neg (by omega), if_neg hlen]

/-- The message is in the box, as far as there is room for it, and the handles are as before. -/
structure Put (s t : FsState) (n : Nat) (message : CString) : Prop extends Keeps s t where
  contents : contents t n = Fs.contents s n ++
    message.bytes.take (s.fsParams.blockSize - (Fs.contents s n).length)
  others : ∀ m, m ≠ n → TakenInode s m → Fs.contents t m = Fs.contents s m
  entries : t.freeOpenFileEntries = s.freeOpenFileEntries

/-- What the write and the close after it leave of the box. -/
theorem Put.of_wrote (hI : Inv fs) {h n : Nat} {t : FsState}
    (hl : lookup fs box.tail.bytes = some n) (hfree : freeHandle fs = some h)
    (hw : Wrote (fs.openHandle h n (fs.inodeTable n).iSize) t h n (Mem.read
      (Mem.padded message.bytes) 0
      (min message.bytes.length (fs.fsParams.blockSize - (fs.inodeTable n).iSize)))) :
    Put fs (t.closeHandle h) n message := by
  have hkeeps := Keeps.openHandle (h := h) hI hl (Nat.le_refl _)
  refine ⟨(hkeeps.trans hw.toKeeps).trans (.closeHandle hw.inv), ?_, hw.others, ?_⟩
  · have hoff : ((fs.openHandle h n (fs.inodeTable n).iSize).openFileTable h).ofOffset =
        (Fs.contents fs n).length := by simp [contents_length]
    have hbytes := hw.contents
    rw [hoff, Mem.read_padded _ _ (Nat.min_le_left _ _)] at hbytes
    refine hbytes.trans ((overwrite_end _ _).trans ?_)
    rw [contents_length]
    refine congrArg (Fs.contents fs n ++ ·) (List.take_eq_take_iff.mpr ?_)
    omega
  · -- the entry is free again, as it was
    show update t.freeOpenFileEntries h .free = _
    rw [hw.entries]
    show update (update fs.freeOpenFileEntries h .taken) h .free = _
    rw [update_idem, ← (freeHandle_some hfree).2, update_eq_self]

/-- A message that is no longer than a box goes into it, unless the box has no block and
there is none. -/
theorem putMessage_short (hI : Inv fs) {h n : Nat} (hv : validPathname box = true)
    (hl : lookup fs box.tail.bytes = some n) (hfree : freeHandle fs = some h)
    (hlen : message.bytes.length ≤ 1024)
    (hroom : message.bytes = [] ∨ freeBlock fs ≠ none ∨ 0 < (fs.inodeTable n).iSize) :
    ∃ t, putMessage fs box message = .ok (true, t) ∧ Put fs t n message := by
  obtain ⟨hn0, hn, hkeeps, hW⟩ := opened_at_end hI hl hfree
  have hoff : ((fs.openHandle h n (fs.inodeTable n).iSize).openFileTable h).ofOffset =
      (fs.inodeTable n).iSize := by simp
  rw [putMessage_eq hI hv hl hfree, if_neg (by omega)]
  rcases tfsWrite_within hkeeps.inv hW hn0 hn (Mem.padded message.bytes)
      (by omega : message.bytes.length < 2 ^ 63) rfl with
    ⟨hk, hz, hblock, -⟩ | ⟨t, hwrite, hwrote⟩
  · -- a box without a block, and no block free
    exfalso
    change (fs.inodeTable n).iSize = 0 at hz
    rcases hroom with hnil | hfreeb | hsize
    · rw [hnil] at hk
      simp at hk
    · exact hfreeb hblock
    · omega
  · have hclose := tfsClose_taken (hW.wrote hwrote).taken
    rw [orExit_ok hwrite (by omega)]
    simp only [bind, Except.bind, hclose, Except.mapError]
    rw [hoff] at hwrote
    exact ⟨_, rfl, .of_wrote hI hl hfree hwrote⟩

theorem Server.Puttable.room (hp : Puttable fs box message) {n : Nat}
    (hl : lookup fs box.tail.bytes = some n) (hlen : message.bytes.length ≤ 1024) :
    message.bytes = [] ∨ freeBlock fs ≠ none ∨ 0 < (fs.inodeTable n).iSize := by
  rcases hp.2 with hnil | hlong | hfreeb | ⟨m, hm, hsize⟩
  · exact .inl hnil
  · omega
  · exact .inr (.inl hfreeb)
  · rw [hl, Option.some.injEq] at hm
    exact .inr (.inr (hm ▸ hsize))

theorem putMessage_puttable (hI : Inv fs) (hp : Puttable fs box message)
    (hlen : message.bytes.length ≤ 1024) :
    ∃ n t, lookup fs box.tail.bytes = some n ∧ putMessage fs box message = .ok (true, t) ∧
      Put fs t n message := by
  obtain ⟨⟨⟨hv, -⟩, -⟩, -⟩ := id hp
  obtain ⟨h, n, hl, hfree, -⟩ := tfsOpen_openable hI hp.1
  obtain ⟨t, hput, hstored⟩ := putMessage_short hI hv hl hfree hlen (hp.room hl hlen)
  exact ⟨n, t, hl, hput, hstored⟩

/-- What a message that finds room leaves, and that it goes into the box unless it
is longer than any box. -/
theorem putMessage_ok (hI : Inv fs) (hp : Puttable fs box message) :
    ∃ more t, putMessage fs box message = .ok (more, t) ∧ Keeps fs t := by
  by_cases hlen : 1024 < message.bytes.length
  · obtain ⟨⟨⟨hv, -⟩, -⟩, -⟩ := id hp
    obtain ⟨h, n, hl, hfree, -⟩ := tfsOpen_openable hI hp.1
    rw [putMessage_eq hI hv hl hfree, if_pos hlen]
    exact ⟨false, _, rfl, .openHandle hI hl (Nat.le_refl _)⟩
  · obtain ⟨n, t, -, hput, hstored⟩ := putMessage_puttable hI hp (Nat.le_of_not_lt hlen)
    exact ⟨true, t, hput, hstored.toKeeps⟩

theorem putMessage_error (hI : Inv fs) (hp : ¬ Puttable fs box message) :
    ∃ halt, putMessage fs box message = .error halt := by
  refine ⟨exitFailure, ?_⟩
  by_cases hopen : Openable fs box
  swap
  · unfold putMessage
    rw [orExit_error (tfsOpen_not_openable hI hopen)]
    rfl
  obtain ⟨⟨hv, -⟩, -⟩ := id hopen
  obtain ⟨h, n, hl, hfree, -⟩ := tfsOpen_openable hI hopen
  obtain ⟨hn0, hn, hkeeps, hW⟩ := opened_at_end hI hl hfree
  -- what is left is a box without a block, and no block free for it
  have hne : message.bytes ≠ [] := fun hnil => hp ⟨hopen, .inl hnil⟩
  have hlen : message.bytes.length ≤ 1024 := by
    by_contra hlong
    exact hp ⟨hopen, .inr (.inl (Nat.lt_of_not_le hlong))⟩
  have hblock : freeBlock fs = none := by
    by_contra hb
    exact hp ⟨hopen, .inr (.inr (.inl hb))⟩
  have hzero : (fs.inodeTable n).iSize = 0 := by
    by_contra hz
    exact hp ⟨hopen, .inr (.inr (.inr ⟨n, hl, Nat.pos_of_ne_zero hz⟩))⟩
  have hpos := List.length_pos_of_ne_nil hne
  have hoff : ((fs.openHandle h n (fs.inodeTable n).iSize).openFileTable h).ofOffset = 0 := by
    simp [hzero]
  have hk : 0 < writeLength (fs.openHandle h n (fs.inodeTable n).iSize)
      ((fs.openHandle h n (fs.inodeTable n).iSize).openFileTable h) message.bytes.length := by
    have hbs := hI.base.sane.blockSize
    rw [writeLength_eq hkeeps.inv.base (by rw [hoff]; omega) (by omega), hoff]
    show 0 < min message.bytes.length (fs.fsParams.blockSize - 0)
    omega
  have hin : (fs.openHandle h n (fs.inodeTable n).iSize).inodeTable
      (handleInode (fs.openHandle h n (fs.inodeTable n).iSize) h) = fs.inodeTable n := by
    rw [hW.inode]
    rfl
  have hwrite : tfsWrite _ h (Mem.padded message.bytes) message.bytes.length = _ :=
    tfsWrite_noSpace hkeeps.inv hW.taken hk (by rw [hin, hzero]) hblock
  rw [putMessage_eq hI hv hl hfree, if_neg (by omega), orExit_error hwrite]
  rfl

/-- What a turn does that reads a message and finds room for it. -/
theorem pubTurn_ok (hI : Inv s.fs) {i : Nat} {turn : Turn} {taskOp : Task}
    (hd : turn.decode pubRequestSize = .ok taskOp)
    (hp : Puttable s.fs (s.tasks builder).boxName taskOp.message) :
    ((s.pubTurn builder i turn).phase = .idle ∨
      ∃ j, (s.pubTurn builder i turn).phase = .publishing builder j) ∧
      (s.pubTurn builder i turn).server.names = s.names ∧
      Keeps s.fs (s.pubTurn builder i turn).server.fs := by
  obtain ⟨more, fs, hput, hkeeps⟩ := putMessage_ok hI hp
  unfold pubTurn
  rw [hd]
  dsimp only
  rw [hput]
  cases more with
  | true => exact ⟨.inr ⟨i, rfl⟩, rfl, hkeeps⟩
  | false =>
    dsimp only
    rw [pubLoop_server]
    exact ⟨pubLoop_phase _ _ _ _, rfl, hkeeps⟩

theorem pubTurn_error (hI : Inv s.fs) {i : Nat} {turn : Turn}
    (h : ∀ taskOp, turn.decode pubRequestSize = .ok taskOp →
      ¬ Puttable s.fs (s.tasks builder).boxName taskOp.message) :
    ∃ halt, (s.pubTurn builder i turn).phase = .stopped halt := by
  unfold pubTurn
  cases hd : turn.decode pubRequestSize with
  | error halt => exact ⟨halt, rfl⟩
  | ok taskOp =>
    obtain ⟨halt, hput⟩ := putMessage_error hI (h taskOp hd)
    dsimp only
    rw [hput]
    exact ⟨halt, rfl⟩

/-! ## Subscribers -/

theorem subLoop_of_none {n i : Nat}
    (h : ∀ j : Nat, i ≤ j → j < i + n → (s.tasks builder).boxName ≠ s.boxName j) :
    (s.subLoop builder stack n i).server = s ∧ (s.subLoop builder stack n i).phase = .idle ∧
      (s.subLoop builder stack n i).replies = List.replicate n (s.answer builder 1) := by
  induction n generalizing i with
  | zero => exact ⟨rfl, rfl, rfl⟩
  | succ n ih =>
    obtain ⟨hserver, hphase, hreplies⟩ := ih (i := i + 1) fun j hij hj => h j (by omega) (by omega)
    unfold subLoop
    rw [if_neg (h i (Nat.le_refl i) (by omega))]
    refine ⟨hserver, hphase, ?_⟩
    rw [Outcome.after, hreplies]
    rfl

/-- The first box of the name ends the loop, after an answer for each box before it. -/
theorem subLoop_of_first (s : Server) (builder : Addr) (stack : Mem) {n i j : Nat} (hj : j < n)
    (hname : (s.tasks builder).boxName = s.boxName ((i + j : Nat) : Int))
    (hfirst : ∀ k : Nat, k < j → (s.tasks builder).boxName ≠ s.boxName ((i + k : Nat) : Int)) :
    (s.subLoop builder stack n i).server = (s.subscribe builder stack (i + j)).server ∧
      (s.subLoop builder stack n i).phase = (s.subscribe builder stack (i + j)).phase ∧
      (s.subLoop builder stack n i).replies = List.replicate j (s.answer builder 1) ++
        (s.subscribe builder stack (i + j)).replies := by
  induction n generalizing i j with
  | zero => omega
  | succ n ih =>
    unfold subLoop
    cases j with
    | zero =>
      rw [Nat.add_zero] at hname
      rw [if_pos hname]
      exact ⟨rfl, rfl, rfl⟩
    | succ j =>
      -- the boxes are counted from the one the loop is at
      have hcomm : ∀ k, i + 1 + k = i + (k + 1) := by omega
      obtain ⟨hserver, hphase, hreplies⟩ := ih (i := i + 1) (j := j) (by omega)
        (by rw [hcomm]; exact hname) fun k hk => by rw [hcomm]; exact hfirst (k + 1) (by omega)
      have hne := hfirst 0 (by omega)
      rw [hcomm] at hserver hphase hreplies
      rw [Nat.add_zero] at hne
      rw [if_neg hne]
      refine ⟨hserver, hphase, ?_⟩
      rw [Outcome.after, hreplies]
      rfl

theorem subscribe_replies (s : Server) (builder : Addr) (stack : Mem) (i : Nat) :
    (s.subscribe builder stack i).replies = [] := by
  unfold subscribe
  dsimp only
  split
  · rfl
  · split <;> rfl

theorem subConnectRequest_none (stack : Mem) (h : s.firstBox builder = none) :
    (s.subConnectRequest builder stack).server = s ∧
      (s.subConnectRequest builder stack).phase = .idle ∧
      (s.subConnectRequest builder stack).replies = List.replicate s.size (s.answer builder 1) := by
  have hne := firstIndex_eq_none.mp h
  apply subLoop_of_none
  intro j _ hj heq
  have hj := hne j (by omega)
  rw [heq] at hj
  simp at hj

theorem subConnectRequest_first (stack : Mem) {j : Nat} (h : s.firstBox builder = some j) :
    (s.subConnectRequest builder stack).server = (s.subscribe builder stack j).server ∧
      (s.subConnectRequest builder stack).phase = (s.subscribe builder stack j).phase ∧
      (s.subConnectRequest builder stack).replies = List.replicate j (s.answer builder 1) := by
  obtain ⟨hj, hname, hfirst⟩ := firstIndex_eq_some.mp h
  have hloop := subLoop_of_first s builder stack (i := 0) hj
  rw [Nat.zero_add, subscribe_replies, List.append_nil] at hloop
  apply hloop
  · exact (of_decide_eq_true hname).symm
  · intro k hk heq
    have hk := hfirst k hk
    rw [Nat.zero_add] at heq
    rw [heq] at hk
    simp at hk

/-- A subscriber that can be let in, to the file on inode `n`, with handle `h`. -/
theorem subscribe_eq (stack : Mem) (hI : Inv s.fs) {i : Nat} (hs : s.Subscribable builder i) :
    ∃ h n : Nat, lookup s.fs (s.tasks builder).boxName.tail.bytes = some n ∧
      freeHandle s.fs = some h ∧
      s.subscribe builder stack i =
        ⟨s.withSubscriber builder i (s.fs.openHandle h n (s.fs.inodeTable n).iSize),
          .subscribing builder h stack, [i], []⟩ := by
  obtain ⟨hfits, hopen⟩ := hs
  obtain ⟨h, n, hl, hfree, hopened⟩ := tfsOpen_openable hI hopen
  refine ⟨h, n, hl, hfree, ?_⟩
  unfold subscribe
  dsimp only
  rw [if_neg (Nat.not_le_of_lt hfits), orExit_ok hopened (by omega)]
  rfl

theorem subscribe_ok (stack : Mem) (hI : Inv s.fs) {i : Nat} (h : s.Subscribable builder i) :
    ∃ tfsFd n : Nat,
      (s.subscribe builder stack i).phase = .subscribing builder tfsFd stack ∧
      (s.subscribe builder stack i).server.names = s.names ∧
      Keeps s.fs (s.subscribe builder stack i).server.fs ∧
      Within (s.subscribe builder stack i).server.fs tfsFd n ∧
      lookup s.fs (s.tasks builder).boxName.tail.bytes = some n := by
  obtain ⟨g, n, hl, hfree, heq⟩ := subscribe_eq stack hI h
  rw [heq]
  refine ⟨g, n, rfl, ?_, .openHandle hI hl (Nat.le_refl _), .opened hfree (Nat.le_refl _), hl⟩
  rw [names_eq, names_eq]
  apply entries_eq_iff.mpr
  intro k _
  -- the box that the subscriber goes to keeps its name
  unfold boxName
  dsimp only
  apply nameOf_update
  rfl

/-- A path that does not fit is written past the list. -/
theorem subscribe_overflow (stack : Mem) {i : Nat} (h : ¬ s.ListsPipe builder i) :
    (s.subscribe builder stack i).phase = .stopped (.fault .undefined) := by
  unfold subscribe
  dsimp only
  rw [if_pos (Nat.le_of_not_lt h)]

theorem subscribe_not_openable (stack : Mem) (hI : Inv s.fs) {i : Nat}
    (hfits : s.ListsPipe builder i) (h : ¬ Openable s.fs (s.tasks builder).boxName) :
    (s.subscribe builder stack i).phase = .stopped exitFailure := by
  unfold subscribe
  dsimp only
  rw [if_neg (Nat.not_le_of_lt hfits), orExit_error (tfsOpen_not_openable hI h)]

theorem subscribe_error (stack : Mem) (hI : Inv s.fs) {i : Nat} (h : ¬ s.Subscribable builder i) :
    ∃ halt, (s.subscribe builder stack i).phase = .stopped halt := by
  by_cases hfits : s.ListsPipe builder i
  · exact ⟨_, subscribe_not_openable stack hI hfits fun hopen => h ⟨hfits, hopen⟩⟩
  · exact ⟨_, subscribe_overflow stack hfits⟩

/-- A turn on a handle of the box reads; it goes on where the buffer has its NUL. -/
theorem subTurn_eq (builder : Addr) (hI : Inv s.fs) {h n : Nat} (hW : Within s.fs h n)
    (hn : TakenInode s.fs n) (bufferBox : Mem) :
    (s.subTurn builder h bufferBox).server.names = s.names ∧
      Keeps s.fs (s.subTurn builder h bufferBox).server.fs ∧
      Within (s.subTurn builder h bufferBox).server.fs h n ∧
      (Terminated s.fs h bufferBox →
        ∃ buffer, (s.subTurn builder h bufferBox).phase = .subscribing builder h buffer) ∧
      (¬ Terminated s.fs h bufferBox →
        (s.subTurn builder h bufferBox).phase = .stopped (.fault .undefined)) := by
  have hsize := hI.blocks.size n hn
  have hkeeps := Keeps.advance hI hW hsize messageMaxSize
  have hWt := hW.advanced messageMaxSize
  obtain ⟨fresh, hfresh⟩ : ∃ fresh, ((contents s.fs n).drop (s.fs.openFileTable h).ofOffset).take
    messageMaxSize = fresh := ⟨_, rfl⟩
  -- the condition is that strcpy finds the end of its string
  have hterm : Terminated s.fs h bufferBox ↔
      bufferString (bufferBox.write 0 fresh.length (Mem.padded fresh)) messageMaxSize ≠ none := by
    rw [ne_eq, bufferString_eq_none, not_not, ← hfresh]
    simp only [Terminated, Int.toNat_natCast, hW.inode]
  rw [hterm]
  unfold subTurn
  rw [tfsRead_within hI hW hsize, hfresh]
  dsimp only
  rw [if_neg (by omega)]
  cases bufferString (bufferBox.write 0 fresh.length (Mem.padded fresh)) messageMaxSize with
  | none => exact ⟨rfl, hkeeps, hWt, fun hne => absurd rfl hne, fun _ => rfl⟩
  | some message =>
    exact ⟨rfl, hkeeps, hWt, fun _ => ⟨_, rfl⟩, fun hne => absurd (Option.some_ne_none _) hne⟩

/-! ## Boxes -/

/-- The box of the task at `builder` has been added at the end. -/
structure Added (s t : Server) (builder : Addr) : Prop where
  fs : ∃ h, Entered s.fs t.fs (s.tasks builder).boxName.tail.bytes h
  tasks : t.tasks = s.tasks
  currentBoxes : t.currentBoxes = s.currentBoxes + 1
  names : 0 ≤ s.currentBoxes → t.names = s.names ++ [(s.tasks builder).boxName]

/-- The first box of the name has been taken away, if there was one. -/
structure TakenAway (s t : Server) (name : CString) : Prop where
  fs : Removed s.fs t.fs name.tail.bytes
  tasks : t.tasks = s.tasks
  currentBoxes : t.currentBoxes = s.currentBoxes - 1
  names : name ∈ s.names → t.names = s.names.erase name

theorem names_addBox (h0 : 0 ≤ s.currentBoxes) :
    (s.addBox builder).names = s.names ++ [(s.tasks builder).boxName] := by
  have hsize : (s.addBox builder).size = s.size + 1 := by
    show (s.currentBoxes + 1).toNat = s.currentBoxes.toNat + 1
    omega
  have hcur : (s.size : Int) = s.currentBoxes := Int.toNat_of_nonneg h0
  rw [names_eq, names_eq, hsize, entries_succ]
  congr 1
  · apply entries_eq_iff.mpr
    intro k hk
    have hk1 : (k : Int) ≠ s.currentBoxes := by omega
    unfold boxName addBox
    dsimp only
    rw [update_of_ne hk1]
    -- the box before it loses its `last` and keeps its name
    apply nameOf_update
    rfl
  · unfold boxName addBox
    dsimp only
    rw [hcur, update_self]
    rfl

theorem Added.addBox {h : Nat} (hentered : Entered s.fs fs (s.tasks builder).boxName.tail.bytes h) :
    Added s ({ s with fs }.addBox builder) builder := by
  refine ⟨⟨h, hentered⟩, rfl, rfl, fun h0 => ?_⟩
  exact names_addBox (s := { s with fs }) h0

theorem boxCreateRequest_replies (s : Server) (builder : Addr) (stack : Mem) :
    (s.boxCreateRequest builder stack).replies =
      (s.names.filter (· = (s.tasks builder).boxName)).map fun _ =>
        s.refuse builder stack alreadyExists := by
  unfold boxCreateRequest
  dsimp only
  split
  · rfl
  · split <;> rfl

theorem boxCreateRequest_eq (stack : Mem) (hI : Inv s.fs)
    (hc : Creatable s.fs (s.tasks builder).boxName) :
    ∃ (h : Nat) (fs : FsState),
      tfsOpen s.fs (some (s.tasks builder).boxName) tfsOCreat = .ok ((h : Int), fs) ∧
      Entered s.fs fs (s.tasks builder).boxName.tail.bytes h ∧
      (s.boxCreateRequest builder stack).server = { s with fs }.addBox builder ∧
      (s.boxCreateRequest builder stack).phase = .idle ∧
      (s.boxCreateRequest builder stack).indices =
        upTo s.size ++ [s.currentBoxes - 1, s.currentBoxes] := by
  obtain ⟨h, fs, hopen, hentered⟩ := tfsOpen_creatable hI hc
  refine ⟨h, fs, hopen, hentered, ?_⟩
  unfold boxCreateRequest
  dsimp only
  rw [hopen]
  dsimp only
  rw [if_neg (by omega)]
  exact ⟨rfl, rfl, rfl⟩

theorem boxCreateRequest_ok (stack : Mem) (hI : Inv s.fs)
    (hc : Creatable s.fs (s.tasks builder).boxName) :
    (s.boxCreateRequest builder stack).phase = .idle ∧
      (s.boxCreateRequest builder stack).indices =
        upTo s.size ++ [s.currentBoxes - 1, s.currentBoxes] ∧
      Added s (s.boxCreateRequest builder stack).server builder := by
  obtain ⟨h, fs, -, hentered, hserver, hphase, hindices⟩ := boxCreateRequest_eq stack hI hc
  refine ⟨hphase, hindices, ?_⟩
  rw [hserver]
  exact .addBox hentered

theorem boxCreateRequest_error (stack : Mem) (hI : Inv s.fs)
    (hc : ¬ Creatable s.fs (s.tasks builder).boxName) :
    (s.boxCreateRequest builder stack).phase = .stopped (.exit (-1)) ∧
      (s.boxCreateRequest builder stack).indices = upTo s.size := by
  obtain ⟨fs, hopen⟩ := tfsOpen_not_creatable hI hc
  unfold boxCreateRequest
  dsimp only
  rw [hopen]
  exact ⟨rfl, rfl⟩

theorem boxRemoveRequest_replies (s : Server) (builder : Addr) (stack : Mem) :
    (s.boxRemoveRequest builder stack).replies =
      if s.currentBoxes = 0 then [s.refuse builder stack noBoxes] else [] := by
  unfold boxRemoveRequest
  dsimp only
  split <;> rfl

theorem boxRemoveRequest_indices (s : Server) (builder : Addr) (stack : Mem) :
    (s.boxRemoveRequest builder stack).indices = (s.takeOut (s.tasks builder).boxName).2 := by
  unfold boxRemoveRequest
  dsimp only
  split <;> rfl

theorem takeOut_indices (s : Server) (name : CString) :
    ∀ i ∈ (s.takeOut name).2, 0 ≤ i ∧ i < s.size := by
  intro i hi
  unfold takeOut at hi
  split at hi
  · simp only [upTo, List.mem_map, List.mem_range] at hi
    obtain ⟨k, hk, rfl⟩ := hi
    exact ⟨Int.natCast_nonneg k, Int.ofNat_lt.mpr hk⟩
  · next j hfirst =>
    have hj := (firstIndex_eq_some.mp hfirst).1
    simp only [upTo, List.mem_append, List.mem_map, List.mem_flatMap, List.mem_range,
      List.mem_cons, List.not_mem_nil, or_false] at hi
    rcases hi with ⟨k, hk, rfl⟩ | ⟨k, hk, rfl | rfl⟩
    · exact ⟨Int.natCast_nonneg k, by rw [Int.ofNat_eq_natCast]; omega⟩
    · omega
    · omega

theorem takeOut_entries {j : Nat}
    (h : firstIndex (fun i => s.boxName i = name) s.size = some j) :
    (entries (s.takeOut name).1 (s.size - 1)).map (nameOf s.tasks) = s.names.erase name := by
  have hmoved : (s.takeOut name).1 = shift s.boxes j (s.size - 1 - j) := by rw [takeOut, h]
  calc (entries (s.takeOut name).1 (s.size - 1)).map (nameOf s.tasks)
      = (s.table.eraseIdx j).map (nameOf s.tasks) := by
        rw [hmoved, entries_shift _ (firstIndex_eq_some.mp h).1]
        rfl
    _ = s.names.eraseIdx j := (List.eraseIdx_map ..).symm
    _ = s.names.erase name := by
        rw [names_eq]
        exact (erase_entries h).symm

theorem boxRemoveRequest_eq (stack : Mem) (hI : Inv s.fs)
    (hc : Removable s.fs (s.tasks builder).boxName) :
    ∃ fs, tfsUnlink s.fs (some (s.tasks builder).boxName) = .ok (0, fs) ∧
      Removed s.fs fs (s.tasks builder).boxName.tail.bytes ∧
      (s.boxRemoveRequest builder stack).server = s.without builder fs ∧
      (s.boxRemoveRequest builder stack).phase = .idle := by
  obtain ⟨fs, hunlink, hremoved⟩ := tfsUnlink_removable hI hc
  refine ⟨fs, hunlink, hremoved, ?_⟩
  unfold boxRemoveRequest
  dsimp only
  rw [orExit_ok hunlink (by omega)]
  exact ⟨rfl, rfl⟩

theorem TakenAway.without (hremoved : Removed s.fs fs (s.tasks builder).boxName.tail.bytes) :
    TakenAway s (s.without builder fs) (s.tasks builder).boxName := by
  refine ⟨hremoved, rfl, rfl, fun hmem => ?_⟩
  -- there is a box of the name, so the loop takes one out
  obtain ⟨j, hfirst⟩ : ∃ j, s.firstBox builder = some j := by
    rw [← Option.ne_none_iff_exists']
    intro hnone
    exact firstBox_eq_none.mp hnone hmem
  have hsize : (s.currentBoxes - 1).toNat = s.size - 1 := by
    unfold size
    omega
  rw [← takeOut_entries hfirst]
  unfold Server.names Server.table Server.size
  dsimp only [Server.without]
  rw [hsize]
  rfl

theorem boxRemoveRequest_ok (stack : Mem) (hI : Inv s.fs)
    (hc : Removable s.fs (s.tasks builder).boxName) :
    (s.boxRemoveRequest builder stack).phase = .idle ∧
      TakenAway s (s.boxRemoveRequest builder stack).server (s.tasks builder).boxName := by
  obtain ⟨fs, -, hremoved, hserver, hphase⟩ := boxRemoveRequest_eq stack hI hc
  refine ⟨hphase, ?_⟩
  rw [hserver]
  exact .without hremoved

theorem boxRemoveRequest_error (stack : Mem) (hI : Inv s.fs)
    (hc : ¬ Removable s.fs (s.tasks builder).boxName) :
    (s.boxRemoveRequest builder stack).phase = .stopped exitFailure := by
  unfold boxRemoveRequest
  dsimp only
  rw [orExit_error (tfsUnlink_not_removable hI hc)]

end MBroker.Broker
