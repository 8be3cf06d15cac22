import MBroker.Fs.Calls

/- What each call does to a state with the invariant. `Effect s op r t` lists
   the outcomes of every call, the refused ones included, with what held before
   each and the moves it made. A call that returns had one of them
   (`step_effect`), and a call has every outcome whose conditions hold
   (`Effect.complete`). An open, a close and an unlink always return. A read or a
   write may not: a handle whose offset is past its inode's size asks for bytes
   outside the block. -/
namespace MBroker.Fs
open MBroker.Lib Function

/-- The outcomes of the calls: the call, what it returns, the state it leaves. -/
inductive Effect (s : FsState) : Op → Ret → FsState → Prop
  | openInvalid {name : Option CString} {mode : BitVec 32}
      (hv : ∀ p, name = some p → validPathname p = false) :
      Effect s (.open name mode) ⟨-1, []⟩ s
  | openMissing {p : CString} {mode : BitVec 32} (hv : validPathname p = true)
      (hm : Missing s p.tail.bytes) (hc : hasFlag mode tfsOCreat = false) :
      Effect s (.open (some p) mode) ⟨-1, []⟩ s
  | openFound {p : CString} {mode : BitVec 32} {i n : Nat} (hv : validPathname p = true)
      (hb : Binds s i p.tail.bytes n) :
      Effect s (.open (some p) mode)
        ⟨(addToOpenFileTable (s.cut mode n) n (s.openOffset mode n)).1, []⟩
        (addToOpenFileTable (s.cut mode n) n (s.openOffset mode n)).2
  | openNoInode {p : CString} {mode : BitVec 32} (hv : validPathname p = true)
      (hm : Missing s p.tail.bytes) (hc : hasFlag mode tfsOCreat = true)
      (hn : freeInode s = none) : Effect s (.open (some p) mode) ⟨-1, []⟩ s
  | openNoEntry {p : CString} {mode : BitVec 32} {n : Nat} (hv : validPathname p = true)
      (hm : Missing s p.tail.bytes) (hc : hasFlag mode tfsOCreat = true)
      (hn : freeInode s = some n) (he : 39 < p.tail.bytes.length ∨ emptySlot s = none) :
      Effect s (.open (some p) mode) ⟨-1, []⟩ (s.clearInode n)
  | openCreated {p : CString} {mode : BitVec 32} {n i : Nat} (hv : validPathname p = true)
      (hm : Missing s p.tail.bytes) (hc : hasFlag mode tfsOCreat = true)
      (hn : freeInode s = some n) (hl : p.tail.bytes.length ≤ 39) (he : emptySlot s = some i) :
      Effect s (.open (some p) mode)
        ⟨(addToOpenFileTable (s.bindName i n p.tail) n 0).1, []⟩
        (addToOpenFileTable (s.bindName i n p.tail) n 0).2
  | closeBad {fhandle : Int} (hb : ∀ h : Nat, fhandle = h → ¬ TakenHandle s h) :
      Effect s (.close fhandle) ⟨-1, []⟩ s
  | closeDone {h : Nat} (ht : TakenHandle s h) : Effect s (.close h) ⟨0, []⟩ (s.closeHandle h)
  | readBad {fhandle : Int} {len : Nat} (hb : ∀ h : Nat, fhandle = h → ¬ TakenHandle s h) :
      Effect s (.read fhandle len) ⟨-1, []⟩ s
  | readNone {h len : Nat} (ht : TakenHandle s h)
      (hk : readLength (s.inodeTable (handleInode s h)) (s.openFileTable h) len = 0) :
      Effect s (.read h len) ⟨0, []⟩ s
  | readSome {h len k b : Nat} (ht : TakenHandle s h)
      (hk : readLength (s.inodeTable (handleInode s h)) (s.openFileTable h) len = k) (hk0 : 0 < k)
      (hb : (s.inodeTable (handleInode s h)).iDataBlock = b) (hbc : b < s.fsParams.maxBlockCount)
      (ha : b * s.fsParams.blockSize + (s.openFileTable h).ofOffset + k ≤ s.areaSize) :
      Effect s (.read h len)
        ⟨k, s.fsData.read (b * s.fsParams.blockSize + (s.openFileTable h).ofOffset) k⟩
        (s.advance h k)
  | writeBad {fhandle : Int} {buffer : Nat → UInt8} {toWrite : Nat}
      (hb : ∀ h : Nat, fhandle = h → ¬ TakenHandle s h) :
      Effect s (.write fhandle buffer toWrite) ⟨-1, []⟩ s
  | writeNone {h : Nat} {buffer : Nat → UInt8} {toWrite : Nat} (ht : TakenHandle s h)
      (hk : writeLength s (s.openFileTable h) toWrite = 0) :
      Effect s (.write h buffer toWrite) ⟨0, []⟩ s
  | writeNoSpace {h : Nat} {buffer : Nat → UInt8} {toWrite : Nat} (ht : TakenHandle s h)
      (hk : 0 < writeLength s (s.openFileTable h) toWrite)
      (hz : (s.inodeTable (handleInode s h)).iSize = 0) (hf : freeBlock s = none) :
      Effect s (.write h buffer toWrite) ⟨-1, []⟩ s
  | writeFirst {h k b : Nat} {buffer : Nat → UInt8} {toWrite : Nat} (ht : TakenHandle s h)
      (hk : writeLength s (s.openFileTable h) toWrite = k) (hk0 : 0 < k)
      (hz : (s.inodeTable (handleInode s h)).iSize = 0) (hf : freeBlock s = some b)
      (hin : (s.openFileTable h).ofOffset + k ≤ s.fsParams.blockSize) :
      Effect s (.write h buffer toWrite) ⟨k, []⟩
        ((s.giveBlock (handleInode s h) b).put h (handleInode s h) b k buffer)
  | writeOver {h k b : Nat} {buffer : Nat → UInt8} {toWrite : Nat} (ht : TakenHandle s h)
      (hk : writeLength s (s.openFileTable h) toWrite = k) (hk0 : 0 < k)
      (hz : 0 < (s.inodeTable (handleInode s h)).iSize)
      (hb : (s.inodeTable (handleInode s h)).iDataBlock = b) (hb0 : 0 < b)
      (hbc : b < s.fsParams.maxBlockCount)
      (hin : (s.openFileTable h).ofOffset + k ≤ s.fsParams.blockSize) :
      Effect s (.write h buffer toWrite) ⟨k, []⟩ (s.put h (handleInode s h) b k buffer)
  | unlinkInvalid {target : Option CString} (hv : ∀ p, target = some p → validPathname p = false) :
      Effect s (.unlink target) ⟨-1, []⟩ s
  | unlinkMissing {p : CString} (hv : validPathname p = true) (hm : Missing s p.tail.bytes) :
      Effect s (.unlink (some p)) ⟨-1, []⟩ s
  | unlinkDone {p : CString} {i n : Nat} (hv : validPathname p = true)
      (hb : Binds s i p.tail.bytes n) : Effect s (.unlink (some p)) ⟨0, []⟩ (s.unbind i n)

variable {s t : FsState}

/-- A call has every outcome whose conditions hold. -/
theorem Effect.complete (hI : Inv s) {op : Op} {r : Ret} (he : Effect s op r t) :
    step s op = .ok (r, t) := by
  cases he with
  | openInvalid hv => rw [step, tfsOpen_invalid hv]; rfl
  | openMissing hv hm hc => rw [step, tfsOpen_missing hI hv hm hc]; rfl
  | openFound hv hb => rw [step, tfsOpen_found hI hv hb]; rfl
  | openNoInode hv hm hc hn => rw [step, tfsOpen_noInode hI hv hm hc hn]; rfl
  | openNoEntry hv hm hc hn he => rw [step, tfsOpen_noEntry hI hv hm hc hn he]; rfl
  | openCreated hv hm hc hn hl he => rw [step, tfsOpen_created hI hv hm hc hn hl he]; rfl
  | closeBad hb => rw [step, tfsClose_bad hb]; rfl
  | closeDone ht => rw [step, tfsClose_taken ht]; rfl
  | readBad hb => rw [step, tfsRead_bad hb]; rfl
  | readNone ht hk => rw [step, tfsRead_none hI ht hk]; rfl
  | readSome ht hk hk0 hb hbc ha => rw [step, tfsRead_some hI ht hk hk0 hb hbc ha]; rfl
  | writeBad hb => rw [step, tfsWrite_bad hb]; rfl
  | writeNone ht hk => rw [step, tfsWrite_none hI ht hk]; rfl
  | writeNoSpace ht hk hz hf => rw [step, tfsWrite_noSpace hI ht hk hz hf]; rfl
  | writeFirst ht hk hk0 hz hf hin => rw [step, tfsWrite_first hI ht hk hk0 hz hf hin]; rfl
  | writeOver ht hk hk0 hz hb hb0 hbc hin =>
    rw [step, tfsWrite_over hI ht hk hk0 hz hb hbc hin]; rfl
  | unlinkInvalid hv => rw [step, tfsUnlink_invalid hv]; rfl
  | unlinkMissing hv hm => rw [step, tfsUnlink_missing hI hv hm]; rfl
  | unlinkDone hv hb => rw [step, tfsUnlink_found hI hv hb]; rfl

/-- Every open has an outcome. -/
theorem open_total (hI : Inv s) (name : Option CString) (mode : BitVec 32) :
    ∃ r t, Effect s (.open name mode) r t := by
  cases name with
  | none => exact ⟨_, _, .openInvalid (by simp)⟩
  | some p =>
    cases hv : validPathname p
    · exact ⟨_, _, .openInvalid (by simp [hv])⟩
    rcases (hI.dir.missing_or_binds p.tail.bytes).symm with ⟨i, n, hb⟩ | hm
    · exact ⟨_, _, .openFound hv hb⟩
    cases hc : hasFlag mode tfsOCreat
    · exact ⟨_, _, .openMissing hv hm hc⟩
    cases hn : freeInode s with
    | none => exact ⟨_, _, .openNoInode hv hm hc hn⟩
    | some n =>
      by_cases hl : 39 < p.tail.bytes.length
      · exact ⟨_, _, .openNoEntry hv hm hc hn (.inl hl)⟩
      cases he : emptySlot s with
      | none => exact ⟨_, _, .openNoEntry hv hm hc hn (.inr he)⟩
      | some i => exact ⟨_, _, .openCreated hv hm hc hn (by omega) he⟩

/-- Every close has an outcome. -/
theorem close_total (s : FsState) (fhandle : Int) : ∃ r t, Effect s (.close fhandle) r t := by
  rcases handle_cases s fhandle with hb | ⟨h, rfl, ht⟩
  · exact ⟨_, _, .closeBad hb⟩
  · exact ⟨_, _, .closeDone ht⟩

/-- Every unlink has an outcome. -/
theorem unlink_total (hI : Inv s) (target : Option CString) :
    ∃ r t, Effect s (.unlink target) r t := by
  cases target with
  | none => exact ⟨_, _, .unlinkInvalid (by simp)⟩
  | some p =>
    cases hv : validPathname p
    · exact ⟨_, _, .unlinkInvalid (by simp [hv])⟩
    rcases hI.dir.missing_or_binds p.tail.bytes with hm | ⟨i, n, hb⟩
    · exact ⟨_, _, .unlinkMissing hv hm⟩
    · exact ⟨_, _, .unlinkDone hv hb⟩

/-- A read that returns had an outcome. -/
theorem read_effect (hI : Inv s) {fhandle : Int} {len : Nat} {x : (Int × List UInt8) × FsState}
    (h : tfsRead s fhandle len = .ok x) : ∃ r t, Effect s (.read fhandle len) r t := by
  rcases handle_cases s fhandle with hb | ⟨g, rfl, ht⟩
  · exact ⟨_, _, .readBad hb⟩
  rcases Nat.eq_zero_or_pos (readLength (s.inodeTable (handleInode s g)) (s.openFileTable g) len)
    with hk | hk
  · exact ⟨_, _, .readNone ht hk⟩
  · obtain ⟨b, hib, hbc, ha⟩ := of_tfsRead hI ht h hk
    exact ⟨_, _, .readSome ht rfl hk hib hbc ha⟩

/-- A write that returns had an outcome. -/
theorem write_effect (hI : Inv s) {fhandle : Int} {buffer : Nat → UInt8} {toWrite : Nat}
    {x : Int × FsState} (h : tfsWrite s fhandle buffer toWrite = .ok x) :
    ∃ r t, Effect s (.write fhandle buffer toWrite) r t := by
  rcases handle_cases s fhandle with hb | ⟨g, rfl, ht⟩
  · exact ⟨_, _, .writeBad hb⟩
  rcases Nat.eq_zero_or_pos (writeLength s (s.openFileTable g) toWrite) with hk | hk
  · exact ⟨_, _, .writeNone ht hk⟩
  rcases Nat.eq_zero_or_pos (s.inodeTable (handleInode s g)).iSize with hz | hz
  · cases hf : freeBlock s with
    | none => exact ⟨_, _, .writeNoSpace ht hk hz hf⟩
    | some b =>
      obtain ⟨hin, -⟩ := of_tfsWrite hI ht h rfl hk fun _ => by simp [hf]
      exact ⟨_, _, .writeFirst ht rfl hk hz hf hin⟩
  · obtain ⟨hin, hblock⟩ := of_tfsWrite hI ht h rfl hk fun h0 => by omega
    obtain ⟨b, hib, hb0, hbc⟩ := hblock hz
    exact ⟨_, _, .writeOver ht rfl hk hz hib hb0 hbc hin⟩

/-- A call that returns had one of the outcomes listed. -/
theorem step_effect (hI : Inv s) {op : Op} {r : Ret} (h : step s op = .ok (r, t)) :
    Effect s op r t := by
  have hsome : ∃ r t, Effect s op r t := by
    cases op with
    | «open» name mode => exact open_total hI name mode
    | close fhandle => exact close_total s fhandle
    | unlink target => exact unlink_total hI target
    | read fhandle len =>
      cases hr : tfsRead s fhandle len with
      | ok x => exact read_effect hI hr
      | error e => simp [step, hr, Except.map] at h
    | write fhandle buffer toWrite =>
      cases hw : tfsWrite s fhandle buffer toWrite with
      | ok x => exact write_effect hI hw
      | error e => simp [step, silent, hw, Except.map] at h
  obtain ⟨r', t', he⟩ := hsome
  have h' := he.complete hI
  rw [h] at h'
  cases h'
  exact he

end MBroker.Fs
