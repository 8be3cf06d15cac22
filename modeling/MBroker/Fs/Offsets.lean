import MBroker.Fs.Reach

/- Offsets against sizes. `tfs_read` and `tfs_write` subtract a handle's offset
   from a size, unsigned, so they are safe while no handle is past the end of
   its inode. Only an open can put one there: `i_size` drops when a file is
   truncated and when a free inode becomes a new file, and no handle's offset
   follows it. `access_safe_iff` says that a run is safe exactly when no open
   empties an inode that some handle is past the start of. -/
namespace MBroker.Fs
open MBroker.Lib Function

/-- Every handle's offset is within its inode's size, and that within a block. -/
def OffsetsOk (s : FsState) : Prop :=
  ∀ h, TakenHandle s h → (s.openFileTable h).ofOffset ≤ (s.inodeTable (handleInode s h)).iSize ∧
    (s.inodeTable (handleInode s h)).iSize ≤ s.fsParams.blockSize

/-- The call asks for fewer than 2^63 bytes, if any. -/
def Op.Short : Op → Prop
  | .read _ len => len < 2 ^ 63
  | .write _ _ toWrite => toWrite < 2 ^ 63
  | _ => True

structure AccessSafe (s : FsState) : Prop where
  offsets : OffsetsOk s
  /-- The unsigned subtractions of `tfs_read` and `tfs_write` do not wrap. -/
  noWrap : ∀ h, TakenHandle s h →
    let file := s.openFileTable h
    let inode := s.inodeTable (handleInode s h)
    szSub inode.iSize file.ofOffset = inode.iSize - file.ofOffset ∧
      szSub (stateBlockSize s) file.ofOffset = stateBlockSize s - file.ofOffset
  /-- A copy starts at the offset in the block and ends in it. -/
  inBlock : ∀ h len, TakenHandle s h → len < 2 ^ 63 →
    let file := s.openFileTable h
    file.ofOffset + readLength (s.inodeTable (handleInode s h)) file len ≤ stateBlockSize s ∧
      file.ofOffset + writeLength s file len ≤ stateBlockSize s
  /-- No assertion fires and no copy leaves the data area. -/
  completes : ∀ op : Op, op.Short → ∃ r t, step s op = .ok (r, t)

/-- The inode whose `i_size` the call sets to 0. -/
def emptied (s : FsState) : Op → Option Nat
  | .open (some p) mode =>
    if validPathname p then
      match lookup s p.tail.bytes with
      | some n => if hasFlag mode tfsOTrunc then some n else none
      | none => if hasFlag mode tfsOCreat then freeInode s else none
    else none
  | _ => none

/-- Some open handle on inode `n` is past the start. -/
def PastStart (s : FsState) (n : Nat) : Prop :=
  ∃ h, h < s.fsParams.maxOpenFilesCount ∧ s.freeOpenFileEntries h = .taken ∧
    handleInode s h = n ∧ 0 < (s.openFileTable h).ofOffset

/-- The call empties an inode that some open handle is past the start of. -/
def CutsBehind (s : FsState) (op : Op) : Prop := ∃ n, emptied s op = some n ∧ PastStart s n

instance (s : FsState) (n : Nat) : Decidable (PastStart s n) :=
  inferInstanceAs (Decidable (∃ h, h < _ ∧ _))

instance (s : FsState) (op : Op) : Decidable (CutsBehind s op) :=
  decidable_of_iff ((emptied s op).any fun n => decide (PastStart s n)) (by
    cases h : emptied s op <;> simp [CutsBehind, h])

variable {params : TfsParams} {s t : FsState}

/-! ## What the offsets give -/

theorem readLength_eq (hB : Base s) {inode : Inode} {file : OpenFileEntry} (len : Nat)
    (ho : file.ofOffset ≤ inode.iSize) (hsz : inode.iSize ≤ s.fsParams.blockSize) :
    readLength inode file len = min len (inode.iSize - file.ofOffset) := by
  have hbs := hB.blockSize_lt
  rw [readLength, szSub_eq ho (by omega)]
  split <;> omega

theorem writeLength_eq (hB : Base s) {file : OpenFileEntry} {toWrite : Nat}
    (ho : file.ofOffset ≤ s.fsParams.blockSize) (hw : toWrite < 2 ^ 63) :
    writeLength s file toWrite = min toWrite (s.fsParams.blockSize - file.ofOffset) := by
  have hbs := hB.blockSize_lt
  rw [writeLength, stateBlockSize, szAdd_eq (by omega), szSub_eq ho (by omega)]
  split <;> omega

/-- A read within bounds has an outcome. -/
theorem read_completes (hI : Inv s) (hO : OffsetsOk s) (fhandle : Int) (len : Nat) :
    ∃ r t, Effect s (.read fhandle len) r t := by
  rcases handle_cases s fhandle with hb | ⟨h, rfl, ht⟩
  · exact ⟨_, _, .readBad hb⟩
  obtain ⟨ho, hsz⟩ := hO h ht
  have hle := readLength_eq hI.base len ho hsz
  rcases Nat.eq_zero_or_pos (readLength (s.inodeTable (handleInode s h)) (s.openFileTable h) len)
    with hk | hk
  · exact ⟨_, _, .readNone ht hk⟩
  · obtain ⟨b, hb, -, hbc⟩ := (hI.handles.range h ht).block (by omega)
    have harea := hI.base.block_le hbc
    exact ⟨_, _, .readSome ht rfl hk hb hbc (by omega)⟩

/-- So has a write. -/
theorem write_completes (hI : Inv s) (hO : OffsetsOk s) (fhandle : Int) (buffer : Nat → UInt8)
    {toWrite : Nat} (hw : toWrite < 2 ^ 63) :
    ∃ r t, Effect s (.write fhandle buffer toWrite) r t := by
  rcases handle_cases s fhandle with hb | ⟨h, rfl, ht⟩
  · exact ⟨_, _, .writeBad hb⟩
  obtain ⟨ho, hsz⟩ := hO h ht
  have hle := writeLength_eq hI.base (Nat.le_trans ho hsz) hw
  rcases Nat.eq_zero_or_pos (writeLength s (s.openFileTable h) toWrite) with hk | hk
  · exact ⟨_, _, .writeNone ht hk⟩
  rcases Nat.eq_zero_or_pos (s.inodeTable (handleInode s h)).iSize with hz | hz
  · cases hf : freeBlock s with
    | none => exact ⟨_, _, .writeNoSpace ht hk hz hf⟩
    | some b => exact ⟨_, _, .writeFirst ht rfl hk hz hf (by omega)⟩
  · obtain ⟨b, hb, hb0, hbc⟩ := (hI.handles.range h ht).block hz
    exact ⟨_, _, .writeOver ht rfl hk hz hb hb0 hbc (by omega)⟩

theorem OffsetsOk.accessSafe (hI : Inv s) (hO : OffsetsOk s) : AccessSafe s := by
  have hbs := hI.base.blockSize_lt
  refine ⟨hO, fun h ht => ?_, fun h len ht hl => ?_, fun op hs => ?_⟩
  · obtain ⟨ho, hsz⟩ := hO h ht
    exact ⟨szSub_eq ho (by omega),
      szSub_eq (Nat.le_trans ho hsz) (by simp only [stateBlockSize]; omega)⟩
  · obtain ⟨ho, hsz⟩ := hO h ht
    have hr := readLength_eq hI.base len ho hsz
    have hw := writeLength_eq hI.base (Nat.le_trans ho hsz) hl
    simp only [stateBlockSize]
    omega
  · have hsome : ∃ r t, Effect s op r t := by
      cases op with
      | «open» name mode => exact open_total hI name mode
      | close fhandle => exact close_total s fhandle
      | read fhandle len => exact read_completes hI hO fhandle len
      | write fhandle buffer toWrite => exact write_completes hI hO fhandle buffer hs
      | unlink target => exact unlink_total hI target
    obtain ⟨r, t, he⟩ := hsome
    exact ⟨r, t, he.complete hI⟩

/-! ## One call -/

/-- Emptying inode `n` keeps the offsets in order exactly when no handle on it is
past the start. -/
theorem OffsetsOk.empty_iff (hO : OffsetsOk s) {n : Nat} (hp : t.fsParams = s.fsParams)
    (hh : t.freeOpenFileEntries = s.freeOpenFileEntries) (ho : t.openFileTable = s.openFileTable)
    (hn : (t.inodeTable n).iSize = 0)
    (hother : ∀ m, m ≠ n → t.inodeTable m = s.inodeTable m) : OffsetsOk t ↔ ¬ PastStart s n := by
  have htk : ∀ h, TakenHandle t h ↔ TakenHandle s h := by
    intro h
    unfold TakenHandle
    rw [hp, hh]
  have hin : ∀ h, handleInode t h = handleInode s h := by
    intro h
    unfold handleInode
    rw [ho]
  refine ⟨?_, ?_⟩
  · intro hO' hc
    obtain ⟨h, hlt, ht, hhn, hpos⟩ := hc
    obtain ⟨hle, -⟩ := hO' h ((htk h).mpr ⟨hlt, ht⟩)
    rw [hin, hhn, hn, ho] at hle
    omega
  · intro hpast h ht
    obtain ⟨hle, hsz⟩ := hO h ((htk h).mp ht)
    rw [hin, ho, hp]
    by_cases hhn : handleInode s h = n
    · have h0 : (s.openFileTable h).ofOffset = 0 := by
        by_contra h0
        obtain ⟨hlt, htk'⟩ := (htk h).mp ht
        exact hpast ⟨h, hlt, htk', hhn, Nat.pos_of_ne_zero h0⟩
      rw [hhn, hn, h0]
      exact ⟨Nat.le_refl 0, Nat.zero_le _⟩
    · rw [hother _ hhn]
      exact ⟨hle, hsz⟩

/-- A new handle within its inode's size is in order. -/
theorem offsetsOk_addToOpenFileTable {n offset : Nat} (ho : offset ≤ (s.inodeTable n).iSize)
    (hsz : (s.inodeTable n).iSize ≤ s.fsParams.blockSize) :
    OffsetsOk (addToOpenFileTable s n offset).2 ↔ OffsetsOk s := by
  cases hh : freeHandle s with
  | none => rw [addToOpenFileTable_of_none hh]
  | some h =>
    rw [addToOpenFileTable_of_some hh]
    have hfree := (freeHandle_some hh).2
    refine ⟨?_, ?_⟩
    · intro hO g hg
      have hgh : g ≠ h := hg.ne_free hfree
      have := hO g ⟨hg.1, by simpa [hgh] using hg.2⟩
      simpa [handleInode, hgh] using this
    · intro hO g hg
      by_cases hgh : g = h
      · subst hgh
        simpa [handleInode] using ⟨ho, hsz⟩
      · have := hO g ⟨hg.1, by simpa [hgh] using hg.2⟩
        simpa [handleInode, hgh] using this

theorem OffsetsOk.advance (hO : OffsetsOk s) {h k : Nat}
    (hk : (s.openFileTable h).ofOffset + k ≤ (s.inodeTable (handleInode s h)).iSize) :
    OffsetsOk (s.advance h k) := by
  intro g hg
  have hg' := hO g hg
  by_cases hgh : g = h
  · subst hgh
    simpa [handleInode] using ⟨hk, hg'.2⟩
  · simpa [handleInode, hgh] using hg'

theorem OffsetsOk.put (hO : OffsetsOk s) {h b k : Nat} {buffer : Nat → UInt8}
    (hin : (s.openFileTable h).ofOffset + k ≤ s.fsParams.blockSize) :
    OffsetsOk (s.put h (handleInode s h) b k buffer) := by
  intro g hg
  have hg' := hO g hg
  have hin' : handleInode (s.put h (handleInode s h) b k buffer) g = handleInode s g := by
    by_cases hgh : g = h
    · subst hgh; simp [handleInode]
    · simp [handleInode, hgh]
  have hsize : ((s.put h (handleInode s h) b k buffer).inodeTable (handleInode s g)).iSize =
      if handleInode s g = handleInode s h then
        max (s.inodeTable (handleInode s g)).iSize ((s.openFileTable h).ofOffset + k)
      else (s.inodeTable (handleInode s g)).iSize := by
    split
    · next he => simp [he]
    · next hne => simp [hne]
  have hoff : ((s.put h (handleInode s h) b k buffer).openFileTable g).ofOffset =
      if g = h then (s.openFileTable g).ofOffset + k else (s.openFileTable g).ofOffset := by
    split
    · next he => simp [he]
    · next hne => simp [hne]
  rw [hin', hsize, hoff, FsState.put_fsParams]
  by_cases hgh : g = h
  · subst hgh
    simp only [if_true]
    omega
  · rw [if_neg hgh]
    split <;> omega

theorem giveBlock_iSize (s : FsState) (n b m : Nat) :
    ((s.giveBlock n b).inodeTable m).iSize = (s.inodeTable m).iSize := by
  by_cases hm : m = n
  · simp [hm]
  · simp [hm]

theorem OffsetsOk.cut_iff (hO : OffsetsOk s) {mode : BitVec 32} (ht : hasFlag mode tfsOTrunc = true)
    (n : Nat) : OffsetsOk (s.cut mode n) ↔ ¬ PastStart s n := by
  by_cases hsz : 0 < (s.inodeTable n).iSize
  · have hcuts : s.cut mode n = s.truncate n := by simp [FsState.cut, ht, hsz]
    rw [hcuts]
    exact hO.empty_iff rfl rfl rfl (by simp) fun m hm => by simp [hm]
  · have hsame : s.cut mode n = s := by simp [FsState.cut, hsz]
    rw [hsame]
    exact hO.empty_iff rfl rfl rfl (by omega) fun _ _ => rfl

theorem Effect.offsetsOk_iff (hI : Inv s) (hO : OffsetsOk s) {op : Op} {r : Ret}
    (he : Effect s op r t) : OffsetsOk t ↔ ¬ CutsBehind s op := by
  -- a call that empties nothing
  have htriv : ∀ {u}, emptied s op = none → OffsetsOk u → (OffsetsOk u ↔ ¬ CutsBehind s op) := by
    intro u hne ht
    refine ⟨fun _ => ?_, fun _ => ht⟩
    intro hcut
    obtain ⟨n, hn, -⟩ := hcut
    rw [hne] at hn
    cases hn
  -- a call that empties `n`
  have hcut : ∀ n, emptied s op = some n → (¬ CutsBehind s op ↔ ¬ PastStart s n) := by
    intro n hn
    unfold CutsBehind
    rw [hn]
    simp
  cases he with
  | @openInvalid name mode hv =>
    refine htriv ?_ hO
    cases name with
    | none => rfl
    | some p => simp [emptied, hv p rfl]
  | openMissing hv hm hc => exact htriv (by simp [emptied, lookup_of_missing hm, hc]) hO
  | openNoInode hv hm hc hn => exact htriv (by simp [emptied, lookup_of_missing hm, hn]) hO
  | @openFound p mode i n hv hb =>
    obtain ⟨hn0, hn, -⟩ := hI.live_inode hb.live hb.inum
    obtain ⟨hcutI, hn'⟩ := hI.cut mode hn0 hn
    have hoff : s.openOffset mode n ≤ ((s.cut mode n).inodeTable n).iSize := by
      unfold FsState.openOffset
      split <;> omega
    rw [offsetsOk_addToOpenFileTable hoff (hcutI.blocks.size n hn')]
    have hlook := lookup_of_binds hI.dir hb
    cases ht : hasFlag mode tfsOTrunc
    · have hsame : s.cut mode n = s := by simp [FsState.cut, ht]
      rw [hsame]
      exact htriv (by simp [emptied, hlook, ht]) hO
    · rw [hcut n (by simp [emptied, hv, hlook, ht])]
      exact hO.cut_iff ht n
  | @openNoEntry p mode n hv hm hc hn he =>
    rw [hcut n (by simp [emptied, hv, lookup_of_missing hm, hc, hn])]
    exact hO.empty_iff rfl rfl rfl (by simp) fun m hm => by simp [hm]
  | @openCreated p mode n i hv hm hc hn hl he =>
    rw [hcut n (by simp [emptied, hv, lookup_of_missing hm, hc, hn]),
      offsetsOk_addToOpenFileTable (by simp) (by simp)]
    exact hO.empty_iff rfl rfl rfl (by simp) fun m hm => by simp [hm]
  | closeBad | readBad | readNone | writeBad | writeNone | writeNoSpace | unlinkInvalid
  | unlinkMissing => exact htriv rfl hO
  | @closeDone h ht =>
    refine htriv rfl fun g hg => hO g ⟨hg.1, ?_⟩
    by_cases hgh : g = h
    · have := hg.2
      simp [hgh] at this
    · simpa [hgh] using hg.2
  | @readSome h len k b ht hk hk0 hb hbc ha =>
    obtain ⟨ho, hsz⟩ := hO h ht
    rw [readLength_eq hI.base _ ho hsz] at hk
    exact htriv rfl (hO.advance (by omega))
  | @writeFirst h k b buffer toWrite ht hk hk0 hz hf hin =>
    have hgive : OffsetsOk (s.giveBlock (handleInode s h) b) := by
      intro g hg
      rw [giveBlock_iSize]
      exact hO g hg
    exact htriv rfl (hgive.put hin)
  | writeOver ht hk hk0 hz hb hb0 hbc hin => exact htriv rfl (hO.put hin)
  | unlinkDone hv hb => exact htriv rfl fun g hg => hO g hg

/-! ## Runs -/

theorem OffsetsOk.initial (h : Initial params s) : OffsetsOk s := by
  obtain ⟨-, -, mem, rfl⟩ := h.formatted
  exact fun g hg => absurd hg (not_takenHandle_formatted g)

/-- Along a run every state is safe to read and write in exactly when no open of
the run empties an inode that an open handle is past the start of. -/
theorem access_safe_iff (hp : params.Sane) {ρ : List (Op × FsState)} (h : Initial params s)
    (hr : Run Steps s ρ) :
    EveryState AccessSafe s ρ ↔ EveryStep (fun s op => ¬ CutsBehind s op) s ρ := by
  have hI := Inv.initial hp h
  refine Run.everyState_iff (I := Inv) (fun s op t hI hst => hI.step hst)
    (fun s op t hI hA hst => ?_) hI ((OffsetsOk.initial h).accessSafe hI) hr
  have hIt : Inv t := hI.step hst
  obtain ⟨r, hr⟩ := hst
  rw [← (step_effect hI hr).offsetsOk_iff hI hA.offsets]
  exact ⟨fun hA' => hA'.offsets, fun hO' => hO'.accessSafe hIt⟩

/-- A file read through one handle after it was cut through another at the
start. -/
theorem access_safe_small : EveryState AccessSafe small
    (runOf small [.open (some pathA) tfsOCreat, .open (some pathA) tfsOTrunc,
      .write 0 (fun _ => 7) 5, .read 1 9]) := by
  apply (access_safe_iff smallParams_sane initial_small (run_runOf _ _)).mpr
  decide

/-- A file cut behind a handle at offset 5: the handle is past the end, and a read
through it, of any length, asks for the block from there on. -/
theorem truncation_strands_handle : ¬ ∀ params s, params.Sane →
    Reachable (Initial params) Steps s → AccessSafe s := by
  intro h
  have hA := h smallParams _ smallParams_sane (reachable_after reachable_small
    [.open (some pathA) tfsOCreat, .write 0 (fun _ => 7) 5, .open (some pathA) tfsOTrunc])
  have hoff := (hA.offsets 0 (by decide)).1
  revert hoff
  decide

end MBroker.Fs
