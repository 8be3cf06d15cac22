import MBroker.Fs.Creations
import MBroker.Fs.Leaks

/- A write of every length. `tfs_write` cuts a length back when its sum with the
   handle's offset is past the end of the block, and takes that sum in `size_t`:
   where it wraps it is smaller than the offset, the length is not cut, and the
   copy runs out of the data area. No other length goes wrong. A write of nothing
   returns early, so it does not move the end of a file that has been cut behind
   the handle up to the handle. -/
namespace MBroker.Fs
open MBroker.Lib Function

/-- How much of `toWrite` there is room for between the handle's offset and the end of
the block. -/
def roomFor (s : FsState) (h toWrite : Nat) : Nat :=
  min toWrite (s.fsParams.blockSize - (s.openFileTable h).ofOffset)

/-- `k` bytes of `buffer` at handle `h`'s offset in its file, and nothing else. -/
structure WroteOnly (s t : FsState) (h k : Nat) (buffer : Nat → UInt8) : Prop where
  params : t.fsParams = s.fsParams
  taken : t.freeinodeTs = s.freeinodeTs
  entries : t.freeOpenFileEntries = s.freeOpenFileEntries
  moved : t.openFileTable = update s.openFileTable h
    { s.openFileTable h with ofOffset := (s.openFileTable h).ofOffset + k }
  size : (t.inodeTable (handleInode s h)).iSize =
    max (s.inodeTable (handleInode s h)).iSize ((s.openFileTable h).ofOffset + k)
  others : ∀ m, m ≠ handleInode s h → t.inodeTable m = s.inodeTable m
  /-- The file's block is the one it had, or the free one it got. -/
  block : 0 < k → ∃ b : Nat, (t.inodeTable (handleInode s h)).iDataBlock = b ∧ TakenBlock t b ∧
    (0 < (s.inodeTable (handleInode s h)).iSize →
      (s.inodeTable (handleInode s h)).iDataBlock = b ∧ t.freeBlocks = s.freeBlocks) ∧
    ((s.inodeTable (handleInode s h)).iSize = 0 →
      s.freeBlocks b = .free ∧ t.freeBlocks = update s.freeBlocks b .taken) ∧
    t.fsData =
      s.fsData.write (b * s.fsParams.blockSize + (s.openFileTable h).ofOffset) k buffer
  nothing : k = 0 → t.fsData = s.fsData ∧ t.freeBlocks = s.freeBlocks ∧
    (t.inodeTable (handleInode s h)).iDataBlock = (s.inodeTable (handleInode s h)).iDataBlock

/-- The write fails for want of a block and changes nothing, or it writes what there is
room for. -/
def WritesRoom (s : FsState) (h : Nat) (buffer : Nat → UInt8) (toWrite : Nat) : Prop :=
  (tfsWrite s h buffer toWrite = .ok (-1, s) ∧ (s.inodeTable (handleInode s h)).iSize = 0 ∧
    0 < roomFor s h toWrite ∧ ∀ b, b < s.fsParams.maxBlockCount → s.freeBlocks b = .taken) ∨
  ∃ t, tfsWrite s h buffer toWrite = .ok ((roomFor s h toWrite : Int), t) ∧
    WroteOnly s t h (roomFor s h toWrite) buffer

/-- The sum that decides the length does not wrap, or the write fails before it copies;
and a write of nothing is not past the end of its file. -/
def LengthSafe (s : FsState) (h toWrite : Nat) : Prop :=
  (toWrite + (s.openFileTable h).ofOffset < 2 ^ 64 ∨
    (s.inodeTable (handleInode s h)).iSize = 0 ∧
      (s.openFileTable h).ofOffset < s.fsParams.blockSize ∧
      ∀ b, b < s.fsParams.maxBlockCount → s.freeBlocks b = .taken) ∧
  (0 < roomFor s h toWrite ∨
    (s.openFileTable h).ofOffset ≤ (s.inodeTable (handleInode s h)).iSize)

variable {s t : FsState} {h toWrite : Nat} {buffer : Nat → UInt8}

/-! ## The length decided on -/

theorem writeLength_of_sum (hB : Base s)
    (ho : (s.openFileTable h).ofOffset ≤ s.fsParams.blockSize)
    (hsum : toWrite + (s.openFileTable h).ofOffset < 2 ^ 64) :
    writeLength s (s.openFileTable h) toWrite = roomFor s h toWrite := by
  have hbs := hB.blockSize_lt
  rw [writeLength, stateBlockSize, szAdd_eq hsum, szSub_eq ho (by omega), roomFor]
  split <;> omega

/-- A sum that wraps is less than the offset, and the length is left as it is. -/
theorem writeLength_of_wrap (ho : (s.openFileTable h).ofOffset ≤ s.fsParams.blockSize)
    (hw : toWrite < 2 ^ 64) (hwrap : 2 ^ 64 ≤ toWrite + (s.openFileTable h).ofOffset) :
    writeLength s (s.openFileTable h) toWrite = toWrite := by
  rw [writeLength, stateBlockSize, if_neg]
  unfold szAdd
  omega

theorem freeBlock_eq_none :
    freeBlock s = none ↔ ∀ b, b < s.fsParams.maxBlockCount → s.freeBlocks b = .taken := by
  unfold freeBlock
  rw [firstIndex_eq_none]
  refine forall_congr' fun b => imp_congr_right fun _ => ?_
  cases s.freeBlocks b <;> simp

/-! ## What is written -/

theorem wroteOnly_zero_iff :
    WroteOnly s s h 0 buffer ↔
      (s.openFileTable h).ofOffset ≤ (s.inodeTable (handleInode s h)).iSize := by
  refine ⟨?_, ?_⟩
  · intro hw
    have hsize := hw.size
    omega
  · intro ho
    refine ⟨rfl, rfl, rfl, ?_, by omega, fun _ _ => rfl, fun h0 => absurd h0 (by omega),
      fun _ => ⟨rfl, rfl, rfl⟩⟩
    rw [Nat.add_zero, update_eq_self]

theorem WroteOnly.put {k b : Nat} (hk : 0 < k)
    (hb : (s.inodeTable (handleInode s h)).iDataBlock = b) (hbt : TakenBlock s b)
    (hz : 0 < (s.inodeTable (handleInode s h)).iSize) :
    WroteOnly s (s.put h (handleInode s h) b k buffer) h k buffer := by
  refine ⟨rfl, rfl, rfl, rfl, by simp, fun m hm => by simp [hm], ?_, fun h0 => by omega⟩
  intro _
  exact ⟨b, by simpa using hb, hbt, fun _ => ⟨hb, rfl⟩, fun h0 => by omega, rfl⟩

theorem WroteOnly.first {k b : Nat} (hk : 0 < k) (hf : freeBlock s = some b)
    (hz : (s.inodeTable (handleInode s h)).iSize = 0) :
    WroteOnly s ((s.giveBlock (handleInode s h) b).put h (handleInode s h) b k buffer) h k
      buffer := by
  obtain ⟨hbc, hfree⟩ := freeBlock_some hf
  refine ⟨rfl, rfl, rfl, rfl, by simp, fun m hm => by simp [hm], ?_, fun h0 => by omega⟩
  intro _
  exact ⟨b, by simp, ⟨hbc, by simp⟩, fun h0 => by omega, fun _ => ⟨hfree, rfl⟩, rfl⟩

/-! ## The two kinds of lengths -/

theorem Inv.writesRoom_of_sum (hI : Inv s) (ht : TakenHandle s h)
    (hn : TakenInode s (handleInode s h))
    (ho : (s.openFileTable h).ofOffset ≤ s.fsParams.blockSize)
    (hsum : toWrite + (s.openFileTable h).ofOffset < 2 ^ 64) :
    WritesRoom s h buffer toWrite ↔ 0 < roomFor s h toWrite ∨
      (s.openFileTable h).ofOffset ≤ (s.inodeTable (handleInode s h)).iSize := by
  have hlen := writeLength_of_sum hI.base ho hsum
  have hfit : 0 < roomFor s h toWrite →
      (s.openFileTable h).ofOffset + roomFor s h toWrite ≤ s.fsParams.blockSize := by
    unfold roomFor
    omega
  rcases Nat.eq_zero_or_pos (roomFor s h toWrite) with hk | hk
  · -- nothing to write: the state stays, whatever the size
    have hnone : tfsWrite s h buffer toWrite = .ok (0, s) := tfsWrite_none hI ht (hlen.trans hk)
    have hzero : WroteOnly s s h 0 buffer ↔ _ := wroteOnly_zero_iff
    rw [WritesRoom, hk, hnone, ← hzero]
    refine ⟨?_, ?_⟩
    · rintro (⟨-, -, h0, -⟩ | ⟨t, hret, hwrote⟩)
      · cases h0
      · cases hret
        exact .inr hwrote
    · intro hwrote
      exact .inr ⟨s, rfl, hwrote.resolve_left (by omega)⟩
  · refine iff_of_true ?_ (.inl hk)
    rcases Nat.eq_zero_or_pos (s.inodeTable (handleInode s h)).iSize with hz | hz
    · cases hf : freeBlock s with
      | none =>
        refine .inl ⟨tfsWrite_noSpace hI ht (by omega) hz hf, hz, hk, ?_⟩
        exact freeBlock_eq_none.mp hf
      | some b => exact .inr ⟨_, tfsWrite_first hI ht hlen hk hz hf (hfit hk), .first hk hf hz⟩
    · obtain ⟨b, hb, hb0, hbt⟩ := hI.file_block (hI.handles.inode h ht).2.1 hn hz
      exact .inr ⟨_, tfsWrite_over hI ht hlen hk hz hb hbt.1 (hfit hk), .put hk hb hbt hz⟩

theorem Inv.writesRoom_of_wrap (hI : Inv s) (ht : TakenHandle s h)
    (ho : (s.openFileTable h).ofOffset ≤ s.fsParams.blockSize) (hw : toWrite < 2 ^ 64)
    (hwrap : 2 ^ 64 ≤ toWrite + (s.openFileTable h).ofOffset) :
    WritesRoom s h buffer toWrite ↔ (s.inodeTable (handleInode s h)).iSize = 0 ∧
      (s.openFileTable h).ofOffset < s.fsParams.blockSize ∧
      ∀ b, b < s.fsParams.maxBlockCount → s.freeBlocks b = .taken := by
  have hbs := hI.base.blockSize_lt
  have hlen := writeLength_of_wrap ho hw hwrap
  have hroom : 0 < roomFor s h toWrite ↔ (s.openFileTable h).ofOffset < s.fsParams.blockSize := by
    unfold roomFor
    omega
  by_cases hfail : (s.inodeTable (handleInode s h)).iSize = 0 ∧ freeBlock s = none
  · -- no block for an empty file: the copy is not reached
    have hret : tfsWrite s h buffer toWrite = .ok (-1, s) :=
      tfsWrite_noSpace hI ht (by omega) hfail.1 hfail.2
    have hfull := freeBlock_eq_none.mp hfail.2
    rw [WritesRoom, hret]
    refine ⟨?_, fun hsafe => .inl ⟨rfl, hfail.1, hroom.mpr hsafe.2.1, hfull⟩⟩
    rintro (⟨-, hz, hk, -⟩ | ⟨t, ht', -⟩)
    · exact ⟨hz, hroom.mp hk, hfull⟩
    · have := congrArg Prod.fst (Except.ok.inj ht')
      simp only at this
      omega
  · -- the copy is reached, and leaves the data area
    have hnone : ∀ x, tfsWrite s h buffer toWrite ≠ .ok x := by
      intro x hx
      have hfit := (of_tfsWrite hI ht hx hlen (by omega) fun hz hf => hfail ⟨hz, hf⟩).1
      omega
    refine iff_of_false ?_ fun hsafe => hfail ⟨hsafe.1, freeBlock_eq_none.mpr hsafe.2.2⟩
    rintro (⟨hret, -⟩ | ⟨t, hret, -⟩)
    · exact hnone _ hret
    · exact hnone _ hret

/-- In every reachable state, a write through a handle that is in its block and on a
live inode writes what there is room for exactly when its length is safe. -/
theorem writes_room_iff {params : TfsParams} (hp : params.Sane)
    (hr : Reachable (Initial params) Steps s) (ht : TakenHandle s h)
    (hn : TakenInode s (handleInode s h))
    (ho : (s.openFileTable h).ofOffset ≤ s.fsParams.blockSize) (hw : toWrite < 2 ^ 64) :
    WritesRoom s h buffer toWrite ↔ LengthSafe s h toWrite := by
  have hI := inv_of_reachable hp hr
  have hbs := hI.base.blockSize_lt
  unfold LengthSafe
  by_cases hsum : toWrite + (s.openFileTable h).ofOffset < 2 ^ 64
  · rw [hI.writesRoom_of_sum ht hn ho hsum]
    refine ⟨fun hk => ⟨.inl hsum, hk⟩, fun hsafe => hsafe.2⟩
  · rw [hI.writesRoom_of_wrap ht ho hw (by omega)]
    refine ⟨?_, fun hsafe => hsafe.1.resolve_left hsum⟩
    intro hfail
    refine ⟨.inr hfail, .inl ?_⟩
    unfold roomFor
    omega

/-- The file `/a` with 5 bytes, and handle 0 at their end. -/
def written : FsState := after small [.open (some pathA) tfsOCreat, .write 0 (fun _ => 7) 5]

/-- 200 bytes written to it where there is room for 95. -/
theorem writes_room_written : WritesRoom written 0 (fun _ => 7) 200 := by
  apply (writes_room_iff smallParams_sane (reachable_after reachable_small _) (by decide)
    (by decide) (by decide) (by decide)).mpr
  refine ⟨.inl (by decide), .inr (by decide)⟩

/-- The longest write of all is not cut back, and does not return. -/
theorem longest_write_runs_out : ¬ ∀ params s h buffer toWrite, params.Sane →
    Reachable (Initial params) Steps s → TakenHandle s h → TakenInode s (handleInode s h) →
    (s.openFileTable h).ofOffset ≤ s.fsParams.blockSize → toWrite < 2 ^ 64 →
    WritesRoom s h buffer toWrite := by
  intro h
  have hwrites := h smallParams written 0 (fun _ => 7) (2 ^ 64 - 1) smallParams_sane
    (reachable_after reachable_small _) (by decide) (by decide) (by decide) (by decide)
  have hfault : tfsWrite written 0 (fun _ => 7) (2 ^ 64 - 1) = .error .undefined := by rfl
  rw [WritesRoom] at hwrites
  rcases hwrites with ⟨hret, -⟩ | ⟨t, hret, -⟩
  · have hret' : (.error .undefined : Except Fault (Int × FsState)) = _ := hfault.symm.trans hret
    cases hret'
  · have hret' : (.error .undefined : Except Fault (Int × FsState)) = _ := hfault.symm.trans hret
    cases hret'

end MBroker.Fs
