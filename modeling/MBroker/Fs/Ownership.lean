import MBroker.Fs.Reach

/- What the invariant says to a user of the volume: the directory names exactly
   the files there are (`directory_sound`), and a block has at most one owner, so
   that neither a deletion, a truncation nor a write through a live handle
   touches the data of another file (`blocks_exclusive`). -/
namespace MBroker.Fs
open MBroker.Lib Function

/-! ## The directory -/

/-- `find_in_dir` would stop at slot `i` looking for `name`. -/
def SlotMatches (s : FsState) (name : CString) (i : Nat) : Prop :=
  Live s i ∧ s.fsData.strnEq (dName (rootAddr s) i) name.bytes maxFileName = true

structure DirectorySound (s : FsState) : Prop where
  /-- Names have 1 to 39 bytes and end in a NUL. -/
  name : ∀ i, Live s i → 1 ≤ (slotName s i).length ∧ (slotName s i).length ≤ maxFileName - 1 ∧
    s.fsData (dName (rootAddr s) i + (slotName s i).length) = 0
  distinct : ∀ i j, Live s i → Live s j → slotName s i = slotName s j → i = j
  inumDistinct : ∀ i j, Live s i → Live s j → slotInum s i = slotInum s j → i = j
  file : ∀ i, Live s i → ∃ n : Nat, slotInum s i = n ∧ slotInum s i ≠ rootDirInum ∧
    TakenInode s n ∧ (s.inodeTable n).iNodeType = .tFile
  named : ∀ n : Nat, (n : Int) ≠ rootDirInum → TakenInode s n →
    ∃! i, Live s i ∧ slotInum s i = n
  findOne : ∀ name i j, SlotMatches s name i → SlotMatches s name j → slotInum s i = slotInum s j

theorem Inv.directorySound {s : FsState} (hI : Inv s) : DirectorySound s := by
  have hD := hI.dir
  refine ⟨fun i hi => ?_, hD.nameInj, hD.inumInj, fun i hi => ?_, fun n hn0 hn => ?_,
    fun name i j hi hj => ?_⟩
  · obtain ⟨h1, h39⟩ := hD.name i hi
    refine ⟨h1, h39, Mem.cstr_nul ?_⟩
    show (slotName s i).length < maxFileName
    simp only [maxFileName]
    omega
  · obtain ⟨n, hin, hn0, hn, hft⟩ := hD.file i hi
    refine ⟨n, hin, ?_, hn, hft⟩
    rw [hin, rootDirInum]
    omega
  · obtain ⟨i, hi, hin⟩ := hD.named n (by simp only [rootDirInum] at hn0; omega) hn
    refine ⟨i, ⟨hi, hin⟩, ?_⟩
    intro j hj
    obtain ⟨hj, hjn⟩ := hj
    exact hD.inumInj j i hj hi (by rw [hjn, hin])
  · have hni := (strnEq_entryName (hD.name i hi.1).2).mp hi.2
    have hnj := (strnEq_entryName (hD.name j hj.1).2).mp hj.2
    have hij : i = j := hD.nameInj i j hi.1 hj.1 (hni.trans hnj.symm)
    rw [hij]

/-- In every reachable state the live slots and the files are in bijection. -/
theorem directory_sound {params : TfsParams} {s : FsState} (hp : params.Sane)
    (h : Reachable (Initial params) Steps s) : DirectorySound s :=
  (inv_of_reachable hp h).directorySound

/-- Two files made, one of them written to, and the other unlinked. -/
theorem directory_sound_small : DirectorySound (after small
    [.open (some pathA) tfsOCreat, .open (some pathB) tfsOCreat, .write 1 (fun _ => 7) 5,
      .unlink (some pathA)]) :=
  directory_sound smallParams_sane (reachable_after reachable_small _)

/-! ## Blocks -/

/-- The bytes of block `b`. -/
def InBlock (s : FsState) (b x : Nat) : Prop :=
  b * s.fsParams.blockSize ≤ x ∧ x < b * s.fsParams.blockSize + s.fsParams.blockSize

/-- The call unlinks `n`'s name or opens it with TFS_O_TRUNC. -/
inductive Discards (s : FsState) (n : Nat) : Op → Prop
  | unlink {p : CString} {i : Nat} (hb : Binds s i p.tail.bytes n) : Discards s n (.unlink (some p))
  | truncate {p : CString} {mode : BitVec 32} {i : Nat} (hb : Binds s i p.tail.bytes n)
      (ht : hasFlag mode tfsOTrunc = true) : Discards s n (.open (some p) mode)

/-- Inode `n` is a taken one whose data is in block `b`. -/
structure Owns (s : FsState) (n b : Nat) : Prop where
  taken : TakenInode s n
  size : 0 < (s.inodeTable n).iSize
  block : (s.inodeTable n).iDataBlock = b

structure BlocksExclusive (s : FsState) : Prop where
  owns : ∀ n, TakenInode s n → 0 < (s.inodeTable n).iSize → ∃ b, Owns s n b ∧ TakenBlock s b
  exclusive : ∀ n m b, Owns s n b → Owns s m b → n = m
  root : ∃ b, Owns s 0 b ∧ ∀ n, Owns s n b → n = 0
  /-- A call frees a block only where the file it discards is the block's owner. -/
  freed : ∀ op t b, Steps s op t → TakenBlock s b → ¬ TakenBlock t b →
    ∃ n, Discards s n op ∧ Owns s n b ∧ ∀ m, Owns s m b → m = n
  /-- A write through a handle on a taken inode leaves every other taken inode's
  block as it was. -/
  write : ∀ (h : Nat) buffer toWrite t, TakenHandle s h → TakenInode s (handleInode s h) →
    Steps s (.write h buffer toWrite) t → ∀ m b x, m ≠ handleInode s h → Owns s m b →
    InBlock s b x → t.fsData x = s.fsData x

variable {s t : FsState}

theorem addToOpenFileTable_freeBlocks (s : FsState) (n offset : Nat) :
    (addToOpenFileTable s n offset).2.freeBlocks = s.freeBlocks :=
  addToOpenFileTable_frame (f := fun s => s.freeBlocks) fun _ => rfl

theorem cut_freeBlocks {mode : BitVec 32} {n b : Nat} (ht : s.freeBlocks b = .taken)
    (hf : (s.cut mode n).freeBlocks b ≠ .taken) : hasFlag mode tfsOTrunc = true ∧
      0 < (s.inodeTable n).iSize ∧ b = (s.inodeTable n).iDataBlock.toNat := by
  unfold FsState.cut at hf
  split at hf
  · next hc =>
    refine ⟨hc.1, hc.2, ?_⟩
    by_contra hne
    exact hf (by simp [hne, ht])
  · exact absurd ht hf

/-- The only calls that free a block are those that discard its owner. -/
theorem Effect.freed (hI : Inv s) {op : Op} {r : Ret} (h : Effect s op r t) {b : Nat}
    (ht : s.freeBlocks b = .taken) (hf : t.freeBlocks b ≠ .taken) :
    ∃ n, Discards s n op ∧ Owns s n b := by
  cases h with
  | openInvalid | openMissing | openNoInode | closeBad | readBad | readNone | writeBad | writeNone
  | writeNoSpace | unlinkInvalid | unlinkMissing => exact absurd ht hf
  | openNoEntry | closeDone | readSome | writeOver => exact absurd ht hf
  | @openFound p mode i n hv hb =>
    rw [addToOpenFileTable_freeBlocks] at hf
    obtain ⟨hn0, hn, -⟩ := hI.live_inode hb.live hb.inum
    obtain ⟨htr, hsz, hbn⟩ := cut_freeBlocks ht hf
    obtain ⟨c, hc, -⟩ := hI.blocks.owns n hn hsz
    refine ⟨n, .truncate hb htr, hn, hsz, ?_⟩
    rw [hc] at hbn ⊢
    rw [hbn, Int.toNat_natCast]
  | openCreated =>
    rw [addToOpenFileTable_freeBlocks] at hf
    exact absurd ht hf
  | @writeFirst h k c buffer toWrite hth hk hk0 hz hfb hin =>
    refine absurd ?_ hf
    by_cases hbc : b = c
    · simp [hbc]
    · simp [hbc, ht]
  | @unlinkDone p i n hv hb =>
    obtain ⟨hn0, hn, -⟩ := hI.live_inode hb.live hb.inum
    rw [FsState.unbind_freeBlocks] at hf
    split at hf
    · next hsz =>
      obtain ⟨c, hc, -⟩ := hI.blocks.owns n hn hsz
      refine ⟨n, .unlink hb, hn, hsz, ?_⟩
      by_contra hne
      rw [hc, Int.toNat_natCast] at hf
      rw [hc] at hne
      have hbc : b ≠ c := fun h => hne (by rw [h])
      exact hf (by simp [hbc, ht])
    · exact absurd ht hf

/-- Where a write writes: in the block its inode had, or in a free one. -/
theorem Effect.write_data {h : Nat} {buffer : Nat → UInt8} {toWrite : Nat} {r : Ret}
    (he : Effect s (.write h buffer toWrite) r t) :
    t.fsData = s.fsData ∨ ∃ b, (∀ x, ¬ InBlock s b x → t.fsData x = s.fsData x) ∧
      (((s.inodeTable (handleInode s h)).iSize = 0 ∧ freeBlock s = some b) ∨
        (0 < (s.inodeTable (handleInode s h)).iSize ∧
          (s.inodeTable (handleInode s h)).iDataBlock = b)) := by
  generalize hop : Op.write h buffer toWrite = op at he
  have hout : ∀ {u : FsState} {g k b : Nat} {buf : Nat → UInt8},
      u.fsParams = s.fsParams → u.openFileTable = s.openFileTable → u.fsData = s.fsData →
      (s.openFileTable g).ofOffset + k ≤ s.fsParams.blockSize →
      ∀ x, ¬ InBlock s b x → (u.put g (handleInode s g) b k buf).fsData x = s.fsData x := by
    intro u g k b buf hp ho hd hin x hx
    rw [FsState.put_fsData, hp, ho, hd]
    apply Mem.write_out
    unfold InBlock at hx
    omega
  cases he with
  | writeBad | writeNone | writeNoSpace => exact .inl rfl
  | writeFirst ht hk hk0 hz hf hin =>
    cases hop
    exact .inr ⟨_, hout rfl rfl rfl hin, .inl ⟨hz, hf⟩⟩
  | writeOver ht hk hk0 hz hb hb0 hbc hin =>
    cases hop
    exact .inr ⟨_, hout rfl rfl rfl hin, .inr ⟨hz, hb⟩⟩
  | _ => cases hop

theorem inBlock_unique {b c x : Nat} (hb : InBlock s b x) (hc : InBlock s c x) : b = c := by
  by_contra hne
  unfold InBlock at *
  rcases blocks_apart s.fsParams.blockSize hne with h | h <;> omega

theorem Inv.blocksExclusive (hI : Inv s) : BlocksExclusive s := by
  have hexcl : ∀ n m b, Owns s n b → Owns s m b → n = m := fun n m b hn hm =>
    hI.blocks.excl n m hn.taken hm.taken hn.size hm.size (by rw [hn.block, hm.block])
  have hroot : Owns s 0 0 := by
    refine ⟨⟨hI.base.inodeCount, hI.base.rootTaken⟩, ?_, ?_⟩
    · rw [hI.base.rootInode]
      exact hI.base.sane.blockSize
    · rw [hI.base.rootInode]
      rfl
  refine ⟨fun n hn hsz => ?_, hexcl, ⟨0, hroot, fun n hn => hexcl n 0 0 hn hroot⟩,
    fun op t b hst hb hnb => ?_, fun h buffer toWrite t ht hn hst m b x hm hown hx => ?_⟩
  · obtain ⟨b, hb, hbt⟩ := hI.blocks.owns n hn hsz
    exact ⟨b, ⟨hn, hsz, hb⟩, hbt⟩
  · obtain ⟨r, hr⟩ := hst
    have he := step_effect hI hr
    have hparams : t.fsParams = s.fsParams := he.fsParams
    have hfree : t.freeBlocks b ≠ .taken := fun hc => hnb ⟨by rw [hparams]; exact hb.1, hc⟩
    obtain ⟨n, hd, hown⟩ := he.freed hI hb.2 hfree
    exact ⟨n, hd, hown, fun m hm => hexcl m n b hm hown⟩
  · obtain ⟨r, hr⟩ := hst
    rcases (step_effect hI hr).write_data with hsame | ⟨c, hout, hc⟩
    · rw [hsame]
    · apply hout x
      intro hxc
      obtain rfl : c = b := inBlock_unique hxc hx
      rcases hc with ⟨hz, hf⟩ | ⟨hz, hc⟩
      · -- a free block has no owner
        exact hI.blocks.ne_free hown.taken hown.size (freeBlock_some hf).2 hown.block
      · exact hm (hexcl m _ c hown ⟨hn, hz, hc⟩)

/-- In every reachable state a block has one owner at most, and the calls respect
it. -/
theorem blocks_exclusive {params : TfsParams} {s : FsState} (hp : params.Sane)
    (h : Reachable (Initial params) Steps s) : BlocksExclusive s :=
  (inv_of_reachable hp h).blocksExclusive

/-- A handle on an unlinked file, whose inode was given to another file. -/
theorem blocks_exclusive_small : BlocksExclusive (after small
    [.open (some pathA) tfsOCreat, .write 0 (fun _ => 7) 5, .unlink (some pathA),
      .open (some pathB) tfsOCreat, .write 0 (fun _ => 7) 5]) :=
  blocks_exclusive smallParams_sane (reachable_after reachable_small _)

end MBroker.Fs
