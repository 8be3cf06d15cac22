import MBroker.Fs.Directory
import MBroker.Fs.Operations

/- What holds of TecnicoFS after every call that returns, in four parts: the
   parameters and the root (`Base`), the directory against the inode table
   (`DirInv`), the inodes against the block table (`BlockInv`), and the open-file
   table against the inodes (`HandleInv`). A handle's inode may have been deleted
   and even given to another file, so `HandleInv` speaks of every inode a handle
   names, taken or not: its `i_data_block` is stale, but never the root's block.

   `gap` is what makes `clear_dir_entry` clear the entry `find_in_dir` found: it
   compares names without looking at `d_inumber`, and an empty entry that stands
   before a live one was live once, so its name was zeroed. -/
namespace MBroker.Fs
open MBroker.Lib

/-- Address of the root directory's block. -/
def rootAddr (s : FsState) : Nat :=
  szMul (s.inodeTable 0).iDataBlock.toNat s.fsParams.blockSize

def slotInum (s : FsState) (i : Nat) : Int := entryInum s.fsData (rootAddr s) i
def slotName (s : FsState) (i : Nat) : List UInt8 := entryName s.fsData (rootAddr s) i

/-- Slot `i` of the root directory is live. -/
def Live (s : FsState) (i : Nat) : Prop := i < s.maxDirEntries ∧ slotInum s i ≠ -1

def TakenInode (s : FsState) (n : Nat) : Prop :=
  n < s.fsParams.maxInodeCount ∧ s.freeinodeTs n = .taken

def TakenBlock (s : FsState) (b : Nat) : Prop :=
  b < s.fsParams.maxBlockCount ∧ s.freeBlocks b = .taken

def TakenHandle (s : FsState) (h : Nat) : Prop :=
  h < s.fsParams.maxOpenFilesCount ∧ s.freeOpenFileEntries h = .taken

instance (s : FsState) (n : Nat) : Decidable (TakenInode s n) := inferInstanceAs (Decidable (_ ∧ _))
instance (s : FsState) (b : Nat) : Decidable (TakenBlock s b) := inferInstanceAs (Decidable (_ ∧ _))
instance (s : FsState) (h : Nat) : Decidable (TakenHandle s h) :=
  inferInstanceAs (Decidable (_ ∧ _))

/-- The inode a handle names. -/
def handleInode (s : FsState) (h : Nat) : Nat := (s.openFileTable h).ofInumber.toNat

/-- The inode's size fits a block, and if it is not 0 the inode's block number is
that of a block other than the root's, taken or not. -/
structure InRange (s : FsState) (n : Nat) : Prop where
  size : (s.inodeTable n).iSize ≤ s.fsParams.blockSize
  block : 0 < (s.inodeTable n).iSize →
    ∃ b : Nat, (s.inodeTable n).iDataBlock = b ∧ 0 < b ∧ b < s.fsParams.maxBlockCount

structure Base (s : FsState) : Prop where
  sane : s.fsParams.Sane
  inodeCount : 0 < s.fsParams.maxInodeCount
  blockCount : 0 < s.fsParams.maxBlockCount
  rootInode : s.inodeTable 0 = ⟨.tDirectory, s.fsParams.blockSize, 0⟩
  rootTaken : s.freeinodeTs 0 = .taken
  rootBlock : s.freeBlocks 0 = .taken

structure DirInv (s : FsState) : Prop where
  name : ∀ i, Live s i → 1 ≤ (slotName s i).length ∧ (slotName s i).length ≤ 39
  file : ∀ i, Live s i → ∃ n : Nat, slotInum s i = n ∧ 0 < n ∧ TakenInode s n ∧
    (s.inodeTable n).iNodeType = .tFile
  nameInj : ∀ i j, Live s i → Live s j → slotName s i = slotName s j → i = j
  inumInj : ∀ i j, Live s i → Live s j → slotInum s i = slotInum s j → i = j
  gap : ∀ i j, i < j → Live s j → ¬ Live s i → slotName s i = []
  named : ∀ n, 0 < n → TakenInode s n → ∃ i, Live s i ∧ slotInum s i = n

structure BlockInv (s : FsState) : Prop where
  owns : ∀ n, TakenInode s n → 0 < (s.inodeTable n).iSize →
    ∃ b : Nat, (s.inodeTable n).iDataBlock = b ∧ TakenBlock s b
  excl : ∀ n m, TakenInode s n → TakenInode s m → 0 < (s.inodeTable n).iSize →
    0 < (s.inodeTable m).iSize → (s.inodeTable n).iDataBlock = (s.inodeTable m).iDataBlock → n = m
  size : ∀ n, TakenInode s n → (s.inodeTable n).iSize ≤ s.fsParams.blockSize

structure HandleInv (s : FsState) : Prop where
  inode : ∀ h, TakenHandle s h → (s.openFileTable h).ofInumber = handleInode s h ∧
    0 < handleInode s h ∧ handleInode s h < s.fsParams.maxInodeCount
  offset : ∀ h, TakenHandle s h → (s.openFileTable h).ofOffset < 2 ^ 63
  range : ∀ h, TakenHandle s h → InRange s (handleInode s h)

structure Inv (s : FsState) : Prop where
  base : Base s
  dir : DirInv s
  blocks : BlockInv s
  handles : HandleInv s

/-! ## Taken and free -/

theorem TakenInode.ne_free {s : FsState} {m n : Nat} (hm : TakenInode s m)
    (hn : s.freeinodeTs n = .free) : m ≠ n := by
  intro heq
  subst heq
  rw [hm.2] at hn
  cases hn

theorem TakenHandle.ne_free {s : FsState} {g h : Nat} (hg : TakenHandle s g)
    (hh : s.freeOpenFileEntries h = .free) : g ≠ h := by
  intro heq
  subst heq
  rw [hg.2] at hh
  cases hh

/-- No taken inode's data is in a free block. -/
theorem BlockInv.ne_free {s : FsState} (hB : BlockInv s) {m b : Nat} (hm : TakenInode s m)
    (hsz : 0 < (s.inodeTable m).iSize) (hb : s.freeBlocks b = .free) :
    (s.inodeTable m).iDataBlock ≠ b := by
  intro hmb
  obtain ⟨c, hc, hct⟩ := hB.owns m hm hsz
  obtain rfl : c = b := by omega
  rw [hct.2] at hb
  cases hb

/-! ## Sizes and block numbers in range -/

theorem InRange.congr {s t : FsState} {n : Nat} (h : InRange s n) (hp : t.fsParams = s.fsParams)
    (hi : t.inodeTable n = s.inodeTable n) : InRange t n := by
  refine ⟨?_, ?_⟩
  · rw [hp, hi]
    exact h.size
  · rw [hp, hi]
    exact h.block

/-- Inode `n` emptied, and the others as they were. -/
theorem InRange.emptied {s t : FsState} {m n : Nat} (h : InRange s m) (hp : t.fsParams = s.fsParams)
    (hz : (t.inodeTable n).iSize = 0) (hi : ∀ k, k ≠ n → t.inodeTable k = s.inodeTable k) :
    InRange t m := by
  by_cases hmn : m = n
  · rw [hmn]
    refine ⟨by omega, fun h0 => ?_⟩
    rw [hz] at h0
    cases h0
  · exact h.congr hp (hi m hmn)

/-! ## Arithmetic of the data area -/

theorem Base.rootAddr {s : FsState} (hB : Base s) : rootAddr s = 0 := by
  unfold Fs.rootAddr
  rw [hB.rootInode]
  simp [szMul]

theorem Base.areaSize {s : FsState} (hB : Base s) :
    s.areaSize = s.fsParams.maxBlockCount * s.fsParams.blockSize :=
  szMul_eq (Nat.lt_trans hB.sane.area (by decide))

/-- A block lies in the data area, and its address is computed without a wrap. -/
theorem Base.block_le {s : FsState} (hB : Base s) {b : Nat} (hb : b < s.fsParams.maxBlockCount) :
    b * s.fsParams.blockSize + s.fsParams.blockSize ≤ s.areaSize := by
  rw [hB.areaSize, ← Nat.succ_mul]
  exact Nat.mul_le_mul_right _ hb

theorem Base.blockAddr {s : FsState} (hB : Base s) {b : Nat} (hb : b < s.fsParams.maxBlockCount) :
    szMul b s.fsParams.blockSize = b * s.fsParams.blockSize := by
  have h1 := hB.block_le hb
  have h2 := hB.areaSize
  have h3 := hB.sane.area
  exact szMul_eq (by omega)

theorem Base.blockSize_lt {s : FsState} (hB : Base s) : s.fsParams.blockSize < 2 ^ 63 := by
  have h1 := hB.block_le hB.blockCount
  have h2 := hB.areaSize
  have h3 := hB.sane.area
  omega

/-- Every entry lies in the root's block. -/
theorem Base.entry_lt {s : FsState} {i x : Nat} (hi : i < s.maxDirEntries)
    (hx : x < dName 0 i + dirEntrySize) : x < s.fsParams.blockSize := by
  have h1 := dName_lt hi hx
  have h2 : s.maxDirEntries * dirEntrySize ≤ s.fsParams.blockSize := Nat.div_mul_le_self _ _
  omega

/-- Blocks of different numbers are apart. -/
theorem blocks_apart {b c : Nat} (bs : Nat) (hbc : b ≠ c) :
    b * bs + bs ≤ c * bs ∨ c * bs + bs ≤ b * bs := by
  rcases Nat.lt_or_gt_of_ne hbc with h | h
  · left
    rw [← Nat.succ_mul]
    exact Nat.mul_le_mul_right _ h
  · right
    rw [← Nat.succ_mul]
    exact Nat.mul_le_mul_right _ h

/-- A write within a block leaves the bytes of the other blocks. -/
theorem write_apart {m : Mem} {b c bs o k i : Nat} {f : Nat → UInt8} (hcb : c ≠ b)
    (hin : o + k ≤ bs) (hi : i < bs) : m.write (b * bs + o) k f (c * bs + i) = m (c * bs + i) := by
  apply Mem.write_out
  rcases blocks_apart bs hcb with h | h <;> omega

/-! ## Frames: states that agree on what a part reads -/

theorem Base.frame {s t : FsState} (hB : Base s) (hp : t.fsParams = s.fsParams)
    (hi : t.inodeTable 0 = s.inodeTable 0) (hf : t.freeinodeTs 0 = .taken)
    (hb : t.freeBlocks 0 = .taken) : Base t := by
  refine ⟨?_, ?_, ?_, ?_, hf, hb⟩
  · rw [hp]; exact hB.sane
  · rw [hp]; exact hB.inodeCount
  · rw [hp]; exact hB.blockCount
  · rw [hi, hp]; exact hB.rootInode

/-- The directories of `s` and `t` have the same slots. -/
structure SameSlots (s t : FsState) : Prop where
  params : t.fsParams = s.fsParams
  inum : ∀ i, i < s.maxDirEntries → slotInum t i = slotInum s i
  name : ∀ i, i < s.maxDirEntries → slotName t i = slotName s i

theorem maxDirEntries_eq {s t : FsState} (hp : t.fsParams = s.fsParams) :
    t.maxDirEntries = s.maxDirEntries := by
  unfold FsState.maxDirEntries
  rw [hp]

theorem SameSlots.live {s t : FsState} (h : SameSlots s t) (i : Nat) : Live t i ↔ Live s i := by
  unfold Live
  rw [maxDirEntries_eq h.params]
  refine ⟨?_, ?_⟩
  · intro hlive
    obtain ⟨hi, hl⟩ := hlive
    exact ⟨hi, by rwa [h.inum i hi] at hl⟩
  · intro hlive
    obtain ⟨hi, hl⟩ := hlive
    exact ⟨hi, by rwa [h.inum i hi]⟩

/-- States whose data areas agree on the root's block have the same slots. -/
theorem Base.sameSlots {s t : FsState} (hs : Base s) (ht : Base t) (hp : t.fsParams = s.fsParams)
    (hd : ∀ x, x < s.fsParams.blockSize → t.fsData x = s.fsData x) : SameSlots s t where
  params := hp
  inum i hi := by
    unfold slotInum
    rw [hs.rootAddr, ht.rootAddr]
    exact entryInum_congr fun x _ hx => hd x (Base.entry_lt hi hx)
  name i hi := by
    unfold slotName
    rw [hs.rootAddr, ht.rootAddr]
    exact entryName_congr fun x _ hx => hd x (Base.entry_lt hi hx)

theorem DirInv.frame {s t : FsState} (hD : DirInv s) (h : SameSlots s t)
    (hf : t.freeinodeTs = s.freeinodeTs)
    (hty : ∀ n, TakenInode s n → (t.inodeTable n).iNodeType = (s.inodeTable n).iNodeType) :
    DirInv t := by
  have htk : ∀ n, TakenInode t n ↔ TakenInode s n := by
    intro n
    unfold TakenInode
    rw [hf, h.params]
  refine ⟨?_, ?_, ?_, ?_, ?_, ?_⟩
  · intro i hi
    have hs := (h.live i).mp hi
    rw [h.name i hs.1]
    exact hD.name i hs
  · intro i hi
    have hs := (h.live i).mp hi
    obtain ⟨n, hn, h0, hn', hft⟩ := hD.file i hs
    exact ⟨n, by rw [h.inum i hs.1, hn], h0, (htk n).mpr hn', by rw [hty n hn', hft]⟩
  · intro i j hi hj hij
    have hsi := (h.live i).mp hi
    have hsj := (h.live j).mp hj
    rw [h.name i hsi.1, h.name j hsj.1] at hij
    exact hD.nameInj i j hsi hsj hij
  · intro i j hi hj hij
    have hsi := (h.live i).mp hi
    have hsj := (h.live j).mp hj
    rw [h.inum i hsi.1, h.inum j hsj.1] at hij
    exact hD.inumInj i j hsi hsj hij
  · intro i j hij hj hi
    have hsj := (h.live j).mp hj
    have hsi : ¬ Live s i := fun hl => hi ((h.live i).mpr hl)
    rw [h.name i (Nat.lt_trans hij hsj.1)]
    exact hD.gap i j hij hsj hsi
  · intro n h0 hn
    obtain ⟨i, hi, hin⟩ := hD.named n h0 ((htk n).mp hn)
    exact ⟨i, (h.live i).mpr hi, by rw [h.inum i hi.1, hin]⟩

/-- Where every non-empty taken inode of `t` was one of `s`, with a block that it
keeps and that stays taken. -/
theorem BlockInv.frame {s t : FsState} (hB : BlockInv s)
    (hold : ∀ n, TakenInode t n → 0 < (t.inodeTable n).iSize →
      TakenInode s n ∧ 0 < (s.inodeTable n).iSize ∧
      (t.inodeTable n).iDataBlock = (s.inodeTable n).iDataBlock ∧
      ∀ b : Nat, (s.inodeTable n).iDataBlock = b → TakenBlock s b → TakenBlock t b)
    (hsize : ∀ n, TakenInode t n → (t.inodeTable n).iSize ≤ t.fsParams.blockSize) :
    BlockInv t := by
  refine ⟨?_, ?_, hsize⟩
  · intro n hn h0
    obtain ⟨hs, hs0, hb, htk⟩ := hold n hn h0
    obtain ⟨b, hb', hbt⟩ := hB.owns n hs hs0
    exact ⟨b, by rw [hb, hb'], htk b hb' hbt⟩
  · intro n m hn hm hn0 hm0 hnm
    obtain ⟨hsn, hsn0, hbn, -⟩ := hold n hn hn0
    obtain ⟨hsm, hsm0, hbm, -⟩ := hold m hm hm0
    exact hB.excl n m hsn hsm hsn0 hsm0 (by rw [← hbn, ← hbm, hnm])

/-- Where every open handle of `t` was one of `s` on the same inode. -/
theorem HandleInv.frame {s t : FsState} (hH : HandleInv s) (hp : t.fsParams = s.fsParams)
    (hold : ∀ h, TakenHandle t h → TakenHandle s h ∧
      (t.openFileTable h).ofInumber = (s.openFileTable h).ofInumber ∧
      (t.openFileTable h).ofOffset < 2 ^ 63)
    (hr : ∀ n, 0 < n → InRange s n → InRange t n) : HandleInv t := by
  have hin : ∀ h, TakenHandle t h → handleInode t h = handleInode s h := by
    intro h ht
    unfold handleInode
    rw [(hold h ht).2.1]
  refine ⟨?_, fun h ht => (hold h ht).2.2, ?_⟩
  · intro h ht
    rw [hin h ht, (hold h ht).2.1, hp]
    exact hH.inode h (hold h ht).1
  · intro h ht
    have hs := (hold h ht).1
    rw [hin h ht]
    exact hr _ (hH.inode h hs).2.1 (hH.range h hs)

end MBroker.Fs
