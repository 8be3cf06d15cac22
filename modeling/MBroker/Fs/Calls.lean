import MBroker.Fs.Moves

/- Each call as the moves it makes, in a state with the invariant: what the loops
   over the tables find, what the functions of fs/state.c then do, and from these
   one equation for each way a call can go. -/
namespace MBroker.Fs
open MBroker.Lib Function

/-- The inode, block, handle and slot that the allocating loops find. -/
def freeInode (s : FsState) : Option Nat :=
  firstIndex (fun i => s.freeinodeTs i = .free) s.fsParams.maxInodeCount

def freeBlock (s : FsState) : Option Nat :=
  firstIndex (fun i => s.freeBlocks i = .free) s.fsParams.maxBlockCount

def freeHandle (s : FsState) : Option Nat :=
  firstIndex (fun i => s.freeOpenFileEntries i = .free) s.fsParams.maxOpenFilesCount

def emptySlot (s : FsState) : Option Nat :=
  firstIndex (fun i => slotInum s i = -1) s.maxDirEntries

/-- Slot `i` binds `name` to inode `n`. -/
structure Binds (s : FsState) (i : Nat) (name : List UInt8) (n : Nat) : Prop where
  live : Live s i
  name : slotName s i = name
  inum : slotInum s i = n

/-- No file is called `name`. -/
def Missing (s : FsState) (name : List UInt8) : Prop := ∀ i, Live s i → slotName s i ≠ name

/-- The inode of the file called `name`. -/
def lookup (s : FsState) (name : List UInt8) : Option Nat :=
  (firstIndex (fun i => slotInum s i ≠ -1 && slotName s i = name) s.maxDirEntries).map
    fun i => (slotInum s i).toNat

namespace FsState

/-- What an open of the existing file on inode `n` does to the file. -/
def cut (s : FsState) (mode : BitVec 32) (n : Nat) : FsState :=
  if hasFlag mode tfsOTrunc = true ∧ 0 < (s.inodeTable n).iSize then s.truncate n else s

/-- The offset an open of the existing file on inode `n` starts at. -/
def openOffset (s : FsState) (mode : BitVec 32) (n : Nat) : Nat :=
  if hasFlag mode tfsOAppend then ((s.cut mode n).inodeTable n).iSize else 0

/-- A free inode taken and initialised, before its name is entered. -/
@[simps] def takeInode (s : FsState) (n : Nat) : FsState :=
  { s with
    inodeTable := update s.inodeTable n ⟨.tFile, 0, -1⟩
    freeinodeTs := update s.freeinodeTs n .taken }

end FsState

variable {s : FsState}

/-! ## The loops -/

theorem freeInode_some {n : Nat} (h : freeInode s = some n) :
    n < s.fsParams.maxInodeCount ∧ s.freeinodeTs n = .free := by
  obtain ⟨hn, hf, -⟩ := firstIndex_eq_some.mp h
  exact ⟨hn, by simpa using hf⟩

theorem freeBlock_some {b : Nat} (h : freeBlock s = some b) :
    b < s.fsParams.maxBlockCount ∧ s.freeBlocks b = .free := by
  obtain ⟨hb, hf, -⟩ := firstIndex_eq_some.mp h
  exact ⟨hb, by simpa using hf⟩

theorem freeHandle_some {h : Nat} (hh : freeHandle s = some h) :
    h < s.fsParams.maxOpenFilesCount ∧ s.freeOpenFileEntries h = .free := by
  obtain ⟨hlt, hf, -⟩ := firstIndex_eq_some.mp hh
  exact ⟨hlt, by simpa using hf⟩

theorem emptySlot_some {i : Nat} (h : emptySlot s = some i) :
    i < s.maxDirEntries ∧ ¬ Live s i ∧ ∀ j, j < i → Live s j := by
  obtain ⟨hi, he, hj⟩ := firstIndex_eq_some.mp h
  refine ⟨hi, fun hl => hl.2 (by simpa using he), fun j hji => ⟨by omega, ?_⟩⟩
  simpa using hj j hji

/-- A free inode is not the root. -/
theorem Base.freeInode_pos (hB : Base s) {n : Nat} (h : freeInode s = some n) : 0 < n := by
  apply Nat.pos_of_ne_zero
  intro hn
  have hf := (freeInode_some h).2
  rw [hn, hB.rootTaken] at hf
  cases hf

/-- A name is missing or bound. -/
theorem DirInv.missing_or_binds (hD : DirInv s) (name : List UInt8) :
    Missing s name ∨ ∃ i n, Binds s i name n := by
  by_cases h : ∃ i, Live s i ∧ slotName s i = name
  · obtain ⟨i, hi, hin⟩ := h
    obtain ⟨n, hn, -⟩ := hD.file i hi
    exact .inr ⟨i, n, hi, hin, hn⟩
  · exact .inl fun i hi hin => h ⟨i, hi, hin⟩

theorem lookup_of_missing {name : List UInt8} (h : Missing s name) : lookup s name = none := by
  rw [lookup, firstIndex_eq_none.mpr]
  · rfl
  · intro i hi
    by_cases hl : slotInum s i = -1
    · simp [hl]
    · have := h i ⟨hi, hl⟩
      simp [this]

theorem lookup_of_binds (hD : DirInv s) {i n : Nat} {name : List UInt8} (h : Binds s i name n) :
    lookup s name = some n := by
  have hfirst : firstIndex (fun j => slotInum s j ≠ -1 && slotName s j = name) s.maxDirEntries =
      some i := by
    have hl := h.live.2
    refine firstIndex_unique h.live.1 (by simp [hl, h.name]) fun j hj hp => ?_
    simp only [ne_eq, Bool.and_eq_true, decide_eq_true_eq] at hp
    exact hD.nameInj j i ⟨hj, hp.1⟩ h.live (by rw [hp.2, h.name])
  rw [lookup, hfirst, Option.map_some, h.inum, Int.toNat_natCast]

/-! ## The functions of fs/state.c -/

theorem inodeGet_eq {n : Nat} (hn : n < s.fsParams.maxInodeCount) : inodeGet s n = .ok n := by
  have hv : validInumber s n = true := by simp [validInumber, hn]
  simp [inodeGet, alwaysAssert, hv, bind, Except.bind, pure, Except.pure]

theorem validBlockNumber_iff {i : Int} :
    validBlockNumber s i = true ↔ ∃ b : Nat, i = b ∧ b < s.fsParams.maxBlockCount := by
  simp only [validBlockNumber, Bool.and_eq_true, decide_eq_true_eq]
  refine ⟨fun h => ⟨i.toNat, by omega, by omega⟩, ?_⟩
  intro ⟨b, hb, hlt⟩
  omega

theorem dataBlockGet_eq (hB : Base s) {b : Nat} (hb : b < s.fsParams.maxBlockCount) :
    dataBlockGet s b = .ok (b * s.fsParams.blockSize) := by
  have hv : validBlockNumber s b = true := by simp [validBlockNumber, hb]
  have haddr := hB.blockAddr hb
  simp [dataBlockGet, alwaysAssert, hv, haddr, bind, Except.bind, pure, Except.pure]

theorem dataBlockFree_eq {b : Nat} (hb : b < s.fsParams.maxBlockCount) :
    dataBlockFree s b = .ok (s.setFreeBlock b .free) := by
  have hv : validBlockNumber s b = true := by simp [validBlockNumber, hb]
  simp [dataBlockFree, alwaysAssert, hv, bind, Except.bind, pure, Except.pure]

/-- The root directory and the address of its entries, as the directory
functions find them. -/
theorem Base.directory (hB : Base s) :
    (s.inodeTable 0).iNodeType = .tDirectory ∧
      dataBlockGet s (s.inodeTable 0).iDataBlock = .ok 0 := by
  rw [hB.rootInode]
  refine ⟨rfl, ?_⟩
  have h := dataBlockGet_eq hB hB.blockCount
  rwa [Nat.zero_mul] at h

theorem findInDir_of_missing (hI : Inv s) {name : CString} (hm : Missing s name.bytes) :
    findInDir s 0 name = .ok (-1) := by
  obtain ⟨hty, hget⟩ := hI.base.directory
  have hnone : firstIndex (fun i => s.fsData.loadInt (dInumber 0 i) ≠ -1 &&
      s.fsData.strnEq (dName 0 i) name.bytes maxFileName) s.maxDirEntries = none := by
    rw [firstIndex_eq_none]
    intro i hi
    by_cases hl : slotInum s i = -1
    · have : s.fsData.loadInt (dInumber 0 i) = -1 := by rwa [slotInum, hI.base.rootAddr] at hl
      simp [this]
    · have hlen := (hI.dir.name i ⟨hi, hl⟩).2
      have hne := hm i ⟨hi, hl⟩
      rw [slotName, hI.base.rootAddr] at hlen hne
      rw [Ne, ← strnEq_entryName hlen, Bool.not_eq_true] at hne
      rw [hne, Bool.and_false]
  rw [findInDir, if_neg (by simp [hty]), hget]
  simp only [bind, Except.bind]
  rw [hnone]
  rfl

theorem findInDir_of_binds (hI : Inv s) {name : CString} {i n : Nat}
    (hb : Binds s i name.bytes n) : findInDir s 0 name = .ok n := by
  obtain ⟨hty, hget⟩ := hI.base.directory
  have hat : ∀ j, j < s.maxDirEntries →
      ((s.fsData.loadInt (dInumber 0 j) ≠ -1 &&
        s.fsData.strnEq (dName 0 j) name.bytes maxFileName) = true ↔
        Live s j ∧ slotName s j = name.bytes) := by
    intro j hj
    by_cases hl : Live s j
    · have hlen := (hI.dir.name j hl).2
      have hinum := hl.2
      rw [slotName, hI.base.rootAddr] at hlen
      rw [slotInum, hI.base.rootAddr] at hinum
      have heq := @strnEq_entryName _ _ _ name hlen
      rw [slotName, hI.base.rootAddr]
      simp only [hl, true_and, ← heq]
      have : s.fsData.loadInt (dInumber 0 j) ≠ -1 := hinum
      simp [this]
    · have : s.fsData.loadInt (dInumber 0 j) = -1 := by
        by_contra hne
        exact hl ⟨hj, by rw [slotInum, hI.base.rootAddr]; exact hne⟩
      simp [this, hl]
  have hfirst : firstIndex (fun i => s.fsData.loadInt (dInumber 0 i) ≠ -1 &&
      s.fsData.strnEq (dName 0 i) name.bytes maxFileName) s.maxDirEntries = some i := by
    refine firstIndex_unique hb.live.1 ((hat i hb.live.1).mpr ⟨hb.live, hb.name⟩) fun j hj hp => ?_
    obtain ⟨hl, hn⟩ := (hat j hj).mp hp
    exact hI.dir.nameInj j i hl hb.live (by rw [hn, hb.name])
  have hinum : s.fsData.loadInt (dInumber 0 i) = n := by
    have h := hb.inum
    rwa [slotInum, hI.base.rootAddr] at h
  rw [findInDir, if_neg (by simp [hty]), hget]
  simp only [bind, Except.bind]
  rw [hfirst, ← hinum]
  rfl

theorem addToOpenFileTable_of_some {h n offset : Nat} (hh : freeHandle s = some h) :
    addToOpenFileTable s n offset = ((h : Int), s.openHandle h n offset) := by
  unfold freeHandle at hh
  unfold addToOpenFileTable
  rw [hh]
  rfl

theorem addToOpenFileTable_of_none {n offset : Nat} (hh : freeHandle s = none) :
    addToOpenFileTable s n offset = (-1, s) := by
  unfold freeHandle at hh
  unfold addToOpenFileTable
  rw [hh]

/-- What a new handle leaves as it was, `addToOpenFileTable` does. -/
theorem addToOpenFileTable_frame {B : Type} {f : FsState → B} {n offset : Nat}
    (hf : ∀ h, f (s.openHandle h n offset) = f s) : f (addToOpenFileTable s n offset).2 = f s := by
  cases hh : freeHandle s with
  | none => rw [addToOpenFileTable_of_none hh]
  | some h =>
    rw [addToOpenFileTable_of_some hh]
    exact hf h

theorem inodeCreate_of_none (hn : freeInode s = none) :
    inodeCreate s .tFile = .ok (-1, s) := by
  unfold freeInode at hn
  simp [inodeCreate, inodeAlloc, hn, pure, Except.pure]

theorem inodeCreate_of_some (hB : Base s) {n : Nat} (hn : freeInode s = some n) :
    inodeCreate s .tFile = .ok ((n : Int), s.takeInode n) := by
  have hlt := (freeInode_some hn).1
  have hsane := hB.sane.inodes
  unfold freeInode at hn
  have hint : toInt n = n := toInt_eq (by omega)
  have h1 : ¬ (n : Int) = -1 := by omega
  have h2 : ¬ (n : Int) < 0 := by omega
  simp [inodeCreate, inodeAlloc, hn, hint, h1, h2, pure, Except.pure, FsState.setInode,
    FsState.setFreeinode, FsState.takeInode]

theorem Base.emptySlot_eq (hB : Base s) :
    emptySlot s = firstIndex (fun i => s.fsData.loadInt (dInumber 0 i) = -1) s.maxDirEntries := by
  apply firstIndex_congr
  intro i _
  rw [slotInum, hB.rootAddr]
  rfl

theorem addDirEntry_of_fails (hB : Base s) {name : CString} {n : Int}
    (he : 39 < name.bytes.length ∨ emptySlot s = none) :
    addDirEntry s 0 name n = .ok (-1, s) := by
  obtain ⟨hty, hget⟩ := hB.directory
  by_cases hl : name.bytes.length = 0 ∨ maxFileName - 1 < name.bytes.length
  · rw [addDirEntry, if_pos hl]
    rfl
  · have hnone : emptySlot s = none := he.resolve_left fun h => hl (.inr h)
    rw [addDirEntry, if_neg hl, if_neg (by simp [hty]), hget]
    simp only [bind, Except.bind]
    rw [← hB.emptySlot_eq, hnone]
    rfl

theorem addDirEntry_of_some (hB : Base s) {name : CString} {n : Int} {i : Nat}
    (hl : 1 ≤ name.bytes.length ∧ name.bytes.length ≤ 39) (he : emptySlot s = some i) :
    addDirEntry s 0 name n =
      .ok (0, { s with fsData := writeEntry s.fsData 0 i name.bytes n }) := by
  obtain ⟨hty, hget⟩ := hB.directory
  have hl' : ¬ (name.bytes.length = 0 ∨ maxFileName - 1 < name.bytes.length) := by
    simp only [maxFileName]
    omega
  rw [addDirEntry, if_neg hl', if_neg (by simp [hty]), hget]
  simp only [bind, Except.bind]
  rw [← hB.emptySlot_eq, he]
  rfl

/-- `clear_dir_entry` clears the slot that binds the name: the entries before it
are live under other names, or were cleared themselves. -/
theorem clearDirEntry_of_binds (hI : Inv s) {t : FsState} {name : CString} {i n : Nat}
    (hb : Binds s i name.bytes n) (ht : Base t) (hd : t.fsData = s.fsData)
    (hp : t.fsParams = s.fsParams) :
    clearDirEntry t 0 name = .ok (0, { t with fsData := clearEntry t.fsData 0 i }) := by
  obtain ⟨hty, hget⟩ := ht.directory
  have hlen := hI.dir.name i hb.live
  rw [hb.name] at hlen
  have hat : ∀ j, t.fsData.strEq (dName 0 j) name.bytes = true ↔ slotName s j = name.bytes := by
    intro j
    rw [hd, slotName, hI.base.rootAddr]
    exact strEq_entryName hlen.2
  have hfirst : firstIndex (fun i => t.fsData.strEq (dName 0 i) name.bytes) t.maxDirEntries =
      some i := by
    rw [maxDirEntries_eq hp, firstIndex_eq_some]
    refine ⟨hb.live.1, (hat i).mpr hb.name, fun j hji => ?_⟩
    rw [← Bool.not_eq_true, hat]
    intro hj
    by_cases hl : Live s j
    · have := hI.dir.nameInj j i hl hb.live (by rw [hj, hb.name])
      omega
    · rw [hI.dir.gap j i hji hb.live hl] at hj
      rw [← hj] at hlen
      simp at hlen
  simp [clearDirEntry, hty, hget, hfirst, clearEntry, bind, Except.bind, pure, Except.pure]

theorem inodeDelete_eq (hI : Inv s) {n : Nat} (hn : TakenInode s n) (hn0 : 0 < n) :
    inodeDelete s n = .ok { s with
      freeBlocks := if 0 < (s.inodeTable n).iSize
        then update s.freeBlocks (s.inodeTable n).iDataBlock.toNat .free else s.freeBlocks
      freeinodeTs := update s.freeinodeTs n .free } := by
  have hv : validInumber s n = true := by simp [validInumber, hn.1]
  by_cases hsz : 0 < (s.inodeTable n).iSize
  · obtain ⟨b, hb, -, hbt⟩ := hI.file_block hn0 hn hsz
    have hfree := dataBlockFree_eq (s := s) hbt.1
    simp [inodeDelete, alwaysAssert, hv, hn.2, hsz, hb, hfree, bind, Except.bind, pure,
      Except.pure, FsState.setFreeBlock, FsState.setFreeinode]
  · simp [inodeDelete, alwaysAssert, hv, hn.2, hsz, bind, Except.bind, pure, Except.pure,
      FsState.setFreeinode]

/-! ## The calls -/

theorem validPathname_tail {p : CString} (hv : validPathname p = true) :
    1 ≤ p.tail.bytes.length := by
  simp only [validPathname, Bool.and_eq_true, decide_eq_true_eq] at hv
  have : p.tail.bytes.length = p.bytes.length - 1 := List.length_tail ..
  omega

theorem tfsLookup_eq {p : CString} (hv : validPathname p = true) :
    tfsLookup s p 0 = findInDir s 0 p.tail := by
  simp [tfsLookup, hv]

/-- An open, past the lookup. -/
theorem tfsOpen_eq (hI : Inv s) {p : CString} {mode : BitVec 32} (hv : validPathname p = true) :
    tfsOpen s (some p) mode = (do
      let inum ← findInDir s 0 p.tail
      if 0 ≤ inum then
        let inode ← inodeGet s inum
        let s ←
          if hasFlag mode tfsOTrunc ∧ 0 < (s.inodeTable inode).iSize then do
            let s ← dataBlockFree s (s.inodeTable inode).iDataBlock
            pure (s.setInode inode { s.inodeTable inode with iSize := 0 })
          else pure s
        let offset := if hasFlag mode tfsOAppend then (s.inodeTable inode).iSize else 0
        return addToOpenFileTable s inum offset
      else if hasFlag mode tfsOCreat then
        let (inum, s) ← inodeCreate s .tFile
        if inum = -1 then return (-1, s)
        let (added, s) ← addDirEntry s 0 p.tail inum
        if added = -1 then
          let s ← inodeDelete s inum
          return (-1, s)
        return addToOpenFileTable s inum 0
      else return (-1, s)) := by
  have hroot : inodeGet s rootDirInum = .ok 0 := inodeGet_eq hI.base.inodeCount
  simp only [tfsOpen, hv, hroot, tfsLookup_eq hv, bind, Except.bind, Bool.not_true,
    Bool.false_eq_true, if_false]

theorem tfsOpen_found (hI : Inv s) {p : CString} {mode : BitVec 32} {i n : Nat}
    (hv : validPathname p = true) (hb : Binds s i p.tail.bytes n) :
    tfsOpen s (some p) mode =
      .ok (addToOpenFileTable (s.cut mode n) n (s.openOffset mode n)) := by
  obtain ⟨hn0, hn, -⟩ := hI.live_inode hb.live hb.inum
  rw [tfsOpen_eq hI hv, findInDir_of_binds hI hb]
  simp only [bind, Except.bind, Int.natCast_nonneg, if_true, inodeGet_eq hn.1]
  by_cases hc : hasFlag mode tfsOTrunc = true ∧ 0 < (s.inodeTable n).iSize
  · obtain ⟨b, hib, -, hbt⟩ := hI.file_block hn0 hn hc.2
    have hcut : s.cut mode n = (s.setFreeBlock b .free).setInode n
        { (s.setFreeBlock b .free).inodeTable n with iSize := 0 } := by
      rw [FsState.cut, if_pos hc, FsState.truncate, hib]
      rfl
    rw [if_pos hc, hib, dataBlockFree_eq hbt.1, FsState.openOffset, hcut]
    rfl
  · rw [if_neg hc, FsState.openOffset, FsState.cut, if_neg hc]
    rfl

theorem tfsOpen_missing (hI : Inv s) {p : CString} {mode : BitVec 32}
    (hv : validPathname p = true) (hm : Missing s p.tail.bytes)
    (hc : hasFlag mode tfsOCreat = false) : tfsOpen s (some p) mode = .ok (-1, s) := by
  rw [tfsOpen_eq hI hv, findInDir_of_missing hI hm]
  simp [bind, Except.bind, hc, pure, Except.pure]

/-- An open that creates, past the lookup. -/
theorem tfsOpen_create (hI : Inv s) {p : CString} {mode : BitVec 32}
    (hv : validPathname p = true) (hm : Missing s p.tail.bytes)
    (hc : hasFlag mode tfsOCreat = true) :
    tfsOpen s (some p) mode = (do
      let (inum, s) ← inodeCreate s .tFile
      if inum = -1 then return (-1, s)
      let (added, s) ← addDirEntry s 0 p.tail inum
      if added = -1 then
        let s ← inodeDelete s inum
        return (-1, s)
      return addToOpenFileTable s inum 0) := by
  rw [tfsOpen_eq hI hv, findInDir_of_missing hI hm]
  simp [bind, Except.bind, hc]

/-- A taken inode that no name is bound to yet: the directory is as before. -/
theorem Inv.takeInode_base (hI : Inv s) {n : Nat} (hn : freeInode s = some n) :
    Base (s.takeInode n) ∧ emptySlot (s.takeInode n) = emptySlot s := by
  have hn0 := hI.base.freeInode_pos hn
  have hbase : Base (s.takeInode n) :=
    hI.base.frame rfl (by simp [Nat.ne_of_lt hn0]) (by simp [Nat.ne_of_lt hn0, hI.base.rootTaken])
      hI.base.rootBlock
  exact ⟨hbase, by rw [hbase.emptySlot_eq, hI.base.emptySlot_eq]; rfl⟩

theorem tfsOpen_noInode (hI : Inv s) {p : CString} {mode : BitVec 32}
    (hv : validPathname p = true) (hm : Missing s p.tail.bytes)
    (hc : hasFlag mode tfsOCreat = true) (hn : freeInode s = none) :
    tfsOpen s (some p) mode = .ok (-1, s) := by
  rw [tfsOpen_create hI hv hm hc, inodeCreate_of_none hn]
  rfl

theorem tfsOpen_noEntry (hI : Inv s) {p : CString} {mode : BitVec 32} {n : Nat}
    (hv : validPathname p = true) (hm : Missing s p.tail.bytes)
    (hc : hasFlag mode tfsOCreat = true) (hn : freeInode s = some n)
    (he : 39 < p.tail.bytes.length ∨ emptySlot s = none) :
    tfsOpen s (some p) mode = .ok (-1, s.clearInode n) := by
  obtain ⟨hbase, hslot⟩ := hI.takeInode_base hn
  obtain ⟨hlt, hfree⟩ := freeInode_some hn
  rw [← hslot] at he
  have hne : ¬ (n : Int) = -1 := by omega
  have hdel : inodeDelete (s.takeInode n) n = .ok (s.clearInode n) := by
    have hback : update (update s.freeinodeTs n .taken) n .free = s.freeinodeTs := by
      rw [update_idem, ← hfree, update_eq_self]
    simp [inodeDelete, alwaysAssert, validInumber, hlt, bind, Except.bind, pure, Except.pure,
      FsState.setFreeinode, FsState.takeInode, FsState.clearInode, hback]
  rw [tfsOpen_create hI hv hm hc, inodeCreate_of_some hI.base hn]
  simp only [bind, Except.bind, if_neg hne, addDirEntry_of_fails hbase he, if_true, hdel]
  rfl

theorem tfsOpen_created (hI : Inv s) {p : CString} {mode : BitVec 32} {n i : Nat}
    (hv : validPathname p = true) (hm : Missing s p.tail.bytes)
    (hc : hasFlag mode tfsOCreat = true) (hn : freeInode s = some n)
    (hl : p.tail.bytes.length ≤ 39) (he : emptySlot s = some i) :
    tfsOpen s (some p) mode = .ok (addToOpenFileTable (s.bindName i n p.tail) n 0) := by
  obtain ⟨hbase, hslot⟩ := hI.takeInode_base hn
  rw [← hslot] at he
  have hne : ¬ (n : Int) = -1 := by omega
  have hlen : 1 ≤ p.tail.bytes.length := validPathname_tail hv
  rw [tfsOpen_create hI hv hm hc, inodeCreate_of_some hI.base hn]
  simp only [bind, Except.bind, if_neg hne, addDirEntry_of_some hbase ⟨hlen, hl⟩ he]
  rfl

theorem tfsOpen_invalid {name : Option CString} {mode : BitVec 32}
    (hv : ∀ p, name = some p → validPathname p = false) : tfsOpen s name mode = .ok (-1, s) := by
  cases name with
  | none => rfl
  | some p => simp [tfsOpen, hv p rfl, pure, Except.pure]

theorem getOpenFileEntry_of_taken {h : Nat} (ht : TakenHandle s h) :
    getOpenFileEntry s h = some h := by
  simp [getOpenFileEntry, validFileHandle, ht.1, ht.2]

theorem getOpenFileEntry_of_bad {fhandle : Int} (hb : ∀ h : Nat, fhandle = h → ¬ TakenHandle s h) :
    getOpenFileEntry s fhandle = none := by
  unfold getOpenFileEntry
  by_cases hv : validFileHandle s fhandle = true
  · simp only [validFileHandle, Bool.and_eq_true, decide_eq_true_eq] at hv
    have hnat : fhandle = (fhandle.toNat : Nat) := by omega
    have hft : s.freeOpenFileEntries fhandle.toNat ≠ .taken :=
      fun h => hb _ hnat ⟨by omega, h⟩
    simp [hft]
  · simp [hv]

/-- A handle is bad, or the number of a taken entry. -/
theorem handle_cases (s : FsState) (fhandle : Int) :
    (∀ h : Nat, fhandle = h → ¬ TakenHandle s h) ∨ ∃ h : Nat, fhandle = h ∧ TakenHandle s h := by
  by_cases h : ∃ h : Nat, fhandle = h ∧ TakenHandle s h
  · exact .inr h
  · exact .inl fun g hg ht => h ⟨g, hg, ht⟩

theorem tfsClose_bad {fhandle : Int} (hb : ∀ h : Nat, fhandle = h → ¬ TakenHandle s h) :
    tfsClose s fhandle = .ok (-1, s) := by
  rw [tfsClose, getOpenFileEntry_of_bad hb]
  rfl

theorem tfsClose_taken {h : Nat} (ht : TakenHandle s h) :
    tfsClose s h = .ok (0, s.closeHandle h) := by
  have hv : validFileHandle s h = true := by simp [validFileHandle, ht.1]
  rw [tfsClose, getOpenFileEntry_of_taken ht]
  simp [removeFromOpenFileTable, alwaysAssert, hv, ht.2, bind, Except.bind, pure, Except.pure,
    FsState.setFreeOpenFile, FsState.closeHandle]

theorem tfsUnlink_invalid {target : Option CString}
    (hv : ∀ p, target = some p → validPathname p = false) : tfsUnlink s target = .ok (-1, s) := by
  cases target with
  | none => rfl
  | some p => simp [tfsUnlink, hv p rfl, pure, Except.pure]

theorem tfsUnlink_missing (hI : Inv s) {p : CString} (hv : validPathname p = true)
    (hm : Missing s p.tail.bytes) : tfsUnlink s (some p) = .ok (-1, s) := by
  have hroot : inodeGet s rootDirInum = .ok 0 := inodeGet_eq hI.base.inodeCount
  simp [tfsUnlink, hv, hroot, tfsLookup_eq, findInDir_of_missing hI hm, bind, Except.bind, pure,
    Except.pure]

theorem tfsUnlink_found (hI : Inv s) {p : CString} {i n : Nat} (hv : validPathname p = true)
    (hb : Binds s i p.tail.bytes n) : tfsUnlink s (some p) = .ok (0, s.unbind i n) := by
  have hroot : inodeGet s rootDirInum = .ok 0 := inodeGet_eq hI.base.inodeCount
  obtain ⟨hn0, hn, -⟩ := hI.live_inode hb.live hb.inum
  have hne : ¬ (n : Int) = -1 := by omega
  have hdel := inodeDelete_eq hI hn hn0
  -- after the deletion only the two allocation tables differ
  have hbase := (hI.unbind hb.live hb.inum).base
  have hclear := clearDirEntry_of_binds (t := { s.unbind i n with fsData := s.fsData }) hI hb
    (hbase.frame rfl rfl hbase.rootTaken hbase.rootBlock) rfl rfl
  simp only [FsState.unbind] at hclear
  simp [tfsUnlink, hv, hroot, tfsLookup_eq, findInDir_of_binds hI hb, hne, hdel, hclear, bind,
    Except.bind, pure, Except.pure, FsState.unbind]

theorem tfsRead_bad {fhandle : Int} {len : Nat}
    (hb : ∀ h : Nat, fhandle = h → ¬ TakenHandle s h) :
    tfsRead s fhandle len = .ok ((-1, []), s) := by
  rw [tfsRead, getOpenFileEntry_of_bad hb]
  rfl

theorem tfsRead_none (hI : Inv s) {h len : Nat} (ht : TakenHandle s h)
    (hk : readLength (s.inodeTable (handleInode s h)) (s.openFileTable h) len = 0) :
    tfsRead s h len = .ok ((0, []), s) := by
  obtain ⟨hin, -, hlt⟩ := hI.handles.inode h ht
  rw [tfsRead, getOpenFileEntry_of_taken ht]
  simp only [hin, inodeGet_eq hlt, hk, bind, Except.bind]
  rfl

theorem tfsRead_some (hI : Inv s) {h len k b : Nat} (ht : TakenHandle s h)
    (hk : readLength (s.inodeTable (handleInode s h)) (s.openFileTable h) len = k) (hk0 : 0 < k)
    (hb : (s.inodeTable (handleInode s h)).iDataBlock = b) (hbc : b < s.fsParams.maxBlockCount)
    (ha : b * s.fsParams.blockSize + (s.openFileTable h).ofOffset + k ≤ s.areaSize) :
    tfsRead s h len = .ok ((k, s.fsData.read
      (b * s.fsParams.blockSize + (s.openFileTable h).ofOffset) k), s.advance h k) := by
  obtain ⟨hin, -, hlt⟩ := hI.handles.inode h ht
  have hne : ¬ k = 0 := by omega
  have hsmall : k < 2 ^ 63 := by
    have := hI.base.sane.area
    have := hI.base.areaSize
    omega
  have hoff : szAdd (s.openFileTable h).ofOffset k = (s.openFileTable h).ofOffset + k := by
    have := hI.handles.offset h ht
    exact szAdd_eq (by omega)
  rw [tfsRead, getOpenFileEntry_of_taken ht]
  simp only [hin, inodeGet_eq hlt, hk, hb, dataBlockGet_eq hI.base hbc, memcpyFrom, bind,
    Except.bind, if_neg hne, if_pos ha, hoff, toSsize_eq hsmall]
  rw [← hin]
  rfl

/-- A read that gets as far as the copy, and returns. -/
theorem of_tfsRead (hI : Inv s) {h len : Nat} {x : (Int × List UInt8) × FsState}
    (ht : TakenHandle s h) (hr : tfsRead s h len = .ok x)
    (hk0 : 0 < readLength (s.inodeTable (handleInode s h)) (s.openFileTable h) len) :
    ∃ b : Nat, (s.inodeTable (handleInode s h)).iDataBlock = b ∧ b < s.fsParams.maxBlockCount ∧
      b * s.fsParams.blockSize + (s.openFileTable h).ofOffset +
        readLength (s.inodeTable (handleInode s h)) (s.openFileTable h) len ≤ s.areaSize := by
  obtain ⟨hin, -, hlt⟩ := hI.handles.inode h ht
  have hne : ¬ readLength (s.inodeTable (handleInode s h)) (s.openFileTable h) len = 0 := by omega
  rw [tfsRead, getOpenFileEntry_of_taken ht] at hr
  simp only [hin, inodeGet_eq hlt, bind, Except.bind, if_neg hne] at hr
  -- the block number is checked, the copy is not
  by_cases hv : validBlockNumber s (s.inodeTable (handleInode s h)).iDataBlock = true
  · obtain ⟨b, hib, hbc⟩ := validBlockNumber_iff.mp hv
    refine ⟨b, hib, hbc, ?_⟩
    by_contra ha
    simp [hib, dataBlockGet_eq hI.base hbc, memcpyFrom, ha] at hr
  · simp [dataBlockGet, alwaysAssert, hv, bind, Except.bind] at hr

theorem tfsWrite_bad {fhandle : Int} {buffer : Nat → UInt8} {toWrite : Nat}
    (hb : ∀ h : Nat, fhandle = h → ¬ TakenHandle s h) :
    tfsWrite s fhandle buffer toWrite = .ok (-1, s) := by
  rw [tfsWrite, getOpenFileEntry_of_bad hb]
  rfl

theorem tfsWrite_none (hI : Inv s) {h : Nat} {buffer : Nat → UInt8} {toWrite : Nat}
    (ht : TakenHandle s h) (hk : writeLength s (s.openFileTable h) toWrite = 0) :
    tfsWrite s h buffer toWrite = .ok (0, s) := by
  obtain ⟨hin, -, hlt⟩ := hI.handles.inode h ht
  rw [tfsWrite, getOpenFileEntry_of_taken ht]
  simp only [hin, inodeGet_eq hlt, hk, bind, Except.bind]
  rfl

/-- A write that is not absurdly long ends in its block. -/
theorem writeLength_fits (hB : Base s) {file : OpenFileEntry} {toWrite : Nat}
    (ho : file.ofOffset < 2 ^ 63) (hk : writeLength s file toWrite < 2 ^ 63) :
    file.ofOffset + writeLength s file toWrite ≤ s.fsParams.blockSize := by
  have hbs := hB.blockSize_lt
  unfold writeLength stateBlockSize szAdd at *
  split at hk
  · next hgt =>
    rw [if_pos hgt]
    rcases Nat.lt_or_ge s.fsParams.blockSize file.ofOffset with hlt | hge
    · rw [szSub_wrap hlt (by omega)] at hk
      omega
    · rw [szSub_eq hge (by omega)]
      omega
  · next hle =>
    rw [if_neg hle]
    omega

theorem allocateBlock_of_none {n : Nat} (hf : freeBlock s = none) : allocateBlock s n = none := by
  unfold freeBlock at hf
  simp [allocateBlock, dataBlockAlloc, hf]

theorem allocateBlock_of_some (hB : Base s) {n b : Nat} (hf : freeBlock s = some b) :
    allocateBlock s n = some (s.giveBlock n b) := by
  have hlt := (freeBlock_some hf).1
  have hsane := hB.sane.blocks
  unfold freeBlock at hf
  have hint : toInt b = b := toInt_eq (by omega)
  have hne : ¬ (b : Int) = -1 := by omega
  simp [allocateBlock, dataBlockAlloc, hf, hint, hne, FsState.setFreeBlock, FsState.setInode,
    FsState.giveBlock]

/-- The part of `tfs_write` after the block is at hand. -/
def finishWrite (s : FsState) (h inode toWrite : Nat) (buffer : Nat → UInt8) :
    Except Fault (Int × FsState) := do
  let file := s.openFileTable h
  let block ← dataBlockGet s (s.inodeTable inode).iDataBlock
  let s ← memcpyTo s (block + file.ofOffset) toWrite buffer
  let offset := szAdd file.ofOffset toWrite
  let s := s.setOpenFile h { file with ofOffset := offset }
  let s := if (s.inodeTable inode).iSize < offset
    then s.setInode inode { s.inodeTable inode with iSize := offset } else s
  return (toSsize toWrite, s)

theorem finishWrite_eq (hB : Base s) {h n b k : Nat} {buffer : Nat → UInt8}
    (hb : (s.inodeTable n).iDataBlock = b) (hbc : b < s.fsParams.maxBlockCount)
    (hin : (s.openFileTable h).ofOffset + k ≤ s.fsParams.blockSize) :
    finishWrite s h n k buffer = .ok ((k : Int), s.put h n b k buffer) := by
  have hbs := hB.blockSize_lt
  have ha := hB.block_le hbc
  have hfit : b * s.fsParams.blockSize + (s.openFileTable h).ofOffset + k ≤ s.areaSize := by omega
  have hoff : szAdd (s.openFileTable h).ofOffset k = (s.openFileTable h).ofOffset + k :=
    szAdd_eq (by omega)
  simp only [finishWrite, hb, dataBlockGet_eq hB hbc, memcpyTo, if_pos hfit, hoff,
    toSsize_eq (by omega : k < 2 ^ 63), bind, Except.bind, pure, Except.pure, FsState.setOpenFile,
    FsState.setInode]
  by_cases hs : (s.inodeTable n).iSize < (s.openFileTable h).ofOffset + k
  · rw [if_pos hs, FsState.put, Nat.max_eq_right (Nat.le_of_lt hs)]
    simp only [hb]
  · rw [if_neg hs, FsState.put, Nat.max_eq_left (Nat.le_of_not_lt hs), update_eq_self]

/-- A write whose copy stays in the data area is short. -/
theorem finishWrite_fits (hB : Base s) {h n k : Nat} {buffer : Nat → UInt8}
    {p : Int × FsState} (hw : finishWrite s h n k buffer = .ok p) : k < 2 ^ 63 := by
  by_cases hv : validBlockNumber s (s.inodeTable n).iDataBlock = true
  · obtain ⟨b, hib, hbc⟩ := validBlockNumber_iff.mp hv
    have harea := hB.areaSize
    have hsane := hB.sane.area
    simp only [finishWrite, hib, dataBlockGet_eq hB hbc, memcpyTo, bind, Except.bind] at hw
    by_contra hk
    rw [if_neg (by omega)] at hw
    cases hw
  · simp [finishWrite, dataBlockGet, alwaysAssert, hv, bind, Except.bind] at hw

theorem tfsWrite_eq (hI : Inv s) {h : Nat} {buffer : Nat → UInt8} {toWrite k : Nat}
    (ht : TakenHandle s h) (hk : writeLength s (s.openFileTable h) toWrite = k) (hk0 : k ≠ 0) :
    tfsWrite s h buffer toWrite =
      match if (s.inodeTable (handleInode s h)).iSize = 0
        then allocateBlock s (handleInode s h) else some s with
      | none => .ok (-1, s)
      | some s' => finishWrite s' h (handleInode s h) k buffer := by
  obtain ⟨hin, -, hlt⟩ := hI.handles.inode h ht
  simp only [tfsWrite, getOpenFileEntry_of_taken ht, hin, inodeGet_eq hlt, hk, hk0, bind,
    Except.bind, if_false]
  by_cases hz : (s.inodeTable (handleInode s h)).iSize = 0
  · simp only [if_pos hz]
    cases hf : freeBlock s with
    | none =>
      rw [allocateBlock_of_none hf]
      rfl
    | some b =>
      rw [allocateBlock_of_some hI.base hf]
      simp only [finishWrite, FsState.giveBlock_openFileTable, hin]
      rfl
  · simp only [if_neg hz, finishWrite, hin]
    rfl

theorem tfsWrite_noSpace (hI : Inv s) {h : Nat} {buffer : Nat → UInt8} {toWrite : Nat}
    (ht : TakenHandle s h) (hk : 0 < writeLength s (s.openFileTable h) toWrite)
    (hz : (s.inodeTable (handleInode s h)).iSize = 0) (hf : freeBlock s = none) :
    tfsWrite s h buffer toWrite = .ok (-1, s) := by
  rw [tfsWrite_eq hI ht rfl (by omega), if_pos hz, allocateBlock_of_none hf]

theorem tfsWrite_first (hI : Inv s) {h k b : Nat} {buffer : Nat → UInt8} {toWrite : Nat}
    (ht : TakenHandle s h) (hk : writeLength s (s.openFileTable h) toWrite = k) (hk0 : 0 < k)
    (hz : (s.inodeTable (handleInode s h)).iSize = 0) (hf : freeBlock s = some b)
    (hin : (s.openFileTable h).ofOffset + k ≤ s.fsParams.blockSize) :
    tfsWrite s h buffer toWrite =
      .ok ((k : Int), (s.giveBlock (handleInode s h) b).put h (handleInode s h) b k buffer) := by
  have hgive := hI.giveBlock (b := b) (hI.handles.inode h ht).2.1 hz
  rw [tfsWrite_eq hI ht hk (by omega), if_pos hz, allocateBlock_of_some hI.base hf]
  exact finishWrite_eq hgive.base (by simp) (freeBlock_some hf).1 hin

theorem tfsWrite_over (hI : Inv s) {h k b : Nat} {buffer : Nat → UInt8} {toWrite : Nat}
    (ht : TakenHandle s h) (hk : writeLength s (s.openFileTable h) toWrite = k) (hk0 : 0 < k)
    (hz : 0 < (s.inodeTable (handleInode s h)).iSize)
    (hb : (s.inodeTable (handleInode s h)).iDataBlock = b) (hbc : b < s.fsParams.maxBlockCount)
    (hin : (s.openFileTable h).ofOffset + k ≤ s.fsParams.blockSize) :
    tfsWrite s h buffer toWrite = .ok ((k : Int), s.put h (handleInode s h) b k buffer) := by
  rw [tfsWrite_eq hI ht hk (by omega), if_neg (by omega)]
  exact finishWrite_eq hI.base hb hbc hin

/-- A write that gets as far as the copy, and returns. -/
theorem of_tfsWrite (hI : Inv s) {h k : Nat} {buffer : Nat → UInt8} {toWrite : Nat}
    {x : Int × FsState} (ht : TakenHandle s h) (hw : tfsWrite s h buffer toWrite = .ok x)
    (hk : writeLength s (s.openFileTable h) toWrite = k) (hk0 : 0 < k)
    (hroom : (s.inodeTable (handleInode s h)).iSize = 0 → freeBlock s ≠ none) :
    (s.openFileTable h).ofOffset + k ≤ s.fsParams.blockSize ∧
      (0 < (s.inodeTable (handleInode s h)).iSize →
        ∃ b : Nat, (s.inodeTable (handleInode s h)).iDataBlock = b ∧ 0 < b ∧
          b < s.fsParams.maxBlockCount) := by
  have hfits : k < 2 ^ 63 → (s.openFileTable h).ofOffset + k ≤ s.fsParams.blockSize := by
    intro hsmall
    rw [← hk] at hsmall ⊢
    exact writeLength_fits hI.base (hI.handles.offset h ht) hsmall
  refine ⟨?_, (hI.handles.range h ht).block⟩
  rw [tfsWrite_eq hI ht hk (by omega)] at hw
  by_cases hz : (s.inodeTable (handleInode s h)).iSize = 0
  · rw [if_pos hz] at hw
    cases hf : freeBlock s with
    | none => exact absurd hf (hroom hz)
    | some b =>
      rw [allocateBlock_of_some hI.base hf] at hw
      have hgive := hI.giveBlock (b := b) (hI.handles.inode h ht).2.1 hz
      exact hfits (finishWrite_fits hgive.base hw)
  · rw [if_neg hz] at hw
    exact hfits (finishWrite_fits hI.base hw)

end MBroker.Fs
