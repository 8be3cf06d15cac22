import MBroker.Fs.Room
import MBroker.Fs.Unlinks

/- An open that has to create its file takes an inode, then a directory slot,
   then a handle, and gives the inode back where there is no slot for it. The two
   searches come to one count: every inode taken but the root's has a slot and
   every live slot an inode, so an inode and a slot are both free exactly when
   the files are fewer than the smaller of the two tables has room for. The
   lookup compares 40 bytes of the name and the insertion refuses more than 39,
   so a name too long is missing and stays so. -/
namespace MBroker.Fs
open MBroker.Lib Function

/-- There is room for one more file, and its name fits a slot. -/
def HasRoom (s : FsState) (x : List UInt8) : Prop :=
  1 ≤ x.length ∧ x.length ≤ maxFileName - 1 ∧
    (liveSlots s).card < min (s.fsParams.maxInodeCount - 1) (s.fsParams.blockSize / dirEntrySize)

/-- The new slot `i` binds `x` to the inode `n`, and the other files are as before. -/
structure Created (s t : FsState) (x : List UInt8) (i n : Nat) : Prop where
  params : t.fsParams = s.fsParams
  wasEmpty : ¬ Live s i
  binds : Binds t i x n
  slots : ∀ j, j ≠ i → slotInum t j = slotInum s j ∧ slotName t j = slotName s j
  wasFree : n < s.fsParams.maxInodeCount ∧ s.freeinodeTs n = .free
  taken : t.freeinodeTs = update s.freeinodeTs n .taken
  size : (t.inodeTable n).iSize = 0
  files : ∀ m, 0 < m → TakenInode s m →
    t.inodeTable m = s.inodeTable m ∧ contents t m = contents s m
  blocks : t.freeBlocks = s.freeBlocks

/-- `r` is a handle on inode `n` at offset 0 that was free before, or -1 because none was. -/
def Handed (s t : FsState) (n : Nat) (r : Int) : Prop :=
  (∃ h : Nat, r = h ∧ h < s.fsParams.maxOpenFilesCount ∧ s.freeOpenFileEntries h = .free ∧
    t.openFileTable = update s.openFileTable h ⟨n, 0⟩ ∧
    t.freeOpenFileEntries = update s.freeOpenFileEntries h .taken) ∨
  r = -1 ∧ (∀ h, h < s.fsParams.maxOpenFilesCount → s.freeOpenFileEntries h = .taken) ∧
    t.openFileTable = s.openFileTable ∧ t.freeOpenFileEntries = s.freeOpenFileEntries

/-- All is as before, but for what an inode that is free holds. -/
structure RolledBack (s t : FsState) : Prop where
  params : t.fsParams = s.fsParams
  data : t.fsData = s.fsData
  taken : t.freeinodeTs = s.freeinodeTs
  inodes : ∀ n, TakenInode s n → t.inodeTable n = s.inodeTable n
  blocks : t.freeBlocks = s.freeBlocks
  handles : t.openFileTable = s.openFileTable ∧ t.freeOpenFileEntries = s.freeOpenFileEntries

/-- What an open that may create its file comes to, the name `x` not being bound. -/
structure CreationExact (s : FsState) (x : List UInt8) (r : Int) (t : FsState) : Prop where
  created_iff : (∃ i n, Binds t i x n) ↔ HasRoom s x
  created : HasRoom s x → ∃ i n, Created s t x i n ∧ Handed s t n r
  refused : ¬ HasRoom s x → r = -1 ∧ RolledBack s t

variable {s t : FsState}

/-! ## Room -/

theorem Inv.hasRoom_iff (hI : Inv s) {x : List UInt8} : HasRoom s x ↔
    1 ≤ x.length ∧ x.length ≤ 39 ∧ freeInode s ≠ none ∧ emptySlot s ≠ none := by
  have hcard := hI.card_liveSlots
  have hmax : s.maxDirEntries = s.fsParams.blockSize / dirEntrySize := rfl
  rw [Ne, Ne, hI.freeInode_eq_none, hI.emptySlot_eq_none, HasRoom, hmax, hcard, Nat.lt_min]
  simp only [maxFileName]
  omega

/-! ## Creation -/

theorem Created.bindName (hI : Inv s) {name : CString} {i n : Nat} (hn : freeInode s = some n)
    (hi : emptySlot s = some i) (hl : 1 ≤ name.bytes.length ∧ name.bytes.length ≤ 39) :
    Created s (s.bindName i n name) name.bytes i n := by
  have hn0 := hI.base.freeInode_pos hn
  have hfree := freeInode_some hn
  obtain ⟨hid, hempty, -⟩ := emptySlot_some hi
  have hinum := slotInum_bindName (i := i) hI.base name hn0 hfree.1
  have hname := slotName_bindName (i := i) hI.base hn0 hl.2
  refine ⟨rfl, hempty, ⟨?_, ?_, ?_⟩, ?_, hfree, rfl, by simp, ?_, rfl⟩
  · exact (live_bindName hI.base name hn0 hfree.1 hid i).mpr (.inl rfl)
  · rw [hname, if_pos rfl]
  · rw [hinum, if_pos rfl]
  · intro j hj
    rw [hinum, hname, if_neg hj, if_neg hj]
    exact ⟨rfl, rfl⟩
  · intro m hm0 hm
    have hmn : m ≠ n := hm.ne_free hfree.2
    have hinode : (s.bindName i n name).inodeTable m = s.inodeTable m := by simp [hmn]
    refine ⟨hinode, hI.contents_frame hm0 hm rfl hinode ?_⟩
    intro y hy
    exact writeEntry_outside hid hy

theorem Created.openHandle {x : List UInt8} {i n h : Nat} (hc : Created s t x i n) :
    Created s (t.openHandle h n 0) x i n :=
  ⟨hc.params, hc.wasEmpty, ⟨hc.binds.live, hc.binds.name, hc.binds.inum⟩, hc.slots, hc.wasFree,
    hc.taken, hc.size, hc.files, hc.blocks⟩

theorem freeHandle_none (hh : freeHandle s = none) :
    ∀ h, h < s.fsParams.maxOpenFilesCount → s.freeOpenFileEntries h = .taken := by
  intro h hlt
  have hne := firstIndex_eq_none.mp hh h hlt
  cases hf : s.freeOpenFileEntries h
  · rw [hf] at hne
    cases hne
  · rfl

/-- The file stays where there is no handle for it. -/
theorem Created.add {x : List UInt8} {i n : Nat} (hc : Created s t x i n)
    (hf : t.openFileTable = s.openFileTable)
    (he : t.freeOpenFileEntries = s.freeOpenFileEntries) :
    Created s (addToOpenFileTable t n 0).2 x i n ∧
      Handed s (addToOpenFileTable t n 0).2 n (addToOpenFileTable t n 0).1 := by
  cases hh : freeHandle t with
  | none =>
    rw [addToOpenFileTable_of_none hh]
    have hfull := freeHandle_none hh
    rw [hc.params, he] at hfull
    exact ⟨hc, .inr ⟨rfl, hfull, hf, he⟩⟩
  | some h =>
    rw [addToOpenFileTable_of_some hh]
    obtain ⟨hlt, hfree⟩ := freeHandle_some hh
    rw [hc.params] at hlt
    rw [he] at hfree
    refine ⟨hc.openHandle, .inl ⟨h, rfl, hlt, hfree, ?_, ?_⟩⟩
    · rw [← hf]
      rfl
    · rw [← he]
      rfl

/-! ## Refusal -/

theorem RolledBack.refl : RolledBack s s :=
  ⟨rfl, rfl, rfl, fun _ _ => rfl, rfl, rfl, rfl⟩

/-- The inode given back is as free as before. -/
theorem RolledBack.clearInode {n : Nat} (hn : freeInode s = some n) :
    RolledBack s (s.clearInode n) := by
  refine ⟨rfl, rfl, rfl, ?_, rfl, rfl, rfl⟩
  intro m hm
  have hmn : m ≠ n := hm.ne_free (freeInode_some hn).2
  simp [hmn]

theorem RolledBack.sameSlots (hI : Inv s) (hr : RolledBack s t) : SameSlots s t := by
  have hbase : Base t := by
    apply hI.base.frame hr.params
    · exact hr.inodes 0 ⟨hI.base.inodeCount, hI.base.rootTaken⟩
    · rw [hr.taken]
      exact hI.base.rootTaken
    · rw [hr.blocks]
      exact hI.base.rootBlock
  apply hI.base.sameSlots hbase hr.params
  intro y _
  rw [hr.data]

theorem RolledBack.missing (hI : Inv s) (hr : RolledBack s t) {x : List UInt8}
    (hm : Missing s x) : ¬ ∃ i n, Binds t i x n := by
  have hslots := hr.sameSlots hI
  intro h
  obtain ⟨i, n, hb⟩ := h
  have hl := (hslots.live i).mp hb.live
  apply hm i hl
  rw [← hslots.name i hl.1]
  exact hb.name

theorem CreationExact.of_refused (hI : Inv s) {x : List UInt8} (hm : Missing s x)
    (hroom : ¬ HasRoom s x) (hr : RolledBack s t) : CreationExact s x (-1) t :=
  ⟨iff_of_false (hr.missing hI hm) hroom, fun h => absurd h hroom, fun _ => ⟨rfl, hr⟩⟩

/-! ## The call -/

theorem Inv.creationExact (hI : Inv s) {path : Option CString} {x : List UInt8} {mode : BitVec 32}
    (hx : PathTo path x) (hm : Missing s x) (hc : hasFlag mode tfsOCreat = true) :
    ∃ r t, tfsOpen s path mode = .ok (r, t) ∧ CreationExact s x r t := by
  cases path with
  | none =>
    obtain ⟨p, hp, -⟩ := hx
    cases hp
  | some p =>
    have hiff := hI.hasRoom_iff (x := x)
    obtain rfl := hx.tail
    by_cases hlen : 1 ≤ p.tail.bytes.length
    swap
    · -- the path `/` names no file
      have hinv : ¬ validPathname p = true := fun hv => hlen (validPathname_tail hv)
      exact ⟨-1, s, tfsOpen_invalid (invalid_some hinv),
        .of_refused hI hm (fun h => hlen h.1) .refl⟩
    have hv := hx.valid hlen
    cases hn : freeInode s with
    | none =>
      exact ⟨-1, s, tfsOpen_noInode hI hv hm hc hn,
        .of_refused hI hm (fun h => (hiff.mp h).2.2.1 hn) .refl⟩
    | some n =>
      by_cases he : 39 < p.tail.bytes.length ∨ emptySlot s = none
      · refine ⟨-1, _, tfsOpen_noEntry hI hv hm hc hn he, .of_refused hI hm ?_ (.clearInode hn)⟩
        intro h
        obtain ⟨-, h39, -, hslot⟩ := hiff.mp h
        rcases he with hlong | hnone
        · omega
        · exact hslot hnone
      · rw [not_or, Nat.not_lt] at he
        obtain ⟨i, hi⟩ := Option.ne_none_iff_exists'.mp he.2
        have hroom : HasRoom s p.tail.bytes := hiff.mpr ⟨hlen, he.1, by rw [hn]; simp, he.2⟩
        have hnew := (Created.bindName hI hn hi ⟨hlen, he.1⟩).add rfl rfl
        refine ⟨_, _, tfsOpen_created hI hv hm hc hn he.1 hi, ?_, ?_, ?_⟩
        · exact iff_of_true ⟨i, n, hnew.1.binds⟩ hroom
        · exact fun _ => ⟨i, n, hnew⟩
        · exact fun h => absurd hroom h

/-- In every reachable state an open that may create its file does so exactly when
there is room for it, and leaves nothing behind when there is none. -/
theorem creation_exact {params : TfsParams} (hp : params.Sane)
    (h : Reachable (Initial params) Steps s) {path : Option CString} {x : List UInt8}
    {mode : BitVec 32} (hx : PathTo path x) (hm : Missing s x)
    (hc : hasFlag mode tfsOCreat = true) :
    ∃ r t, tfsOpen s path mode = .ok (r, t) ∧ CreationExact s x r t :=
  (inv_of_reachable hp h).creationExact hx hm hc

/-- The second of the two files that the volume's directory has slots for. -/
theorem creation_exact_small : ∃ r t,
    tfsOpen (after small [.open (some pathA) tfsOCreat]) (some pathB) tfsOCreat = .ok (r, t) ∧
      CreationExact (after small [.open (some pathA) tfsOCreat]) [98] r t := by
  apply creation_exact smallParams_sane (reachable_after reachable_small _)
  · exact ⟨pathB, rfl, rfl⟩
  · have hl : lookup (after small [.open (some pathA) tfsOCreat]) [98] = none := by
      decide +kernel
    have hI := inv_of_reachable smallParams_sane
      (reachable_after reachable_small [.open (some pathA) tfsOCreat])
    exact (lookup_eq_none hI.dir).mp hl
  · rfl

end MBroker.Fs
