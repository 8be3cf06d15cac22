import MBroker.Fs.Reach
import MBroker.Fs.Abstract

/- The files of a state: what a name leads to and the bytes it stands for, and
   what each move does to both. -/
namespace MBroker.Fs
open MBroker.Lib Function

/-- The bytes of the file on inode `n`. -/
def contents (s : FsState) (n : Nat) : List UInt8 :=
  s.fsData.read ((s.inodeTable n).iDataBlock.toNat * s.fsParams.blockSize) (s.inodeTable n).iSize

variable {s t : FsState}

/-! ## Names -/

theorem lookup_eq_some (hD : DirInv s) {name : List UInt8} {n : Nat} :
    lookup s name = some n ↔ ∃ i, Binds s i name n := by
  refine ⟨?_, ?_⟩
  · intro h
    rcases hD.missing_or_binds name with hm | ⟨i, m, hb⟩
    · rw [lookup_of_missing hm] at h
      cases h
    · rw [lookup_of_binds hD hb] at h
      cases h
      exact ⟨i, hb⟩
  · intro hbinds
    obtain ⟨i, hb⟩ := hbinds
    exact lookup_of_binds hD hb

theorem lookup_eq_none (hD : DirInv s) {name : List UInt8} :
    lookup s name = none ↔ Missing s name := by
  refine ⟨fun h => ?_, lookup_of_missing⟩
  rcases hD.missing_or_binds name with hm | ⟨i, m, hb⟩
  · exact hm
  · rw [lookup_of_binds hD hb] at h
    cases h

/-- Two states in which the same names lead to the same inodes. -/
theorem lookup_congr (hs : DirInv s) (ht : DirInv t) {name : List UInt8}
    (h : ∀ n, (∃ i, Binds t i name n) ↔ ∃ i, Binds s i name n) : lookup t name = lookup s name := by
  ext n
  rw [lookup_eq_some ht, lookup_eq_some hs]
  exact h n

/-- A file's inode is taken and not the root's, and it has one name. -/
theorem Inv.lookup_taken (hI : Inv s) {name : List UInt8} {n : Nat}
    (h : lookup s name = some n) : 0 < n ∧ TakenInode s n := by
  obtain ⟨i, hb⟩ := (lookup_eq_some hI.dir).mp h
  obtain ⟨hn0, hn, -⟩ := hI.live_inode hb.live hb.inum
  exact ⟨hn0, hn⟩

theorem Inv.lookup_inj (hI : Inv s) {a b : List UInt8} {n : Nat} (ha : lookup s a = some n)
    (hb : lookup s b = some n) : a = b := by
  obtain ⟨i, hi⟩ := (lookup_eq_some hI.dir).mp ha
  obtain ⟨j, hj⟩ := (lookup_eq_some hI.dir).mp hb
  have hij := hI.dir.inumInj i j hi.live hj.live (by rw [hi.inum, hj.inum])
  rw [← hi.name, ← hj.name, hij]

/-- Every file has a name. -/
theorem Inv.exists_name (hI : Inv s) {n : Nat} (hn0 : 0 < n) (hn : TakenInode s n) :
    ∃ name : FileName, lookup s name.bytes = some n := by
  obtain ⟨i, hi, hin⟩ := hI.dir.named n hn0 hn
  obtain ⟨h1, h39⟩ := hI.dir.name i hi
  refine ⟨⟨⟨slotName s i, Mem.zero_not_mem_cstr _ _ _⟩, h1, h39⟩, ?_⟩
  exact lookup_of_binds hI.dir ⟨hi, rfl, hin⟩

theorem SameSlots.lookup (h : SameSlots s t) (name : List UInt8) :
    lookup t name = lookup s name := by
  unfold Fs.lookup
  rw [maxDirEntries_eq h.params]
  have hfirst : firstIndex (fun i => slotInum t i ≠ -1 && slotName t i = name) s.maxDirEntries =
      firstIndex (fun i => slotInum s i ≠ -1 && slotName s i = name) s.maxDirEntries :=
    firstIndex_congr fun i hi => by rw [h.inum i hi, h.name i hi]
  rw [hfirst]
  apply Option.map_congr
  intro i hi
  rw [h.inum i (firstIndex_eq_some.mp hi).1]

theorem lookup_bindName (hI : Inv s) {i n : Nat} {name : CString}
    (hI' : Inv (s.bindName i n name)) (hn : freeInode s = some n) (hi : emptySlot s = some i)
    (hl : name.bytes.length ≤ 39) (x : List UInt8) :
    lookup (s.bindName i n name) x = if x = name.bytes then some n else lookup s x := by
  have hn0 := hI.base.freeInode_pos hn
  have hlt := (freeInode_some hn).1
  obtain ⟨hid, hempty, -⟩ := emptySlot_some hi
  have hlive := live_bindName hI.base name hn0 hlt hid
  have hname := slotName_bindName (i := i) hI.base hn0 hl
  have hinum := slotInum_bindName (i := i) hI.base name hn0 hlt
  split
  · next hx =>
    subst hx
    exact lookup_of_binds hI'.dir
      ⟨(hlive i).mpr (.inl rfl), by rw [hname, if_pos rfl], by rw [hinum, if_pos rfl]⟩
  · next hx =>
    refine lookup_congr hI.dir hI'.dir fun m => ⟨?_, ?_⟩
    · intro hbinds
      obtain ⟨j, hb⟩ := hbinds
      have hji : j ≠ i := by
        intro heq
        subst heq
        have := hb.name
        rw [hname, if_pos rfl] at this
        exact hx this.symm
      refine ⟨j, ((hlive j).mp hb.live).resolve_left hji, ?_, ?_⟩
      · rw [← hb.name, hname, if_neg hji]
      · rw [← hb.inum, hinum, if_neg hji]
    · intro hbinds
      obtain ⟨j, hb⟩ := hbinds
      have hji : j ≠ i := fun h => hempty (h ▸ hb.live)
      exact ⟨j, (hlive j).mpr (.inr hb.live), by rw [hname, if_neg hji, hb.name],
        by rw [hinum, if_neg hji, hb.inum]⟩

theorem lookup_unbind (hI : Inv s) {i n : Nat} {name : List UInt8} (hb : Binds s i name n)
    (x : List UInt8) :
    lookup (s.unbind i n) x = if x = name then none else lookup s x := by
  have hI' := hI.unbind hb.live hb.inum
  have hlive := live_unbind (n := n) hI.base i
  have hname := slotName_unbind (n := n) hI.base i
  have hinum := slotInum_unbind (n := n) hI.base i
  split
  · next hx =>
    subst hx
    apply lookup_of_missing
    intro j hj hjx
    obtain ⟨hji, hjl⟩ := (hlive j).mp hj
    rw [hname, if_neg hji] at hjx
    exact hji (hI.dir.nameInj j i hjl hb.live (by rw [hjx, hb.name]))
  · next hx =>
    refine lookup_congr hI.dir hI'.dir fun m => ⟨?_, ?_⟩
    · intro h
      obtain ⟨j, hj⟩ := h
      obtain ⟨hji, hjl⟩ := (hlive j).mp hj.live
      exact ⟨j, hjl, by rw [← hj.name, hname, if_neg hji], by rw [← hj.inum, hinum, if_neg hji]⟩
    · intro h
      obtain ⟨j, hj⟩ := h
      have hji : j ≠ i := by
        intro heq
        subst heq
        exact hx (by rw [← hj.name, hb.name])
      exact ⟨j, (hlive j).mpr ⟨hji, hj.live⟩, by rw [hname, if_neg hji, hj.name],
        by rw [hinum, if_neg hji, hj.inum]⟩

/-! ## The truncation of an open -/

theorem cut_eq_self (s : FsState) {mode : BitVec 32} (n : Nat)
    (h : hasFlag mode tfsOTrunc = false) : s.cut mode n = s := by
  rw [FsState.cut, if_neg]
  intro hc
  rw [h] at hc
  cases hc.1

theorem cut_fsData (s : FsState) (mode : BitVec 32) (n : Nat) :
    (s.cut mode n).fsData = s.fsData := by
  unfold FsState.cut
  split <;> rfl

theorem cut_openFileTable (s : FsState) (mode : BitVec 32) (n : Nat) :
    (s.cut mode n).openFileTable = s.openFileTable := by
  unfold FsState.cut
  split <;> rfl

theorem cut_freeOpenFileEntries (s : FsState) (mode : BitVec 32) (n : Nat) :
    (s.cut mode n).freeOpenFileEntries = s.freeOpenFileEntries := by
  unfold FsState.cut
  split <;> rfl

theorem cut_inodeTable_ne (s : FsState) (mode : BitVec 32) {n m : Nat} (h : m ≠ n) :
    (s.cut mode n).inodeTable m = s.inodeTable m := by
  unfold FsState.cut
  split
  · simp [h]
  · rfl

/-- Truncated, a file is empty, whether or not it was before. -/
theorem cut_iSize_trunc (s : FsState) {mode : BitVec 32} (n : Nat)
    (h : hasFlag mode tfsOTrunc = true) : ((s.cut mode n).inodeTable n).iSize = 0 := by
  unfold FsState.cut
  split
  · simp
  · next hc => exact Nat.eq_zero_of_not_pos fun h0 => hc ⟨h, h0⟩

/-! ## Bytes -/

theorem contents_length (s : FsState) (n : Nat) :
    (contents s n).length = (s.inodeTable n).iSize := Mem.read_length ..

theorem contents_eq_nil {n : Nat} : contents s n = [] ↔ (s.inodeTable n).iSize = 0 := by
  rw [← List.length_eq_zero_iff, contents_length]

/-- A file none of whose bytes, size or block number changed. -/
theorem contents_congr {n : Nat} (hp : t.fsParams = s.fsParams)
    (hsz : (t.inodeTable n).iSize = (s.inodeTable n).iSize)
    (hb : 0 < (s.inodeTable n).iSize → (t.inodeTable n).iDataBlock = (s.inodeTable n).iDataBlock ∧
      ∀ i, i < (s.inodeTable n).iSize →
        t.fsData ((s.inodeTable n).iDataBlock.toNat * s.fsParams.blockSize + i) =
          s.fsData ((s.inodeTable n).iDataBlock.toNat * s.fsParams.blockSize + i)) :
    contents t n = contents s n := by
  unfold contents
  rw [hp, hsz]
  rcases Nat.eq_zero_or_pos (s.inodeTable n).iSize with h0 | h0
  · rw [h0, Mem.read_zero, Mem.read_zero]
  · obtain ⟨hblk, hdata⟩ := hb h0
    rw [hblk]
    exact Mem.read_congr hdata

/-- A block given to an empty file adds nothing to it. -/
theorem contents_giveBlock {n b m : Nat} (hz : (s.inodeTable n).iSize = 0) :
    contents (s.giveBlock n b) m = contents s m := by
  by_cases hmn : m = n
  · subst hmn
    exact contents_congr rfl (by simp) fun hsz => by omega
  · exact contents_congr rfl (by simp [hmn]) fun _ => ⟨by simp [hmn], fun _ _ => rfl⟩

/-- A file, where only the root's block changed. -/
theorem Inv.contents_frame (hI : Inv s) {n : Nat} (hn0 : 0 < n) (hn : TakenInode s n)
    (hp : t.fsParams = s.fsParams) (hi : t.inodeTable n = s.inodeTable n)
    (hd : ∀ x, s.fsParams.blockSize ≤ x → t.fsData x = s.fsData x) :
    contents t n = contents s n := by
  refine contents_congr hp (by rw [hi]) fun hsz => ⟨by rw [hi], fun i _ => hd _ ?_⟩
  obtain ⟨b, hb, hb0, -⟩ := hI.file_block hn0 hn hsz
  rw [hb, Int.toNat_natCast]
  exact Nat.le_trans (Nat.le_mul_of_pos_left _ hb0) (Nat.le_add_right _ _)

/-- The bytes an entry's write and clearing touch are in the root's block. -/
theorem writeEntry_outside {i x : Nat} {name : List UInt8} {inum : Int} (hi : i < s.maxDirEntries)
    (hx : s.fsParams.blockSize ≤ x) : writeEntry s.fsData 0 i name inum x = s.fsData x := by
  refine writeEntry_out (.inr ?_)
  by_contra h
  have := Base.entry_lt (s := s) hi (by omega : x < dName 0 i + dirEntrySize)
  omega

theorem clearEntry_outside {i x : Nat} (hi : i < s.maxDirEntries) (hx : s.fsParams.blockSize ≤ x) :
    clearEntry s.fsData 0 i x = s.fsData x := by
  refine clearEntry_out (.inr ?_)
  by_contra h
  have := Base.entry_lt (s := s) hi (by omega : x < dName 0 i + dirEntrySize)
  omega

/-- A write leaves the files on other blocks as they were. -/
theorem contents_put_ne (hI : Inv s) {h n b k m : Nat} {buffer : Nat → UInt8}
    (hin : (s.openFileTable h).ofOffset + k ≤ s.fsParams.blockSize) (hmn : m ≠ n)
    (hm : TakenInode s m) (hb : 0 < (s.inodeTable m).iSize → (s.inodeTable m).iDataBlock ≠ b) :
    contents (s.put h n b k buffer) m = contents s m := by
  refine contents_congr rfl (by simp [hmn]) fun hsz => ⟨by simp [hmn], fun i hi => ?_⟩
  obtain ⟨c, hc, -⟩ := hI.blocks.owns m hm hsz
  have hcb : c ≠ b := by
    have := hb hsz
    rw [hc] at this
    omega
  have hsize := hI.blocks.size m hm
  rw [hc, Int.toNat_natCast, FsState.put_fsData]
  apply Mem.write_out
  rcases blocks_apart s.fsParams.blockSize hcb with h | h <;> omega

/-- A write puts its bytes over its own file's. -/
theorem contents_put_self {h n b k : Nat} {buffer : Nat → UInt8}
    (hb : (s.inodeTable n).iDataBlock = b)
    (ho : (s.openFileTable h).ofOffset ≤ (s.inodeTable n).iSize) :
    contents (s.put h n b k buffer) n =
      Volume.overwrite (contents s n) (s.openFileTable h).ofOffset (Mem.read buffer 0 k) := by
  unfold contents Volume.overwrite
  have hi : (s.put h n b k buffer).inodeTable n = { s.inodeTable n with
      iSize := max (s.inodeTable n).iSize ((s.openFileTable h).ofOffset + k) } := by simp
  rw [Mem.read_length, hi, hb, Int.toNat_natCast]
  exact Mem.read_write _ _ _ _ _ _ ho

end MBroker.Fs
