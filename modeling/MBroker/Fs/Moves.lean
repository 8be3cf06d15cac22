import Mathlib.Tactic.Simps.Basic
import MBroker.Fs.Invariant

/- The moves a call is made of. Each call of TecnicoFS leaves the state alone or
   makes one to three of the moves below (`Fs/Calls.lean` says which), and each
   move keeps `Inv`. The directory's block is at address 0, as `Base.rootAddr`
   says it is in every state with `Inv`. -/
namespace MBroker.Fs
open MBroker.Lib Function

namespace FsState

/-- A free handle opened on inode `n`. -/
@[simps] def openHandle (s : FsState) (h n offset : Nat) : FsState :=
  { s with
    freeOpenFileEntries := update s.freeOpenFileEntries h .taken
    openFileTable := update s.openFileTable h ⟨n, offset⟩ }

@[simps] def closeHandle (s : FsState) (h : Nat) : FsState :=
  { s with freeOpenFileEntries := update s.freeOpenFileEntries h .free }

/-- The handle's offset moved on by `k`. -/
@[simps] def advance (s : FsState) (h k : Nat) : FsState :=
  { s with
    openFileTable := update s.openFileTable h
      { s.openFileTable h with ofOffset := (s.openFileTable h).ofOffset + k } }

/-- A non-empty inode emptied and its block freed. -/
@[simps] def truncate (s : FsState) (n : Nat) : FsState :=
  { s with
    freeBlocks := update s.freeBlocks (s.inodeTable n).iDataBlock.toNat .free
    inodeTable := update s.inodeTable n { s.inodeTable n with iSize := 0 } }

/-- An inode initialised as an empty file. -/
@[simps] def clearInode (s : FsState) (n : Nat) : FsState :=
  { s with inodeTable := update s.inodeTable n ⟨.tFile, 0, -1⟩ }

/-- The free inode `n` made an empty file that slot `i` binds to `name`. -/
@[simps] def bindName (s : FsState) (i n : Nat) (name : CString) : FsState :=
  { s with
    inodeTable := update s.inodeTable n ⟨.tFile, 0, -1⟩
    freeinodeTs := update s.freeinodeTs n .taken
    fsData := writeEntry s.fsData 0 i name.bytes n }

/-- The file in slot `i`, inode `n`, deleted with its block. -/
@[simps] def unbind (s : FsState) (i n : Nat) : FsState :=
  { s with
    freeBlocks := if 0 < (s.inodeTable n).iSize
      then update s.freeBlocks (s.inodeTable n).iDataBlock.toNat .free else s.freeBlocks
    freeinodeTs := update s.freeinodeTs n .free
    fsData := clearEntry s.fsData 0 i }

/-- The free block `b` given to inode `n`. -/
@[simps] def giveBlock (s : FsState) (n b : Nat) : FsState :=
  { s with
    freeBlocks := update s.freeBlocks b .taken
    inodeTable := update s.inodeTable n { s.inodeTable n with iDataBlock := b } }

/-- `k` bytes written to block `b` through handle `h` on inode `n`. -/
@[simps] def put (s : FsState) (h n b k : Nat) (buffer : Nat → UInt8) : FsState :=
  { s with
    fsData := s.fsData.write (b * s.fsParams.blockSize + (s.openFileTable h).ofOffset) k buffer
    openFileTable := update s.openFileTable h
      { s.openFileTable h with ofOffset := (s.openFileTable h).ofOffset + k }
    inodeTable := update s.inodeTable n
      { s.inodeTable n with
        iSize := max (s.inodeTable n).iSize ((s.openFileTable h).ofOffset + k) } }

end FsState

variable {s : FsState}

/-! ## Handles -/

theorem Inv.openHandle (hI : Inv s) {h n offset : Nat} (hn0 : 0 < n)
    (hn : n < s.fsParams.maxInodeCount) (hr : InRange s n) (ho : offset < 2 ^ 63) :
    Inv (s.openHandle h n offset) where
  base := hI.base.frame rfl rfl hI.base.rootTaken hI.base.rootBlock
  dir := hI.dir.frame ⟨rfl, fun _ _ => rfl, fun _ _ => rfl⟩ rfl fun _ _ => rfl
  blocks := hI.blocks.frame (fun _ hm h0 => ⟨hm, h0, rfl, fun _ _ hb => hb⟩) hI.blocks.size
  handles := by
    have hself : (s.openHandle h n offset).openFileTable h = ⟨n, offset⟩ := update_self ..
    have hother : ∀ g, g ≠ h →
        (s.openHandle h n offset).openFileTable g = s.openFileTable g :=
      fun g hg => update_of_ne hg ..
    have htaken : ∀ g, g ≠ h → TakenHandle (s.openHandle h n offset) g → TakenHandle s g := by
      intro g hne hg
      have h2 : update s.freeOpenFileEntries h .taken g = .taken := hg.2
      exact ⟨hg.1, by rwa [update_of_ne hne] at h2⟩
    refine ⟨fun g hg => ?_, fun g hg => ?_, fun g hg => ?_⟩
    · by_cases hgh : g = h
      · subst hgh
        simp [handleInode, hn0, hn]
      · have hin := hI.handles.inode g (htaken g hgh hg)
        rw [handleInode, hother g hgh]
        exact hin
    · by_cases hgh : g = h
      · subst hgh
        rwa [hself]
      · rw [hother g hgh]
        exact hI.handles.offset g (htaken g hgh hg)
    · by_cases hgh : g = h
      · subst hgh
        rw [handleInode, hself]
        exact ⟨hr.size, hr.block⟩
      · have hrg := hI.handles.range g (htaken g hgh hg)
        rw [handleInode, hother g hgh]
        exact ⟨hrg.size, hrg.block⟩

theorem Inv.closeHandle (hI : Inv s) (h : Nat) : Inv (s.closeHandle h) where
  base := hI.base.frame rfl rfl hI.base.rootTaken hI.base.rootBlock
  dir := hI.dir.frame ⟨rfl, fun _ _ => rfl, fun _ _ => rfl⟩ rfl fun _ _ => rfl
  blocks := hI.blocks.frame (fun _ hm h0 => ⟨hm, h0, rfl, fun _ _ hb => hb⟩) hI.blocks.size
  handles := by
    refine hI.handles.frame rfl (fun g hg => ?_) fun n _ hr => ⟨hr.size, hr.block⟩
    have htaken : TakenHandle s g := by
      have h2 : update s.freeOpenFileEntries h .free g = .taken := hg.2
      by_cases hgh : g = h
      · rw [hgh, update_self] at h2
        cases h2
      · exact ⟨hg.1, by rwa [update_of_ne hgh] at h2⟩
    exact ⟨htaken, rfl, hI.handles.offset g htaken⟩

theorem Inv.advance (hI : Inv s) {h k : Nat}
    (ho : (s.openFileTable h).ofOffset + k < 2 ^ 63) : Inv (s.advance h k) where
  base := hI.base.frame rfl rfl hI.base.rootTaken hI.base.rootBlock
  dir := hI.dir.frame ⟨rfl, fun _ _ => rfl, fun _ _ => rfl⟩ rfl fun _ _ => rfl
  blocks := hI.blocks.frame (fun _ hm h0 => ⟨hm, h0, rfl, fun _ _ hb => hb⟩) hI.blocks.size
  handles := by
    refine hI.handles.frame rfl (fun g hg => ⟨hg, ?_⟩) fun n _ hr => ⟨hr.size, hr.block⟩
    by_cases hgh : g = h
    · subst hgh
      simpa using ho
    · simpa [hgh] using hI.handles.offset g hg

/-! ## Inodes -/

/-- A non-empty file's block: taken, and not the root's. -/
theorem Inv.file_block (hI : Inv s) {n : Nat} (hn0 : 0 < n) (hn : TakenInode s n)
    (hsz : 0 < (s.inodeTable n).iSize) :
    ∃ b : Nat, (s.inodeTable n).iDataBlock = b ∧ 0 < b ∧ TakenBlock s b := by
  obtain ⟨b, hb, hbt⟩ := hI.blocks.owns n hn hsz
  refine ⟨b, hb, Nat.pos_of_ne_zero ?_, hbt⟩
  intro heq
  subst heq
  have h0 : TakenInode s 0 := ⟨hI.base.inodeCount, hI.base.rootTaken⟩
  have hroot : 0 < (s.inodeTable 0).iSize := by
    rw [hI.base.rootInode]
    exact hI.base.sane.blockSize
  have := hI.blocks.excl n 0 hn h0 hsz hroot (by rw [hb, hI.base.rootInode]; rfl)
  omega

theorem Inv.truncate (hI : Inv s) {n : Nat} (hn0 : 0 < n) (hn : TakenInode s n)
    (hsz : 0 < (s.inodeTable n).iSize) : Inv (s.truncate n) := by
  obtain ⟨b, hb, hb0, -⟩ := hI.file_block hn0 hn hsz
  have hbase : Base (s.truncate n) := by
    refine hI.base.frame rfl ?_ hI.base.rootTaken ?_
    · simp [Nat.ne_of_lt hn0]
    · simp [hb, Nat.ne_of_lt hb0, hI.base.rootBlock]
  refine ⟨hbase, ?_, ?_, ?_⟩
  · refine hI.dir.frame (hI.base.sameSlots hbase rfl fun _ _ => rfl) rfl fun m _ => ?_
    by_cases hmn : m = n
    · subst hmn; simp
    · simp [hmn]
  · refine hI.blocks.frame (fun m hm h0 => ?_) fun m hm => ?_
    · by_cases hmn : m = n
      · subst hmn
        simp at h0
      · have hm0 : 0 < (s.inodeTable m).iSize := by simpa [hmn] using h0
        refine ⟨hm, hm0, by simp [hmn], fun c hc hct => ⟨hct.1, ?_⟩⟩
        have hcb : c ≠ b := by
          intro heq
          subst heq
          exact hmn (hI.blocks.excl m n hm hn hm0 hsz (by rw [hc, hb]))
        simp [hb, hcb, hct.2]
    · by_cases hmn : m = n
      · subst hmn; simp
      · simpa [hmn] using hI.blocks.size m hm
  · refine hI.handles.frame rfl (fun g hg => ⟨hg, rfl, hI.handles.offset g hg⟩) fun m _ hr => ?_
    exact hr.emptied (n := n) rfl (by simp) fun k hk => by simp [hk]

theorem Inv.clearInode (hI : Inv s) {n : Nat} (hn0 : 0 < n) (hn : s.freeinodeTs n = .free) :
    Inv (s.clearInode n) := by
  have hne : ∀ m, TakenInode s m → m ≠ n := fun m hm => hm.ne_free hn
  have hbase : Base (s.clearInode n) :=
    hI.base.frame rfl (by simp [Nat.ne_of_lt hn0]) hI.base.rootTaken hI.base.rootBlock
  refine ⟨hbase, ?_, ?_, ?_⟩
  · refine hI.dir.frame (hI.base.sameSlots hbase rfl fun _ _ => rfl) rfl fun m hm => ?_
    simp [hne m hm]
  · refine hI.blocks.frame (fun m hm h0 => ?_) fun m hm => ?_
    · have h0' : 0 < (s.inodeTable m).iSize := by simpa [hne m hm] using h0
      exact ⟨hm, h0', by simp [hne m hm], fun _ _ hb => hb⟩
    · simpa [hne m hm] using hI.blocks.size m hm
  · refine hI.handles.frame rfl (fun g hg => ⟨hg, rfl, hI.handles.offset g hg⟩) fun m _ hr => ?_
    exact hr.emptied (n := n) rfl (by simp) fun k hk => by simp [hk]

/-! ## Names -/

theorem slotInum_bindName (hB : Base s) {i n : Nat} (name : CString) (hn0 : 0 < n)
    (hn : n < s.fsParams.maxInodeCount) (j : Nat) :
    slotInum (s.bindName i n name) j = if j = i then (n : Int) else slotInum s j := by
  have hr : rootAddr (s.bindName i n name) = 0 := by
    rw [← hB.rootAddr]
    simp [rootAddr, Nat.ne_of_lt hn0]
  unfold slotInum
  rw [hr, hB.rootAddr]
  have hlt := hB.sane.inodes
  split
  · next h =>
    subst h
    exact entryInum_writeEntry (by omega) (by omega)
  · next h => exact entryInum_writeEntry_ne h

theorem slotName_bindName (hB : Base s) {i n : Nat} {name : CString} (hn0 : 0 < n)
    (hl : name.bytes.length ≤ 39) (j : Nat) :
    slotName (s.bindName i n name) j = if j = i then name.bytes else slotName s j := by
  have hr : rootAddr (s.bindName i n name) = 0 := by
    rw [← hB.rootAddr]
    simp [rootAddr, Nat.ne_of_lt hn0]
  unfold slotName
  rw [hr, hB.rootAddr]
  split
  · next h =>
    subst h
    exact entryName_writeEntry name.noNul hl
  · next h => exact entryName_writeEntry_ne h

theorem live_bindName (hB : Base s) {i n : Nat} (name : CString) (hn0 : 0 < n)
    (hn : n < s.fsParams.maxInodeCount) (hi : i < s.maxDirEntries) (j : Nat) :
    Live (s.bindName i n name) j ↔ j = i ∨ Live s j := by
  have hD : (s.bindName i n name).maxDirEntries = s.maxDirEntries := rfl
  unfold Live
  rw [hD, slotInum_bindName hB name hn0 hn]
  by_cases h : j = i
  · subst h
    simp [hi]
  · simp [h]

/-- One slot `i` made live with a value no live slot has: values stay distinct. -/
theorem distinct_bind {α : Type} {f g : Nat → α} {p q : Nat → Prop} {i : Nat} {a : α}
    (hg : ∀ j, g j = if j = i then a else f j) (hq : ∀ j, q j ↔ j = i ∨ p j) (hi : ¬ p i)
    (hinj : ∀ j k, p j → p k → f j = f k → j = k) (hnew : ∀ j, p j → f j ≠ a) :
    ∀ j k, q j → q k → g j = g k → j = k := by
  have hne : ∀ j, p j → j ≠ i := fun j hj hji => hi (hji ▸ hj)
  intro j k hj hk hjk
  rw [hg, hg] at hjk
  rcases (hq j).mp hj with rfl | hj' <;> rcases (hq k).mp hk with rfl | hk'
  · rfl
  · rw [if_pos rfl, if_neg (hne k hk')] at hjk
    exact absurd hjk.symm (hnew k hk')
  · rw [if_pos rfl, if_neg (hne j hj')] at hjk
    exact absurd hjk (hnew j hj')
  · rw [if_neg (hne j hj'), if_neg (hne k hk')] at hjk
    exact hinj j k hj' hk' hjk

theorem DirInv.bindName (hB : Base s) (hD : DirInv s) {i n : Nat} {name : CString} (hn0 : 0 < n)
    (hn : n < s.fsParams.maxInodeCount) (hfree : s.freeinodeTs n = .free)
    (hi : i < s.maxDirEntries) (hempty : ¬ Live s i) (hfirst : ∀ j, j < i → Live s j)
    (hlen : 1 ≤ name.bytes.length ∧ name.bytes.length ≤ 39)
    (hnew : ∀ j, Live s j → slotName s j ≠ name.bytes) : DirInv (s.bindName i n name) := by
  have hlive := live_bindName hB name hn0 hn hi
  have hinum := slotInum_bindName (i := i) hB name hn0 hn
  have hname := slotName_bindName (i := i) hB hn0 hlen.2
  have hne : ∀ m, TakenInode s m → m ≠ n := fun m hm => hm.ne_free hfree
  have hinumNe : ∀ j, Live s j → slotInum s j ≠ n := by
    intro j hj hjn
    obtain ⟨m, hm, -, hmt, -⟩ := hD.file j hj
    exact hne m hmt (by rw [hm] at hjn; omega)
  have hni : ∀ j, Live s j → j ≠ i := fun j hj hji => hempty (hji ▸ hj)
  refine ⟨?_, ?_, ?_, ?_, ?_, ?_⟩
  · intro j hj
    rw [hname]
    split
    · exact hlen
    · next h => exact hD.name j (((hlive j).mp hj).resolve_left h)
  · intro j hj
    rw [hinum]
    split
    · exact ⟨n, rfl, hn0, ⟨hn, by simp⟩, by simp⟩
    · next h =>
      obtain ⟨m, hm, hm0, hmt, hmf⟩ := hD.file j (((hlive j).mp hj).resolve_left h)
      have hmn := hne m hmt
      exact ⟨m, hm, hm0, ⟨hmt.1, by simp [hmn, hmt.2]⟩, by simp [hmn, hmf]⟩
  · exact distinct_bind hname hlive hempty hD.nameInj hnew
  · exact distinct_bind hinum hlive hempty hD.inumInj hinumNe
  · intro j k hjk hk hj
    have hji : j ≠ i := fun h => hj ((hlive j).mpr (.inl h))
    have hj' : ¬ Live s j := fun h => hj ((hlive j).mpr (.inr h))
    rw [hname, if_neg hji]
    rcases (hlive k).mp hk with rfl | hk'
    · exact absurd (hfirst j hjk) hj'
    · exact hD.gap j k hjk hk' hj'
  · intro m hm0 hm
    by_cases hmn : m = n
    · subst hmn
      exact ⟨i, (hlive i).mpr (.inl rfl), by rw [hinum, if_pos rfl]⟩
    · have hmt : TakenInode s m := ⟨hm.1, by simpa [hmn] using hm.2⟩
      obtain ⟨j, hj, hjm⟩ := hD.named m hm0 hmt
      exact ⟨j, (hlive j).mpr (.inr hj), by rw [hinum, if_neg (hni j hj), hjm]⟩

theorem Inv.bindName (hI : Inv s) {i n : Nat} {name : CString} (hn0 : 0 < n)
    (hn : n < s.fsParams.maxInodeCount) (hfree : s.freeinodeTs n = .free)
    (hi : i < s.maxDirEntries) (hempty : ¬ Live s i) (hfirst : ∀ j, j < i → Live s j)
    (hlen : 1 ≤ name.bytes.length ∧ name.bytes.length ≤ 39)
    (hnew : ∀ j, Live s j → slotName s j ≠ name.bytes) : Inv (s.bindName i n name) := by
  refine ⟨?_, hI.dir.bindName hI.base hn0 hn hfree hi hempty hfirst hlen hnew, ?_, ?_⟩
  · refine hI.base.frame rfl ?_ ?_ hI.base.rootBlock
    · simp [Nat.ne_of_lt hn0]
    · simp [Nat.ne_of_lt hn0, hI.base.rootTaken]
  · have hold : ∀ m, m ≠ n → TakenInode (s.bindName i n name) m → TakenInode s m :=
      fun m hmn hm => ⟨hm.1, by simpa [hmn] using hm.2⟩
    refine hI.blocks.frame (fun m hm h0 => ?_) fun m hm => ?_
    · by_cases hmn : m = n
      · subst hmn
        simp at h0
      · exact ⟨hold m hmn hm, by simpa [hmn] using h0, by simp [hmn], fun _ _ hb => hb⟩
    · by_cases hmn : m = n
      · subst hmn; simp
      · simpa [hmn] using hI.blocks.size m (hold m hmn hm)
  · refine hI.handles.frame rfl (fun g hg => ⟨hg, rfl, hI.handles.offset g hg⟩) fun m _ hr => ?_
    exact hr.emptied (n := n) rfl (by simp) fun k hk => by simp [hk]

theorem slotInum_unbind (hB : Base s) (i n j : Nat) :
    slotInum (s.unbind i n) j = if j = i then -1 else slotInum s j := by
  have hr : rootAddr (s.unbind i n) = 0 := hB.rootAddr
  unfold slotInum
  rw [hr, hB.rootAddr]
  split
  · next h =>
    subst h
    exact entryInum_clearEntry ..
  · next h => exact entryInum_clearEntry_ne h

theorem slotName_unbind (hB : Base s) (i n j : Nat) :
    slotName (s.unbind i n) j = if j = i then [] else slotName s j := by
  have hr : rootAddr (s.unbind i n) = 0 := hB.rootAddr
  unfold slotName
  rw [hr, hB.rootAddr]
  split
  · next h =>
    subst h
    exact entryName_clearEntry ..
  · next h => exact entryName_clearEntry_ne h

theorem live_unbind (hB : Base s) (i n j : Nat) :
    Live (s.unbind i n) j ↔ j ≠ i ∧ Live s j := by
  have hD : (s.unbind i n).maxDirEntries = s.maxDirEntries := rfl
  unfold Live
  rw [hD, slotInum_unbind hB]
  by_cases h : j = i <;> simp [h]

theorem DirInv.unbind (hB : Base s) (hD : DirInv s) {i n : Nat} (hi : Live s i)
    (hin : slotInum s i = n) : DirInv (s.unbind i n) := by
  have hlive := live_unbind (n := n) hB i
  have hinum := slotInum_unbind (n := n) hB i
  have hname := slotName_unbind (n := n) hB i
  refine ⟨?_, ?_, ?_, ?_, ?_, ?_⟩
  · intro j hj
    obtain ⟨hji, hj'⟩ := (hlive j).mp hj
    rw [hname, if_neg hji]
    exact hD.name j hj'
  · intro j hj
    obtain ⟨hji, hj'⟩ := (hlive j).mp hj
    obtain ⟨m, hm, hm0, hmt, hmf⟩ := hD.file j hj'
    have hmn : m ≠ n := by
      intro heq
      subst heq
      exact hji (hD.inumInj j i hj' hi (by rw [hm, hin]))
    rw [hinum, if_neg hji]
    exact ⟨m, hm, hm0, ⟨hmt.1, by simp [hmn, hmt.2]⟩, hmf⟩
  · intro j k hj hk hjk
    obtain ⟨hji, hj'⟩ := (hlive j).mp hj
    obtain ⟨hki, hk'⟩ := (hlive k).mp hk
    rw [hname, hname, if_neg hji, if_neg hki] at hjk
    exact hD.nameInj j k hj' hk' hjk
  · intro j k hj hk hjk
    obtain ⟨hji, hj'⟩ := (hlive j).mp hj
    obtain ⟨hki, hk'⟩ := (hlive k).mp hk
    rw [hinum, hinum, if_neg hji, if_neg hki] at hjk
    exact hD.inumInj j k hj' hk' hjk
  · intro j k hjk hk hj
    obtain ⟨hki, hk'⟩ := (hlive k).mp hk
    rw [hname]
    split
    · rfl
    · next hji => exact hD.gap j k hjk hk' fun h => hj ((hlive j).mpr ⟨hji, h⟩)
  · intro m hm0 hm
    have hmn : m ≠ n := by
      intro heq
      subst heq
      have := hm.2
      simp at this
    obtain ⟨j, hj, hjm⟩ := hD.named m hm0 ⟨hm.1, by simpa [hmn] using hm.2⟩
    have hji : j ≠ i := by
      intro heq
      subst heq
      rw [hin] at hjm
      omega
    exact ⟨j, (hlive j).mpr ⟨hji, hj⟩, by rw [hinum, if_neg hji, hjm]⟩

/-- A live slot's inode is a taken file. -/
theorem Inv.live_inode (hI : Inv s) {i n : Nat} (hi : Live s i) (hin : slotInum s i = n) :
    0 < n ∧ TakenInode s n ∧ (s.inodeTable n).iNodeType = .tFile := by
  obtain ⟨m, hm, hm0, hmt, hmf⟩ := hI.dir.file i hi
  obtain rfl : m = n := by rw [hm] at hin; omega
  exact ⟨hm0, hmt, hmf⟩

theorem Inv.unbind (hI : Inv s) {i n : Nat} (hi : Live s i) (hin : slotInum s i = n) :
    Inv (s.unbind i n) := by
  obtain ⟨hn0, hn, -⟩ := hI.live_inode hi hin
  have hold : ∀ m, TakenInode (s.unbind i n) m → m ≠ n ∧ TakenInode s m := by
    intro m hm
    have hmn : m ≠ n := by
      intro heq
      subst heq
      have := hm.2
      simp at this
    exact ⟨hmn, hm.1, by simpa [hmn] using hm.2⟩
  refine ⟨?_, hI.dir.unbind hI.base hi hin, ?_, ?_⟩
  · refine hI.base.frame rfl rfl ?_ ?_
    · simp [Nat.ne_of_lt hn0, hI.base.rootTaken]
    · rw [FsState.unbind_freeBlocks]
      split
      · next hsz =>
        obtain ⟨b, hb, hb0, -⟩ := hI.file_block hn0 hn hsz
        simp [hb, Nat.ne_of_lt hb0, hI.base.rootBlock]
      · exact hI.base.rootBlock
  · refine hI.blocks.frame (fun m hm h0 => ?_) fun m hm => hI.blocks.size m (hold m hm).2
    obtain ⟨hmn, hms⟩ := hold m hm
    refine ⟨hms, h0, rfl, fun c hc hct => ⟨hct.1, ?_⟩⟩
    rw [FsState.unbind_freeBlocks]
    split
    · next hsz =>
      obtain ⟨b, hb, -, -⟩ := hI.file_block hn0 hn hsz
      have hcb : c ≠ b := by
        intro heq
        subst heq
        exact hmn (hI.blocks.excl m n hms hn h0 hsz (by rw [hc, hb]))
      simp [hb, hcb, hct.2]
    · exact hct.2
  · exact hI.handles.frame rfl (fun g hg => ⟨hg, rfl, hI.handles.offset g hg⟩)
      fun m _ hr => ⟨hr.size, hr.block⟩

/-! ## Blocks -/

/-- Block `b` is `n`'s, and no other taken non-empty inode's. -/
structure Owner (s : FsState) (n b : Nat) : Prop where
  block : (s.inodeTable n).iDataBlock = b
  pos : 0 < b
  taken : TakenBlock s b
  only : ∀ m, TakenInode s m → 0 < (s.inodeTable m).iSize → (s.inodeTable m).iDataBlock = b → m = n

theorem Inv.owner (hI : Inv s) {n : Nat} (hn0 : 0 < n) (hn : TakenInode s n)
    (hsz : 0 < (s.inodeTable n).iSize) : ∃ b, Owner s n b := by
  obtain ⟨b, hb, hb0, hbt⟩ := hI.file_block hn0 hn hsz
  exact ⟨b, hb, hb0, hbt, fun m hm hm0 hmb => hI.blocks.excl m n hm hn hm0 hsz (by rw [hmb, hb])⟩

theorem Inv.giveBlock (hI : Inv s) {n b : Nat} (hn0 : 0 < n)
    (hsz : (s.inodeTable n).iSize = 0) : Inv (s.giveBlock n b) := by
  have hbase : Base (s.giveBlock n b) := by
    refine hI.base.frame rfl ?_ hI.base.rootTaken ?_
    · simp [Nat.ne_of_lt hn0]
    · by_cases hb : 0 = b
      · subst hb; simp
      · simp [hb, hI.base.rootBlock]
  refine ⟨hbase, ?_, ?_, ?_⟩
  · refine hI.dir.frame (hI.base.sameSlots hbase rfl fun _ _ => rfl) rfl fun m _ => ?_
    by_cases hmn : m = n
    · subst hmn; simp
    · simp [hmn]
  · refine hI.blocks.frame (fun m hm h0 => ?_) fun m hm => ?_
    · by_cases hmn : m = n
      · subst hmn
        simp [hsz] at h0
      · refine ⟨hm, by simpa [hmn] using h0, by simp [hmn], fun c _ hct => ⟨hct.1, ?_⟩⟩
        by_cases hcb : c = b
        · subst hcb; simp
        · simp [hcb, hct.2]
    · by_cases hmn : m = n
      · subst hmn; simp [hsz]
      · simpa [hmn] using hI.blocks.size m hm
  · refine hI.handles.frame rfl (fun g hg => ⟨hg, rfl, hI.handles.offset g hg⟩) fun m _ hr => ?_
    exact hr.emptied (n := n) rfl (by simp [hsz]) fun k hk => by simp [hk]

/-- After the allocation the block is the inode's alone. -/
theorem Inv.giveBlock_owner (hI : Inv s) {n b : Nat} (hb : b < s.fsParams.maxBlockCount)
    (hfree : s.freeBlocks b = .free) : Owner (s.giveBlock n b) n b := by
  refine ⟨by simp, Nat.pos_of_ne_zero ?_, ⟨hb, by simp⟩, fun m hm h0 hmb => ?_⟩
  · intro heq
    subst heq
    rw [hI.base.rootBlock] at hfree
    cases hfree
  · by_contra hmn
    exact hI.blocks.ne_free hm (by simpa [hmn] using h0) hfree (by simpa [hmn] using hmb)

theorem Inv.put (hI : Inv s) {h n b k : Nat} {buffer : Nat → UInt8} (hn0 : 0 < n)
    (hb : (s.inodeTable n).iDataBlock = b) (hb0 : 0 < b) (hbc : b < s.fsParams.maxBlockCount)
    (hr : (s.inodeTable n).iSize ≤ s.fsParams.blockSize)
    (hk : (s.openFileTable h).ofOffset + k ≤ s.fsParams.blockSize)
    (hown : TakenInode s n → Owner s n b) : Inv (s.put h n b k buffer) := by
  have hlt := hI.base.blockSize_lt
  have hbase : Base (s.put h n b k buffer) :=
    hI.base.frame rfl (by simp [Nat.ne_of_lt hn0]) hI.base.rootTaken hI.base.rootBlock
  refine ⟨hbase, ?_, ?_, ?_⟩
  · have hdata : ∀ x, x < s.fsParams.blockSize → (s.put h n b k buffer).fsData x = s.fsData x := by
      intro x hx
      have h1 : s.fsParams.blockSize ≤ b * s.fsParams.blockSize :=
        Nat.le_mul_of_pos_left _ hb0
      exact Mem.write_out (by omega)
    refine hI.dir.frame (hI.base.sameSlots hbase rfl hdata) rfl fun m _ => ?_
    by_cases hmn : m = n
    · subst hmn; simp
    · simp [hmn]
  · refine ⟨fun m hm h0 => ?_, fun m m' hm hm' h0 h0' hmm => ?_, fun m hm => ?_⟩
    · by_cases hmn : m = n
      · subst hmn
        exact ⟨b, by simp [hb], (hown hm).taken⟩
      · obtain ⟨c, hc, hct⟩ := hI.blocks.owns m hm (by simpa [hmn] using h0)
        exact ⟨c, by simp [hmn, hc], hct⟩
    · by_cases hmn : m = n <;> by_cases hmn' : m' = n
      · rw [hmn, hmn']
      · subst hmn
        exact ((hown hm).only m' hm' (by simpa [hmn'] using h0')
          (by simpa [hmn', hb] using hmm.symm)).symm
      · subst hmn'
        exact (hown hm').only m hm (by simpa [hmn] using h0) (by simpa [hmn, hb] using hmm)
      · exact hI.blocks.excl m m' hm hm' (by simpa [hmn] using h0) (by simpa [hmn'] using h0')
          (by simpa [hmn, hmn'] using hmm)
    · by_cases hmn : m = n
      · subst hmn
        simp
        omega
      · simpa [hmn] using hI.blocks.size m hm
  · refine hI.handles.frame rfl (fun g hg => ⟨hg, ?_, ?_⟩) fun m _ hrm => ?_
    · by_cases hgh : g = h
      · subst hgh; simp
      · simp [hgh]
    · by_cases hgh : g = h
      · subst hgh
        simp
        omega
      · simpa [hgh] using hI.handles.offset g hg
    · by_cases hmn : m = n
      · subst hmn
        refine ⟨?_, fun _ => ⟨b, by simp [hb], hb0, hbc⟩⟩
        simp
        omega
      · exact hrm.congr rfl (by simp [hmn])

end MBroker.Fs
