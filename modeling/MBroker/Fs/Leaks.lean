import Mathlib.Data.Finset.Card
import MBroker.Fs.Ownership

/- Block accounting. Every taken block has an owner as long as no file is deleted
   under a handle that then writes: `tfs_write` gives an empty inode a block
   whether the inode is taken or not, and a block given to a free inode is no
   file's. `blocks_accounted_iff` says that such a write is the only way to lose
   a block, whatever else the run does. -/
namespace MBroker.Fs
open MBroker.Lib Function

def takenBlocks (s : FsState) : Finset Nat :=
  (Finset.range s.fsParams.maxBlockCount).filter fun b => s.freeBlocks b = .taken

/-- The inodes of the files that hold data. -/
def nonEmptyFiles (s : FsState) : Finset Nat :=
  (Finset.range s.fsParams.maxInodeCount).filter fun n =>
    n ≠ 0 ∧ s.freeinodeTs n = .taken ∧ 0 < (s.inodeTable n).iSize

structure BlocksAccounted (s : FsState) : Prop where
  owned : ∀ b, TakenBlock s b → ∃ n, Owns s n b
  /-- The root's block, and one block for each file that holds data. -/
  count : (takenBlocks s).card = 1 + (nonEmptyFiles s).card
  /-- With every file unlinked, only the root's block is taken. -/
  unlinked : (∀ i, ¬ Live s i) → ∀ b, TakenBlock s b → Owns s 0 b

/-- The call writes bytes through a handle whose inode is free and empty, while
there is room in the handle's block and a block to give. -/
def OrphanWrite (s : FsState) : Op → Prop
  | .write fhandle _ toWrite =>
    let h := fhandle.toNat
    fhandle = h ∧ TakenHandle s h ∧ 0 < toWrite ∧ s.freeinodeTs (handleInode s h) = .free ∧
      (s.inodeTable (handleInode s h)).iSize = 0 ∧
      (s.openFileTable h).ofOffset < s.fsParams.blockSize ∧ freeBlock s ≠ none
  | _ => False

instance (s : FsState) : (op : Op) → Decidable (OrphanWrite s op)
  | .write .. => inferInstanceAs (Decidable (_ ∧ _))
  | .open .. | .close _ | .read .. | .unlink _ => inferInstanceAs (Decidable False)

/-- Every taken block has an owner. -/
def Owned (s : FsState) : Prop := ∀ b, TakenBlock s b → ∃ n, Owns s n b

variable {params : TfsParams} {s t : FsState}

/-! ## The accounts follow from the owners -/

theorem mem_takenBlocks {b : Nat} : b ∈ takenBlocks s ↔ TakenBlock s b := by
  simp [takenBlocks, TakenBlock]

theorem mem_nonEmptyFiles {n : Nat} :
    n ∈ nonEmptyFiles s ↔ n ≠ 0 ∧ TakenInode s n ∧ 0 < (s.inodeTable n).iSize := by
  simp only [nonEmptyFiles, TakenInode, Finset.mem_filter, Finset.mem_range]
  refine ⟨?_, ?_⟩
  · intro h
    obtain ⟨hlt, h0, ht, hs⟩ := h
    exact ⟨h0, ⟨hlt, ht⟩, hs⟩
  · rintro ⟨h0, ⟨hlt, ht⟩, hs⟩
    exact ⟨hlt, h0, ht, hs⟩

/-- A taken block's owner is the root or a file that holds data, and each of these
owns one block. -/
theorem Owned.card (hI : Inv s) (hO : Owned s) :
    (takenBlocks s).card = 1 + (nonEmptyFiles s).card := by
  have hdisj : 0 ∉ nonEmptyFiles s := fun h => (mem_nonEmptyFiles.mp h).1 rfl
  have hroot : 0 < (s.inodeTable 0).iSize := by
    rw [hI.base.rootInode]
    exact hI.base.sane.blockSize
  -- the members are the owners
  have hmem : ∀ n, n ∈ insert 0 (nonEmptyFiles s) ↔
      TakenInode s n ∧ 0 < (s.inodeTable n).iSize := by
    intro n
    rw [Finset.mem_insert, mem_nonEmptyFiles]
    refine ⟨?_, ?_⟩
    · rintro (rfl | ⟨-, h⟩)
      · exact ⟨⟨hI.base.inodeCount, hI.base.rootTaken⟩, hroot⟩
      · exact h
    · intro h
      by_cases hn : n = 0
      · exact .inl hn
      · exact .inr ⟨hn, h⟩
  rw [Nat.add_comm, ← Finset.card_insert_of_notMem hdisj]
  symm
  refine Finset.card_bij (fun n _ => (s.inodeTable n).iDataBlock.toNat) ?_ ?_ ?_
  · intro n hn
    obtain ⟨htk, hsz⟩ := (hmem n).mp hn
    obtain ⟨b, hb, hbt⟩ := hI.blocks.owns n htk hsz
    rw [hb, Int.toNat_natCast]
    exact mem_takenBlocks.mpr hbt
  · intro n hn m hm hnm
    obtain ⟨htn, hsn⟩ := (hmem n).mp hn
    obtain ⟨htm, hsm⟩ := (hmem m).mp hm
    obtain ⟨b, hb, -⟩ := hI.blocks.owns n htn hsn
    obtain ⟨c, hc, -⟩ := hI.blocks.owns m htm hsm
    apply hI.blocks.excl n m htn htm hsn hsm
    rw [hb, hc, Int.toNat_natCast, Int.toNat_natCast] at hnm
    rw [hb, hc, hnm]
  · intro b hb
    obtain ⟨n, hn⟩ := hO b (mem_takenBlocks.mp hb)
    exact ⟨n, (hmem n).mpr ⟨hn.taken, hn.size⟩, by rw [hn.block, Int.toNat_natCast]⟩

theorem Owned.accounted (hI : Inv s) (hO : Owned s) : BlocksAccounted s := by
  refine ⟨hO, hO.card hI, fun hnone b hb => ?_⟩
  obtain ⟨n, hn⟩ := hO b hb
  have hn0 : n = 0 := by
    by_contra h0
    obtain ⟨i, hi, -⟩ := hI.dir.named n (Nat.pos_of_ne_zero h0) hn.taken
    exact hnone i hi
  rwa [hn0] at hn

/-! ## One call -/

theorem Owned.frame (hO : Owned s)
    (h : ∀ b, TakenBlock t b → TakenBlock s b ∧ ∀ n, Owns s n b → Owns t n b) : Owned t := by
  intro b hb
  obtain ⟨hbs, hk⟩ := h b hb
  obtain ⟨n, hn⟩ := hO b hbs
  exact ⟨n, hk n hn⟩

/-- Opening a handle leaves inodes and blocks alone. -/
theorem Owned.addToOpenFileTable (hO : Owned s) (n offset : Nat) :
    Owned (addToOpenFileTable s n offset).2 := by
  cases hh : freeHandle s with
  | none => rwa [addToOpenFileTable_of_none hh]
  | some h =>
    rw [addToOpenFileTable_of_some hh]
    exact hO.frame fun b hb => ⟨hb, fun m hm => ⟨hm.taken, hm.size, hm.block⟩⟩

/-- The owners of the blocks that a discarded file leaves. -/
theorem Inv.owner_ne (hI : Inv s) {n m b : Nat} (hn0 : 0 < n) (hn : TakenInode s n)
    (hsz : 0 < (s.inodeTable n).iSize)
    (hb : update s.freeBlocks (s.inodeTable n).iDataBlock.toNat .free b = .taken)
    (hm : Owns s m b) : m ≠ n := by
  intro heq
  subst heq
  obtain ⟨c, hc, -⟩ := hI.file_block hn0 hn hsz
  have hbc : b = c := by
    have := hm.block
    rw [hc] at this
    omega
  rw [hc, Int.toNat_natCast, hbc, update_self] at hb
  cases hb

theorem Owned.cut (hI : Inv s) (hO : Owned s) {mode : BitVec 32} {n : Nat} (hn0 : 0 < n)
    (hn : TakenInode s n) : Owned (s.cut mode n) := by
  unfold FsState.cut
  split
  · next hc =>
    intro b hb
    have hbs : s.freeBlocks b = .taken := by
      have h2 := hb.2
      rw [FsState.truncate_freeBlocks] at h2
      by_cases hbc : b = (s.inodeTable n).iDataBlock.toNat
      · simp [hbc] at h2
      · simpa [hbc] using h2
    obtain ⟨m, hm⟩ := hO b ⟨hb.1, hbs⟩
    have hmn := hI.owner_ne hn0 hn hc.2 hb.2 hm
    exact ⟨m, hm.taken, by simpa [hmn] using hm.size, by simpa [hmn] using hm.block⟩
  · exact hO

theorem Owned.unbind (hI : Inv s) (hO : Owned s) {i n : Nat} (hn0 : 0 < n) (hn : TakenInode s n) :
    Owned (s.unbind i n) := by
  intro b hb
  have h2 := hb.2
  rw [FsState.unbind_freeBlocks] at h2
  have htake : ∀ {m}, m ≠ n → TakenInode s m → TakenInode (s.unbind i n) m :=
    fun hmn hm => ⟨hm.1, by simpa [hmn] using hm.2⟩
  split at h2
  · next hsz =>
    have hbs : s.freeBlocks b = .taken := by
      by_cases hbc : b = (s.inodeTable n).iDataBlock.toNat
      · simp [hbc] at h2
      · simpa [hbc] using h2
    obtain ⟨m, hm⟩ := hO b ⟨hb.1, hbs⟩
    have hmn := hI.owner_ne hn0 hn hsz h2 hm
    exact ⟨m, htake hmn hm.taken, hm.size, hm.block⟩
  · next hsz =>
    obtain ⟨m, hm⟩ := hO b ⟨hb.1, h2⟩
    have hmn : m ≠ n := by
      intro heq
      subst heq
      exact hsz hm.size
    exact ⟨m, htake hmn hm.taken, hm.size, hm.block⟩

theorem Owned.put (hO : Owned s) (h n b k : Nat) (buffer : Nat → UInt8) :
    Owned (s.put h n b k buffer) := by
  refine hO.frame fun c hc => ⟨hc, fun m hm => ⟨hm.taken, ?_, ?_⟩⟩
  · have hsz := hm.size
    by_cases hmn : m = n
    · subst hmn
      simp
      omega
    · simpa [hmn] using hsz
  · by_cases hmn : m = n
    · subst hmn
      simpa using hm.block
    · simpa [hmn] using hm.block

/-- The first write to an empty inode loses the block it takes exactly when the
inode is free. -/
theorem Owned.writeFirst_iff (hI : Inv s) (hO : Owned s) {h n b k : Nat} {buffer : Nat → UInt8}
    (hn0 : 0 < n) (hlt : n < s.fsParams.maxInodeCount) (hz : (s.inodeTable n).iSize = 0)
    (hf : freeBlock s = some b) (hk0 : 0 < k) :
    Owned ((s.giveBlock n b).put h n b k buffer) ↔ s.freeinodeTs n ≠ .free := by
  obtain ⟨hbc, hbf⟩ := freeBlock_some hf
  have hI' := hI.giveBlock (b := b) hn0 hz
  refine ⟨?_, ?_⟩
  · intro hO' hfree
    have hb : TakenBlock ((s.giveBlock n b).put h n b k buffer) b := ⟨hbc, by simp⟩
    obtain ⟨m, hm⟩ := hO' b hb
    have hmt : TakenInode s m := hm.taken
    have hmn : m ≠ n := hmt.ne_free hfree
    -- another inode's block is not free
    exact hI.blocks.ne_free hmt (by simpa [hmn] using hm.size) hbf (by simpa [hmn] using hm.block)
  · intro htk c hc
    have htaken : TakenInode s n := by
      refine ⟨hlt, ?_⟩
      cases ha : s.freeinodeTs n
      · exact absurd ha htk
      · rfl
    by_cases hcb : c = b
    · subst hcb
      refine ⟨n, htaken, ?_, by simp⟩
      simp
      omega
    · have h2 : update s.freeBlocks b .taken c = .taken := hc.2
      obtain ⟨m, hm⟩ := hO c ⟨hc.1, by rwa [update_of_ne hcb] at h2⟩
      have hmn : m ≠ n := by
        intro heq
        subst heq
        have := hm.size
        omega
      exact ⟨m, hm.taken, by simpa [hmn] using hm.size, by simpa [hmn] using hm.block⟩

theorem writeLength_zero {file : OpenFileEntry} (hB : Base s)
    (h : file.ofOffset ≤ s.fsParams.blockSize) : writeLength s file 0 = 0 := by
  have hbs := hB.blockSize_lt
  unfold writeLength stateBlockSize
  rw [if_neg]
  rw [szAdd_eq (by omega)]
  omega

theorem writeLength_pos {file : OpenFileEntry} {toWrite : Nat} (hB : Base s) (h0 : 0 < toWrite)
    (h : file.ofOffset < s.fsParams.blockSize) : 0 < writeLength s file toWrite := by
  have hbs := hB.blockSize_lt
  unfold writeLength stateBlockSize
  split
  · rw [szSub_eq (by omega) (by omega)]
    omega
  · exact h0

theorem Effect.owned_iff (hI : Inv s) (hO : Owned s) {op : Op} {r : Ret} (he : Effect s op r t) :
    Owned t ↔ ¬ OrphanWrite s op := by
  have htriv : Owned t → ¬ OrphanWrite s op → (Owned t ↔ ¬ OrphanWrite s op) :=
    fun h h' => ⟨fun _ => h', fun _ => h⟩
  cases he with
  | openInvalid | openMissing | openNoInode | closeBad | readBad | readNone | unlinkInvalid
  | unlinkMissing => exact htriv hO id
  | closeDone | readSome =>
    exact htriv (hO.frame fun b hb => ⟨hb, fun m hm => ⟨hm.taken, hm.size, hm.block⟩⟩) id
  | openFound hv hb =>
    obtain ⟨hn0, hn, -⟩ := hI.live_inode hb.live hb.inum
    exact htriv ((hO.cut hI hn0 hn).addToOpenFileTable _ _) id
  | @openNoEntry p mode n hv hm hc hn he =>
    have hfree := (freeInode_some hn).2
    refine htriv (hO.frame fun b hb => ⟨hb, fun m hm => ?_⟩) id
    have hmn : m ≠ n := hm.taken.ne_free hfree
    exact ⟨hm.taken, by simpa [hmn] using hm.size, by simpa [hmn] using hm.block⟩
  | @openCreated p mode n i hv hm hc hn hl he =>
    have hfree := (freeInode_some hn).2
    have hbind : Owned (s.bindName i n p.tail) := by
      refine hO.frame fun b hb => ⟨hb, fun m hm => ?_⟩
      have hmn : m ≠ n := hm.taken.ne_free hfree
      exact ⟨⟨hm.taken.1, by simpa [hmn] using hm.taken.2⟩, by simpa [hmn] using hm.size,
        by simpa [hmn] using hm.block⟩
    exact htriv (hbind.addToOpenFileTable n 0) id
  | writeBad hb =>
    apply htriv hO
    intro horphan
    obtain ⟨hh, ht, -⟩ := horphan
    exact hb _ hh ht
  | @writeNone h buffer toWrite ht hk =>
    apply htriv hO
    intro horphan
    obtain ⟨-, -, h0, -, -, ho, -⟩ := horphan
    rw [Int.toNat_natCast] at ho
    have := writeLength_pos hI.base h0 ho
    omega
  | @writeNoSpace h buffer toWrite ht hk hz hf =>
    apply htriv hO
    intro horphan
    obtain ⟨-, -, -, -, -, -, hne⟩ := horphan
    exact hne hf
  | @writeFirst h k b buffer toWrite ht hk hk0 hz hf hin =>
    obtain ⟨-, hn0, hlt⟩ := hI.handles.inode h ht
    rw [hO.writeFirst_iff hI hn0 hlt hz hf hk0]
    refine not_congr ⟨fun hfree => ?_, fun hor => hor.2.2.2.1⟩
    refine ⟨rfl, ht, Nat.pos_of_ne_zero ?_, hfree, hz, ?_, by simp [hf]⟩
    · intro heq
      subst heq
      rw [writeLength_zero hI.base (by omega)] at hk
      omega
    · show (s.openFileTable h).ofOffset < s.fsParams.blockSize
      omega
  | @writeOver h k b buffer toWrite ht hk hk0 hz hb hb0 hbc hin =>
    apply htriv (hO.put h _ b k buffer)
    intro horphan
    obtain ⟨-, -, -, -, hz', -⟩ := horphan
    rw [Int.toNat_natCast] at hz'
    omega
  | unlinkDone hv hb =>
    obtain ⟨hn0, hn, -⟩ := hI.live_inode hb.live hb.inum
    exact htriv (hO.unbind hI hn0 hn) id

/-! ## Runs -/

theorem Owned.initial (hp : params.Sane) (h : Initial params s) : Owned s := by
  obtain ⟨hn, hb, mem, rfl⟩ := h.formatted
  intro b hbt
  obtain rfl := (takenBlock_formatted hb).mp hbt
  exact ⟨0, (takenInode_formatted hn).mpr rfl, by simpa [formatted] using hp.blockSize,
    by simp [formatted]⟩

/-- Along a run the blocks are accounted for in every state exactly when no write
of the run is one into a deleted file that needs a block. -/
theorem blocks_accounted_iff (hp : params.Sane) {ρ : List (Op × FsState)} (h : Initial params s)
    (hr : Run Steps s ρ) :
    EveryState BlocksAccounted s ρ ↔ EveryStep (fun s op => ¬ OrphanWrite s op) s ρ := by
  have hI := Inv.initial hp h
  have hO := Owned.initial hp h
  refine Run.everyState_iff (I := Inv) (fun s op t hI hst => hI.step hst)
    (fun s op t hI hA hst => ?_) hI (hO.accounted hI) hr
  have hIt : Inv t := hI.step hst
  obtain ⟨r, hr⟩ := hst
  rw [← (step_effect hI hr).owned_iff hI hA.owned]
  exact ⟨fun hA' => hA'.owned, fun hO' => hO'.accounted hIt⟩

/-- A file written, and unlinked after its handle was closed. -/
theorem blocks_accounted_small : EveryState BlocksAccounted small
    (runOf small [.open (some pathA) tfsOCreat, .write 0 (fun _ => 7) 5, .close 0,
      .unlink (some pathA)]) := by
  apply (blocks_accounted_iff smallParams_sane initial_small (run_runOf _ _)).mpr
  decide

/-- A file unlinked under a handle that then writes: block 1 is no file's. -/
theorem orphan_write_leaks : ¬ ∀ params s, params.Sane → Reachable (Initial params) Steps s →
    BlocksAccounted s := by
  intro h
  have hA := h smallParams _ smallParams_sane (reachable_after reachable_small
    [.open (some pathA) tfsOCreat, .unlink (some pathA), .write 0 (fun _ => 7) 1])
  have hcard := hA.count
  revert hcard
  decide

end MBroker.Fs
