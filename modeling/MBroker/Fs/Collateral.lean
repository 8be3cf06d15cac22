import MBroker.Fs.Ghost
import MBroker.Fs.Leaks

/- What a write does to files other than the handle's own. An unlink frees the
   inode and its block and leaves the handles on them, so a write through one of
   these can land in a file made later: through the inode, when the new file was
   given it, or through the block number left in the inode, when a file was given
   that block. `writes_spare_others_iff` says that these are the only ways, and
   that they do harm exactly when the bytes written are not already there. -/
namespace MBroker.Fs
open MBroker.Lib Function

def IsFile (s : FsState) (m : Nat) : Prop := 0 < m ∧ TakenInode s m

instance (s : FsState) (m : Nat) : Decidable (IsFile s m) := inferInstanceAs (Decidable (_ ∧ _))

/-- A write leaves the size and the bytes of every file as they are, but for the
file its handle was opened on. -/
def SparesOthers (x : FsState × Ghost) (op : Op) (y : FsState × Ghost) : Prop :=
  ∀ (h : Nat) buffer toWrite, op = .write h buffer toWrite → TakenHandle x.1 h →
    ∀ m, IsFile x.1 m → ¬ (m = handleInode x.1 h ∧ OnOwnFile x.2 x.1 h) →
      (y.1.inodeTable m).iSize = (x.1.inodeTable m).iSize ∧ contents y.1 m = contents x.1 m

/-- The bytes of the buffer that fit the block are not what the file holds from
`offset` on. -/
def Differs (s : FsState) (m offset limit : Nat) (buffer : Nat → UInt8) (toWrite : Nat) : Prop :=
  ∃ i, i < toWrite ∧ offset + i < limit ∧ (contents s m)[offset + i]? ≠ some (buffer i)

instance (s : FsState) (m offset limit : Nat) (buffer : Nat → UInt8) (toWrite : Nat) :
    Decidable (Differs s m offset limit buffer toWrite) :=
  inferInstanceAs (Decidable (∃ i, i < _ ∧ _))

/-- The inode of the handle was given to another file, and the write changes it. -/
def StraysByInode (x : FsState × Ghost) (h : Nat) (buffer : Nat → UInt8) (toWrite : Nat) : Prop :=
  let n := handleInode x.1 h
  TakenInode x.1 n ∧ ¬ OnOwnFile x.2 x.1 h ∧
    ((x.1.inodeTable n).iSize = 0 → freeBlock x.1 ≠ none) ∧
    Differs x.1 n (x.1.openFileTable h).ofOffset x.1.fsParams.blockSize buffer toWrite

/-- The inode of the handle is free, its old block is now a file's, and the write
changes that file. -/
def StraysByBlock (s : FsState) (h : Nat) (buffer : Nat → UInt8) (toWrite : Nat) : Prop :=
  let n := handleInode s h
  ¬ TakenInode s n ∧ 0 < (s.inodeTable n).iSize ∧ ∃ m, m < s.fsParams.maxInodeCount ∧
    IsFile s m ∧ (s.inodeTable m).iDataBlock = (s.inodeTable n).iDataBlock ∧
    Differs s m (s.openFileTable h).ofOffset (s.inodeTable m).iSize buffer toWrite

instance (x : FsState × Ghost) (h : Nat) (buffer : Nat → UInt8) (toWrite : Nat) :
    Decidable (StraysByInode x h buffer toWrite) :=
  inferInstanceAs (Decidable (_ ∧ _ ∧ (_ → _) ∧ _))

instance (s : FsState) (h : Nat) (buffer : Nat → UInt8) (toWrite : Nat) :
    Decidable (StraysByBlock s h buffer toWrite) :=
  inferInstanceAs (Decidable (_ ∧ _ ∧ ∃ m, m < _ ∧ _))

/-- The write is one of these two. -/
def Strays (x : FsState × Ghost) : Op → Prop
  | .write fhandle buffer toWrite =>
    let h := fhandle.toNat
    fhandle = h ∧ TakenHandle x.1 h ∧
      (StraysByInode x h buffer toWrite ∨ StraysByBlock x.1 h buffer toWrite)
  | _ => False

instance (x : FsState × Ghost) : (op : Op) → Decidable (Strays x op)
  | .write .. => inferInstanceAs (Decidable (_ ∧ _ ∧ (_ ∨ _)))
  | .open .. | .close _ | .read .. | .unlink _ => inferInstanceAs (Decidable False)

variable {s t : FsState} {g : Ghost}

/-! ## The bytes a write changes -/

/-- The bytes that a write writes. -/
theorem lt_writeLength_iff {h k toWrite i : Nat}
    (hk : writeLength s (s.openFileTable h) toWrite = k)
    (hin : (s.openFileTable h).ofOffset + k ≤ s.fsParams.blockSize) (hB : Base s) :
    i < k ↔ i < toWrite ∧ (s.openFileTable h).ofOffset + i < s.fsParams.blockSize := by
  have hbs := hB.blockSize_lt
  unfold writeLength stateBlockSize szAdd at hk
  split at hk
  · next hgt =>
    rw [szSub_eq (by omega) (by omega)] at hk
    omega
  · omega

/-- The file a write is for keeps its bytes exactly when they were there. -/
theorem contents_put_self_iff {h n b k : Nat} {buffer : Nat → UInt8}
    (hb : (s.inodeTable n).iDataBlock = b) (hk0 : 0 < k) :
    contents (s.put h n b k buffer) n = contents s n ↔
      ∀ i, i < k → (contents s n)[(s.openFileTable h).ofOffset + i]? = some (buffer i) := by
  obtain ⟨offset, ho⟩ : ∃ o, (s.openFileTable h).ofOffset = o := ⟨_, rfl⟩
  obtain ⟨a, ha⟩ : ∃ a, b * s.fsParams.blockSize = a := ⟨_, rfl⟩
  obtain ⟨size, hsize⟩ : ∃ z, (s.inodeTable n).iSize = z := ⟨_, rfl⟩
  have hold : ∀ j, (contents s n)[j]? = if j < size then some (s.fsData (a + j)) else none := by
    intro j
    rw [contents, hb, Int.toNat_natCast, ha, Mem.read_getElem?, hsize]
  have hnew : ∀ j, (contents (s.put h n b k buffer) n)[j]? =
      if j < max size (offset + k) then some (s.fsData.write (a + offset) k buffer (a + j))
      else none := by
    intro j
    rw [contents, Mem.read_getElem?]
    simp only [FsState.put_inodeTable, FsState.put_fsData, FsState.put_fsParams, update_self, hb,
      Int.toNat_natCast, ho, hsize, ha]
  rw [ho]
  refine ⟨?_, ?_⟩
  · intro heq i hi
    have hin : (contents (s.put h n b k buffer) n)[offset + i]? = some (buffer i) := by
      rw [hnew, if_pos (by omega), ← Nat.add_assoc, Mem.write_in hi]
    rw [← heq, hin]
  · intro hall
    have h0 := hall 0 hk0
    rw [hold] at h0
    have hoff : offset + 0 < size := by
      by_contra hge
      rw [if_neg hge] at h0
      cases h0
    refine List.ext_getElem? fun j => ?_
    rw [hnew, hold]
    by_cases hj : offset ≤ j ∧ j < offset + k
    · obtain ⟨i, rfl⟩ := Nat.exists_eq_add_of_le hj.1
      rw [if_pos (by omega), ← Nat.add_assoc, Mem.write_in (by omega), ← hall i (by omega), hold,
        Nat.add_assoc]
    · rw [Mem.write_out (by omega)]
      have hsz : j < max size (offset + k) ↔ j < size := by omega
      simp only [hsz]

/-- A file in the block of a write keeps its bytes exactly when they were there. -/
theorem contents_put_other_iff {h n m b k : Nat} {buffer : Nat → UInt8} (hmn : m ≠ n)
    (hb : (s.inodeTable m).iDataBlock = b) :
    contents (s.put h n b k buffer) m = contents s m ↔
      ∀ i, i < k → (s.openFileTable h).ofOffset + i < (s.inodeTable m).iSize →
        (contents s m)[(s.openFileTable h).ofOffset + i]? = some (buffer i) := by
  obtain ⟨offset, ho⟩ : ∃ o, (s.openFileTable h).ofOffset = o := ⟨_, rfl⟩
  obtain ⟨a, ha⟩ : ∃ a, b * s.fsParams.blockSize = a := ⟨_, rfl⟩
  obtain ⟨size, hsize⟩ : ∃ z, (s.inodeTable m).iSize = z := ⟨_, rfl⟩
  have hold : ∀ j, (contents s m)[j]? = if j < size then some (s.fsData (a + j)) else none := by
    intro j
    rw [contents, hb, Int.toNat_natCast, ha, Mem.read_getElem?, hsize]
  have hnew : ∀ j, (contents (s.put h n b k buffer) m)[j]? =
      if j < size then some (s.fsData.write (a + offset) k buffer (a + j)) else none := by
    intro j
    rw [contents, Mem.read_getElem?]
    simp only [FsState.put_inodeTable, FsState.put_fsData, FsState.put_fsParams,
      update_of_ne hmn, hb, Int.toNat_natCast, ho, hsize, ha]
  rw [ho, hsize]
  refine ⟨?_, ?_⟩
  · intro heq i hi hlt
    have hin : (contents (s.put h n b k buffer) m)[offset + i]? = some (buffer i) := by
      rw [hnew, if_pos hlt, ← Nat.add_assoc, Mem.write_in hi]
    rw [← heq, hin]
  · intro hall
    refine List.ext_getElem? fun j => ?_
    rw [hnew, hold]
    by_cases hj : j < size ∧ offset ≤ j ∧ j < offset + k
    · obtain ⟨i, rfl⟩ := Nat.exists_eq_add_of_le hj.2.1
      rw [if_pos hj.1, ← Nat.add_assoc, Mem.write_in (by omega), ← hall i (by omega) hj.1, hold,
        Nat.add_assoc]
    · by_cases hlt : j < size
      · rw [Mem.write_out (by omega)]
      · rw [if_neg hlt, if_neg hlt]

/-! ## One write -/

/-- A file's size is spared with its bytes. -/
theorem sparesOthers_write_iff {h toWrite : Nat} {buffer : Nat → UInt8} {g' : Ghost}
    (ht : TakenHandle s h) :
    SparesOthers (s, g) (.write h buffer toWrite) (t, g') ↔
      ∀ m, IsFile s m → ¬ (m = handleInode s h ∧ OnOwnFile g s h) →
        contents t m = contents s m := by
  refine ⟨?_, ?_⟩
  · intro hs m hm hother
    exact (hs h buffer toWrite rfl ht m hm hother).2
  · intro hs h' buffer' toWrite' hop _ m hm hother
    cases hop
    have heq := hs m hm hother
    refine ⟨?_, heq⟩
    show (t.inodeTable m).iSize = (s.inodeTable m).iSize
    rw [← contents_length t m, heq, contents_length]

theorem strays_write_iff {h toWrite : Nat} {buffer : Nat → UInt8} (ht : TakenHandle s h) :
    Strays (s, g) (.write h buffer toWrite) ↔
      StraysByInode (s, g) h buffer toWrite ∨ StraysByBlock s h buffer toWrite :=
  ⟨fun hs => hs.2.2, fun hs => ⟨rfl, ht, hs⟩⟩

/-- Bytes that differ are bytes the write has room for. -/
theorem Differs.length_pos {h m limit toWrite : Nat} {buffer : Nat → UInt8} (hB : Base s)
    (hd : Differs s m (s.openFileTable h).ofOffset limit buffer toWrite)
    (hl : limit ≤ s.fsParams.blockSize) : 0 < writeLength s (s.openFileTable h) toWrite := by
  obtain ⟨i, hi, hlt, -⟩ := hd
  exact writeLength_pos hB (by omega) (by omega)

/-- No bytes differ when those the write writes are there. -/
theorem not_differs_iff {h m k limit toWrite : Nat} {buffer : Nat → UInt8} (hB : Base s)
    (hk : writeLength s (s.openFileTable h) toWrite = k)
    (hin : (s.openFileTable h).ofOffset + k ≤ s.fsParams.blockSize)
    (hl : limit ≤ s.fsParams.blockSize) :
    ¬ Differs s m (s.openFileTable h).ofOffset limit buffer toWrite ↔
      ∀ i, i < k → (s.openFileTable h).ofOffset + i < limit →
        (contents s m)[(s.openFileTable h).ofOffset + i]? = some (buffer i) := by
  have hlt : ∀ i, i < k ↔ i < toWrite ∧ (s.openFileTable h).ofOffset + i < s.fsParams.blockSize :=
    fun i => lt_writeLength_iff hk hin hB
  refine ⟨?_, ?_⟩
  · intro hnd i hi hil
    by_contra hne
    exact hnd ⟨i, ((hlt i).mp hi).1, hil, hne⟩
  · intro hall hc
    obtain ⟨i, hi, hil, hne⟩ := hc
    exact hne (hall i ((hlt i).mpr ⟨hi, by omega⟩) hil)

/-- The first write to an empty inode takes a block that was no file's. -/
theorem contents_writeFirst_ne (hI : Inv s) {h n b k m : Nat} {buffer : Nat → UInt8}
    (hn0 : 0 < n) (hz : (s.inodeTable n).iSize = 0) (hf : freeBlock s = some b)
    (hin : (s.openFileTable h).ofOffset + k ≤ s.fsParams.blockSize) (hmn : m ≠ n)
    (hm : TakenInode s m) :
    contents ((s.giveBlock n b).put h n b k buffer) m = contents s m := by
  obtain ⟨hbc, hbf⟩ := freeBlock_some hf
  have hown : Owner (s.giveBlock n b) n b := hI.giveBlock_owner hbc hbf
  calc contents ((s.giveBlock n b).put h n b k buffer) m
      = contents (s.giveBlock n b) m :=
        contents_put_ne (hI.giveBlock hn0 hz) hin hmn hm fun h0 hb => hmn (hown.only m hm h0 hb)
    _ = contents s m := contents_giveBlock hz

/-- The first write to an empty inode changes no file but the inode's. -/
theorem spares_writeFirst_iff (hI : Inv s) {h b k toWrite : Nat} {buffer : Nat → UInt8}
    {g' : Ghost} (ht : TakenHandle s h) (hk : writeLength s (s.openFileTable h) toWrite = k)
    (hk0 : 0 < k) (hz : (s.inodeTable (handleInode s h)).iSize = 0) (hf : freeBlock s = some b)
    (hin : (s.openFileTable h).ofOffset + k ≤ s.fsParams.blockSize) :
    SparesOthers (s, g) (.write h buffer toWrite)
        ((s.giveBlock (handleInode s h) b).put h (handleInode s h) b k buffer, g') ↔
      ¬ Strays (s, g) (.write h buffer toWrite) := by
  obtain ⟨-, hn0, -⟩ := hI.handles.inode h ht
  rw [sparesOthers_write_iff ht, strays_write_iff ht]
  refine ⟨?_, ?_⟩
  · rintro hs (⟨hn, hown, -, -⟩ | ⟨-, hsz, -⟩)
    · have heq := congrArg List.length (hs _ ⟨hn0, hn⟩ fun hc => hown hc.2)
      simp only [contents_length, FsState.put_inodeTable, update_self,
        FsState.giveBlock_openFileTable] at heq
      omega
    · omega
  · intro hno m hm hother
    refine contents_writeFirst_ne hI hn0 hz hf hin ?_ hm.2
    intro heq
    subst heq
    -- the file is not the handle's own: it was empty, and any byte differs
    have h0 := (lt_writeLength_iff hk hin hI.base).mp hk0
    refine hno (.inl ⟨hm.2, fun hown => hother ⟨rfl, hown⟩, fun _ => by simp [hf], 0, h0.1, h0.2,
      ?_⟩)
    simp [contents_eq_nil.mpr hz]

/-- A write over a non-empty inode changes the file on the inode, or, the inode
being free, a file on its block. -/
theorem spares_writeOver_iff (hI : Inv s) {h b k toWrite : Nat} {buffer : Nat → UInt8}
    {g' : Ghost} (ht : TakenHandle s h) (hk : writeLength s (s.openFileTable h) toWrite = k)
    (hk0 : 0 < k) (hz : 0 < (s.inodeTable (handleInode s h)).iSize)
    (hb : (s.inodeTable (handleInode s h)).iDataBlock = b)
    (hin : (s.openFileTable h).ofOffset + k ≤ s.fsParams.blockSize) :
    SparesOthers (s, g) (.write h buffer toWrite) (s.put h (handleInode s h) b k buffer, g') ↔
      ¬ Strays (s, g) (.write h buffer toWrite) := by
  obtain ⟨-, hn0, -⟩ := hI.handles.inode h ht
  rw [sparesOthers_write_iff ht, strays_write_iff ht]
  by_cases hn : TakenInode s (handleInode s h)
  · -- the block is the inode's alone
    have hself : contents (s.put h _ b k buffer) (handleInode s h) = contents s _ ↔ _ :=
      contents_put_self_iff hb hk0
    have hnd : ¬ Differs s (handleInode s h) (s.openFileTable h).ofOffset _ buffer toWrite ↔ _ :=
      not_differs_iff hI.base hk hin le_rfl
    refine ⟨?_, ?_⟩
    · rintro hs (⟨-, hown, -, hd⟩ | ⟨hfree, -⟩)
      · have heq := hs _ ⟨hn0, hn⟩ fun hc => hown hc.2
        exact hnd.mpr (fun i hi _ => hself.mp heq i hi) hd
      · exact hfree hn
    · intro hno m hm hother
      by_cases hmn : m = handleInode s h
      · subst hmn
        have hown : ¬ OnOwnFile g s h := fun hown => hother ⟨rfl, hown⟩
        have hsame : ¬ Differs s (handleInode s h) (s.openFileTable h).ofOffset
            s.fsParams.blockSize buffer toWrite :=
          fun hd => hno (.inl ⟨hn, hown, fun h0 => absurd h0 (Nat.ne_of_gt hz), hd⟩)
        exact hself.mpr fun i hi => hnd.mp hsame i hi (by omega)
      · refine contents_put_ne hI hin hmn hm.2 fun h0 hmb => hmn ?_
        exact hI.blocks.excl m _ hm.2 hn h0 hz (by rw [hmb, hb])
  · have hne : ∀ m, IsFile s m → m ≠ handleInode s h := fun m hm hmn => hn (hmn ▸ hm.2)
    refine ⟨?_, ?_⟩
    · rintro hs (⟨htk, -⟩ | ⟨-, -, m, -, hm, hmb, hd⟩)
      · exact hn htk
      · have heq := hs m hm fun hc => hne m hm hc.1
        rw [contents_put_other_iff (hne m hm) (by rw [hmb, hb])] at heq
        exact (not_differs_iff hI.base hk hin (hI.blocks.size m hm.2)).mpr heq hd
    · intro hno m hm _
      by_cases hmb : (s.inodeTable m).iDataBlock = b
      · rw [contents_put_other_iff (hne m hm) hmb]
        refine (not_differs_iff hI.base hk hin (hI.blocks.size m hm.2)).mp fun hd => ?_
        exact hno (.inr ⟨hn, hz, m, hm.2.1, hm, by rw [hmb, hb], hd⟩)
      · exact contents_put_ne hI hin (hne m hm) hm.2 fun _ => hmb

/-- A call spares the other files exactly when it is not a stray write. -/
theorem Effect.sparesOthers_iff (hI : Inv s) {op : Op} {r : Ret} {g' : Ghost}
    (he : Effect s op r t) : SparesOthers (s, g) op (t, g') ↔ ¬ Strays (s, g) op := by
  have hnoWrite : (∀ h buffer toWrite, op ≠ .write h buffer toWrite) →
      (SparesOthers (s, g) op (t, g') ↔ ¬ Strays (s, g) op) := by
    intro hop
    refine ⟨fun _ hs => ?_, fun _ h buffer toWrite h' => absurd h' (hop _ _ _)⟩
    cases op with
    | write => exact hop _ _ _ rfl
    | _ => exact hs
  cases he with
  | openInvalid | openMissing | openFound | openNoInode | openNoEntry | openCreated | closeBad
  | closeDone | readBad | readNone | readSome | unlinkInvalid | unlinkMissing | unlinkDone =>
    exact hnoWrite (by simp)
  | writeBad hb =>
    refine ⟨?_, ?_⟩
    · rintro - ⟨hh, ht, -⟩
      exact hb _ hh ht
    · rintro - h buffer toWrite hop ht
      cases hop
      exact absurd ht (hb h rfl)
  | @writeNone h buffer toWrite ht hk =>
    rw [sparesOthers_write_iff ht, strays_write_iff ht]
    refine ⟨fun _ hs => ?_, fun _ _ _ _ => rfl⟩
    -- a stray write has bytes to write
    have hpos : 0 < writeLength s (s.openFileTable h) toWrite := by
      rcases hs with ⟨-, -, -, hd⟩ | ⟨-, -, m, -, hm, -, hd⟩
      · exact hd.length_pos hI.base le_rfl
      · exact hd.length_pos hI.base (hI.blocks.size m hm.2)
    omega
  | @writeNoSpace h buffer toWrite ht hk hz hf =>
    rw [sparesOthers_write_iff ht, strays_write_iff ht]
    refine ⟨fun _ hs => ?_, fun _ _ _ _ => rfl⟩
    rcases hs with ⟨-, -, hroom, -⟩ | ⟨-, hsz, -⟩
    · exact hroom hz hf
    · omega
  | writeFirst ht hk hk0 hz hf hin => exact spares_writeFirst_iff hI ht hk hk0 hz hf hin
  | writeOver ht hk hk0 hz hb hb0 hbc hin => exact spares_writeOver_iff hI ht hk hk0 hz hb hin

/-! ## Runs -/

/-- Along a run every write leaves the files other than its handle's own as they
were exactly when no write of the run is stray. -/
theorem writes_spare_others_iff {params : TfsParams} (hp : params.Sane) {ρ : List (Op × FsState)}
    (h : Initial params s) (hr : Run Steps s ρ) :
    EveryMove SparesOthers (s, Ghost.start) (watch s Ghost.start ρ) ↔
      EveryStep (fun x op => ¬ Strays x op) (s, Ghost.start) (watch s Ghost.start ρ) := by
  refine Run.everyMove_iff (I := fun x => Inv x.1) (fun x op y hI hst _ => hI.step hst.1)
    (fun x op y hI hst => ?_) (Inv.initial hp h) (run_watch hr)
  obtain ⟨r, hr⟩ := hst.1
  exact (step_effect hI hr).sparesOthers_iff hI

/-- Two files, one of them written after it was unlinked: its block is no file's. -/
theorem writes_spare_others_small : EveryMove SparesOthers (small, Ghost.start)
    (watch small Ghost.start (runOf small [.open (some pathA) tfsOCreat,
      .open (some pathB) tfsOCreat, .write 0 (fun _ => 7) 5, .write 1 (fun _ => 8) 3,
      .unlink (some pathA), .write 0 (fun _ => 9) 2])) := by
  apply (writes_spare_others_iff smallParams_sane initial_small (run_runOf _ _)).mpr
  decide

/-- A file unlinked under its handle, another made on its inode, and written
through that handle. -/
theorem stale_handle_writes_other : ¬ ∀ params s, params.Sane → Initial params s →
    ∀ ρ, Run Steps s ρ →
      EveryMove SparesOthers (s, Ghost.start) (watch s Ghost.start ρ) := by
  intro h
  have hall := h smallParams small smallParams_sane initial_small
    (runOf small [.open (some pathA) tfsOCreat, .unlink (some pathA),
      .open (some pathB) tfsOCreat, .write 0 (fun _ => 7) 5]) (run_runOf _ _)
  obtain ⟨-, -, -, hwrite, -⟩ := hall
  -- the inode of both files
  obtain ⟨hsize, -⟩ := hwrite 0 (fun _ => 7) 5 rfl (by decide) 1 (by decide) (by decide)
  revert hsize
  decide

end MBroker.Fs
