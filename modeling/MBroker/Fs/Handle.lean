import MBroker.Fs.Files
import MBroker.Fs.Offsets

/- A file through the handles that are open on it and not past its end: what an
   open for appending, a read, a write and a close do to the file's bytes and to
   the handles. `Within` is kept by all four, for the handle used and for every
   other one, so the users of a file can be interleaved call by call. -/
namespace MBroker.Fs
open MBroker.Lib Function

/-- Handle `h` is open on inode `n`, not past its end. -/
structure Within (s : FsState) (h n : Nat) : Prop where
  taken : TakenHandle s h
  inode : handleInode s h = n
  offset : (s.openFileTable h).ofOffset ≤ (s.inodeTable n).iSize

instance (s : FsState) (h n : Nat) : Decidable (Within s h n) :=
  decidable_of_iff (TakenHandle s h ∧ handleInode s h = n ∧
      (s.openFileTable h).ofOffset ≤ (s.inodeTable n).iSize)
    ⟨fun hW => ⟨hW.1, hW.2.1, hW.2.2⟩, fun hW => ⟨hW.taken, hW.inode, hW.offset⟩⟩

/-- What these calls leave of the file system. -/
structure Keeps (s t : FsState) : Prop where
  inv : Inv t
  params : t.fsParams = s.fsParams
  lookup : ∀ x, lookup t x = lookup s x

/-- `bytes` written through handle `h` to inode `n`. -/
structure Wrote (s t : FsState) (h n : Nat) (bytes : List UInt8) : Prop extends Keeps s t where
  contents : contents t n = Volume.overwrite (contents s n) (s.openFileTable h).ofOffset bytes
  others : ∀ m, m ≠ n → TakenInode s m → Fs.contents t m = Fs.contents s m
  entries : t.freeOpenFileEntries = s.freeOpenFileEntries
  moved : t.openFileTable = update s.openFileTable h
    { s.openFileTable h with ofOffset := (s.openFileTable h).ofOffset + bytes.length }

variable {s t : FsState} {h g n : Nat} {data : List UInt8}

theorem Keeps.of_slots (hI : Inv s) (ht : Inv t) (hp : t.fsParams = s.fsParams)
    (hd : ∀ x, x < s.fsParams.blockSize → t.fsData x = s.fsData x) : Keeps s t :=
  ⟨ht, hp, (hI.base.sameSlots ht.base hp hd).lookup⟩

theorem Keeps.refl (hI : Inv s) : Keeps s s := ⟨hI, rfl, fun _ => rfl⟩

theorem Keeps.trans {u : FsState} (h : Keeps s t) (h' : Keeps t u) : Keeps s u :=
  ⟨h'.inv, h'.params.trans h.params, fun x => (h'.lookup x).trans (h.lookup x)⟩

/-- A handle that is left alone, on a file that does not shrink. -/
theorem Within.frame (hW : Within s h n) (hp : t.fsParams = s.fsParams)
    (ht : t.freeOpenFileEntries h = s.freeOpenFileEntries h)
    (hf : t.openFileTable h = s.openFileTable h)
    (hn : (s.inodeTable n).iSize ≤ (t.inodeTable n).iSize) : Within t h n := by
  refine ⟨⟨?_, ?_⟩, ?_, ?_⟩
  · rw [hp]
    exact hW.taken.1
  · rw [ht]
    exact hW.taken.2
  · rw [handleInode, hf]
    exact hW.inode
  · rw [hf]
    exact Nat.le_trans hW.offset hn

/-! ## Opening for appending -/

theorem tfsOpen_append (hI : Inv s) {p : CString} (hv : validPathname p = true)
    (hl : lookup s p.tail.bytes = some n) :
    tfsOpen s (some p) tfsOAppend = .ok (addToOpenFileTable s n (s.inodeTable n).iSize) := by
  obtain ⟨i, hb⟩ := (lookup_eq_some hI.dir).mp hl
  have hcut : s.cut tfsOAppend n = s := cut_eq_self _ _ rfl
  have hoff : s.openOffset tfsOAppend n = (s.inodeTable n).iSize := by
    rw [FsState.openOffset, hcut]
    rfl
  rw [tfsOpen_found hI hv hb, hcut, hoff]

theorem Keeps.openHandle (hI : Inv s) {x : List UInt8} (hl : Fs.lookup s x = some n) {offset : Nat}
    (ho : offset ≤ (s.inodeTable n).iSize) : Keeps s (s.openHandle h n offset) := by
  obtain ⟨hn0, hn⟩ := hI.lookup_taken hl
  have hlt := hI.base.blockSize_lt
  have hr := hI.inRange hn0 hn
  have hsize := hr.size
  have ht : Inv (s.openHandle h n offset) := hI.openHandle hn0 hn.1 hr (by omega)
  exact .of_slots hI ht rfl fun _ _ => rfl

theorem Within.opened {offset : Nat} (hh : freeHandle s = some h)
    (ho : offset ≤ (s.inodeTable n).iSize) : Within (s.openHandle h n offset) h n := by
  refine ⟨⟨(freeHandle_some hh).1, ?_⟩, ?_, ?_⟩
  · simp
  · simp [handleInode]
  · simpa using ho

theorem Within.openHandle (hW : Within s g n) (m offset : Nat) (hh : freeHandle s = some h) :
    g ≠ h ∧ Within (s.openHandle h m offset) g n := by
  have hgh : g ≠ h := hW.taken.ne_free (freeHandle_some hh).2
  refine ⟨hgh, hW.frame rfl ?_ ?_ (Nat.le_refl _)⟩
  · simp [hgh]
  · simp [hgh]

/-! ## Closing -/

theorem Keeps.closeHandle (hI : Inv s) : Keeps s (s.closeHandle h) :=
  .of_slots hI (hI.closeHandle h) rfl fun _ _ => rfl

theorem Within.closeHandle (hW : Within s g n) (hgh : g ≠ h) : Within (s.closeHandle h) g n :=
  hW.frame rfl (by simp [hgh]) rfl (Nat.le_refl _)

/-! ## Reading -/

@[simp] theorem advance_zero (s : FsState) (h : Nat) : s.advance h 0 = s := by
  simp [FsState.advance]

/-- How many bytes a read of `len` gets. -/
def readable (s : FsState) (h n len : Nat) : Nat :=
  min len ((s.inodeTable n).iSize - (s.openFileTable h).ofOffset)

theorem tfsRead_within (hI : Inv s) (hW : Within s h n)
    (hsz : (s.inodeTable n).iSize ≤ s.fsParams.blockSize) (len : Nat) :
    tfsRead s h len = .ok (((readable s h n len : Int),
      ((contents s n).drop (s.openFileTable h).ofOffset).take len),
        s.advance h (readable s h n len)) := by
  obtain ⟨ht, rfl, ho⟩ := hW
  have hk : readLength (s.inodeTable (handleInode s h)) (s.openFileTable h) len =
      readable s h (handleInode s h) len := readLength_eq hI.base len ho hsz
  have hdata : ((contents s (handleInode s h)).drop (s.openFileTable h).ofOffset).take len =
      s.fsData.read ((s.inodeTable (handleInode s h)).iDataBlock.toNat * s.fsParams.blockSize +
        (s.openFileTable h).ofOffset) (readable s h (handleInode s h) len) :=
    Mem.read_drop_take _ _ _ _ _
  rcases Nat.eq_zero_or_pos (readable s h (handleInode s h) len) with h0 | hpos
  · rw [hdata, h0, advance_zero]
    exact tfsRead_none hI ht (hk.trans h0)
  · have hlen : readable s h (handleInode s h) len ≤
        (s.inodeTable (handleInode s h)).iSize - (s.openFileTable h).ofOffset :=
      Nat.min_le_right _ _
    -- something to read, so the file has a block
    obtain ⟨b, hb, -, hbc⟩ := (hI.handles.range h ht).block (by omega)
    have harea := hI.base.block_le hbc
    rw [hdata, hb, Int.toNat_natCast]
    exact tfsRead_some hI ht hk hpos hb hbc (by omega)

theorem Keeps.advance (hI : Inv s) (hW : Within s h n)
    (hsz : (s.inodeTable n).iSize ≤ s.fsParams.blockSize) (len : Nat) :
    Keeps s (s.advance h (readable s h n len)) := by
  have hlt := hI.base.blockSize_lt
  have hle : readable s h n len ≤ (s.inodeTable n).iSize - (s.openFileTable h).ofOffset :=
    Nat.min_le_right _ _
  have ho := hW.offset
  exact .of_slots hI (hI.advance (by omega)) rfl fun _ _ => rfl

theorem Within.advanced (hW : Within s h n) (len : Nat) :
    Within (s.advance h (readable s h n len)) h n := by
  have hle : readable s h n len ≤ (s.inodeTable n).iSize - (s.openFileTable h).ofOffset :=
    Nat.min_le_right _ _
  have ho := hW.offset
  refine ⟨hW.taken, ?_, ?_⟩
  · have hin := hW.inode
    unfold handleInode at hin ⊢
    simpa using hin
  · show ((s.advance h (readable s h n len)).openFileTable h).ofOffset ≤ (s.inodeTable n).iSize
    simp only [FsState.advance_openFileTable, update_self]
    omega

theorem Within.advance (hW : Within s g n) (hgh : g ≠ h) (k : Nat) : Within (s.advance h k) g n :=
  hW.frame rfl rfl (by simp [hgh]) (Nat.le_refl _)

/-! ## Writing -/

theorem length_overwrite {bytes data : List UInt8} {offset : Nat} (h : offset ≤ bytes.length) :
    (Volume.overwrite bytes offset data).length = max bytes.length (offset + data.length) := by
  unfold Volume.overwrite
  simp only [List.length_append, List.length_take, List.length_drop]
  omega

theorem overwrite_end (bytes data : List UInt8) :
    Volume.overwrite bytes bytes.length data = bytes ++ data := by
  unfold Volume.overwrite
  rw [List.take_length, List.drop_eq_nil_of_le (by omega), List.append_nil]

theorem overwrite_nil {bytes : List UInt8} {offset : Nat} :
    Volume.overwrite bytes offset [] = bytes := by
  simp [Volume.overwrite]

theorem Wrote.size (hw : Wrote s t h n data) (ho : (s.openFileTable h).ofOffset ≤
    (s.inodeTable n).iSize) : (t.inodeTable n).iSize =
      max (s.inodeTable n).iSize ((s.openFileTable h).ofOffset + data.length) := by
  rw [← contents_length t n, hw.contents, length_overwrite (by rwa [contents_length]),
    contents_length]

theorem Within.wrote (hW : Within s h n) (hw : Wrote s t h n data) : Within t h n := by
  refine ⟨⟨?_, ?_⟩, ?_, ?_⟩
  · rw [hw.params]
    exact hW.taken.1
  · rw [hw.entries]
    exact hW.taken.2
  · have hin := hW.inode
    unfold handleInode at hin ⊢
    rw [hw.moved, update_self]
    exact hin
  · rw [hw.size hW.offset, hw.moved, update_self]
    exact Nat.le_max_right _ _

theorem Within.wrote_ne (hW : Within s g n) (hh : Within s h n) (hgh : g ≠ h)
    (hw : Wrote s t h n data) : Within t g n := by
  apply hW.frame hw.params
  · rw [hw.entries]
  · rw [hw.moved, update_of_ne hgh]
  · rw [hw.size hh.offset]
    exact Nat.le_max_left _ _

/-- A copy to the block that is the file's own. -/
theorem Wrote.put (hI : Inv s) (hW : Within s h n) (hn0 : 0 < n) (hn : TakenInode s n) {b k : Nat}
    (buffer : Nat → UInt8) (hown : Owner s n b)
    (hin : (s.openFileTable h).ofOffset + k ≤ s.fsParams.blockSize) :
    Wrote s (s.put h n b k buffer) h n (Mem.read buffer 0 k) := by
  have hI' : Inv (s.put h n b k buffer) :=
    hI.put hn0 hown.block hown.pos hown.taken.1 (hI.blocks.size _ hn) hin fun _ => hown
  have hkeeps : Keeps s (s.put h n b k buffer) := by
    refine .of_slots hI hI' rfl fun x hx => Mem.write_out (.inl ?_)
    exact Nat.lt_of_lt_of_le hx
      (Nat.le_trans (Nat.le_mul_of_pos_left _ hown.pos) (Nat.le_add_right _ _))
  refine ⟨hkeeps, contents_put_self hown.block hW.offset, fun m hmn hm => ?_, rfl, ?_⟩
  · exact contents_put_ne hI hin hmn hm fun hsz hmb => hmn (hown.only m hm hsz hmb)
  · rw [Mem.read_length]
    rfl

/-- A write to a taken file through a handle within it: nothing happens for want of
a block, or as many bytes as the block has room for are written. -/
theorem tfsWrite_within (hI : Inv s) (hW : Within s h n) (hn0 : 0 < n) (hn : TakenInode s n)
    (buffer : Nat → UInt8) {toWrite k : Nat} (hw : toWrite < 2 ^ 63)
    (hk : k = min toWrite (s.fsParams.blockSize - (s.openFileTable h).ofOffset)) :
    (0 < k ∧ (s.inodeTable n).iSize = 0 ∧ freeBlock s = none ∧
      tfsWrite s h buffer toWrite = .ok (-1, s)) ∨
    ∃ t, tfsWrite s h buffer toWrite = .ok ((k : Int), t) ∧
      Wrote s t h n (Mem.read buffer 0 k) := by
  have hsize := hI.blocks.size n hn
  have ho := hW.offset
  have hk' : writeLength s (s.openFileTable h) toWrite = k := by
    rw [hk]
    exact writeLength_eq hI.base (Nat.le_trans ho hsize) hw
  have hin : (s.openFileTable h).ofOffset + k ≤ s.fsParams.blockSize := by omega
  have hWr := hW
  obtain ⟨ht, rfl, -⟩ := hW
  rcases Nat.eq_zero_or_pos k with h0 | hpos
  · -- no byte, or the block is full: the call returns 0
    subst h0
    refine .inr ⟨s, tfsWrite_none hI ht hk', .refl hI, ?_, fun _ _ _ => rfl, rfl, ?_⟩
    · rw [Mem.read_zero, overwrite_nil]
    · simp
  rcases Nat.eq_zero_or_pos (s.inodeTable (handleInode s h)).iSize with hz | hz
  · cases hf : freeBlock s with
    | none => exact .inl ⟨hpos, hz, rfl, tfsWrite_noSpace hI ht (by omega) hz hf⟩
    | some b =>
      obtain ⟨hbc, hfree⟩ := freeBlock_some hf
      -- an empty file takes a block, which no other file has
      have hgive := hI.giveBlock (b := b) hn0 hz
      have hWg : Within (s.giveBlock (handleInode s h) b) h (handleInode s h) := by
        refine hWr.frame rfl rfl rfl ?_
        rw [giveBlock_iSize]
      have hput := Wrote.put hgive hWg hn0 hn buffer (hI.giveBlock_owner hbc hfree) hin
      have hcontents : ∀ m, contents (s.giveBlock (handleInode s h) b) m = contents s m :=
        fun m => contents_giveBlock hz
      have hkeeps : Keeps s (s.giveBlock (handleInode s h) b) :=
        .of_slots hI hgive rfl fun _ _ => rfl
      refine .inr ⟨_, tfsWrite_first hI ht hk' hpos hz hf hin, hkeeps.trans hput.toKeeps, ?_, ?_,
        rfl, hput.moved⟩
      · rw [hput.contents, hcontents]
        rfl
      · intro m hmn hm
        rw [hput.others m hmn hm, hcontents]
  · obtain ⟨b, hown⟩ := hI.owner hn0 hn hz
    exact .inr ⟨_, tfsWrite_over hI ht hk' hpos hz hown.block hown.taken.1 hin,
      Wrote.put hI hWr hn0 hn buffer hown hin⟩

end MBroker.Fs
