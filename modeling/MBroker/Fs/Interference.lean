import MBroker.Fs.Twins
import MBroker.Fs.Leaks
import MBroker.Fs.Offsets

/- Noninterference between two runs. Blocks are recycled with the bytes they hold,
   and a write sets `i_size` from its handle's offset, so a read can return bytes
   that its file's writes never put there: through a handle whose file was
   truncated or deleted under it. `reads_agree` says that there is no other way:
   where no call of the run is leaky, every read through a handle opened on
   another path than `path` gives the same in both runs. -/
namespace MBroker.Fs
open MBroker.Lib Function

/-- The bytes of every file not made under `path` are the same in both data areas,
as far as its block is still its own. -/
def SameBytes (path : CString) (s : FsState) (d : Mem) (g : Ghost) : Prop :=
  ∀ n b : Nat, 0 < g.fileId n → ¬ MadeUnder g path (g.fileId n) →
    (s.inodeTable n).iDataBlock = b → 0 < b → g.blockFile b = g.fileId n →
    ∀ i, i < (s.inodeTable n).iSize → i < s.fsParams.blockSize →
      d (b * s.fsParams.blockSize + i) = s.fsData (b * s.fsParams.blockSize + i)

/-- The state `s` and the same state over `d`, two runs in step. -/
structure Agree (path : CString) (s : FsState) (d : Mem) (g : Ghost) : Prop where
  left : Inv s
  right : Inv (s.withData d)
  dir : SameDir s.fsData d s.maxDirEntries
  ghost : GhostInv s g
  bytes : SameBytes path s d g

/-- The other run makes the call `op'` that goes with `op`: to the same tables, and
with the same bytes if it is a read through a handle not opened on `path`. -/
def Matched (path : CString) (s : FsState) (d : Mem) (g : Ghost) (op op' : Op) (r : Ret)
    (t : FsState) : Prop :=
  ∃ r' d', Effect (s.withData d) op' r' (t.withData d') ∧ Agree path t d' (g.next s op t) ∧
    ∀ fhandle len, op = .read fhandle len → g.openPath fhandle.toNat ≠ some path → r' = r

variable {path : CString} {s t : FsState} {d d' : Mem} {g : Ghost} {op op' : Op} {r r' : Ret}

/-! ## The ghost of the files that were there -/

/-- A file that was there before a call was made under the path it was made under. -/
theorem Ghost.madeUnder_next {f : Nat} (hf : f ≤ g.clock) :
    MadeUnder (g.next s op t) path f ↔ MadeUnder g path f := by
  have hne : f ≠ g.clock + 1 := by omega
  show update g.calls (g.clock + 1) op.path f = some path ↔ g.calls f = some path
  rw [update_of_ne hne]

theorem Ghost.next_fileId_old {n : Nat} (h : ¬ becameTaken s.freeinodeTs t.freeinodeTs n) :
    (g.next s op t).fileId n = g.fileId n := if_neg h

theorem Ghost.next_fileId_same (h : t.freeinodeTs = s.freeinodeTs) :
    (g.next s op t).fileId = g.fileId := by
  funext n
  exact Ghost.next_fileId_old (by rw [h]; exact not_becameTaken)

theorem Ghost.next_blockFile_old {b : Nat} (h : ¬ becameTaken s.freeBlocks t.freeBlocks b) :
    (g.next s op t).blockFile b = g.blockFile b := if_neg h

theorem Ghost.next_blockFile_same (h : t.freeBlocks = s.freeBlocks) :
    (g.next s op t).blockFile = g.blockFile := by
  funext b
  exact Ghost.next_blockFile_old (by rw [h]; exact not_becameTaken)

theorem Ghost.next_blockFile_new {b : Nat} (h : becameTaken s.freeBlocks t.freeBlocks b) :
    (g.next s op t).blockFile b = (g.next s op t).fileId (handleInode s op.handle) := if_pos h

/-! ## Calls that write no file -/

/-- A call that gives no block away, leaves every inode that is not empty as it
was, and changes no byte but in the directory's block. -/
structure Quiet (s t : FsState) (d d' : Mem) : Prop where
  inode : ∀ n, 0 < (t.inodeTable n).iSize →
    t.inodeTable n = s.inodeTable n ∧ ¬ becameTaken s.freeinodeTs t.freeinodeTs n
  block : ∀ b, ¬ becameTaken s.freeBlocks t.freeBlocks b
  data : ∀ x, s.fsParams.blockSize ≤ x → t.fsData x = s.fsData x ∧ d' x = d x

theorem Agree.quiet (hA : Agree path s d g) (he : Effect s op r t)
    (he' : Effect (s.withData d) op' r' (t.withData d')) (hq : Quiet s t d d')
    (hdir : SameDir t.fsData d' t.maxDirEntries) : Agree path t d' (g.next s op t) := by
  refine ⟨hA.left.effect he, hA.right.effect he', hdir, hA.ghost.effect hA.left he, ?_⟩
  intro n b hn0 hpath hb hb0 htag i hi hbs
  obtain ⟨hin, hold⟩ := hq.inode n (by omega)
  rw [Ghost.next_fileId_old hold] at hn0 hpath htag
  rw [Ghost.next_blockFile_old (hq.block b)] at htag
  rw [Ghost.madeUnder_next (hA.ghost.fileId_le n)] at hpath
  rw [hin] at hb hi
  rw [he.fsParams] at hbs ⊢
  have hx : s.fsParams.blockSize ≤ b * s.fsParams.blockSize + i :=
    Nat.le_trans (Nat.le_mul_of_pos_left _ hb0) (Nat.le_add_right _ _)
  obtain ⟨hl, hr⟩ := hq.data _ hx
  rw [hl, hr]
  exact hA.bytes n b hn0 hpath hb hb0 htag i hi hbs

theorem Quiet.refl (s : FsState) (d : Mem) : Quiet s s d d :=
  ⟨fun _ _ => ⟨rfl, not_becameTaken⟩, fun _ => not_becameTaken, fun _ _ => ⟨rfl, rfl⟩⟩

/-- A call that leaves the inodes, the blocks and the bytes. -/
theorem Quiet.tables (hi : t.inodeTable = s.inodeTable) (hf : t.freeinodeTs = s.freeinodeTs)
    (hb : t.freeBlocks = s.freeBlocks) (hd : t.fsData = s.fsData) : Quiet s t d d := by
  refine ⟨fun n _ => ?_, fun b => ?_, fun x _ => ⟨by rw [hd], rfl⟩⟩
  · rw [hi, hf]
    exact ⟨rfl, not_becameTaken⟩
  · rw [hb]
    exact not_becameTaken

/-- A call that leaves the state. -/
theorem Agree.same (hA : Agree path s d g) (he : Effect s op r s)
    (he' : Effect (s.withData d) op' r (s.withData d)) : Matched path s d g op op' r s :=
  ⟨r, d, he', hA.quiet he he' (.refl s d) hA.dir, fun _ _ _ _ => rfl⟩

theorem addToOpenFileTable_tables (s : FsState) (n offset : Nat) :
    (addToOpenFileTable s n offset).2.inodeTable = s.inodeTable ∧
      (addToOpenFileTable s n offset).2.freeBlocks = s.freeBlocks ∧
      (addToOpenFileTable s n offset).2.fsData = s.fsData := by
  cases hh : freeHandle s with
  | none => rw [addToOpenFileTable_of_none hh]; exact ⟨rfl, rfl, rfl⟩
  | some h => rw [addToOpenFileTable_of_some hh]; exact ⟨rfl, rfl, rfl⟩

theorem maxDirEntries_effect (he : Effect s op r t) : t.maxDirEntries = s.maxDirEntries :=
  maxDirEntries_eq he.fsParams

theorem Agree.openFound (hA : Agree path s d g) {p : CString} {mode : BitVec 32} {i n : Nat}
    (hv : validPathname p = true) (hb : Binds s i p.tail.bytes n) :
    Matched path s d g (.open (some p) mode) (.open (some p) mode)
      ⟨(addToOpenFileTable (s.cut mode n) n (s.openOffset mode n)).1, []⟩
      (addToOpenFileTable (s.cut mode n) n (s.openOffset mode n)).2 := by
  have he : Effect s (.open (some p) mode) _ _ := .openFound hv hb
  have he' : Effect (s.withData d) (.open (some p) mode) _ _ :=
    .openFound hv (hA.dir.binds hA.left.base hb)
  rw [cut_withData, openOffset_withData, addToOpenFileTable_withData] at he'
  obtain ⟨hin, hbl, hda⟩ := addToOpenFileTable_tables (s.cut mode n) n (s.openOffset mode n)
  have hquiet : Quiet s (addToOpenFileTable (s.cut mode n) n (s.openOffset mode n)).2 d d := by
    refine ⟨fun m hm => ?_, fun c hc => ?_, fun x _ => ⟨by rw [hda, cut_fsData], rfl⟩⟩
    · rw [addToOpenFileTable_freeinodeTs]
      rw [hin] at hm ⊢
      unfold FsState.cut at hm ⊢
      split at hm
      · next hc =>
        rw [if_pos hc]
        have hmn : m ≠ n := by
          intro heq
          subst heq
          simp at hm
        exact ⟨by simp [hmn], not_becameTaken⟩
      · next hc =>
        rw [if_neg hc]
        exact ⟨rfl, not_becameTaken⟩
    · rw [hbl] at hc
      unfold FsState.cut at hc
      split at hc
      · obtain ⟨hf, ht⟩ := hc
        rw [FsState.truncate_freeBlocks, update_apply, hf] at ht
        split at ht <;> cases ht
      · exact not_becameTaken hc
  refine ⟨_, d, he', hA.quiet he he' hquiet ?_, fun _ _ h => by cases h⟩
  rw [maxDirEntries_effect he, hda, cut_fsData]
  exact hA.dir

theorem Agree.openNoEntry (hA : Agree path s d g) {p : CString} {mode : BitVec 32} {n : Nat}
    (hv : validPathname p = true) (hm : Missing s p.tail.bytes)
    (hc : hasFlag mode tfsOCreat = true) (hn : freeInode s = some n)
    (he : 39 < p.tail.bytes.length ∨ emptySlot s = none) :
    Matched path s d g (.open (some p) mode) (.open (some p) mode) ⟨-1, []⟩ (s.clearInode n) := by
  have hl := Effect.openNoEntry hv hm hc hn he
  have hr := Effect.openNoEntry (s := s.withData d) hv (hA.dir.missing hA.left.base hm) hc hn
    (by rwa [hA.dir.emptySlot_eq hA.left.base])
  refine ⟨_, d, hr, hA.quiet hl hr ?_ hA.dir, fun _ _ h => by cases h⟩
  refine ⟨fun m hm0 => ?_, fun _ => not_becameTaken, fun _ _ => ⟨rfl, rfl⟩⟩
  have hmn : m ≠ n := by
    intro heq
    subst heq
    simp at hm0
  exact ⟨by simp [hmn], not_becameTaken⟩

theorem Agree.openCreated (hA : Agree path s d g) {p : CString} {mode : BitVec 32} {n i : Nat}
    (hv : validPathname p = true) (hm : Missing s p.tail.bytes)
    (hc : hasFlag mode tfsOCreat = true) (hn : freeInode s = some n)
    (hl : p.tail.bytes.length ≤ 39) (he : emptySlot s = some i) :
    Matched path s d g (.open (some p) mode) (.open (some p) mode)
      ⟨(addToOpenFileTable (s.bindName i n p.tail) n 0).1, []⟩
      (addToOpenFileTable (s.bindName i n p.tail) n 0).2 := by
  have hleft := Effect.openCreated hv hm hc hn hl he
  have hright := Effect.openCreated (s := s.withData d) hv (hA.dir.missing hA.left.base hm) hc hn hl
    (by rwa [hA.dir.emptySlot_eq hA.left.base])
  have hbind : (s.withData d).bindName i n p.tail =
      (s.bindName i n p.tail).withData (writeEntry d 0 i p.tail.bytes n) := rfl
  rw [hbind, addToOpenFileTable_withData] at hright
  obtain ⟨hi, -, -⟩ := emptySlot_some he
  obtain ⟨hin, hbl, hda⟩ := addToOpenFileTable_tables (s.bindName i n p.tail) n 0
  have hquiet : Quiet s (addToOpenFileTable (s.bindName i n p.tail) n 0).2 d
      (writeEntry d 0 i p.tail.bytes n) := by
    refine ⟨fun m hm0 => ?_, fun c => ?_, fun x hx => ⟨?_, ?_⟩⟩
    · rw [addToOpenFileTable_freeinodeTs]
      rw [hin] at hm0 ⊢
      have hmn : m ≠ n := by
        intro heq
        subst heq
        simp at hm0
      refine ⟨by simp [hmn], ?_⟩
      intro htaken
      obtain ⟨hf, ht⟩ := htaken
      rw [FsState.bindName_freeinodeTs, update_of_ne hmn, hf] at ht
      cases ht
    · rw [hbl]
      exact not_becameTaken
    · rw [hda]
      exact writeEntry_outside hi hx
    · exact writeEntry_outside (s := s.withData d) hi hx
  refine ⟨_, _, hright, hA.quiet hleft hright hquiet ?_, fun _ _ h => by cases h⟩
  have hlt := (freeInode_some hn).1
  have hsane := hA.left.base.sane.inodes
  rw [maxDirEntries_effect hleft, hda]
  exact hA.dir.writeEntry (by omega) hl

theorem Agree.unlinkDone (hA : Agree path s d g) {p : CString} {i n : Nat}
    (hv : validPathname p = true) (hb : Binds s i p.tail.bytes n) :
    Matched path s d g (.unlink (some p)) (.unlink (some p)) ⟨0, []⟩ (s.unbind i n) := by
  have he := Effect.unlinkDone hv hb
  have he' := Effect.unlinkDone hv (hA.dir.binds hA.left.base hb)
  have hquiet : Quiet s (s.unbind i n) d (clearEntry d 0 i) := by
    refine ⟨fun m _ => ⟨rfl, ?_⟩, fun c => ?_, fun x hx => ⟨?_, ?_⟩⟩
    · intro htaken
      obtain ⟨hf, ht⟩ := htaken
      rw [FsState.unbind_freeinodeTs, update_apply, hf] at ht
      split at ht <;> cases ht
    · intro htaken
      obtain ⟨hf, ht⟩ := htaken
      rw [FsState.unbind_freeBlocks] at ht
      split at ht
      · rw [update_apply, hf] at ht
        split at ht <;> cases ht
      · rw [hf] at ht
        cases ht
    · exact clearEntry_outside hb.live.1 hx
    · exact clearEntry_outside (s := s.withData d) hb.live.1 hx
  exact ⟨_, _, he', hA.quiet he he' hquiet (hA.dir.clearEntry i), fun _ _ h => by cases h⟩

/-- The bytes a read copies are the same when the read is not leaky. -/
theorem Agree.readSome (hA : Agree path s d g) {h len k b : Nat} (ht : TakenHandle s h)
    (hk : readLength (s.inodeTable (handleInode s h)) (s.openFileTable h) len = k) (hk0 : 0 < k)
    (hb : (s.inodeTable (handleInode s h)).iDataBlock = b) (hbc : b < s.fsParams.maxBlockCount)
    (ha : b * s.fsParams.blockSize + (s.openFileTable h).ofOffset + k ≤ s.areaSize)
    (hno : ¬ LeakyRead path s g h len) :
    Matched path s d g (.read h len) (.read h len)
      ⟨k, s.fsData.read (b * s.fsParams.blockSize + (s.openFileTable h).ofOffset) k⟩
      (s.advance h k) := by
  have he := Effect.readSome ht hk hk0 hb hbc ha
  have he' := Effect.readSome (s := s.withData d) ht hk hk0 hb hbc ha
  refine ⟨_, d, he', hA.quiet he he' (.tables rfl rfl rfl rfl) hA.dir, ?_⟩
  intro h' len' hop hother
  cases hop
  obtain ⟨hsz, hblk⟩ := hA.left.handles.range h ht
  have hbs := hA.left.base.blockSize_lt
  have hlen : 0 < len := by
    by_contra h0
    rw [readLength] at hk
    split at hk <;> omega
  have ho : (s.openFileTable h).ofOffset < (s.inodeTable (handleInode s h)).iSize := by
    by_contra hge
    by_cases heq : (s.openFileTable h).ofOffset = (s.inodeTable (handleInode s h)).iSize
    · rw [readLength_eq hA.left.base _ (by omega) hsz] at hk
      omega
    · exact hno ⟨hother, hlen, .inl (by omega)⟩
  have hgood : OwnBlock s g (handleInode s h) ∧
      ¬ MadeUnder g path (g.fileId (handleInode s h)) := by
    by_contra hbad
    exact hno ⟨hother, hlen, .inr ⟨ho, by tauto⟩⟩
  obtain ⟨hown, hpath⟩ := hgood
  rw [readLength_eq hA.left.base _ (by omega) hsz] at hk
  have hb0 : 0 < b := by
    obtain ⟨c, hc, hc0, -⟩ := hblk (by omega)
    rw [hb] at hc
    omega
  have htag : g.blockFile b = g.fileId (handleInode s h) := by
    rw [OwnBlock, hb, Int.toNat_natCast] at hown
    exact hown
  have hread : d.read (b * s.fsParams.blockSize + (s.openFileTable h).ofOffset) k =
      s.fsData.read (b * s.fsParams.blockSize + (s.openFileTable h).ofOffset) k := by
    apply Mem.read_congr
    intro i hi
    rw [Nat.add_assoc]
    exact hA.bytes _ b (hA.ghost.handle h ht) hpath hb hb0 htag _ (by omega) (by omega)
  exact congrArg (Ret.mk k) hread

/-! ## Writes -/

/-- What a write with bytes to write has to be, not to be leaky. -/
theorem write_of_not_leaky (hI : Inv s) {h k toWrite : Nat}
    (hk : writeLength s (s.openFileTable h) toWrite = k) (hk0 : 0 < k)
    (hin : (s.openFileTable h).ofOffset + k ≤ s.fsParams.blockSize)
    (hroom : (s.inodeTable (handleInode s h)).iSize = 0 → freeBlock s ≠ none)
    (hno : ¬ LeakyWrite path s g h toWrite) :
    (g.openPath h = some path → MadeUnder g path (writeTarget s g h)) ∧
      (g.openPath h ≠ some path → ¬ MadeUnder g path (g.fileId (handleInode s h)) →
        (0 < (s.inodeTable (handleInode s h)).iSize → OwnBlock s g (handleInode s h)) →
        (s.openFileTable h).ofOffset ≤ (s.inodeTable (handleInode s h)).iSize) := by
  have hlen : 0 < toWrite := by
    apply Nat.pos_of_ne_zero
    intro heq
    subst heq
    rw [writeLength_zero hI.base (by omega)] at hk
    omega
  have hlt : (s.openFileTable h).ofOffset < s.fsParams.blockSize := by omega
  refine ⟨?_, ?_⟩
  · intro hpath
    by_contra hbad
    exact hno ⟨hlen, hlt, hroom, .inl ⟨hpath, hbad⟩⟩
  · intro hother hfile hown
    by_contra hgap
    exact hno ⟨hlen, hlt, hroom, .inr ⟨hother, by omega, hown, hfile⟩⟩

/-- The directory is not in the block of a write. -/
theorem Agree.dir_put (hA : Agree path s d g) {h n b k : Nat} {buffer buffer' : Nat → UInt8}
    (hb0 : 0 < b) :
    SameDir (s.put h n b k buffer).fsData ((s.withData d).put h n b k buffer').fsData
      s.maxDirEntries := by
  have hle : s.fsParams.blockSize ≤ b * s.fsParams.blockSize := Nat.le_mul_of_pos_left _ hb0
  refine hA.dir.congr (fun x hx => ?_) fun x hx => ?_
  · exact Mem.write_out (by omega)
  · refine Mem.write_out (.inl ?_)
    show x < b * s.fsParams.blockSize + (s.openFileTable h).ofOffset
    omega

theorem Agree.writeOver (hA : Agree path s d g) {h k b toWrite : Nat}
    {buffer buffer' : Nat → UInt8} (ht : TakenHandle s h)
    (hk : writeLength s (s.openFileTable h) toWrite = k) (hk0 : 0 < k)
    (hz : 0 < (s.inodeTable (handleInode s h)).iSize)
    (hb : (s.inodeTable (handleInode s h)).iDataBlock = b) (hb0 : 0 < b)
    (hbc : b < s.fsParams.maxBlockCount)
    (hin : (s.openFileTable h).ofOffset + k ≤ s.fsParams.blockSize)
    (hbuf : g.openPath h ≠ some path → buffer' = buffer) (hno : ¬ LeakyWrite path s g h toWrite) :
    Matched path s d g (.write h buffer toWrite) (.write h buffer' toWrite) ⟨k, []⟩
      (s.put h (handleInode s h) b k buffer) := by
  have he : Effect s (.write h buffer toWrite) _ _ := .writeOver ht hk hk0 hz hb hb0 hbc hin
  have he' : Effect (s.withData d) (.write h buffer' toWrite) _ _ :=
    .writeOver ht hk hk0 hz hb hb0 hbc hin
  obtain ⟨htarget, hgap⟩ := write_of_not_leaky hA.left hk hk0 hin (fun h0 => by omega) hno
  rw [writeTarget, if_neg (by omega), hb, Int.toNat_natCast] at htarget
  refine ⟨_, _, he', ⟨hA.left.effect he, hA.right.effect he',
    hA.dir_put (n := handleInode s h) hb0, hA.ghost.effect hA.left he, ?_⟩, fun _ _ h => by cases h⟩
  intro m c hm0 hpath hc hc0 htag i hi hbs
  -- no inode and no block is new
  have hfile : (g.next s (.write h buffer toWrite)
      (s.put h (handleInode s h) b k buffer)).fileId = g.fileId := Ghost.next_fileId_same rfl
  have hblk : (g.next s (.write h buffer toWrite)
      (s.put h (handleInode s h) b k buffer)).blockFile = g.blockFile :=
    Ghost.next_blockFile_same rfl
  rw [hfile] at hm0 hpath htag
  rw [hblk] at htag
  rw [Ghost.madeUnder_next (hA.ghost.fileId_le m)] at hpath
  replace hbs : i < s.fsParams.blockSize := hbs
  have hblock : (s.inodeTable m).iDataBlock = c := by
    by_cases hmn : m = handleInode s h
    · subst hmn
      simpa using hc
    · simpa [hmn] using hc
  have hold := hA.bytes m c hm0 hpath hblock hc0 htag i
  show d.write (b * s.fsParams.blockSize + (s.openFileTable h).ofOffset) k buffer'
      (c * s.fsParams.blockSize + i) =
    s.fsData.write (b * s.fsParams.blockSize + (s.openFileTable h).ofOffset) k buffer
      (c * s.fsParams.blockSize + i)
  by_cases hcb : c = b
  · subst hcb
    have hother : g.openPath h ≠ some path := fun hp => hpath (htag ▸ htarget hp)
    rw [hbuf hother]
    refine Mem.write_congr fun hout => hold ?_ hbs
    -- what was not written was in the file before
    by_cases hmn : m = handleInode s h
    · subst hmn
      have hown : OwnBlock s g (handleInode s h) := by
        rw [OwnBlock, hb, Int.toNat_natCast]
        exact htag
      have hle := hgap hother hpath fun _ => hown
      simp only [FsState.put_inodeTable, update_self] at hi
      omega
    · simpa [hmn] using hi
  · have hmn : m ≠ handleInode s h := by
      intro heq
      subst heq
      rw [hb] at hblock
      omega
    have hi' : i < (s.inodeTable m).iSize := by simpa [hmn] using hi
    rw [write_apart hcb hin hbs, write_apart hcb hin hbs]
    exact hold hi' hbs

theorem Agree.writeFirst (hA : Agree path s d g) {h k b toWrite : Nat}
    {buffer buffer' : Nat → UInt8} (ht : TakenHandle s h)
    (hk : writeLength s (s.openFileTable h) toWrite = k) (hk0 : 0 < k)
    (hz : (s.inodeTable (handleInode s h)).iSize = 0) (hf : freeBlock s = some b)
    (hin : (s.openFileTable h).ofOffset + k ≤ s.fsParams.blockSize)
    (hbuf : g.openPath h ≠ some path → buffer' = buffer) (hno : ¬ LeakyWrite path s g h toWrite) :
    Matched path s d g (.write h buffer toWrite) (.write h buffer' toWrite) ⟨k, []⟩
      ((s.giveBlock (handleInode s h) b).put h (handleInode s h) b k buffer) := by
  obtain ⟨hbc, hfree⟩ := freeBlock_some hf
  have hb0 : 0 < b := (hA.left.giveBlock_owner (n := handleInode s h) hbc hfree).pos
  have he : Effect s (.write h buffer toWrite) _ _ := .writeFirst ht hk hk0 hz hf hin
  have he' : Effect (s.withData d) (.write h buffer' toWrite) _ _ :=
    .writeFirst ht hk hk0 hz hf hin
  obtain ⟨htarget, hgap⟩ := write_of_not_leaky hA.left hk hk0 hin (fun _ => by simp [hf]) hno
  rw [writeTarget, if_pos hz] at htarget
  refine ⟨_, _, he', ⟨hA.left.effect he, hA.right.effect he',
    hA.dir_put (n := handleInode s h) hb0, hA.ghost.effect hA.left he, ?_⟩, fun _ _ h => by cases h⟩
  intro m c hm0 hpath hc hc0 htag i hi hbs
  have hfile : (g.next s (.write h buffer toWrite)
      ((s.giveBlock (handleInode s h) b).put h (handleInode s h) b k buffer)).fileId = g.fileId :=
    Ghost.next_fileId_same rfl
  rw [hfile] at hm0 hpath htag
  rw [Ghost.madeUnder_next (hA.ghost.fileId_le m)] at hpath
  replace hbs : i < s.fsParams.blockSize := hbs
  show d.write (b * s.fsParams.blockSize + (s.openFileTable h).ofOffset) k buffer'
      (c * s.fsParams.blockSize + i) =
    s.fsData.write (b * s.fsParams.blockSize + (s.openFileTable h).ofOffset) k buffer
      (c * s.fsParams.blockSize + i)
  by_cases hcb : c = b
  · subst hcb
    -- the block is new, and its file is the inode's
    have hnew : becameTaken s.freeBlocks
        ((s.giveBlock (handleInode s h) c).put h (handleInode s h) c k buffer).freeBlocks c :=
      ⟨hfree, by simp⟩
    rw [Ghost.next_blockFile_new hnew, hfile] at htag
    obtain rfl : m = handleInode s h := hA.ghost.fileId_inj _ _ hm0 htag.symm
    have hother : g.openPath h ≠ some path := fun hp => hpath (htarget hp)
    have hle := hgap hother hpath fun h0 => by omega
    rw [hbuf hother]
    apply Mem.write_congr
    intro hout
    simp only [FsState.put_inodeTable, FsState.giveBlock_inodeTable, update_self,
      FsState.giveBlock_openFileTable, hz] at hi
    omega
  · have hmn : m ≠ handleInode s h := by
      intro heq
      subst heq
      simp at hc
      omega
    have hblock : (s.inodeTable m).iDataBlock = c := by simpa [hmn] using hc
    have hi' : i < (s.inodeTable m).iSize := by simpa [hmn] using hi
    have hsame : ¬ becameTaken s.freeBlocks
        ((s.giveBlock (handleInode s h) b).put h (handleInode s h) b k buffer).freeBlocks c := by
      intro htaken
      obtain ⟨h1, h2⟩ := htaken
      rw [FsState.put_freeBlocks, FsState.giveBlock_freeBlocks, update_of_ne hcb, h1] at h2
      cases h2
    rw [Ghost.next_blockFile_old hsame] at htag
    rw [write_apart hcb hin hbs, write_apart hcb hin hbs]
    exact hA.bytes m c hm0 hpath hblock hc0 htag i hi' hbs

/-! ## Runs -/

/-- A call that is not leaky is matched by the other run. -/
theorem Agree.effect (hA : Agree path s d g) (bytes : Nat → UInt8)
    (hno : ¬ Leaks path ⟨s, s.withData d, g⟩ op) (he : Effect s op r t) :
    Matched path s d g op (otherCall path g bytes op) r t := by
  have hB := hA.left.base
  cases he with
  | openInvalid hv => exact hA.same (.openInvalid hv) (.openInvalid hv)
  | openMissing hv hm hc =>
    exact hA.same (.openMissing hv hm hc) (.openMissing hv (hA.dir.missing hB hm) hc)
  | openFound hv hb => exact hA.openFound hv hb
  | openNoInode hv hm hc hn =>
    exact hA.same (.openNoInode hv hm hc hn) (.openNoInode hv (hA.dir.missing hB hm) hc hn)
  | openNoEntry hv hm hc hn he => exact hA.openNoEntry hv hm hc hn he
  | openCreated hv hm hc hn hl he => exact hA.openCreated hv hm hc hn hl he
  | closeBad hb => exact hA.same (.closeBad hb) (.closeBad hb)
  | @closeDone h ht =>
    have he := Effect.closeDone (s := s) ht
    have he' := Effect.closeDone (s := s.withData d) ht
    exact ⟨_, d, he', hA.quiet he he' (.tables rfl rfl rfl rfl) hA.dir, fun _ _ h => by cases h⟩
  | readBad hb => exact hA.same (.readBad hb) (.readBad hb)
  | readNone ht hk => exact hA.same (.readNone ht hk) (.readNone ht hk)
  | readSome ht hk hk0 hb hbc ha =>
    exact hA.readSome ht hk hk0 hb hbc ha fun hl => hno ⟨rfl, ht, hl⟩
  | writeBad hb => exact hA.same (.writeBad hb) (.writeBad hb)
  | writeNone ht hk => exact hA.same (.writeNone ht hk) (.writeNone ht hk)
  | writeNoSpace ht hk hz hf =>
    exact hA.same (.writeNoSpace ht hk hz hf) (.writeNoSpace ht hk hz hf)
  | writeFirst ht hk hk0 hz hf hin =>
    exact hA.writeFirst ht hk hk0 hz hf hin (fun h => if_neg h) fun hl => hno ⟨rfl, ht, hl⟩
  | writeOver ht hk hk0 hz hb hb0 hbc hin =>
    exact hA.writeOver ht hk hk0 hz hb hb0 hbc hin (fun h => if_neg h) fun hl => hno ⟨rfl, ht, hl⟩
  | unlinkInvalid hv => exact hA.same (.unlinkInvalid hv) (.unlinkInvalid hv)
  | unlinkMissing hv hm =>
    exact hA.same (.unlinkMissing hv hm) (.unlinkMissing hv (hA.dir.missing hB hm))
  | unlinkDone hv hb => exact hA.unlinkDone hv hb

/-- Two runs in step. -/
def InStep (path : CString) (x : Twins) : Prop :=
  ∃ d, x.right = x.left.withData d ∧ Agree path x.left d x.ghost

/-- Two calls keep the runs in step, and read the same. -/
theorem InStep.twinSteps {x y : Twins} {a : Op × (Nat → UInt8)} (hx : InStep path x)
    (hno : ¬ Leaks path x a.1) (hst : TwinSteps path x a y) :
    SameReads path x a y ∧ InStep path y := by
  obtain ⟨left, right, g⟩ := x
  obtain ⟨left', right', g'⟩ := y
  obtain ⟨op, bytes⟩ := a
  obtain ⟨d, hright, hA⟩ := hx
  obtain ⟨⟨r, hl⟩, ⟨r', hr⟩, hg⟩ := hst
  dsimp only at hright hA hl hr hg hno
  subst hright hg
  obtain ⟨r'', d', he', hA', hret⟩ := hA.effect bytes hno (step_effect hA.left hl)
  have hr' := he'.complete hA.right
  rw [hr'] at hr
  cases hr
  refine ⟨?_, d', rfl, hA'⟩
  cases op with
  | read fhandle len =>
    intro _ hother
    show reply (left.withData d) (.read fhandle len) = reply left (.read fhandle len)
    have hsame : step (left.withData d) (.read fhandle len) = .ok (r', left'.withData d') := hr'
    rw [reply, reply, hsame, hl, hret fhandle len rfl hother]
    rfl
  | _ => trivial

/-- Freshly initialised, two volumes differ in their data areas only, and have no
files. -/
theorem InStep.initial {params : TfsParams} (hp : params.Sane) {mem : Tables} {data : Mem}
    (h : tfsInit (some params) mem = .ok (0, s))
    (h' : tfsInit (some params) { mem with fsData := data } = .ok (0, t)) :
    InStep path ⟨s, t, Ghost.start⟩ := by
  have hs : Initial params s := ⟨mem, h⟩
  have ht : Initial params t := ⟨_, h'⟩
  have hIs := Inv.initial hp hs
  have hIt := Inv.initial hp ht
  obtain ⟨hn, hb, -⟩ := hs.formatted
  rw [tfsInit_eq hn hb] at h h'
  cases h
  cases h'
  refine ⟨_, rfl, hIs, hIt, fun i hi => ?_, GhostInv.initial hs, fun n b h0 => ?_⟩
  · have hl : entryInum (formatted params mem).fsData 0 i = -1 := entryInum_emptyEntries hi
    refine ⟨?_, fun h => absurd hl h⟩
    rw [hl]
    exact entryInum_emptyEntries hi
  · exact absurd h0 (Nat.lt_irrefl 0)

/-- In two runs of which no call is leaky, every read through a handle opened on a
path other than `path` gives the same. -/
theorem reads_agree {params : TfsParams} (hp : params.Sane) {mem : Tables} {data : Mem}
    (h : tfsInit (some params) mem = .ok (0, s))
    (h' : tfsInit (some params) { mem with fsData := data } = .ok (0, t))
    {ρ : List ((Op × (Nat → UInt8)) × Twins)}
    (hr : Run (TwinSteps path) ⟨s, t, Ghost.start⟩ ρ)
    (hc : EveryStep (fun x a => ¬ Leaks path x a.1) ⟨s, t, Ghost.start⟩ ρ) :
    EveryMove (SameReads path) ⟨s, t, Ghost.start⟩ ρ :=
  Run.everyMove (I := InStep path) (Q := SameReads path) (C := fun x a => ¬ Leaks path x a.1)
    (fun _ _ _ hI hno hst => hI.twinSteps hno hst) (InStep.initial hp h h') hr hc

/-- The small volume, over a data area of other bytes. -/
def smallTwins : Twins := ⟨small, formatted smallParams (tablesOf 66), Ghost.start⟩

/-- Two files, of which `/a` is written with other bytes in the other run. -/
theorem reads_agree_small : EveryMove (SameReads pathA) smallTwins (twinsOf pathA smallTwins
    [(.open (some pathA) tfsOCreat, fun _ => 0), (.open (some pathB) tfsOCreat, fun _ => 0),
      (.write 0 (fun _ => 7) 5, fun _ => 8), (.write 1 (fun _ => 9) 3, fun _ => 8),
      (.unlink (some pathA), fun _ => 0), (.open (some pathB) 0, fun _ => 0),
      (.read 2 5, fun _ => 0)]) := by
  have hleft : tfsInit (some smallParams) (tablesOf 65) = .ok (0, small) :=
    tfsInit_eq (by decide) (by decide)
  have hright : tfsInit (some smallParams) { tablesOf 65 with fsData := fun _ => 66 } =
      .ok (0, formatted smallParams (tablesOf 66)) := tfsInit_eq (by decide) (by decide)
  apply reads_agree smallParams_sane hleft hright (run_twinsOf _ _ _)
  decide +kernel

/-- A file truncated under a handle that then reads: the bytes are those the volume
was created with. -/
theorem truncated_read_leaks : ¬ ∀ (params : TfsParams) (mem : Tables) (data : Mem) (s t : FsState)
    (path : CString) (ρ : List ((Op × (Nat → UInt8)) × Twins)), params.Sane →
    tfsInit (some params) mem = .ok (0, s) →
    tfsInit (some params) { mem with fsData := data } = .ok (0, t) →
    Run (TwinSteps path) ⟨s, t, Ghost.start⟩ ρ →
    EveryMove (SameReads path) ⟨s, t, Ghost.start⟩ ρ := by
  intro h
  have hall := h smallParams (tablesOf 65) (fun _ => 66) small
    (formatted smallParams (tablesOf 66)) pathA
    (twinsOf pathA smallTwins [(.open (some pathB) tfsOCreat, fun _ => 0),
      (.write 0 (fun _ => 7) 5, fun _ => 0), (.open (some pathB) tfsOTrunc, fun _ => 0),
      (.read 0 5, fun _ => 0)]) smallParams_sane
    (tfsInit_eq (by decide) (by decide)) (tfsInit_eq (by decide) (by decide))
    (run_twinsOf _ _ _)
  revert hall
  decide +kernel

end MBroker.Fs
