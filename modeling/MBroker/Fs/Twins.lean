import MBroker.Fs.Ghost

/- Two runs of TecnicoFS beside each other, under the same calls: they start from
   data areas with different contents, and their writes through the handles opened
   on one path have different bytes. `Agree` is what the two have in common as long
   as no call leaks: all tables, the directory's live entries, and the bytes of
   every file that was not made under the path. -/
namespace MBroker.Fs
open MBroker.Lib Function

/-- Two volumes, and the ghost of the first. -/
structure Twins where
  left : FsState
  right : FsState
  ghost : Ghost

/-- The call of the other run: the same, but that a write through a handle opened on
`path` writes `bytes`. -/
def otherCall (path : CString) (g : Ghost) (bytes : Nat → UInt8) : Op → Op
  | .write fhandle buffer toWrite =>
    .write fhandle (if g.openPath fhandle.toNat = some path then bytes else buffer) toWrite
  | op => op

/-- A call that returns, and the other run's, which returns too. The label is the
call, and the bytes the other run writes if it may write others. -/
def TwinSteps (path : CString) (x : Twins) (a : Op × (Nat → UInt8)) (y : Twins) : Prop :=
  Steps x.left a.1 y.left ∧ Steps x.right (otherCall path x.ghost a.2 a.1) y.right ∧
    y.ghost = x.ghost.next x.left a.1 y.left

/-- What a call returns, with the bytes it read. -/
def reply (s : FsState) (op : Op) : Except Fault Ret := (step s op).map Prod.fst

/-- A read through a handle opened on a path other than `path` gives the same in
both runs. -/
def SameReads (path : CString) (x : Twins) (a : Op × (Nat → UInt8)) (_ : Twins) : Prop :=
  match a.1 with
  | .read fhandle len => TakenHandle x.left fhandle.toNat →
      x.ghost.openPath fhandle.toNat ≠ some path →
        reply x.right (.read fhandle len) = reply x.left (.read fhandle len)
  | _ => True

instance (path : CString) (x : Twins) : (a : Op × (Nat → UInt8)) → (y : Twins) →
    Decidable (SameReads path x a y)
  | (.read .., _), _ => inferInstanceAs (Decidable (_ → _ → _ = _))
  | (.open .., _), _ | (.close _, _), _ | (.write .., _), _ | (.unlink _, _), _ => .isTrue trivial

/-- The two runs that these calls make, up to the first that does not return. -/
def twinsOf (path : CString) (x : Twins) :
    List (Op × (Nat → UInt8)) → List ((Op × (Nat → UInt8)) × Twins)
  | [] => []
  | a :: as =>
    match step x.left a.1, step x.right (otherCall path x.ghost a.2 a.1) with
    | .ok (_, t), .ok (_, t') =>
      let y := ⟨t, t', x.ghost.next x.left a.1 t⟩
      (a, y) :: twinsOf path y as
    | _, _ => []

theorem run_twinsOf (path : CString) (x : Twins) (as : List (Op × (Nat → UInt8))) :
    Run (TwinSteps path) x (twinsOf path x as) := by
  induction as generalizing x with
  | nil => trivial
  | cons a as ih =>
    rw [twinsOf]
    split
    · next hl hr => exact ⟨⟨⟨_, hl⟩, ⟨_, hr⟩, rfl⟩, ih _⟩
    · trivial

/-- File `f` was made by an open of `path`. -/
def MadeUnder (g : Ghost) (path : CString) (f : Nat) : Prop := g.calls f = some path

/-- The block of inode `n` was given to no other file since it was given to `n`'s. -/
def OwnBlock (s : FsState) (g : Ghost) (n : Nat) : Prop :=
  g.blockFile (s.inodeTable n).iDataBlock.toNat = g.fileId n

/-- The file whose block a write through `h` goes to: the inode's file when it has
no block yet, else the file the block was last given to. -/
def writeTarget (s : FsState) (g : Ghost) (h : Nat) : Nat :=
  let inode := s.inodeTable (handleInode s h)
  if inode.iSize = 0 then g.fileId (handleInode s h) else g.blockFile inode.iDataBlock.toNat

instance (g : Ghost) (path : CString) (f : Nat) : Decidable (MadeUnder g path f) :=
  inferInstanceAs (Decidable (_ = _))

instance (s : FsState) (g : Ghost) (n : Nat) : Decidable (OwnBlock s g n) :=
  inferInstanceAs (Decidable (_ = _))

/-- The read is through a handle not opened on `path`, and its bytes are past the
end of the inode's file, or in a block of another file, or of a file made under
`path`. -/
def LeakyRead (path : CString) (s : FsState) (g : Ghost) (h len : Nat) : Prop :=
  let n := handleInode s h
  let offset := (s.openFileTable h).ofOffset
  g.openPath h ≠ some path ∧ 0 < len ∧
    ((s.inodeTable n).iSize < offset ∨
      offset < (s.inodeTable n).iSize ∧ (¬ OwnBlock s g n ∨ MadeUnder g path (g.fileId n)))

/-- The write is through a handle opened on `path` into a file not made under it,
or through another handle and leaves a gap in a file not made under it. -/
def LeakyWrite (path : CString) (s : FsState) (g : Ghost) (h toWrite : Nat) : Prop :=
  let n := handleInode s h
  let offset := (s.openFileTable h).ofOffset
  0 < toWrite ∧ offset < s.fsParams.blockSize ∧ ((s.inodeTable n).iSize = 0 → freeBlock s ≠ none) ∧
    (g.openPath h = some path ∧ ¬ MadeUnder g path (writeTarget s g h) ∨
      g.openPath h ≠ some path ∧ (s.inodeTable n).iSize < offset ∧
        (0 < (s.inodeTable n).iSize → OwnBlock s g n) ∧ ¬ MadeUnder g path (g.fileId n))

instance (path : CString) (s : FsState) (g : Ghost) (h len : Nat) :
    Decidable (LeakyRead path s g h len) :=
  inferInstanceAs (Decidable (_ ∧ _ ∧ (_ ∨ _)))

instance (path : CString) (s : FsState) (g : Ghost) (h toWrite : Nat) :
    Decidable (LeakyWrite path s g h toWrite) :=
  inferInstanceAs (Decidable (_ ∧ _ ∧ (_ → _) ∧ (_ ∧ _ ∨ _ ∧ _ ∧ (_ → _) ∧ _)))

/-- The call is one of these two. -/
def Leaks (path : CString) (x : Twins) : Op → Prop
  | .read fhandle len => fhandle = fhandle.toNat ∧ TakenHandle x.left fhandle.toNat ∧
      LeakyRead path x.left x.ghost fhandle.toNat len
  | .write fhandle _ toWrite => fhandle = fhandle.toNat ∧ TakenHandle x.left fhandle.toNat ∧
      LeakyWrite path x.left x.ghost fhandle.toNat toWrite
  | _ => False

instance (path : CString) (x : Twins) : (op : Op) → Decidable (Leaks path x op)
  | .read .. | .write .. => inferInstanceAs (Decidable (_ ∧ _ ∧ _))
  | .open .. | .close _ | .unlink _ => inferInstanceAs (Decidable False)

/-! ## The same tables over other data -/

/-- The state with another data area. -/
@[simps] def FsState.withData (s : FsState) (data : Mem) : FsState := { s with fsData := data }

/-- Two data areas whose directories have the same live entries. -/
def SameDir (data data' : Mem) (n : Nat) : Prop :=
  ∀ i, i < n → entryInum data' 0 i = entryInum data 0 i ∧
    (entryInum data 0 i ≠ -1 → entryName data' 0 i = entryName data 0 i)

variable {s t : FsState} {d d' : Mem}

theorem cut_withData (s : FsState) (d : Mem) (mode : BitVec 32) (n : Nat) :
    (s.withData d).cut mode n = (s.cut mode n).withData d := by
  unfold FsState.cut
  simp only [FsState.withData_inodeTable]
  split <;> rfl

theorem openOffset_withData (s : FsState) (d : Mem) (mode : BitVec 32) (n : Nat) :
    (s.withData d).openOffset mode n = s.openOffset mode n := by
  unfold FsState.openOffset
  rw [cut_withData]
  rfl

theorem addToOpenFileTable_withData (s : FsState) (d : Mem) (n offset : Nat) :
    addToOpenFileTable (s.withData d) n offset =
      ((addToOpenFileTable s n offset).1, (addToOpenFileTable s n offset).2.withData d) := by
  have hfree : freeHandle (s.withData d) = freeHandle s := rfl
  cases hh : freeHandle s with
  | none => rw [addToOpenFileTable_of_none hh, addToOpenFileTable_of_none (hfree.trans hh)]
  | some h =>
    rw [addToOpenFileTable_of_some hh, addToOpenFileTable_of_some (hfree.trans hh)]
    rfl

theorem slotInum_withData (hB : Base s) (i : Nat) :
    slotInum (s.withData d) i = entryInum d 0 i ∧ slotInum s i = entryInum s.fsData 0 i := by
  have hr : rootAddr (s.withData d) = 0 := hB.rootAddr
  unfold slotInum
  rw [hr, hB.rootAddr]
  exact ⟨rfl, rfl⟩

theorem slotName_withData (hB : Base s) (i : Nat) :
    slotName (s.withData d) i = entryName d 0 i ∧ slotName s i = entryName s.fsData 0 i := by
  have hr : rootAddr (s.withData d) = 0 := hB.rootAddr
  unfold slotName
  rw [hr, hB.rootAddr]
  exact ⟨rfl, rfl⟩

namespace SameDir

variable (hd : SameDir s.fsData d s.maxDirEntries) (hB : Base s)
include hd hB

theorem inum {i : Nat} (hi : i < s.maxDirEntries) : slotInum (s.withData d) i = slotInum s i := by
  rw [(slotInum_withData hB i).1, (slotInum_withData (d := d) hB i).2]
  exact (hd i hi).1

theorem live {i : Nat} : Live (s.withData d) i ↔ Live s i :=
  and_congr_right fun hi => by rw [hd.inum hB hi]

theorem name {i : Nat} (hl : Live s i) : slotName (s.withData d) i = slotName s i := by
  rw [(slotName_withData hB i).1, (slotName_withData (d := d) hB i).2]
  refine (hd i hl.1).2 fun h => hl.2 ?_
  rw [(slotInum_withData (d := d) hB i).2, h]

theorem binds {i n : Nat} {name : List UInt8} (h : Binds s i name n) :
    Binds (s.withData d) i name n :=
  ⟨(hd.live hB).mpr h.live, by rw [hd.name hB h.live, h.name], by rw [hd.inum hB h.live.1, h.inum]⟩

theorem missing {name : List UInt8} (h : Missing s name) : Missing (s.withData d) name := by
  intro i hi
  have hl := (hd.live hB).mp hi
  rw [hd.name hB hl]
  exact h i hl

theorem emptySlot_eq : emptySlot (s.withData d) = emptySlot s :=
  firstIndex_congr fun i hi => by rw [hd.inum hB hi]

end SameDir

/-- Changes outside the directory's block leave the entries as they were. -/
theorem SameDir.congr {data data' : Mem} (hd : SameDir s.fsData d s.maxDirEntries)
    (h : ∀ x, x < s.fsParams.blockSize → data x = s.fsData x)
    (h' : ∀ x, x < s.fsParams.blockSize → data' x = d x) : SameDir data data' s.maxDirEntries := by
  intro i hi
  have hin : ∀ x, x < dName 0 i + dirEntrySize → x < s.fsParams.blockSize :=
    fun x hx => Base.entry_lt hi hx
  rw [entryInum_congr fun x _ hx => h x (hin x hx), entryInum_congr fun x _ hx => h' x (hin x hx),
    entryName_congr fun x _ hx => h x (hin x hx), entryName_congr fun x _ hx => h' x (hin x hx)]
  exact hd i hi

theorem SameDir.writeEntry {data data' : Mem} {n i : Nat} (hd : SameDir data data' n)
    {name : CString} {inum : Nat} (hi : inum < 2 ^ 31) (hl : name.bytes.length ≤ 39) :
    SameDir (writeEntry data 0 i name.bytes inum) (writeEntry data' 0 i name.bytes inum) n := by
  intro j hj
  by_cases hji : j = i
  · subst hji
    rw [entryInum_writeEntry (by omega) (by omega), entryInum_writeEntry (by omega) (by omega),
      entryName_writeEntry name.noNul hl, entryName_writeEntry name.noNul hl]
    exact ⟨rfl, fun _ => rfl⟩
  · rw [entryInum_writeEntry_ne hji, entryInum_writeEntry_ne hji, entryName_writeEntry_ne hji,
      entryName_writeEntry_ne hji]
    exact hd j hj

theorem SameDir.clearEntry {data data' : Mem} {n : Nat} (hd : SameDir data data' n) (i : Nat) :
    SameDir (clearEntry data 0 i) (clearEntry data' 0 i) n := by
  intro j hj
  by_cases hji : j = i
  · subst hji
    rw [entryInum_clearEntry, entryInum_clearEntry, entryName_clearEntry, entryName_clearEntry]
    exact ⟨rfl, fun _ => rfl⟩
  · rw [entryInum_clearEntry_ne hji, entryInum_clearEntry_ne hji, entryName_clearEntry_ne hji,
      entryName_clearEntry_ne hji]
    exact hd j hj

end MBroker.Fs
