import MBroker.Lib.Critical
import MBroker.Fs.Operations

/- fs/operations.c as the threads of a process run it: every call locks
   `g_library_mutex`, reads and writes the tables step by step, and unlocks on
   each path to a return. A call of a function of fs/state.c is one access, and
   so is each read or write of a field; which other threads are inside is what the
   mutex decides, and not what these steps are.

   `pthread_mutex_lock` and `pthread_mutex_unlock` return no -1, whatever happens;
   the branches for it are left out. -/
namespace MBroker.Fs.Threads
open MBroker.Lib Proc

inductive Mutex
  | gLibraryMutex
  deriving DecidableEq, Repr

abbrev FsProc (R : Type) := Proc Mutex FsState Fault R

def lockLibrary : FsProc Unit := .lock .gLibraryMutex (pure ())

def unlockLibrary : FsProc Unit := .unlock .gLibraryMutex (pure ())

/-- The unlock before a return. -/
def unlockReturn {R : Type} (r : R) : FsProc R := do
  unlockLibrary
  return r

/-- `tfs_open` of an existing file, up to its last part. -/
def openFound (inum : Int) (mode : BitVec 32) : FsProc Nat := do
  let inode ← check fun s => inodeGet s inum
  if hasFlag mode tfsOTrunc then
    let size ← look fun s => (s.inodeTable inode).iSize
    if 0 < size then
      let block ← look fun s => (s.inodeTable inode).iDataBlock
      Proc.update fun s => dataBlockFree s block
      store fun s => s.setInode inode { s.inodeTable inode with iSize := 0 }
  if hasFlag mode tfsOAppend then look fun s => (s.inodeTable inode).iSize else return 0

/-- The last part of `tfs_open`. -/
def openFinish (inum : Int) (offset : Nat) : FsProc Int := do
  let ret ← perform fun s => pure (addToOpenFileTable s inum offset)
  unlockReturn ret

/-- `tfs_open` of a file that does not exist and is to be created. -/
def openCreate (rootDirInode : Nat) (name : CString) : FsProc Int := do
  let inum ← perform fun s => inodeCreate s .tFile
  if inum = -1 then unlockReturn (-1)
  else
    let added ← perform fun s => addDirEntry s rootDirInode name.tail inum
    if added = -1 then
      Proc.update fun s => inodeDelete s inum
      unlockReturn (-1)
    else openFinish inum 0

def tfsOpen (name : Option CString) (mode : BitVec 32) : FsProc Int := do
  lockLibrary
  match name with
  | none => unlockReturn (-1)
  | some name =>
    if !validPathname name then unlockReturn (-1)
    else
      let rootDirInode ← check fun s => inodeGet s rootDirInum
      let inum ← check fun s => tfsLookup s name rootDirInode
      if 0 ≤ inum then
        let offset ← openFound inum mode
        openFinish inum offset
      else if hasFlag mode tfsOCreat then openCreate rootDirInode name
      else unlockReturn (-1)

def tfsClose (fhandle : Int) : FsProc Int := do
  lockLibrary
  let file ← look fun s => getOpenFileEntry s fhandle
  match file with
  | none => unlockReturn (-1)
  | some _ =>
    Proc.update fun s => removeFromOpenFileTable s fhandle
    unlockReturn 0

/-- The block `tfs_write` gives an empty file, and whether there is one. -/
def giveBlock (inode : Nat) : FsProc Bool := do
  let size ← look fun s => (s.inodeTable inode).iSize
  if size = 0 then
    perform fun s =>
      match allocateBlock s inode with
      | none => pure (false, s)
      | some s => pure (true, s)
  else return true

/-- The write itself, with the block there. -/
def writeBlock (h inode : Nat) (buffer : Nat → UInt8) (toWrite : Nat) : FsProc Unit := do
  let iDataBlock ← look fun s => (s.inodeTable inode).iDataBlock
  let block ← check fun s => dataBlockGet s iDataBlock
  let ofOffset ← look fun s => (s.openFileTable h).ofOffset
  Proc.update fun s => memcpyTo s (block + ofOffset) toWrite buffer
  store fun s => s.setOpenFile h
    { s.openFileTable h with ofOffset := szAdd (s.openFileTable h).ofOffset toWrite }
  let ofOffset ← look fun s => (s.openFileTable h).ofOffset
  let size ← look fun s => (s.inodeTable inode).iSize
  if size < ofOffset then
    store fun s => s.setInode inode { s.inodeTable inode with iSize := ofOffset }
  else return

def tfsWrite (fhandle : Int) (buffer : Nat → UInt8) (toWrite : Nat) : FsProc Int := do
  lockLibrary
  let file ← look fun s => getOpenFileEntry s fhandle
  match file with
  | none => unlockReturn (-1)
  | some h =>
    let inode ← check fun s => inodeGet s (s.openFileTable h).ofInumber
    let toWrite ← look fun s => writeLength s (s.openFileTable h) toWrite
    if toWrite = 0 then unlockReturn 0
    else
      let room ← giveBlock inode
      if room then
        writeBlock h inode buffer toWrite
        unlockReturn (toSsize toWrite)
      else unlockReturn (-1)

def tfsRead (fhandle : Int) (len : Nat) : FsProc (Int × List UInt8) := do
  lockLibrary
  let file ← look fun s => getOpenFileEntry s fhandle
  match file with
  | none => unlockReturn (-1, [])
  | some h =>
    let inode ← check fun s => inodeGet s (s.openFileTable h).ofInumber
    let toRead ← look fun s => readLength (s.inodeTable inode) (s.openFileTable h) len
    if toRead = 0 then unlockReturn (0, [])
    else
      let iDataBlock ← look fun s => (s.inodeTable inode).iDataBlock
      let block ← check fun s => dataBlockGet s iDataBlock
      let ofOffset ← look fun s => (s.openFileTable h).ofOffset
      let bytes ← check fun s => memcpyFrom s (block + ofOffset) toRead
      store fun s => s.setOpenFile h
        { s.openFileTable h with ofOffset := szAdd (s.openFileTable h).ofOffset toRead }
      unlockReturn (toSsize toRead, bytes)

def tfsUnlink (target : Option CString) : FsProc Int := do
  lockLibrary
  match target with
  | none => unlockReturn (-1)
  | some target =>
    if !validPathname target then unlockReturn (-1)
    else
      let rootDirInode ← check fun s => inodeGet s rootDirInum
      let inum ← check fun s => tfsLookup s target rootDirInode
      if inum = -1 then unlockReturn (-1)
      else
        Proc.update fun s => inodeDelete s inum
        let cleared ← perform fun s => clearDirEntry s rootDirInode target.tail
        if cleared = -1 then unlockReturn (-1) else unlockReturn 0

/-- What each call does, in steps. -/
def body : Op → FsProc Ret
  | .open name mode => do return ⟨← tfsOpen name mode, []⟩
  | .close fhandle => do return ⟨← tfsClose fhandle, []⟩
  | .read fhandle len => do
    let (value, bytes) ← tfsRead fhandle len
    return ⟨value, bytes⟩
  | .write fhandle buffer toWrite => do return ⟨← tfsWrite fhandle buffer toWrite, []⟩
  | .unlink target => do return ⟨← tfsUnlink target, []⟩

variable {s : FsState}

/-! ## What the steps come to -/

@[simp] theorem run_lockLibrary : lockLibrary.run s = pure ((), s) := rfl
@[simp] theorem run_unlockReturn {R : Type} (r : R) : (unlockReturn r).run s = pure (r, s) := rfl

theorem run_tfsClose (fhandle : Int) : (tfsClose fhandle).run s = Fs.tfsClose s fhandle := by
  unfold tfsClose Fs.tfsClose
  simp only [run_bind, run_lockLibrary, run_look, pure_bind]
  cases getOpenFileEntry s fhandle with
  | none => rfl
  | some h => simp 

theorem run_openFound (inum : Int) (mode : BitVec 32) :
    (openFound inum mode).run s = (do
      let inode ← inodeGet s inum
      let s ←
        if hasFlag mode tfsOTrunc ∧ 0 < (s.inodeTable inode).iSize then do
          let s ← dataBlockFree s (s.inodeTable inode).iDataBlock
          pure (s.setInode inode { s.inodeTable inode with iSize := 0 })
        else pure s
      return (if hasFlag mode tfsOAppend then (s.inodeTable inode).iSize else 0, s)) := by
  unfold openFound
  simp only [run_bind, run_check, bind_assoc, pure_bind]
  congr 1
  funext inode
  have hoffset : ∀ t, (if hasFlag mode tfsOAppend then look fun s => (s.inodeTable inode).iSize
      else return 0 : FsProc Nat).run t =
      pure (if hasFlag mode tfsOAppend then (t.inodeTable inode).iSize else 0, t) := by
    intro t
    split <;> rfl
  by_cases ht : hasFlag mode tfsOTrunc = true
  · by_cases hsz : 0 < (s.inodeTable inode).iSize
    · simp [ht, hsz, hoffset]
    · simp [ht, hsz, hoffset]
  · simp [ht, hoffset]

theorem run_openFinish (inum : Int) (offset : Nat) :
    (openFinish inum offset).run s = pure (addToOpenFileTable s inum offset) := by
  simp [openFinish]

theorem run_openCreate (rootDirInode : Nat) (name : CString) :
    (openCreate rootDirInode name).run s = (do
      let (inum, s) ← inodeCreate s .tFile
      if inum = -1 then return (-1, s)
      let (added, s) ← addDirEntry s rootDirInode name.tail inum
      if added = -1 then
        let s ← inodeDelete s inum
        return (-1, s)
      return addToOpenFileTable s inum 0) := by
  unfold openCreate
  simp only [run_bind, run_perform]
  congr 1
  funext ⟨inum, t⟩
  by_cases hi : inum = -1
  · simp [hi]
  · simp only [hi, if_false, run_bind, run_perform]
    congr 1
    funext ⟨added, u⟩
    by_cases ha : added = -1
    · simp [ha]
    · simp [ha, run_openFinish]

theorem run_tfsOpen (name : Option CString) (mode : BitVec 32) :
    (tfsOpen name mode).run s = Fs.tfsOpen s name mode := by
  unfold tfsOpen Fs.tfsOpen
  rw [run_bind, run_lockLibrary, pure_bind]
  cases name with
  | none => rfl
  | some name =>
    by_cases hv : validPathname name = true
    · simp only [hv, Bool.not_true, Bool.false_eq_true, if_false, run_bind, run_check, bind_assoc,
        pure_bind]
      congr 1
      funext root
      congr 1
      funext inum
      by_cases hi : 0 ≤ inum
      · simp only [hi, if_true, run_bind, run_openFound, bind_assoc, pure_bind, run_openFinish]
        congr 1
        funext inode
        split <;> simp
      · by_cases hc : hasFlag mode tfsOCreat = true
        · simp [hi, hc, run_openCreate]
        · simp [hi, hc]
    · simp [hv, pure, Except.pure]

theorem run_giveBlock (inode : Nat) :
    (giveBlock inode).run s =
      match if (s.inodeTable inode).iSize = 0 then allocateBlock s inode else some s with
      | none => pure (false, s)
      | some t => pure (true, t) := by
  unfold giveBlock
  by_cases hz : (s.inodeTable inode).iSize = 0
  · simp only [run_bind, run_look, pure_bind, hz, if_true, run_perform]
  · simp [hz]

theorem run_writeBlock (h inode : Nat) (buffer : Nat → UInt8) (toWrite : Nat) :
    (writeBlock h inode buffer toWrite).run s = (do
      let block ← dataBlockGet s (s.inodeTable inode).iDataBlock
      let t ← memcpyTo s (block + (s.openFileTable h).ofOffset) toWrite buffer
      let offset := szAdd (t.openFileTable h).ofOffset toWrite
      let t := t.setOpenFile h { t.openFileTable h with ofOffset := offset }
      return ((), if (t.inodeTable inode).iSize < offset
        then t.setInode inode { t.inodeTable inode with iSize := offset } else t)) := by
  unfold writeBlock
  simp only [run_bind, run_look, run_check, run_update, run_store, bind_assoc, pure_bind]
  congr 1
  funext block
  congr 1
  funext t
  have hoff : ((t.setOpenFile h { t.openFileTable h with
      ofOffset := szAdd (t.openFileTable h).ofOffset toWrite }).openFileTable h).ofOffset =
      szAdd (t.openFileTable h).ofOffset toWrite := by
    simp [FsState.setOpenFile]
  rw [hoff]
  split <;> rfl

theorem memcpyTo_frame {dst n : Nat} {buffer : Nat → UInt8} {t : FsState}
    (h : memcpyTo s dst n buffer = .ok t) :
    t.openFileTable = s.openFileTable ∧ t.inodeTable = s.inodeTable := by
  unfold memcpyTo at h
  split at h
  · cases h
    exact ⟨rfl, rfl⟩
  · cases h

theorem dataBlockAlloc_openFileTable : (dataBlockAlloc s).2.openFileTable = s.openFileTable := by
  unfold dataBlockAlloc
  split <;> rfl

theorem allocateBlock_openFileTable {inode : Nat} {t : FsState}
    (h : allocateBlock s inode = some t) : t.openFileTable = s.openFileTable := by
  simp only [allocateBlock] at h
  split at h
  · cases h
  · cases h
    exact dataBlockAlloc_openFileTable

theorem run_tfsWrite (fhandle : Int) (buffer : Nat → UInt8) (toWrite : Nat) :
    (tfsWrite fhandle buffer toWrite).run s = Fs.tfsWrite s fhandle buffer toWrite := by
  unfold tfsWrite Fs.tfsWrite
  simp only [run_bind, run_lockLibrary, run_look, pure_bind]
  cases getOpenFileEntry s fhandle with
  | none => rfl
  | some h =>
    simp only [run_bind, run_check, run_look, bind_assoc, pure_bind]
    congr 1
    funext inode
    by_cases hz : writeLength s (s.openFileTable h) toWrite = 0
    · simp [hz]
    · simp only [hz, if_false, run_bind, run_giveBlock]
      have hfile : ∀ t, (if (s.inodeTable inode).iSize = 0 then allocateBlock s inode
          else some s) = some t → t.openFileTable = s.openFileTable := by
        intro t ht
        split at ht
        · exact allocateBlock_openFileTable ht
        · cases ht
          rfl
      cases hr : (if (s.inodeTable inode).iSize = 0 then allocateBlock s inode else some s) with
      | none => simp
      | some t =>
        simp only [pure_bind, if_true, run_bind, run_writeBlock, bind_assoc, hfile t hr,
          run_unlockReturn]
        congr 1
        funext block
        cases hm : memcpyTo t (block + (s.openFileTable h).ofOffset)
          (writeLength s (s.openFileTable h) toWrite) buffer with
        | error e => rfl
        | ok u =>
          have hu := (memcpyTo_frame hm).1.trans (hfile t hr)
          simp only [Bind.bind, Except.bind, hu]

theorem run_tfsRead (fhandle : Int) (len : Nat) :
    (tfsRead fhandle len).run s = Fs.tfsRead s fhandle len := by
  unfold tfsRead Fs.tfsRead
  simp only [run_bind, run_lockLibrary, run_look, pure_bind]
  cases getOpenFileEntry s fhandle with
  | none => rfl
  | some h =>
    simp only [run_bind, run_check, run_look, bind_assoc, pure_bind]
    congr 1
    funext inode
    by_cases hz : readLength (s.inodeTable inode) (s.openFileTable h) len = 0
    · simp [hz]
    · simp [hz]

theorem run_tfsUnlink (target : Option CString) :
    (tfsUnlink target).run s = Fs.tfsUnlink s target := by
  unfold tfsUnlink Fs.tfsUnlink
  rw [run_bind, run_lockLibrary, pure_bind]
  cases target with
  | none => rfl
  | some target =>
    by_cases hv : validPathname target = true
    · simp only [hv, Bool.not_true, Bool.false_eq_true, if_false, run_bind, run_check, bind_assoc,
        pure_bind]
      congr 1
      funext root
      congr 1
      funext inum
      by_cases hi : inum = -1
      · simp [hi]
      · simp only [hi, if_false, run_bind, run_update, run_perform, bind_assoc, pure_bind]
        congr 1
        funext t
        congr 1
        funext ⟨cleared, u⟩
        by_cases hc : cleared = -1
        · simp [hc]
        · simp [hc]
    · simp [hv, pure, Except.pure]

/-- In steps or at once, a call comes to the same. -/
theorem run_body (op : Op) : (body op).run s = step s op := by
  cases op with
  | «open» name mode =>
    simp only [body, step, silent, run_bind, run_tfsOpen]
    cases Fs.tfsOpen s name mode <;> rfl
  | close fhandle =>
    simp only [body, step, silent, run_bind, run_tfsClose]
    cases Fs.tfsClose s fhandle <;> rfl
  | read fhandle len =>
    simp only [body, step, run_bind, run_tfsRead]
    cases Fs.tfsRead s fhandle len <;> rfl
  | write fhandle buffer toWrite =>
    simp only [body, step, silent, run_bind, run_tfsWrite]
    cases Fs.tfsWrite s fhandle buffer toWrite <;> rfl
  | unlink target =>
    simp only [body, step, silent, run_bind, run_tfsUnlink]
    cases Fs.tfsUnlink s target <;> rfl

/-! ## Lock first, unlock last -/

theorem goes_lockLibrary : lockLibrary.Goes .gLibraryMutex .before .within := ⟨rfl, rfl, rfl⟩

theorem goes_unlockReturn {R : Type} (r : R) :
    (unlockReturn r).Goes .gLibraryMutex .within .after := ⟨rfl, rfl, rfl⟩

theorem goes_pure {R : Type} (r : R) {φ : Phase} :
    (pure r : FsProc R).Goes .gLibraryMutex φ φ := rfl

theorem goes_openFound (inum : Int) (mode : BitVec 32) :
    (openFound inum mode).Goes .gLibraryMutex .within .within := by
  refine (goes_check _).bind fun inode => ?_
  have hoffset : (if hasFlag mode tfsOAppend then look fun s => (s.inodeTable inode).iSize
      else return 0 : FsProc Nat).Goes .gLibraryMutex .within .within := by
    split
    · exact goes_look _
    · exact goes_pure _
  dsimp only
  split
  · refine (goes_look _).bind fun size => ?_
    split
    · refine (goes_look _).bind fun block => (goes_update _).bind fun _ => ?_
      exact (goes_store _).bind fun _ => hoffset
    · exact hoffset
  · exact hoffset

theorem goes_openFinish (inum : Int) (offset : Nat) :
    (openFinish inum offset).Goes .gLibraryMutex .within .after :=
  (goes_perform _).bind fun _ => goes_unlockReturn _

theorem goes_openCreate (rootDirInode : Nat) (name : CString) :
    (openCreate rootDirInode name).Goes .gLibraryMutex .within .after := by
  refine (goes_perform _).bind fun inum => ?_
  split
  · exact goes_unlockReturn _
  · refine (goes_perform _).bind fun added => ?_
    split
    · exact (goes_update _).bind fun _ => goes_unlockReturn _
    · exact goes_openFinish _ _

theorem goes_tfsOpen (name : Option CString) (mode : BitVec 32) :
    (tfsOpen name mode).Goes .gLibraryMutex .before .after := by
  refine goes_lockLibrary.bind fun _ => ?_
  split
  · exact goes_unlockReturn _
  · split
    · exact goes_unlockReturn _
    · refine (goes_check _).bind fun rootDirInode => (goes_check _).bind fun inum => ?_
      split
      · exact (goes_openFound _ _).bind fun _ => goes_openFinish _ _
      · split
        · exact goes_openCreate _ _
        · exact goes_unlockReturn _

theorem goes_tfsClose (fhandle : Int) :
    (tfsClose fhandle).Goes .gLibraryMutex .before .after := by
  refine goes_lockLibrary.bind fun _ => (goes_look _).bind fun file => ?_
  split
  · exact goes_unlockReturn _
  · exact (goes_update _).bind fun _ => goes_unlockReturn _

theorem goes_giveBlock (inode : Nat) : (giveBlock inode).Goes .gLibraryMutex .within .within := by
  refine (goes_look _).bind fun size => ?_
  split
  · exact goes_perform _
  · exact goes_pure _

theorem goes_writeBlock (h inode : Nat) (buffer : Nat → UInt8) (toWrite : Nat) :
    (writeBlock h inode buffer toWrite).Goes .gLibraryMutex .within .within := by
  refine (goes_look _).bind fun iDataBlock => (goes_check _).bind fun block => ?_
  refine (goes_look _).bind fun _ => (goes_update _).bind fun _ => (goes_store _).bind fun _ => ?_
  refine (goes_look _).bind fun _ => (goes_look _).bind fun _ => ?_
  split
  · exact goes_store _
  · exact goes_pure _

theorem goes_tfsWrite (fhandle : Int) (buffer : Nat → UInt8) (toWrite : Nat) :
    (tfsWrite fhandle buffer toWrite).Goes .gLibraryMutex .before .after := by
  refine goes_lockLibrary.bind fun _ => (goes_look _).bind fun file => ?_
  split
  · exact goes_unlockReturn _
  · refine (goes_check _).bind fun inode => (goes_look _).bind fun toWrite => ?_
    split
    · exact goes_unlockReturn _
    · refine (goes_giveBlock _).bind fun room => ?_
      split
      · exact (goes_writeBlock ..).bind fun _ => goes_unlockReturn _
      · exact goes_unlockReturn _

theorem goes_tfsRead (fhandle : Int) (len : Nat) :
    (tfsRead fhandle len).Goes .gLibraryMutex .before .after := by
  refine goes_lockLibrary.bind fun _ => (goes_look _).bind fun file => ?_
  split
  · exact goes_unlockReturn _
  · refine (goes_check _).bind fun inode => (goes_look _).bind fun toRead => ?_
    split
    · exact goes_unlockReturn _
    · refine (goes_look _).bind fun iDataBlock => (goes_check _).bind fun block => ?_
      refine (goes_look _).bind fun _ => (goes_check _).bind fun _ => ?_
      exact (goes_store _).bind fun _ => goes_unlockReturn _

theorem goes_tfsUnlink (target : Option CString) :
    (tfsUnlink target).Goes .gLibraryMutex .before .after := by
  refine goes_lockLibrary.bind fun _ => ?_
  split
  · exact goes_unlockReturn _
  · split
    · exact goes_unlockReturn _
    · refine (goes_check _).bind fun rootDirInode => (goes_check _).bind fun inum => ?_
      split
      · exact goes_unlockReturn _
      · refine (goes_update _).bind fun _ => (goes_perform _).bind fun cleared => ?_
        split <;> exact goes_unlockReturn _

theorem goes_body (op : Op) : (body op).Goes .gLibraryMutex .before .after := by
  cases op with
  | «open» name mode => exact (goes_tfsOpen _ _).bind fun _ => goes_pure _
  | close fhandle => exact (goes_tfsClose _).bind fun _ => goes_pure _
  | read fhandle len => exact (goes_tfsRead _ _).bind fun _ => goes_pure _
  | write fhandle buffer toWrite => exact (goes_tfsWrite ..).bind fun _ => goes_pure _
  | unlink target => exact (goes_tfsUnlink _).bind fun _ => goes_pure _

/-- The calls of TecnicoFS, with `g_library_mutex` around each of them. -/
def library : Critical Op Mutex FsState Fault Ret where
  body := body
  mutex := .gLibraryMutex
  goes := goes_body

/-- Threads that call TecnicoFS. -/
abbrev System (T : Type) := Machine T Mutex Empty FsState library.Point

theorem whole_eq (s : FsState) (op : Op) : library.whole s op = step s op := run_body op

end MBroker.Fs.Threads
