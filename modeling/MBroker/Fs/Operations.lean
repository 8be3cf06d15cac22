import MBroker.Fs.State

/- fs/operations.c: the calls on TecnicoFS, and the calls as one labelled step.

   `readLength` and `writeLength` are the lengths `tfs_read` and `tfs_write`
   compute before they copy, in `size_t` arithmetic; the copy is `memcpy` from
   or to the block's address plus the handle's offset, and leaves the data area
   or not whatever the block is. A pointer argument is `none` when it is NULL. -/
namespace MBroker.Fs
open MBroker.Lib

def tfsOCreat : BitVec 32 := 0b001#32
def tfsOTrunc : BitVec 32 := 0b010#32
def tfsOAppend : BitVec 32 := 0b100#32

/-- `mode & flag`, as a truth value. -/
def hasFlag (mode flag : BitVec 32) : Bool := mode &&& flag != 0

def tfsDefaultParams : TfsParams where
  maxInodeCount := 64
  maxBlockCount := 1024
  maxOpenFilesCount := 16
  blockSize := 1024

/-- `tfs_init` in a process that has not initialised TecnicoFS. -/
def tfsInit (paramsPtr : Option TfsParams) (mem : Tables) : Except Fault (Int × FsState) := do
  let s := stateInit (paramsPtr.getD tfsDefaultParams) mem
  let (root, s) ← inodeCreate s .tDirectory
  if root ≠ rootDirInum then return (-1, s)
  return (0, s)

/-- The string one past the first character of `name` (`name + 1`). -/
def CString.tail (name : CString) : CString :=
  ⟨name.bytes.tail, fun h => name.noNul (List.mem_of_mem_tail h)⟩

/-- The character `/`. -/
def slash : UInt8 := 47

def validPathname (name : CString) : Bool :=
  1 < name.bytes.length && name.bytes.head? = some slash

def tfsLookup (s : FsState) (name : CString) (rootInode : Nat) : Except Fault Int := do
  if !validPathname name then return -1
  findInDir s rootInode name.tail

def tfsOpen (s : FsState) (name : Option CString) (mode : BitVec 32) :
    Except Fault (Int × FsState) :=
  match name with
  | none => .ok (-1, s)
  | some name => do
    if !validPathname name then return (-1, s)
    let rootDirInode ← inodeGet s rootDirInum
    let inum ← tfsLookup s name rootDirInode
    if 0 ≤ inum then
      let inode ← inodeGet s inum
      let s ←
        if hasFlag mode tfsOTrunc ∧ 0 < (s.inodeTable inode).iSize then do
          let s ← dataBlockFree s (s.inodeTable inode).iDataBlock
          pure (s.setInode inode { s.inodeTable inode with iSize := 0 })
        else pure s
      let offset := if hasFlag mode tfsOAppend then (s.inodeTable inode).iSize else 0
      return addToOpenFileTable s inum offset
    else if hasFlag mode tfsOCreat then
      let (inum, s) ← inodeCreate s .tFile
      if inum = -1 then return (-1, s)
      let (added, s) ← addDirEntry s rootDirInode name.tail inum
      if added = -1 then
        let s ← inodeDelete s inum
        return (-1, s)
      return addToOpenFileTable s inum 0
    else return (-1, s)

def tfsClose (s : FsState) (fhandle : Int) : Except Fault (Int × FsState) := do
  match getOpenFileEntry s fhandle with
  | none => return (-1, s)
  | some _ =>
    let s ← removeFromOpenFileTable s fhandle
    return (0, s)

/-- How many bytes `tfs_write` decides to write. -/
def writeLength (s : FsState) (file : OpenFileEntry) (toWrite : Nat) : Nat :=
  if stateBlockSize s < szAdd toWrite file.ofOffset
  then szSub (stateBlockSize s) file.ofOffset else toWrite

/-- How many bytes `tfs_read` decides to read. -/
def readLength (inode : Inode) (file : OpenFileEntry) (len : Nat) : Nat :=
  if len < szSub inode.iSize file.ofOffset then len else szSub inode.iSize file.ofOffset

/-- `memcpy` of `n` bytes of `buffer` to `dst` in the data area. -/
def memcpyTo (s : FsState) (dst n : Nat) (buffer : Nat → UInt8) : Except Fault FsState :=
  if dst + n ≤ s.areaSize then .ok { s with fsData := s.fsData.write dst n buffer }
  else .error .undefined

/-- `memcpy` of `n` bytes from `src` in the data area. -/
def memcpyFrom (s : FsState) (src n : Nat) : Except Fault (List UInt8) :=
  if src + n ≤ s.areaSize then .ok (s.fsData.read src n) else .error .undefined

/-- The block `tfs_write` gives an empty file; nothing when no block is free. -/
def allocateBlock (s : FsState) (inode : Nat) : Option FsState :=
  let (bnum, s) := dataBlockAlloc s
  if bnum = -1 then none
  else some (s.setInode inode { s.inodeTable inode with iDataBlock := bnum })

def tfsWrite (s : FsState) (fhandle : Int) (buffer : Nat → UInt8) (toWrite : Nat) :
    Except Fault (Int × FsState) := do
  match getOpenFileEntry s fhandle with
  | none => return (-1, s)
  | some h =>
    let file := s.openFileTable h
    let inode ← inodeGet s file.ofInumber
    let toWrite := writeLength s file toWrite
    if toWrite = 0 then return (0, s)
    match if (s.inodeTable inode).iSize = 0 then allocateBlock s inode else some s with
    | none => return (-1, s)
    | some s =>
      let block ← dataBlockGet s (s.inodeTable inode).iDataBlock
      let s ← memcpyTo s (block + file.ofOffset) toWrite buffer
      let offset := szAdd file.ofOffset toWrite
      let s := s.setOpenFile h { file with ofOffset := offset }
      let s := if (s.inodeTable inode).iSize < offset
        then s.setInode inode { s.inodeTable inode with iSize := offset } else s
      return (toSsize toWrite, s)

/-- The value returned, and the bytes copied to the caller's buffer. -/
def tfsRead (s : FsState) (fhandle : Int) (len : Nat) :
    Except Fault ((Int × List UInt8) × FsState) := do
  match getOpenFileEntry s fhandle with
  | none => return ((-1, []), s)
  | some h =>
    let file := s.openFileTable h
    let inode ← inodeGet s file.ofInumber
    let toRead := readLength (s.inodeTable inode) file len
    if toRead = 0 then return ((0, []), s)
    let block ← dataBlockGet s (s.inodeTable inode).iDataBlock
    let bytes ← memcpyFrom s (block + file.ofOffset) toRead
    let s := s.setOpenFile h { file with ofOffset := szAdd file.ofOffset toRead }
    return ((toSsize toRead, bytes), s)

def tfsUnlink (s : FsState) (target : Option CString) : Except Fault (Int × FsState) :=
  match target with
  | none => .ok (-1, s)
  | some target => do
    if !validPathname target then return (-1, s)
    let rootDirInode ← inodeGet s rootDirInum
    let inum ← tfsLookup s target rootDirInode
    if inum = -1 then return (-1, s)
    let s ← inodeDelete s inum
    let (cleared, s) ← clearDirEntry s rootDirInode target.tail
    if cleared = -1 then return (-1, s)
    return (0, s)

/-! ## The calls as labels -/

/-- A call on an initialised TecnicoFS. -/
inductive Op where
  | open (name : Option CString) (mode : BitVec 32)
  | close (fhandle : Int)
  | read (fhandle : Int) (len : Nat)
  | write (fhandle : Int) (buffer : Nat → UInt8) (toWrite : Nat)
  | unlink (target : Option CString)

/-- What a call gives back: its value, and the bytes it read. -/
structure Ret where
  value : Int
  bytes : List UInt8
  deriving DecidableEq, Repr

/-- A call that reads nothing. -/
def silent (r : Except Fault (Int × FsState)) : Except Fault (Ret × FsState) :=
  r.map fun p => (⟨p.1, []⟩, p.2)

def step (s : FsState) : Op → Except Fault (Ret × FsState)
  | .open name mode => silent (tfsOpen s name mode)
  | .close fhandle => silent (tfsClose s fhandle)
  | .read fhandle len => (tfsRead s fhandle len).map fun p => (⟨p.1.1, p.1.2⟩, p.2)
  | .write fhandle buffer toWrite => silent (tfsWrite s fhandle buffer toWrite)
  | .unlink target => silent (tfsUnlink s target)

/-- One call that returns. -/
def Steps (s : FsState) (op : Op) (t : FsState) : Prop := ∃ r, step s op = .ok (r, t)

/-- The state after these calls, or before the first of them that does not
return. -/
def after (s : FsState) : List Op → FsState
  | [] => s
  | op :: ops =>
    match step s op with
    | .ok (_, t) => after t ops
    | .error _ => s

/-- The run these calls make, up to the first of them that does not return. -/
def runOf (s : FsState) : List Op → List (Op × FsState)
  | [] => []
  | op :: ops =>
    match step s op with
    | .ok (_, t) => (op, t) :: runOf t ops
    | .error _ => []

/-- The states a successful `tfs_init` with these parameters may leave. -/
def Initial (params : TfsParams) (s : FsState) : Prop :=
  ∃ mem, tfsInit (some params) mem = .ok (0, s)

end MBroker.Fs
