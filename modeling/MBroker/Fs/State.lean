import Mathlib.Logic.Function.Basic
import MBroker.Lib.Arith
import MBroker.Lib.Memory
import MBroker.Lib.Search

/- The state of TecnicoFS (fs/state.h, fs/config.h) and the functions of
   fs/state.c, in the order of the source.

   The data area is `fsData`, bytes from address 0 to `areaSize`; the directory
   lives in the bytes of the root's block, an entry being 40 bytes of name and a
   4-byte int. A table is a map from indices: every index the code uses is
   checked against the table's count first, or comes from a loop up to it. An
   inode is handed around as its index in `inodeTable`, a block as its address.

   `panic` is `ALWAYS_ASSERT` or `PANIC`, which end the process; `undefined` is
   an access the C standard leaves undefined (here, a `memcpy` that leaves the
   data area). `insert_delay` and the pacing tests around it touch no state and
   are left out, and so is the mutex that makes each `tfs_*` call atomic. -/
namespace MBroker.Fs
open MBroker.Lib

def rootDirInum : Int := 0
def maxFileName : Nat := 40

/-- `sizeof(dir_entry_t)`. -/
def dirEntrySize : Nat := 44

structure TfsParams where
  maxInodeCount : Nat
  maxBlockCount : Nat
  maxOpenFilesCount : Nat
  blockSize : Nat
  deriving DecidableEq, Repr

/-- The parameters the tables can be addressed under: counts that fit a C int,
non-empty blocks, and a data area whose size no `size_t` product wraps. -/
structure TfsParams.Sane (p : TfsParams) : Prop where
  blockSize : 0 < p.blockSize
  inodes : p.maxInodeCount < 2 ^ 31
  blocks : p.maxBlockCount < 2 ^ 31
  openFiles : p.maxOpenFilesCount < 2 ^ 31
  area : p.maxBlockCount * p.blockSize < 2 ^ 63

inductive InodeType where
  | tFile
  | tDirectory
  deriving DecidableEq, Repr

structure Inode where
  iNodeType : InodeType
  iSize : Nat
  iDataBlock : Int
  deriving DecidableEq, Repr

inductive AllocationState where
  | free
  | taken
  deriving DecidableEq, Repr

structure OpenFileEntry where
  ofInumber : Int
  ofOffset : Nat
  deriving DecidableEq, Repr

/-- A NUL-terminated C string, without its NUL. -/
structure CString where
  bytes : List UInt8
  noNul : 0 ∉ bytes
  deriving DecidableEq, Repr

/-- The six tables `state_init` allocates. -/
structure Tables where
  inodeTable : Nat → Inode
  freeinodeTs : Nat → AllocationState
  fsData : Mem
  freeBlocks : Nat → AllocationState
  openFileTable : Nat → OpenFileEntry
  freeOpenFileEntries : Nat → AllocationState

structure FsState extends Tables where
  fsParams : TfsParams

/-- The ends of a call other than a return. -/
inductive Fault where
  | panic (msg : String)
  | undefined
  deriving DecidableEq, Repr

def alwaysAssert (c : Bool) (msg : String) : Except Fault Unit :=
  if c then .ok () else .error (.panic msg)

namespace FsState

def maxDirEntries (s : FsState) : Nat := s.fsParams.blockSize / dirEntrySize

/-- Bytes `malloc` gave `fs_data`. -/
def areaSize (s : FsState) : Nat := szMul s.fsParams.maxBlockCount s.fsParams.blockSize

def setInode (s : FsState) (n : Nat) (inode : Inode) : FsState :=
  { s with inodeTable := Function.update s.inodeTable n inode }

def setFreeinode (s : FsState) (n : Nat) (a : AllocationState) : FsState :=
  { s with freeinodeTs := Function.update s.freeinodeTs n a }

def setFreeBlock (s : FsState) (b : Nat) (a : AllocationState) : FsState :=
  { s with freeBlocks := Function.update s.freeBlocks b a }

def setOpenFile (s : FsState) (h : Nat) (file : OpenFileEntry) : FsState :=
  { s with openFileTable := Function.update s.openFileTable h file }

def setFreeOpenFile (s : FsState) (h : Nat) (a : AllocationState) : FsState :=
  { s with freeOpenFileEntries := Function.update s.freeOpenFileEntries h a }

end FsState

def validInumber (s : FsState) (inumber : Int) : Bool :=
  0 ≤ inumber && inumber < s.fsParams.maxInodeCount

def validBlockNumber (s : FsState) (blockNumber : Int) : Bool :=
  0 ≤ blockNumber && blockNumber < s.fsParams.maxBlockCount

def validFileHandle (s : FsState) (fileHandle : Int) : Bool :=
  0 ≤ fileHandle && fileHandle < s.fsParams.maxOpenFilesCount

def stateBlockSize (s : FsState) : Nat := s.fsParams.blockSize

/-- `state_init` when no table is allocated yet and every `malloc` succeeds;
`mem` is what the fresh tables hold. -/
def stateInit (params : TfsParams) (mem : Tables) : FsState :=
  { mem with
    fsParams := params
    freeinodeTs := fun i => if i < params.maxInodeCount then .free else mem.freeinodeTs i
    freeBlocks := fun i => if i < params.maxBlockCount then .free else mem.freeBlocks i
    freeOpenFileEntries := fun i =>
      if i < params.maxOpenFilesCount then .free else mem.freeOpenFileEntries i }

def inodeAlloc (s : FsState) : Int × FsState :=
  match firstIndex (fun i => s.freeinodeTs i = .free) s.fsParams.maxInodeCount with
  | some inumber => (toInt inumber, s.setFreeinode inumber .taken)
  | none => (-1, s)

def dataBlockAlloc (s : FsState) : Int × FsState :=
  match firstIndex (fun i => s.freeBlocks i = .free) s.fsParams.maxBlockCount with
  | some i => (toInt i, s.setFreeBlock i .taken)
  | none => (-1, s)

def dataBlockFree (s : FsState) (blockNumber : Int) : Except Fault FsState := do
  alwaysAssert (validBlockNumber s blockNumber) "data_block_free: invalid block number"
  return s.setFreeBlock blockNumber.toNat .free

/-- The address of the block's first byte. -/
def dataBlockGet (s : FsState) (blockNumber : Int) : Except Fault Nat := do
  alwaysAssert (validBlockNumber s blockNumber) "data_block_get: invalid block number"
  return szMul blockNumber.toNat s.fsParams.blockSize

/-- Address of `dir_entry[i].d_name`, the directory's block being at `base`. -/
def dName (base i : Nat) : Nat := base + i * dirEntrySize

/-- Address of `dir_entry[i].d_inumber`. -/
def dInumber (base i : Nat) : Nat := dName base i + maxFileName

/-- The loop that labels the first `n` entries empty. -/
def emptyEntries (m : Mem) (base : Nat) : Nat → Mem
  | 0 => m
  | n + 1 => (emptyEntries m base n).storeInt (dInumber base n) (-1)

def inodeDelete (s : FsState) (inumber : Int) : Except Fault FsState := do
  alwaysAssert (validInumber s inumber) "inode_delete: invalid inumber"
  alwaysAssert (s.freeinodeTs inumber.toNat = .taken) "inode_delete: inode already freed"
  let inode := s.inodeTable inumber.toNat
  let s ← if 0 < inode.iSize then dataBlockFree s inode.iDataBlock else pure s
  return s.setFreeinode inumber.toNat .free

def inodeCreate (s : FsState) (iType : InodeType) : Except Fault (Int × FsState) := do
  let (inumber, s) := inodeAlloc s
  if inumber = -1 then return (-1, s)
  -- a negative index only where the count exceeds the ints
  if inumber < 0 then throw .undefined
  let n := inumber.toNat
  let s := s.setInode n { s.inodeTable n with iNodeType := iType }
  match iType with
  | .tDirectory =>
    let (b, s) := dataBlockAlloc s
    if b = -1 then
      let s := s.setInode n { s.inodeTable n with iSize := 0, iDataBlock := -1 }
      let s ← inodeDelete s inumber
      return (-1, s)
    let s := s.setInode n
      { s.inodeTable n with iSize := s.fsParams.blockSize, iDataBlock := b }
    let base ← dataBlockGet s b
    return (inumber, { s with fsData := emptyEntries s.fsData base s.maxDirEntries })
  | .tFile =>
    return (inumber, s.setInode n { s.inodeTable n with iSize := 0, iDataBlock := -1 })

def inodeGet (s : FsState) (inumber : Int) : Except Fault Nat := do
  alwaysAssert (validInumber s inumber) "inode_get: invalid inumber"
  return inumber.toNat

def clearDirEntry (s : FsState) (inode : Nat) (subName : CString) :
    Except Fault (Int × FsState) := do
  if (s.inodeTable inode).iNodeType ≠ .tDirectory then return (-1, s)
  let base ← dataBlockGet s (s.inodeTable inode).iDataBlock
  match firstIndex (fun i => s.fsData.strEq (dName base i) subName.bytes) s.maxDirEntries with
  | some i =>
    let data := s.fsData.storeInt (dInumber base i) (-1)
    return (0, { s with fsData := data.write (dName base i) maxFileName fun _ => 0 })
  | none => return (-1, s)

def addDirEntry (s : FsState) (inode : Nat) (subName : CString) (subInumber : Int) :
    Except Fault (Int × FsState) := do
  if subName.bytes.length = 0 ∨ maxFileName - 1 < subName.bytes.length then return (-1, s)
  if (s.inodeTable inode).iNodeType ≠ .tDirectory then return (-1, s)
  let base ← dataBlockGet s (s.inodeTable inode).iDataBlock
  match firstIndex (fun i => s.fsData.loadInt (dInumber base i) = -1) s.maxDirEntries with
  | some i =>
    let data := s.fsData.storeInt (dInumber base i) subInumber
    let data := data.write (dName base i) (maxFileName - 1) (Mem.padded subName.bytes)
    let data := data.write (dName base i + (maxFileName - 1)) 1 fun _ => 0
    return (0, { s with fsData := data })
  | none => return (-1, s)

def findInDir (s : FsState) (inode : Nat) (subName : CString) : Except Fault Int := do
  if (s.inodeTable inode).iNodeType ≠ .tDirectory then return -1
  let base ← dataBlockGet s (s.inodeTable inode).iDataBlock
  match firstIndex (fun i => s.fsData.loadInt (dInumber base i) ≠ -1 &&
      s.fsData.strnEq (dName base i) subName.bytes maxFileName) s.maxDirEntries with
  | some i => return s.fsData.loadInt (dInumber base i)
  | none => return -1

def addToOpenFileTable (s : FsState) (inumber : Int) (offset : Nat) : Int × FsState :=
  match firstIndex (fun i => s.freeOpenFileEntries i = .free) s.fsParams.maxOpenFilesCount with
  | some i => (i, (s.setFreeOpenFile i .taken).setOpenFile i ⟨inumber, offset⟩)
  | none => (-1, s)

def removeFromOpenFileTable (s : FsState) (fhandle : Int) : Except Fault FsState := do
  alwaysAssert (validFileHandle s fhandle)
    "remove_from_open_file_table: file handle must be valid"
  alwaysAssert (s.freeOpenFileEntries fhandle.toNat = .taken)
    "remove_from_open_file_table: file handle must be taken"
  return s.setFreeOpenFile fhandle.toNat .free

/-- The entry's index in `openFileTable`, or nothing for NULL. -/
def getOpenFileEntry (s : FsState) (fhandle : Int) : Option Nat :=
  if !validFileHandle s fhandle then none
  else if s.freeOpenFileEntries fhandle.toNat ≠ .taken then none
  else some fhandle.toNat

end MBroker.Fs
