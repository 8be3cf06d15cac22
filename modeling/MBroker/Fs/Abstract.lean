import Mathlib.Data.Finmap
import MBroker.Fs.Operations

/- What TecnicoFS is for: a finite map from file names to byte strings, and a
   partial map from handles to a file name and an offset. No inode, no block and
   no directory slot is left; of the tables only their sizes are, as the number
   of files, of files that hold data and of handles that there is room for.

   `Disciplined` is what a client must keep to for the code to behave so: it
   unlinks or truncates no file that it has open, and truncates only with a
   handle to spare. -/
namespace MBroker.Fs
open MBroker.Lib Function

/-- A name a directory entry can hold. -/
structure FileName extends CString where
  nonempty : 1 ≤ bytes.length
  fits : bytes.length ≤ maxFileName - 1
  deriving DecidableEq, Repr

theorem FileName.ext_bytes {a b : FileName} (h : a.bytes = b.bytes) : a = b := by
  obtain ⟨⟨a, _⟩, _, _⟩ := a
  obtain ⟨⟨b, _⟩, _, _⟩ := b
  cases h
  rfl

/-- The file name of an absolute path. -/
def fileName : Option CString → Option FileName
  | none => none
  | some path =>
    if h : validPathname path = true ∧ 1 ≤ path.tail.bytes.length ∧
        path.tail.bytes.length ≤ maxFileName - 1
    then some ⟨path.tail, h.2.1, h.2.2⟩ else none

structure Volume where
  files : Finmap fun _ : FileName => List UInt8
  handles : Nat → Option (FileName × Nat)

namespace Volume

def empty : Volume := ⟨∅, fun _ => none⟩

/-- The bytes of a file; no bytes where there is no such file. -/
def contents (v : Volume) (name : FileName) : List UInt8 := (v.files.lookup name).getD []

def put (v : Volume) (name : FileName) (bytes : List UInt8) : Volume :=
  { v with files := v.files.insert name bytes }

def seek (v : Volume) (h : Nat) (name : FileName) (offset : Nat) : Volume :=
  { v with handles := update v.handles h (some (name, offset)) }

/-- The files that hold data. -/
def nonEmpty (v : Volume) : Finset FileName := v.files.keys.filter fun name => v.contents name ≠ []

/-- How many files there can be: inodes other than the root's, and entries. -/
def maxFiles (p : TfsParams) : Nat := min (p.maxInodeCount - 1) (p.blockSize / dirEntrySize)

/-- How many files can hold data: blocks other than the root's. -/
def maxNonEmpty (p : TfsParams) : Nat := p.maxBlockCount - 1

/-- The lowest unused handle. -/
def unused (p : TfsParams) (v : Volume) : Option Nat :=
  firstIndex (fun h => (v.handles h).isNone) p.maxOpenFilesCount

/-- The lowest unused handle opened on a file. -/
def enter (p : TfsParams) (v : Volume) (name : FileName) (offset : Nat) : Int × Volume :=
  match v.unused p with
  | some h => (h, v.seek h name offset)
  | none => (-1, v)

def openFile (p : TfsParams) (v : Volume) (path : Option CString) (mode : BitVec 32) :
    Int × Volume :=
  match fileName path with
  | none => (-1, v)
  | some name =>
    if name ∈ v.files then
      if (v.unused p).isNone then (-1, v)
      else
        let v := if hasFlag mode tfsOTrunc then v.put name [] else v
        v.enter p name (if hasFlag mode tfsOAppend then (v.contents name).length else 0)
    else if hasFlag mode tfsOCreat ∧ v.files.keys.card < maxFiles p then
      -- the file is made even when there is no handle for it
      (v.put name []).enter p name 0
    else (-1, v)

/-- The handle a number stands for: its file and its offset. -/
def opened (v : Volume) (fhandle : Int) : Option (FileName × Nat) :=
  if 0 ≤ fhandle then v.handles fhandle.toNat else none

def closeFile (v : Volume) (fhandle : Int) : Int × Volume :=
  match v.opened fhandle with
  | none => (-1, v)
  | some _ => (0, { v with handles := update v.handles fhandle.toNat none })

def readFile (v : Volume) (fhandle : Int) (len : Nat) : Ret × Volume :=
  match v.opened fhandle with
  | none => (⟨-1, []⟩, v)
  | some (name, offset) =>
    let data := ((v.contents name).drop offset).take len
    (⟨data.length, data⟩, v.seek fhandle.toNat name (offset + data.length))

/-- `data` over the bytes from `offset` on. -/
def overwrite (bytes : List UInt8) (offset : Nat) (data : List UInt8) : List UInt8 :=
  bytes.take offset ++ data ++ bytes.drop (offset + data.length)

def writeFile (p : TfsParams) (v : Volume) (fhandle : Int) (buffer : Nat → UInt8)
    (toWrite : Nat) : Int × Volume :=
  match v.opened fhandle with
  | none => (-1, v)
  | some (name, offset) =>
    -- a file does not outgrow its block
    let data := Mem.read buffer 0 (min toWrite (p.blockSize - offset))
    if data = [] then (0, v)
    else if v.contents name = [] ∧ maxNonEmpty p ≤ v.nonEmpty.card then (-1, v)
    else (data.length, (v.put name (overwrite (v.contents name) offset data)).seek fhandle.toNat
      name (offset + data.length))

def unlinkFile (v : Volume) (path : Option CString) : Int × Volume :=
  match fileName path with
  | none => (-1, v)
  | some name =>
    if name ∈ v.files then (0, { v with files := v.files.erase name }) else (-1, v)

def step (p : TfsParams) (v : Volume) : Op → Ret × Volume
  | .open path mode => (⟨(v.openFile p path mode).1, []⟩, (v.openFile p path mode).2)
  | .close fhandle => (⟨(v.closeFile fhandle).1, []⟩, (v.closeFile fhandle).2)
  | .read fhandle len => v.readFile fhandle len
  | .write fhandle buffer toWrite =>
    (⟨(v.writeFile p fhandle buffer toWrite).1, []⟩, (v.writeFile p fhandle buffer toWrite).2)
  | .unlink path => (⟨(v.unlinkFile path).1, []⟩, (v.unlinkFile path).2)

/-- Some handle is open on the file. -/
def IsOpen (v : Volume) (name : FileName) : Prop := ∃ h offset, v.handles h = some (name, offset)

/-- The calls a client keeps to. -/
def Disciplined (p : TfsParams) (v : Volume) : Op → Prop
  | .open path mode => hasFlag mode tfsOTrunc = true →
      (∀ name, fileName path = some name → ¬ v.IsOpen name) ∧
        ∃ h, h < p.maxOpenFilesCount ∧ v.handles h = none
  | .close _ => True
  | .read _ len => len < 2 ^ 63
  | .write _ _ toWrite => toWrite < 2 ^ 63
  | .unlink path => ∀ name, fileName path = some name → ¬ v.IsOpen name

end Volume

end MBroker.Fs
