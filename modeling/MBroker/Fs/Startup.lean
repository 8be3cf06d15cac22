import MBroker.Fs.Reach

/- The static variables of fs/state.c over the life of the process: the
   parameters, and six table pointers that are NULL until `state_init` allocates
   them. `state_init` writes the parameters before it asks whether TecnicoFS is
   initialised, and the pointers before it asks whether every `malloc` succeeded;
   `tfs_init` gives up on a root it could not create and leaves both. So a
   `tfs_init` that fails has changed what every later call goes by, unless it
   asked for the parameters already in force and found the tables there.

   A table's cells past the count it was allocated for stand for the memory that
   follows it: under larger parameters the calls read and write them. -/
namespace MBroker.Fs
open MBroker.Lib Function

/-- The six table pointers, `none` for NULL; also what the six calls of `malloc`
return, each NULL or fresh memory. -/
structure Pointers where
  inodeTable : Option (Nat → Inode)
  freeinodeTs : Option (Nat → AllocationState)
  fsData : Option Mem
  freeBlocks : Option (Nat → AllocationState)
  openFileTable : Option (Nat → OpenFileEntry)
  freeOpenFileEntries : Option (Nat → AllocationState)

namespace Pointers

def null : Pointers := ⟨none, none, none, none, none, none⟩

def of (mem : Tables) : Pointers where
  inodeTable := some mem.inodeTable
  freeinodeTs := some mem.freeinodeTs
  fsData := some mem.fsData
  freeBlocks := some mem.freeBlocks
  openFileTable := some mem.openFileTable
  freeOpenFileEntries := some mem.freeOpenFileEntries

/-- The tables, when none of the pointers is NULL. -/
def tables (v : Pointers) : Option Tables := do
  let inodeTable ← v.inodeTable
  let freeinodeTs ← v.freeinodeTs
  let fsData ← v.fsData
  let freeBlocks ← v.freeBlocks
  let openFileTable ← v.openFileTable
  let freeOpenFileEntries ← v.freeOpenFileEntries
  return ⟨inodeTable, freeinodeTs, fsData, freeBlocks, openFileTable, freeOpenFileEntries⟩

end Pointers

structure Statics extends Pointers where
  fsParams : TfsParams

namespace Statics

/-- Before `main`. -/
def start : Statics := ⟨.null, ⟨0, 0, 0, 0⟩⟩

def of (s : FsState) : Statics := ⟨.of s.toTables, s.fsParams⟩

/-- TecnicoFS as its calls find it, when none of the pointers is NULL. -/
def fs (v : Statics) : Option FsState := v.tables.map fun mem => ⟨mem, v.fsParams⟩

def stateInit (v : Statics) (params : TfsParams) (mallocs : Pointers) : Int × Statics :=
  let v := { v with fsParams := params }
  if v.inodeTable.isSome then (-1, v)
  else
    match mallocs.tables with
    | none => (-1, ⟨mallocs, params⟩)
    | some mem => (0, .of (Fs.stateInit params mem))

def stateDestroy (v : Statics) : Int × Statics := (0, ⟨.null, v.fsParams⟩)

def tfsInit (v : Statics) (paramsPtr : Option TfsParams) (mallocs : Pointers) :
    Except Fault (Int × Statics) := do
  let (r, v) := v.stateInit (paramsPtr.getD tfsDefaultParams) mallocs
  if r ≠ 0 then return (-1, v)
  match v.fs with
  | none => throw .undefined
  | some s =>
    let (root, s) ← inodeCreate s .tDirectory
    if root ≠ rootDirInum then return (-1, .of s)
    return (0, .of s)

def tfsDestroy (v : Statics) : Int × Statics :=
  let (r, v) := v.stateDestroy
  if r ≠ 0 then (-1, v) else (0, v)

end Statics

/-- Any call of fs/operations.h, with what `malloc` gives it. -/
inductive Call where
  | init (paramsPtr : Option TfsParams) (mallocs : Pointers)
  | destroy
  | op (op : Op)

/-- The call returns -1 on its arguments, before it reads a table. -/
def refused (params : TfsParams) : Op → Bool
  | .open name _ | .unlink name => !(name.any validPathname)
  | .close fhandle | .read fhandle _ | .write fhandle _ _ =>
    !(0 ≤ fhandle && fhandle < params.maxOpenFilesCount)

def Statics.call (v : Statics) : Call → Except Fault (Ret × Statics)
  | .init paramsPtr mallocs => (v.tfsInit paramsPtr mallocs).map fun p => (⟨p.1, []⟩, p.2)
  | .destroy => .ok (⟨v.tfsDestroy.1, []⟩, v.tfsDestroy.2)
  | .op op =>
    match v.fs with
    | some s => (step s op).map fun p => (p.1, .of p.2)
    -- the tables are NULL, or were never initialised
    | none => if refused v.fsParams op then .ok (⟨-1, []⟩, v) else .error .undefined

/-- What these calls return, up to the first that does not. -/
def outcomes (v : Statics) : List Call → List (Except Fault Ret)
  | [] => []
  | c :: calls =>
    match v.call c with
    | .ok (r, w) => .ok r :: outcomes w calls
    | .error e => [.error e]

/-- Nothing has changed, and no later call can tell. -/
def NoTrace (v w : Statics) : Prop :=
  w = v ∧ ∀ calls, outcomes w calls = outcomes v calls

/-- The call asks for the parameters in force, and either TecnicoFS is initialised or
every `malloc` returns what its pointer held. -/
def AsksForNothing (v : Statics) (paramsPtr : Option TfsParams) (mallocs : Pointers) : Prop :=
  paramsPtr.getD tfsDefaultParams = v.fsParams ∧
    (v.inodeTable ≠ none ∨ mallocs = v.toPointers)

variable {v w : Statics} {paramsPtr : Option TfsParams} {mallocs : Pointers} {mem : Tables}

theorem Pointers.tables_of (mem : Tables) : (Pointers.of mem).tables = some mem := rfl

theorem Statics.fs_of (s : FsState) : (Statics.of s).fs = some s := rfl

theorem Pointers.tables_null (h : mallocs.inodeTable = none) : mallocs.tables = none := by
  unfold Pointers.tables
  rw [h]
  rfl

theorem noTrace_iff : NoTrace v w ↔ w = v := by
  refine ⟨fun h => h.1, ?_⟩
  intro h
  subst h
  exact ⟨rfl, fun _ => rfl⟩

/-! ## The ways a `tfs_init` can go -/

theorem tfsInit_again (hv : v.inodeTable ≠ none) :
    v.tfsInit paramsPtr mallocs =
      .ok (-1, { v with fsParams := paramsPtr.getD tfsDefaultParams }) := by
  have hsome : v.inodeTable.isSome = true := Option.isSome_iff_ne_none.mpr hv
  simp [Statics.tfsInit, Statics.stateInit, hsome, pure, Except.pure]

theorem tfsInit_noMemory (hv : v.inodeTable = none) (hm : mallocs.tables = none) :
    v.tfsInit paramsPtr mallocs = .ok (-1, ⟨mallocs, paramsPtr.getD tfsDefaultParams⟩) := by
  simp [Statics.tfsInit, Statics.stateInit, hv, hm, pure, Except.pure]

/-- With the tables allocated, `tfs_init` is what it is in a fresh process. -/
theorem tfsInit_fresh (hv : v.inodeTable = none) (hm : mallocs.tables = some mem) :
    v.tfsInit paramsPtr mallocs = (Fs.tfsInit paramsPtr mem).map fun p => (p.1, .of p.2) := by
  simp only [Statics.tfsInit, Statics.stateInit, hv, hm, Option.isSome_none, Bool.false_eq_true,
    if_false, ne_eq, not_true_eq_false, Statics.fs_of, Fs.tfsInit]
  cases inodeCreate (Fs.stateInit (paramsPtr.getD tfsDefaultParams) mem) .tDirectory with
  | error e => rfl
  | ok p =>
    simp only [bind, Except.bind]
    split <;> rfl

/-- A failed `tfs_init` leaves no trace exactly when it asked for nothing new. -/
theorem failed_init_iff (h : v.tfsInit paramsPtr mallocs = .ok (-1, w)) :
    NoTrace v w ↔ AsksForNothing v paramsPtr mallocs := by
  rw [noTrace_iff, AsksForNothing]
  by_cases hv : v.inodeTable = none
  · have hkept : (v.inodeTable ≠ none ∨ mallocs = v.toPointers) ↔ mallocs = v.toPointers :=
      or_iff_right fun hne => hne hv
    rw [hkept]
    cases hm : mallocs.tables with
    | none =>
      rw [tfsInit_noMemory hv hm] at h
      cases h
      cases v
      simp only [Statics.mk.injEq]
      exact and_comm
    | some mem =>
      -- the root could not be created, and the tables are there
      rw [tfsInit_fresh hv hm] at h
      refine iff_of_false ?_ ?_
      · intro hw
        subst hw
        cases hi : Fs.tfsInit paramsPtr mem with
        | error e =>
          rw [hi] at h
          cases h
        | ok p =>
          obtain ⟨r, s⟩ := p
          rw [hi] at h
          cases h
          cases hv
      · intro hsame
        rw [hsame.2, Pointers.tables_null hv] at hm
        cases hm
  · rw [tfsInit_again hv] at h
    cases h
    refine ⟨?_, ?_⟩
    · intro hw
      exact ⟨congrArg Statics.fsParams hw, .inl hv⟩
    · intro hsame
      rw [hsame.1]

/-- TecnicoFS initialised a second time, with the parameters it has. -/
theorem failed_init_small : NoTrace (.of small) (.of small) := by
  have hfails : (Statics.of small).tfsInit (some smallParams) .null = .ok (-1, .of small) := rfl
  apply (failed_init_iff hfails).mpr
  exact ⟨rfl, .inl (by simp [Statics.of, Pointers.of])⟩

/-- Without a block for the root `tfs_init` fails, and has left TecnicoFS initialised:
the next `tfs_init` fails whatever it asks for. -/
theorem failed_init_sticks : ¬ ∀ v w paramsPtr mallocs,
    0 < (paramsPtr.getD tfsDefaultParams).blockSize →
    Statics.tfsInit v paramsPtr mallocs = .ok (-1, w) → NoTrace v w := by
  intro h
  have hfails : ∃ w, Statics.start.tfsInit (some ⟨64, 0, 16, 1024⟩) (.of (tablesOf 0)) =
      .ok (-1, w) ∧ outcomes w [.init none (.of (tablesOf 0))] = [.ok ⟨-1, []⟩] := ⟨_, rfl, rfl⟩
  obtain ⟨w, hw, hlater⟩ := hfails
  have hsame := (h _ _ _ _ (by decide) hw).2 [.init none (.of (tablesOf 0))]
  have hfresh : Statics.start.tfsInit none (.of (tablesOf 0)) =
      .ok (0, .of (formatted tfsDefaultParams (tablesOf 0))) := by
    have hinit := @tfsInit_eq tfsDefaultParams (tablesOf 0) (by decide) (by decide)
    rw [tfsInit_fresh rfl (Pointers.tables_of _)]
    show (Fs.tfsInit (some tfsDefaultParams) (tablesOf 0)).map _ = _
    rw [hinit]
    rfl
  have hgood : outcomes .start [.init none (.of (tablesOf 0))] = [.ok ⟨0, []⟩] := by
    simp only [outcomes, Statics.call, hfresh, Except.map]
  rw [hlater, hgood] at hsame
  cases hsame

end MBroker.Fs
