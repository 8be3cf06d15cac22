import MBroker.Fs.Files

/- Which file is which. The code knows a file by its inode number, and inode
   numbers and blocks are reused; a ghost beside the state remembers, for each
   inode, the call that made its file, for each handle, the file and the path it
   was opened on, and for each block, the file it was last given to. The ghost
   watches the allocation tables: an inode, a handle or a block that was free
   before a call and is taken after it is new. -/
namespace MBroker.Fs
open MBroker.Lib Function

structure Ghost where
  /-- How many calls there were. -/
  clock : Nat
  /-- The path each call was given. -/
  calls : Nat → Option CString
  /-- The file on an inode: the number of the call that made it, 0 for none. -/
  fileId : Nat → Nat
  /-- The file a handle was opened on. -/
  openId : Nat → Nat
  /-- The path a handle was opened on. -/
  openPath : Nat → Option CString
  /-- The file a block was last given to. -/
  blockFile : Nat → Nat

def Ghost.start : Ghost where
  clock := 0
  calls := fun _ => none
  fileId := fun _ => 0
  openId := fun _ => 0
  openPath := fun _ => none
  blockFile := fun _ => 0

/-- The path of an open or an unlink. -/
def Op.path : Op → Option CString
  | .open path _ => path
  | .unlink path => path
  | _ => none

/-- The entry a call's handle stands for. -/
def Op.handle : Op → Nat
  | .close fhandle | .read fhandle _ | .write fhandle _ _ => fhandle.toNat
  | _ => 0

/-- An entry free in one table and taken in the other. -/
def becameTaken (before after : Nat → AllocationState) (i : Nat) : Prop :=
  before i = .free ∧ after i = .taken

instance (before after : Nat → AllocationState) (i : Nat) :
    Decidable (becameTaken before after i) :=
  inferInstanceAs (Decidable (_ ∧ _))

/-- The ghost after a call. -/
def Ghost.next (g : Ghost) (s : FsState) (op : Op) (t : FsState) : Ghost :=
  let fileId := fun n =>
    if becameTaken s.freeinodeTs t.freeinodeTs n then g.clock + 1 else g.fileId n
  { clock := g.clock + 1
    calls := update g.calls (g.clock + 1) op.path
    fileId
    openId := fun h =>
      if becameTaken s.freeOpenFileEntries t.freeOpenFileEntries h then fileId (handleInode t h)
      else g.openId h
    openPath := fun h =>
      if becameTaken s.freeOpenFileEntries t.freeOpenFileEntries h then op.path else g.openPath h
    blockFile := fun b =>
      if becameTaken s.freeBlocks t.freeBlocks b then fileId (handleInode s op.handle)
      else g.blockFile b }

/-- A call that returns, watched. -/
def Watched (x : FsState × Ghost) (op : Op) (y : FsState × Ghost) : Prop :=
  Steps x.1 op y.1 ∧ y.2 = x.2.next x.1 op y.1

/-- A run with the ghost of each of its states. -/
def watch (s : FsState) (g : Ghost) : List (Op × FsState) → List (Op × (FsState × Ghost))
  | [] => []
  | (op, t) :: ρ => (op, (t, g.next s op t)) :: watch t (g.next s op t) ρ

theorem run_watch {s : FsState} {g : Ghost} {ρ : List (Op × FsState)} (h : Run Steps s ρ) :
    Run Watched (s, g) (watch s g ρ) := by
  induction ρ generalizing s g with
  | nil => trivial
  | cons x ρ ih => exact ⟨⟨h.1, rfl⟩, ih h.2⟩

/-- The handle `h` is on the file it was opened on: its inode was not given to
another file since. -/
def OnOwnFile (g : Ghost) (s : FsState) (h : Nat) : Prop := g.fileId (handleInode s h) = g.openId h

instance (g : Ghost) (s : FsState) (h : Nat) : Decidable (OnOwnFile g s h) :=
  inferInstanceAs (Decidable (_ = _))

/-! ## What the ghost knows in every state -/

structure GhostInv (s : FsState) (g : Ghost) : Prop where
  fileId_le : ∀ n, g.fileId n ≤ g.clock
  blockFile_le : ∀ b, g.blockFile b ≤ g.clock
  fileId_inj : ∀ n m, 0 < g.fileId n → g.fileId n = g.fileId m → n = m
  inode : ∀ n, 0 < n → TakenInode s n → 0 < g.fileId n
  handle : ∀ h, TakenHandle s h → 0 < g.fileId (handleInode s h)

variable {s t : FsState} {g : Ghost} {op : Op} {r : Ret}

theorem addToOpenFileTable_freeinodeTs (n offset : Nat) :
    (addToOpenFileTable s n offset).2.freeinodeTs = s.freeinodeTs :=
  addToOpenFileTable_frame (f := fun s => s.freeinodeTs) fun _ => rfl

theorem not_becameTaken {table : Nat → AllocationState} {i : Nat} :
    ¬ becameTaken table table i := by
  intro h
  obtain ⟨hf, ht⟩ := h
  rw [hf] at ht
  cases ht

/-- A call makes one inode at most taken. -/
theorem Effect.becameTaken_inode (he : Effect s op r t) :
    ∃ n, ∀ m, becameTaken s.freeinodeTs t.freeinodeTs m → m = n := by
  have hsame : t.freeinodeTs = s.freeinodeTs →
      ∃ n, ∀ m, becameTaken s.freeinodeTs t.freeinodeTs m → m = n := by
    intro h
    rw [h]
    exact ⟨0, fun m hm => absurd hm not_becameTaken⟩
  cases he with
  | openFound =>
    apply hsame
    rw [addToOpenFileTable_freeinodeTs]
    unfold FsState.cut
    split <;> rfl
  | @openCreated p mode n =>
    refine ⟨n, ?_⟩
    intro m htaken
    obtain ⟨hf, ht⟩ := htaken
    by_contra hmn
    rw [addToOpenFileTable_freeinodeTs, FsState.bindName_freeinodeTs, update_of_ne hmn, hf] at ht
    cases ht
  | @unlinkDone p i n =>
    refine ⟨n, ?_⟩
    intro m htaken
    obtain ⟨hf, ht⟩ := htaken
    by_contra hmn
    rw [FsState.unbind_freeinodeTs, update_of_ne hmn, hf] at ht
    cases ht
  | _ => exact hsame rfl

/-- An open handle was open before on the same inode, or was opened on a file. -/
theorem Effect.takenHandle (hI : Inv s) (he : Effect s op r t) {h : Nat} (ht : TakenHandle t h) :
    TakenHandle s h ∧ handleInode t h = handleInode s h ∨
      0 < handleInode t h ∧ TakenInode t (handleInode t h) := by
  -- the table after an open
  have hopen : ∀ {u : FsState} {n offset : Nat}, 0 < n → TakenInode u n →
      u.openFileTable = s.openFileTable → u.freeOpenFileEntries = s.freeOpenFileEntries →
      u.fsParams = s.fsParams → TakenHandle (addToOpenFileTable u n offset).2 h →
      TakenHandle s h ∧ handleInode (addToOpenFileTable u n offset).2 h = handleInode s h ∨
        0 < handleInode (addToOpenFileTable u n offset).2 h ∧
          TakenInode (addToOpenFileTable u n offset).2
            (handleInode (addToOpenFileTable u n offset).2 h) := by
    intro u n offset hn0 hn htab hent hpar hth
    cases hf : freeHandle u with
    | none =>
      rw [addToOpenFileTable_of_none hf] at hth ⊢
      left
      unfold TakenHandle handleInode at *
      rw [hent, hpar] at hth
      rw [htab]
      exact ⟨hth, rfl⟩
    | some k =>
      rw [addToOpenFileTable_of_some hf] at hth ⊢
      by_cases hhk : h = k
      · right
        subst hhk
        have hin : handleInode (u.openHandle h n offset) h = n := by simp [handleInode]
        rw [hin]
        exact ⟨hn0, hn⟩
      · left
        unfold TakenHandle handleInode at *
        simp only [FsState.openHandle_freeOpenFileEntries, FsState.openHandle_openFileTable,
          FsState.openHandle_fsParams, update_of_ne hhk, hent, htab, hpar] at hth ⊢
        exact ⟨hth, trivial⟩
  cases he with
  | openFound hv hb =>
    obtain ⟨hn0, hn, -⟩ := hI.live_inode hb.live hb.inum
    exact hopen hn0 (hI.cut _ hn0 hn).2 (cut_openFileTable ..) (cut_freeOpenFileEntries ..)
      (cut_fsParams ..) ht
  | openCreated hv hm hc hn hl he =>
    exact hopen (hI.base.freeInode_pos hn) ⟨(freeInode_some hn).1, by simp⟩ rfl rfl rfl ht
  | @closeDone k hk =>
    left
    have h2 : update s.freeOpenFileEntries k .free h = .taken := ht.2
    by_cases hhk : h = k
    · rw [hhk, update_self] at h2
      cases h2
    · exact ⟨⟨ht.1, by rwa [update_of_ne hhk] at h2⟩, rfl⟩
  | readSome | writeFirst | writeOver =>
    refine .inl ⟨ht, ?_⟩
    unfold handleInode
    simp only [FsState.advance_openFileTable, FsState.put_openFileTable,
      FsState.giveBlock_openFileTable, update_apply]
    split <;> simp_all
  | _ => exact .inl ⟨ht, rfl⟩

/-- The file on an inode: a new one, or the one it was. -/
theorem Ghost.next_fileId (g : Ghost) (s : FsState) (op : Op) (t : FsState) (n : Nat) :
    (g.next s op t).fileId n =
      if becameTaken s.freeinodeTs t.freeinodeTs n then g.clock + 1 else g.fileId n := rfl

theorem Ghost.next_fileId_pos {n : Nat} (h : 0 < g.fileId n) (s : FsState) (op : Op)
    (t : FsState) : 0 < (g.next s op t).fileId n := by
  rw [Ghost.next_fileId]
  split
  · omega
  · exact h

theorem GhostInv.effect (hI : Inv s) (hG : GhostInv s g) (he : Effect s op r t) :
    GhostInv t (g.next s op t) := by
  have hid : ∀ n, (g.next s op t).fileId n ≤ g.clock + 1 := by
    intro n
    rw [Ghost.next_fileId]
    split
    · exact le_rfl
    · exact Nat.le_succ_of_le (hG.fileId_le n)
  have hinode : ∀ n, 0 < n → TakenInode t n → 0 < (g.next s op t).fileId n := by
    intro n hn0 hn
    rw [Ghost.next_fileId]
    split
    · omega
    · next hnew =>
      refine hG.inode n hn0 ⟨?_, ?_⟩
      · rw [← he.fsParams]
        exact hn.1
      · cases ha : s.freeinodeTs n with
        | taken => rfl
        | free => exact absurd ⟨ha, hn.2⟩ hnew
  refine ⟨hid, fun b => ?_, fun n m hn0 hnm => ?_, hinode, fun h ht => ?_⟩
  · show (if becameTaken s.freeBlocks t.freeBlocks b
      then (g.next s op t).fileId (handleInode s op.handle) else g.blockFile b) ≤ g.clock + 1
    split
    · exact hid _
    · exact Nat.le_succ_of_le (hG.blockFile_le b)
  · -- a new file's number is no other's
    obtain ⟨c, hc⟩ := he.becameTaken_inode
    have hlen := hG.fileId_le n
    have hlem := hG.fileId_le m
    rw [Ghost.next_fileId, Ghost.next_fileId] at hnm
    rw [Ghost.next_fileId] at hn0
    split at hnm <;> split at hnm
    · next h1 h2 => rw [hc n h1, hc m h2]
    · omega
    · omega
    · next h1 h2 =>
      rw [if_neg h1] at hn0
      exact hG.fileId_inj n m hn0 hnm
  · rcases he.takenHandle hI ht with ⟨hs, hin⟩ | ⟨hn0, hn⟩
    · rw [hin]
      exact Ghost.next_fileId_pos (hG.handle h hs) s op t
    · exact hinode _ hn0 hn

theorem GhostInv.initial {params : TfsParams} (h : Initial params s) : GhostInv s Ghost.start := by
  obtain ⟨hn, hb, mem, rfl⟩ := h.formatted
  refine ⟨fun n => le_rfl, fun b => le_rfl, fun n m h0 => absurd h0 (Nat.lt_irrefl 0),
    fun n hn0 htk => ?_, fun h ht => absurd ht (not_takenHandle_formatted h)⟩
  have := (takenInode_formatted hn).mp htk
  omega

end MBroker.Fs
