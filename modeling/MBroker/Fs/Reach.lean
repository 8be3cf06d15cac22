import MBroker.Lib.Transition
import MBroker.Fs.Effects

/- The invariant over runs: `tfs_init` establishes it, every call that returns
   keeps it, so every reachable state has it. -/
namespace MBroker.Fs
open MBroker.Lib Function

/-! ## After `tfs_init` -/

/-- The root directory, empty, in inode 0 and block 0, and nothing else taken. -/
def formatted (params : TfsParams) (mem : Tables) : FsState :=
  { stateInit params mem with
    inodeTable := update mem.inodeTable 0 ⟨.tDirectory, params.blockSize, 0⟩
    freeinodeTs := update (stateInit params mem).freeinodeTs 0 .taken
    freeBlocks := update (stateInit params mem).freeBlocks 0 .taken
    fsData := emptyEntries mem.fsData 0 (params.blockSize / dirEntrySize) }

variable {params : TfsParams} {mem : Tables} {s t : FsState}

theorem firstIndex_zero {p : Nat → Bool} {n : Nat} (hn : 0 < n) (hp : p 0 = true) :
    firstIndex p n = some 0 :=
  firstIndex_eq_some.mpr ⟨hn, hp, by omega⟩

theorem inodeAlloc_init (hn : 0 < params.maxInodeCount) :
    inodeAlloc (stateInit params mem) = (0, (stateInit params mem).setFreeinode 0 .taken) := by
  have h0 : firstIndex (fun i => (stateInit params mem).freeinodeTs i = .free)
      (stateInit params mem).fsParams.maxInodeCount = some 0 :=
    firstIndex_zero hn (by simp [stateInit, hn])
  rw [inodeAlloc, h0]
  rfl

theorem inodeAlloc_init_zero (hn : params.maxInodeCount = 0) :
    inodeAlloc (stateInit params mem) = (-1, stateInit params mem) := by
  have h0 : firstIndex (fun i => (stateInit params mem).freeinodeTs i = .free)
      (stateInit params mem).fsParams.maxInodeCount = none :=
    firstIndex_eq_none.mpr fun i hi => by simp [stateInit, hn] at hi
  rw [inodeAlloc, h0]

/-- The root inode's directory block, in the state `inode_create` asks for it. -/
theorem dataBlockAlloc_init (hb : 0 < params.maxBlockCount) (hs : s.freeBlocks =
    (stateInit params mem).freeBlocks) (hp : s.fsParams = params) :
    dataBlockAlloc s = (0, s.setFreeBlock 0 .taken) := by
  have h0 : firstIndex (fun i => s.freeBlocks i = .free) s.fsParams.maxBlockCount = some 0 :=
    firstIndex_zero (by rwa [hp]) (by simp [hs, stateInit, hb])
  rw [dataBlockAlloc, h0]
  rfl

theorem dataBlockAlloc_init_zero (hb : params.maxBlockCount = 0) (hp : s.fsParams = params) :
    dataBlockAlloc s = (-1, s) := by
  have h0 : firstIndex (fun i => s.freeBlocks i = .free) s.fsParams.maxBlockCount = none :=
    firstIndex_eq_none.mpr fun i hi => by simp [hp, hb] at hi
  rw [dataBlockAlloc, h0]

theorem dataBlockGet_zero (hb : 0 < s.fsParams.maxBlockCount) : dataBlockGet s 0 = .ok 0 := by
  simp [dataBlockGet, alwaysAssert, validBlockNumber, hb, szMul, bind, Except.bind, pure,
    Except.pure]

/-- `tfs_init` succeeds where there is an inode and a block for the root. -/
theorem tfsInit_eq (hn : 0 < params.maxInodeCount) (hb : 0 < params.maxBlockCount) :
    tfsInit (some params) mem = .ok (0, formatted params mem) := by
  have hcreate : inodeCreate (stateInit params mem) .tDirectory =
      .ok (0, formatted params mem) := by
    rw [inodeCreate, inodeAlloc_init hn]
    dsimp only
    rw [if_neg (by decide), if_neg (by decide),
      @dataBlockAlloc_init params mem _ hb ?_ ?_]
    · dsimp only
      rw [if_neg (by decide), dataBlockGet_zero hb]
      simp [FsState.setInode, FsState.setFreeinode, FsState.setFreeBlock, FsState.maxDirEntries,
        formatted, stateInit, bind, Except.bind, pure, Except.pure]
    · rfl
    · rfl
  rw [tfsInit, Option.getD_some, hcreate]
  rfl

/-- `tfs_init` fails where there is not. -/
theorem tfsInit_fails (h : params.maxInodeCount = 0 ∨ params.maxBlockCount = 0) {r : Int}
    (hi : tfsInit (some params) mem = .ok (r, s)) : r = -1 := by
  rw [tfsInit, Option.getD_some] at hi
  have hroot : ∀ x : FsState, (inodeCreate (stateInit params mem) .tDirectory = .ok (-1, x)) →
      r = -1 := by
    intro x hx
    rw [hx] at hi
    cases hi
    rfl
  rcases Nat.eq_zero_or_pos params.maxInodeCount with hn | hn
  · apply hroot (stateInit params mem)
    rw [inodeCreate, inodeAlloc_init_zero hn]
    rfl
  · have hb : params.maxBlockCount = 0 := h.resolve_left (by omega)
    have hdel : ∀ x : FsState, x.fsParams = params → x.freeinodeTs 0 = .taken →
        (x.inodeTable 0).iSize = 0 → inodeDelete x 0 = .ok (x.setFreeinode 0 .free) := by
      intro x hp ht hz
      simp [inodeDelete, alwaysAssert, validInumber, hp, hn, ht, hz, bind, Except.bind, pure,
        Except.pure]
    apply hroot
    rw [inodeCreate, inodeAlloc_init hn]
    dsimp only
    rw [if_neg (by decide), if_neg (by decide), dataBlockAlloc_init_zero hb ?_]
    · dsimp only
      rw [if_pos rfl, hdel _ ?_ ?_ ?_]
      · rfl
      · rfl
      · simp [FsState.setInode, FsState.setFreeinode]
      · simp [FsState.setInode]
    · rfl

theorem Initial.formatted (h : Initial params s) :
    0 < params.maxInodeCount ∧ 0 < params.maxBlockCount ∧ ∃ mem, s = formatted params mem := by
  obtain ⟨mem, hi⟩ := h
  by_cases hc : params.maxInodeCount = 0 ∨ params.maxBlockCount = 0
  · have := tfsInit_fails hc hi
    omega
  · have hn : 0 < params.maxInodeCount := by omega
    have hb : 0 < params.maxBlockCount := by omega
    rw [tfsInit_eq hn hb] at hi
    cases hi
    exact ⟨hn, hb, mem, rfl⟩

/-! ## What holds of it -/

theorem slotInum_formatted {i : Nat} (hi : i < (formatted params mem).maxDirEntries) :
    slotInum (formatted params mem) i = -1 := by
  have hr : rootAddr (formatted params mem) = 0 := by
    simp [rootAddr, Fs.formatted, szMul]
  rw [slotInum, hr]
  exact entryInum_emptyEntries hi

theorem not_live_formatted (i : Nat) : ¬ Live (formatted params mem) i :=
  fun h => h.2 (slotInum_formatted h.1)

theorem takenInode_formatted (hn : 0 < params.maxInodeCount) {n : Nat} :
    TakenInode (formatted params mem) n ↔ n = 0 := by
  refine ⟨?_, ?_⟩
  · intro ⟨hlt, ht⟩
    by_contra h0
    have hlt' : n < params.maxInodeCount := hlt
    simp [formatted, stateInit, h0, hlt'] at ht
  · intro heq
    subst heq
    exact ⟨hn, by simp [formatted]⟩

theorem takenBlock_formatted (hb : 0 < params.maxBlockCount) {b : Nat} :
    TakenBlock (formatted params mem) b ↔ b = 0 := by
  refine ⟨?_, ?_⟩
  · intro ⟨hlt, ht⟩
    by_contra h0
    have hlt' : b < params.maxBlockCount := hlt
    simp [formatted, stateInit, h0, hlt'] at ht
  · intro heq
    subst heq
    exact ⟨hb, by simp [formatted]⟩

theorem not_takenHandle_formatted (h : Nat) : ¬ TakenHandle (formatted params mem) h := by
  intro ⟨hlt, ht⟩
  have hlt' : h < params.maxOpenFilesCount := hlt
  simp [formatted, stateInit, hlt'] at ht

theorem Inv.initial (hp : params.Sane) (h : Initial params s) : Inv s := by
  obtain ⟨hn, hb, mem, rfl⟩ := h.formatted
  have htk : ∀ n, TakenInode (Fs.formatted params mem) n → n = 0 :=
    fun n => (takenInode_formatted hn).mp
  refine ⟨⟨hp, hn, hb, by simp [Fs.formatted, stateInit], by simp [Fs.formatted],
    by simp [Fs.formatted]⟩, ?_, ?_, ?_⟩
  · -- no slot is live and no inode but the root is taken
    refine ⟨fun i hi => ?_, fun i hi => ?_, fun i j hi => ?_, fun i j hi => ?_,
      fun i j _ hj => ?_, fun n h0 hn' => ?_⟩
    · exact absurd hi (not_live_formatted i)
    · exact absurd hi (not_live_formatted i)
    · exact absurd hi (not_live_formatted i)
    · exact absurd hi (not_live_formatted i)
    · exact absurd hj (not_live_formatted j)
    · have := htk n hn'
      omega
  · refine ⟨fun n hn' _ => ⟨0, ?_, (takenBlock_formatted hb).mpr rfl⟩, fun n m hn' hm' _ _ _ => ?_,
      fun n hn' => ?_⟩
    · rw [htk n hn']
      simp [Fs.formatted]
    · rw [htk n hn', htk m hm']
    · rw [htk n hn']
      simp [Fs.formatted, stateInit]
  · refine ⟨fun g hg => ?_, fun g hg => ?_, fun g hg => ?_⟩
    · exact absurd hg (not_takenHandle_formatted g)
    · exact absurd hg (not_takenHandle_formatted g)
    · exact absurd hg (not_takenHandle_formatted g)

/-! ## After every call -/

/-- What a block number of a taken inode is good for. -/
theorem Inv.inRange (hI : Inv s) {n : Nat} (hn0 : 0 < n) (hn : TakenInode s n) : InRange s n := by
  refine ⟨hI.blocks.size n hn, fun hsz => ?_⟩
  obtain ⟨b, hb, hb0, hbt⟩ := hI.file_block hn0 hn hsz
  exact ⟨b, hb, hb0, hbt.1⟩

theorem Inv.addToOpenFileTable (hI : Inv s) {n offset : Nat} (hn0 : 0 < n) (hn : TakenInode s n)
    (ho : offset < 2 ^ 63) : Inv (addToOpenFileTable s n offset).2 := by
  cases hh : freeHandle s with
  | none => rwa [addToOpenFileTable_of_none hh]
  | some h =>
    rw [addToOpenFileTable_of_some hh]
    exact hI.openHandle hn0 hn.1 (hI.inRange hn0 hn) ho

theorem Inv.cut (hI : Inv s) (mode : BitVec 32) {n : Nat} (hn0 : 0 < n) (hn : TakenInode s n) :
    Inv (s.cut mode n) ∧ TakenInode (s.cut mode n) n := by
  unfold FsState.cut
  split
  · next h => exact ⟨hI.truncate hn0 hn h.2, hn⟩
  · exact ⟨hI, hn⟩

theorem addToOpenFileTable_fsParams (s : FsState) (n offset : Nat) :
    (Fs.addToOpenFileTable s n offset).2.fsParams = s.fsParams :=
  addToOpenFileTable_frame (f := fun s => s.fsParams) fun _ => rfl

theorem cut_fsParams (s : FsState) (mode : BitVec 32) (n : Nat) :
    (s.cut mode n).fsParams = s.fsParams := by
  unfold FsState.cut
  split <;> rfl

/-- The parameters never change. -/
theorem Effect.fsParams {op : Op} {r : Ret} (h : Effect s op r t) : t.fsParams = s.fsParams := by
  cases h with
  | openFound => rw [addToOpenFileTable_fsParams, cut_fsParams]
  | openCreated =>
    rw [addToOpenFileTable_fsParams]
    rfl
  | _ => rfl

theorem Inv.effect (hI : Inv s) {op : Op} {r : Ret} (h : Effect s op r t) : Inv t := by
  cases h with
  | openInvalid | openMissing | openNoInode | closeBad | readBad | readNone | writeBad | writeNone
  | writeNoSpace | unlinkInvalid | unlinkMissing => exact hI
  | @openFound p mode i n hv hb =>
    obtain ⟨hn0, hn, -⟩ := hI.live_inode hb.live hb.inum
    obtain ⟨hcut, hn'⟩ := hI.cut mode hn0 hn
    apply hcut.addToOpenFileTable hn0 hn'
    have hsz := hcut.blocks.size n hn'
    have hbs := hcut.base.blockSize_lt
    unfold FsState.openOffset
    split <;> omega
  | openNoEntry hv hm hc hn he =>
    exact hI.clearInode (hI.base.freeInode_pos hn) (freeInode_some hn).2
  | @openCreated p mode n i hv hm hc hn hl he =>
    have hn0 := hI.base.freeInode_pos hn
    obtain ⟨hlt, hfree⟩ := freeInode_some hn
    obtain ⟨hi, hempty, hfirst⟩ := emptySlot_some he
    have hbind := hI.bindName hn0 hlt hfree hi hempty hfirst ⟨validPathname_tail hv, hl⟩ hm
    exact hbind.addToOpenFileTable hn0 ⟨hlt, by simp⟩ (by decide)
  | closeDone ht => exact hI.closeHandle _
  | readSome ht hk hk0 hb hbc ha =>
    have harea := hI.base.areaSize
    have hsane := hI.base.sane.area
    exact hI.advance (by omega)
  | @writeFirst h k b buffer toWrite ht hk hk0 hz hf hin =>
    obtain ⟨-, hn0, -⟩ := hI.handles.inode h ht
    obtain ⟨hbc, hfree⟩ := freeBlock_some hf
    have hown := hI.giveBlock_owner (n := handleInode s h) hbc hfree
    have hsz : (s.inodeTable (handleInode s h)).iSize ≤ s.fsParams.blockSize := by omega
    exact (hI.giveBlock hn0 hz).put hn0 hown.block hown.pos hbc (by simpa using hsz) hin
      fun _ => hown
  | @writeOver h k b buffer toWrite ht hk hk0 hz hb hb0 hbc hin =>
    obtain ⟨-, hn0, -⟩ := hI.handles.inode h ht
    refine hI.put hn0 hb hb0 hbc (hI.handles.range h ht).size hin fun htk => ?_
    obtain ⟨c, hown⟩ := hI.owner hn0 htk hz
    have hcb : c = b := by
      have := hown.block
      rw [hb] at this
      omega
    rwa [hcb] at hown
  | unlinkDone hv hb => exact hI.unbind hb.live hb.inum

theorem Inv.step (hI : Inv s) {op : Op} (h : Steps s op t) : Inv t := by
  obtain ⟨r, hr⟩ := h
  exact hI.effect (step_effect hI hr)

/-- Every reachable state has the invariant. -/
theorem inv_of_reachable (hp : params.Sane) (h : Reachable (Initial params) Steps s) : Inv s :=
  h.invariant (I := Inv) (fun _ => Inv.initial hp) fun _ _ _ hI => hI.step

theorem tfsDefaultParams_sane : tfsDefaultParams.Sane := by
  constructor <;> decide

/-- No call changes the parameters. -/
theorem fsParams_of_reachable (hp : params.Sane) (h : Reachable (Initial params) Steps s) :
    s.fsParams = params := by
  induction h with
  | start hi =>
    obtain ⟨-, -, mem, rfl⟩ := hi.formatted
    rfl
  | step hr hst ih =>
    obtain ⟨r, hstep⟩ := hst
    exact (step_effect (inv_of_reachable hp hr) hstep).fsParams.trans ih

theorem reachable_after (h : Reachable (Initial params) Steps s) (ops : List Op) :
    Reachable (Initial params) Steps (after s ops) := by
  induction ops generalizing s with
  | nil => exact h
  | cons op ops ih =>
    rw [after]
    split
    · next r t hs => exact ih (h.step ⟨r, hs⟩)
    · exact h

theorem run_runOf (s : FsState) (ops : List Op) : Run Steps s (runOf s ops) := by
  induction ops generalizing s with
  | nil => trivial
  | cons op ops ih =>
    rw [runOf]
    split
    · next r t hs => exact ⟨⟨r, hs⟩, ih t⟩
    · trivial

/-! ## A small volume -/

/-- Three files of up to 100 bytes, two of them with data, and four handles. -/
def smallParams : TfsParams := ⟨4, 3, 4, 100⟩

/-- Fresh tables that hold one byte value throughout the data area. -/
def tablesOf (byte : UInt8) : Tables where
  inodeTable := fun _ => ⟨.tFile, 0, 0⟩
  freeinodeTs := fun _ => .free
  fsData := fun _ => byte
  freeBlocks := fun _ => .free
  openFileTable := fun _ => ⟨0, 0⟩
  freeOpenFileEntries := fun _ => .free

/-- The small volume after `tfs_init`. -/
def small : FsState := formatted smallParams (tablesOf 65)

theorem smallParams_sane : smallParams.Sane := by
  refine ⟨?_, ?_, ?_, ?_, ?_⟩ <;> decide

/-- The names `/a` and `/b`. -/
def pathA : CString := ⟨[slash, 97], by decide⟩
def pathB : CString := ⟨[slash, 98], by decide⟩

theorem initial_small : Initial smallParams small :=
  ⟨tablesOf 65, tfsInit_eq (by decide) (by decide)⟩

theorem reachable_small : Reachable (Initial smallParams) Steps small := .start initial_small

/-! ## The broker's volume -/

/-- The volume of `tfs_default_params` after `tfs_init`. -/
def volume : FsState := formatted tfsDefaultParams (tablesOf 0)

/-- The same with the empty box `/b`. -/
def boxB : FsState := after volume [.open (some pathB) tfsOCreat, .close 0]

theorem reachable_volume : Reachable (Initial tfsDefaultParams) Steps volume :=
  .start ⟨tablesOf 0, tfsInit_eq (by decide) (by decide)⟩

theorem reachable_boxB : Reachable (Initial tfsDefaultParams) Steps boxB :=
  reachable_after reachable_volume _

end MBroker.Fs
