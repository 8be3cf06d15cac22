import MBroker.Fs.Creations

/- What an open that returns -1 has done to the files. An open for a file that
   exists truncates it before it looks for a handle, and the search for a handle
   is the one step that can still fail: with no handle free the call fails and
   the file's bytes are gone. Every other failure comes before any change, or is
   undone, or leaves only a file that was not there before. -/
namespace MBroker.Fs
open MBroker.Lib Function

/-- Every file of `s` is in `t`, with its size, its bytes and its block. -/
structure FilesKept (s t : FsState) : Prop where
  files : ∀ x n, lookup s x = some n → lookup t x = some n ∧
    (t.inodeTable n).iSize = (s.inodeTable n).iSize ∧ contents t n = contents s n
  blocks : ∀ x n b, lookup s x = some n → Owns s n b → TakenBlock t b

/-- The call is to empty a file that holds data, and there is no handle for it. -/
def EmptiesInVain (s : FsState) (path : Option CString) (mode : BitVec 32) : Prop :=
  hasFlag mode tfsOTrunc = true ∧ freeHandle s = none ∧
    ∃ i n, Leads s path i n ∧ 0 < (s.inodeTable n).iSize

variable {s t : FsState}

/-- A taken inode's block is taken. -/
theorem Inv.owned_taken (hI : Inv s) {n b : Nat} (ho : Owns s n b) : TakenBlock s b := by
  obtain ⟨c, hc, hct⟩ := hI.blocks.owns n ho.taken ho.size
  have hcb : c = b := by
    have hb := ho.block
    rw [hc] at hb
    omega
  rwa [← hcb]

theorem FilesKept.refl (hI : Inv s) : FilesKept s s :=
  ⟨fun _ _ hl => ⟨hl, rfl, rfl⟩, fun _ _ _ _ ho => hI.owned_taken ho⟩

theorem RolledBack.filesKept (hI : Inv s) (hr : RolledBack s t) : FilesKept s t := by
  refine ⟨?_, ?_⟩
  · intro x n hl
    have hinode := hr.inodes n (hI.lookup_taken hl).2
    refine ⟨?_, by rw [hinode], ?_⟩
    · rw [(hr.sameSlots hI).lookup, hl]
    · apply contents_congr hr.params (by rw [hinode])
      exact fun _ => ⟨by rw [hinode], fun i _ => by rw [hr.data]⟩
  · intro x n b _ ho
    rw [TakenBlock, hr.params, hr.blocks]
    exact hI.owned_taken ho

/-- The new file is beside the others. -/
theorem FilesKept.bindName (hI : Inv s) {name : CString} {i n : Nat} (hn : freeInode s = some n)
    (hi : emptySlot s = some i) (hl : 1 ≤ name.bytes.length ∧ name.bytes.length ≤ 39)
    (hm : Missing s name.bytes) : FilesKept s (s.bindName i n name) := by
  have hc := Created.bindName hI hn hi hl
  obtain ⟨hlt, hfree⟩ := freeInode_some hn
  obtain ⟨hid, hempty, hfirst⟩ := emptySlot_some hi
  have hbind := hI.bindName (hI.base.freeInode_pos hn) hlt hfree hid hempty hfirst hl hm
  refine ⟨?_, fun x m b _ ho => hI.owned_taken ho⟩
  intro x m hx
  obtain ⟨hm0, hmt⟩ := hI.lookup_taken hx
  obtain ⟨hinode, hbytes⟩ := hc.files m hm0 hmt
  refine ⟨?_, by rw [hinode], hbytes⟩
  rw [lookup_bindName hI hbind hn hi hl.2, if_neg, hx]
  intro heq
  rw [heq, (lookup_eq_none hI.dir).mpr hm] at hx
  cases hx

/-- No handle was free when an open that got as far as the table fails. -/
theorem add_eq_neg_one {n offset : Nat} (h : addToOpenFileTable s n offset = (-1, t)) :
    freeHandle s = none ∧ t = s := by
  cases hh : freeHandle s with
  | none =>
    rw [addToOpenFileTable_of_none hh] at h
    cases h
    exact ⟨rfl, rfl⟩
  | some g =>
    rw [addToOpenFileTable_of_some hh] at h
    have := congrArg Prod.fst h
    simp only at this
    omega

theorem cut_freeHandle (s : FsState) (mode : BitVec 32) (n : Nat) :
    freeHandle (s.cut mode n) = freeHandle s := by
  unfold freeHandle
  rw [cut_fsParams, cut_freeOpenFileEntries]

theorem Inv.filesKept_of_fails (hI : Inv s) {path : Option CString} {mode : BitVec 32}
    (hne : ¬ EmptiesInVain s path mode) (h : tfsOpen s path mode = .ok (-1, t)) :
    FilesKept s t := by
  cases path with
  | none =>
    cases h
    exact .refl hI
  | some p =>
    by_cases hv : validPathname p = true
    swap
    · rw [tfsOpen_invalid (invalid_some hv)] at h
      cases h
      exact .refl hI
    rcases hI.dir.missing_or_binds p.tail.bytes with hm | ⟨i, n, hb⟩
    · cases hc : hasFlag mode tfsOCreat
      · rw [tfsOpen_missing hI hv hm hc] at h
        cases h
        exact .refl hI
      · obtain ⟨r, u, hopen, hexact⟩ := hI.creationExact (.of_valid hv) hm hc
        rw [h] at hopen
        cases hopen
        by_cases hroom : HasRoom s p.tail.bytes
        · -- the file was made, and only its handle is missing
          obtain ⟨h1, h39, hn, hi⟩ := hI.hasRoom_iff.mp hroom
          obtain ⟨n, hn⟩ := Option.ne_none_iff_exists'.mp hn
          obtain ⟨i, hi⟩ := Option.ne_none_iff_exists'.mp hi
          rw [tfsOpen_created hI hv hm hc hn h39 hi, Except.ok.injEq] at h
          obtain ⟨-, rfl⟩ := add_eq_neg_one h
          exact .bindName hI hn hi ⟨h1, h39⟩ hm
        · exact (hexact.refused hroom).2.filesKept hI
    · rw [tfsOpen_found hI hv hb, Except.ok.injEq] at h
      obtain ⟨hnone, rfl⟩ := add_eq_neg_one h
      rw [cut_freeHandle] at hnone
      have hcut : s.cut mode n = s := by
        unfold FsState.cut
        rw [if_neg]
        intro hc
        exact hne ⟨hc.1, hnone, i, n, (leads_iff hI).mpr ⟨hv, hb⟩, hc.2⟩
      rw [hcut]
      exact .refl hI

/-- An open that fails keeps every file as it was, exactly when it is not to empty a
file that holds data with no handle left to open it on. -/
theorem failed_open_iff {params : TfsParams} (hp : params.Sane)
    (h : Reachable (Initial params) Steps s) (path : Option CString) (mode : BitVec 32) :
    (∀ t, tfsOpen s path mode = .ok (-1, t) → FilesKept s t) ↔ ¬ EmptiesInVain s path mode := by
  have hI := inv_of_reachable hp h
  refine ⟨?_, fun hne t => hI.filesKept_of_fails hne⟩
  intro hkept hvain
  obtain ⟨htrunc, hnone, i, n, hl, hsz⟩ := hvain
  cases path with
  | none => exact not_leads_null hl
  | some p =>
    obtain ⟨hv, hb⟩ := (leads_iff hI).mp hl
    have hopen : tfsOpen s (some p) mode = _ := tfsOpen_found hI hv hb
    rw [addToOpenFileTable_of_none (by rw [cut_freeHandle, hnone])] at hopen
    have hsame := ((hkept _ hopen).files _ n (lookup_of_binds hI.dir hb)).2.1
    rw [cut_iSize_trunc s n htrunc] at hsame
    omega

/-- The file `/a` with 5 bytes, and all four handles open on it. -/
def crowded : FsState := after small
  [.open (some pathA) tfsOCreat, .write 0 (fun _ => 7) 5, .open (some pathA) 0,
    .open (some pathA) 0, .open (some pathA) 0]

/-- An open of it for appending fails and keeps it. -/
theorem failed_open_crowded :
    (∃ t, tfsOpen crowded (some pathA) tfsOAppend = .ok (-1, t)) ∧
      ∀ t, tfsOpen crowded (some pathA) tfsOAppend = .ok (-1, t) → FilesKept crowded t := by
  refine ⟨⟨_, rfl⟩, ?_⟩
  apply (failed_open_iff smallParams_sane (reachable_after reachable_small _) _ _).mpr
  intro h
  have htrunc := h.1
  revert htrunc
  decide

/-- An open of it with TFS_O_TRUNC fails and has emptied it. -/
theorem failed_open_empties : ¬ ∀ params s path mode t, params.Sane →
    Reachable (Initial params) Steps s → tfsOpen s path mode = .ok (-1, t) → FilesKept s t := by
  intro h
  have hopen : ∃ t, tfsOpen crowded (some pathA) tfsOTrunc = .ok (-1, t) ∧
      (t.inodeTable 1).iSize = 0 := ⟨_, rfl, by decide +kernel⟩
  obtain ⟨t, hopen, hsz⟩ := hopen
  have hkept := h smallParams crowded (some pathA) tfsOTrunc t smallParams_sane
    (reachable_after reachable_small _) hopen
  have hsame := (hkept.files [97] 1 (by decide +kernel)).2.1
  rw [hsz] at hsame
  revert hsame
  decide +kernel

end MBroker.Fs
