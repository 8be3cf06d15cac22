import MBroker.Fs.Names
import MBroker.Fs.Ownership

/- `tfs_unlink` deletes the inode first and clears the directory entry second,
   and the two loops over the directory do not ask the same question:
   `find_in_dir` skips the empty slots, `clear_dir_entry` compares the names of
   all of them. A slot's name is uninitialised until the slot is first used, so
   the two agree only because of the order slots are used in: a slot that is
   empty before a live one was used once, and its name was zeroed (`DirInv.gap`).
   Hence an unlink deletes one file whole, or nothing. -/
namespace MBroker.Fs
open MBroker.Lib Function

/-- `path` is `/` followed by `x`. -/
def PathTo (path : Option CString) (x : List UInt8) : Prop :=
  ∃ p : CString, path = some p ∧ p.bytes = slash :: x

/-- `path` is `/` followed by the name that slot `i` binds to inode `n`. -/
def Leads (s : FsState) (path : Option CString) (i n : Nat) : Prop :=
  ∃ x, PathTo path x ∧ Binds s i x n

/-- The file in slot `i`, inode `n`, is gone, and nothing else has changed. -/
structure Deleted (s t : FsState) (i n : Nat) : Prop where
  params : t.fsParams = s.fsParams
  empty : slotInum t i = -1 ∧ slotName t i = []
  /-- Every byte outside the slot is as before, in the directory and in every block. -/
  bytes : ∀ x, x < dName (rootAddr s) i ∨ dName (rootAddr s) i + dirEntrySize ≤ x →
    t.fsData x = s.fsData x
  slots : ∀ j, j ≠ i → slotInum t j = slotInum s j ∧ slotName t j = slotName s j
  taken : TakenInode s n
  freed : t.freeinodeTs = update s.freeinodeTs n .free
  inodes : t.inodeTable = s.inodeTable
  block : 0 < (s.inodeTable n).iSize → ∃ b : Nat, (s.inodeTable n).iDataBlock = b ∧
    TakenBlock s b ∧ t.freeBlocks = update s.freeBlocks b .free
  noBlock : (s.inodeTable n).iSize = 0 → t.freeBlocks = s.freeBlocks
  handles : t.openFileTable = s.openFileTable ∧ t.freeOpenFileEntries = s.freeOpenFileEntries

structure UnlinkExact (s : FsState) : Prop where
  bound : ∀ target i n, Leads s target i n →
    ∃ t, tfsUnlink s target = .ok (0, t) ∧ Deleted s t i n
  unbound : ∀ target, (∀ i n, ¬ Leads s target i n) → tfsUnlink s target = .ok (-1, s)
  /-- What `find_in_dir` found, `clear_dir_entry` clears once the inode is deleted. -/
  cleared : ∀ (name : CString) i, SlotMatches s name i →
    findInDir s 0 name = .ok (slotInum s i) ∧ ∃ u, inodeDelete s (slotInum s i) = .ok u ∧
      clearDirEntry u 0 name = .ok (0, { u with fsData := clearEntry u.fsData (rootAddr u) i })

variable {s : FsState}

/-! ## Paths -/

theorem PathTo.tail {p : CString} {x : List UInt8} (h : PathTo (some p) x) : p.tail.bytes = x := by
  obtain ⟨q, hq, hx⟩ := h
  cases hq
  show p.bytes.tail = x
  rw [hx]
  rfl

theorem PathTo.valid {p : CString} {x : List UInt8} (h : PathTo (some p) x) (hx : 1 ≤ x.length) :
    validPathname p = true := by
  obtain ⟨q, hq, hb⟩ := h
  cases hq
  simp only [validPathname, hb, List.length_cons, List.head?_cons, Bool.and_eq_true,
    decide_eq_true_eq]
  exact ⟨by omega, trivial⟩

theorem PathTo.of_valid {p : CString} (hv : validPathname p = true) :
    PathTo (some p) p.tail.bytes := by
  simp only [validPathname, Bool.and_eq_true, decide_eq_true_eq] at hv
  exact ⟨p, rfl, (List.cons_head?_tail hv.2).symm⟩

theorem leads_iff (hI : Inv s) {p : CString} {i n : Nat} :
    Leads s (some p) i n ↔ validPathname p = true ∧ Binds s i p.tail.bytes n := by
  refine ⟨?_, ?_⟩
  · intro h
    obtain ⟨x, hx, hb⟩ := h
    have hlen := hI.dir.name i hb.live
    rw [hb.name] at hlen
    rw [hx.tail]
    exact ⟨hx.valid hlen.1, hb⟩
  · intro h
    obtain ⟨hv, hb⟩ := h
    exact ⟨_, .of_valid hv, hb⟩

theorem not_leads_null {i n : Nat} : ¬ Leads s none i n := by
  intro h
  obtain ⟨x, ⟨p, hp, -⟩, -⟩ := h
  cases hp

/-! ## Deletion -/

theorem Deleted.unbind (hI : Inv s) {x : List UInt8} {i n : Nat} (hb : Binds s i x n) :
    Deleted s (s.unbind i n) i n := by
  obtain ⟨hn0, hn, -⟩ := hI.live_inode hb.live hb.inum
  have hinum := slotInum_unbind (n := n) hI.base i
  have hname := slotName_unbind (n := n) hI.base i
  refine ⟨rfl, ⟨?_, ?_⟩, ?_, ?_, hn, rfl, rfl, ?_, ?_, rfl, rfl⟩
  · rw [hinum, if_pos rfl]
  · rw [hname, if_pos rfl]
  · intro y hy
    rw [hI.base.rootAddr] at hy
    exact clearEntry_out hy
  · intro j hj
    rw [hinum, hname, if_neg hj, if_neg hj]
    exact ⟨rfl, rfl⟩
  · intro hsz
    obtain ⟨b, hib, -, hbt⟩ := hI.file_block hn0 hn hsz
    refine ⟨b, hib, hbt, ?_⟩
    rw [FsState.unbind, if_pos hsz, hib, Int.toNat_natCast]
  · intro hsz
    rw [FsState.unbind, if_neg (by omega)]

/-- The slot `find_in_dir` stops at binds the name. -/
theorem SlotMatches.binds (hI : Inv s) {name : CString} {i : Nat} (h : SlotMatches s name i) :
    ∃ n, Binds s i name.bytes n := by
  obtain ⟨n, hn, -⟩ := hI.dir.file i h.1
  exact ⟨n, h.1, (strnEq_entryName (hI.dir.name i h.1).2).mp h.2, hn⟩

theorem Inv.clears_found (hI : Inv s) {name : CString} {i : Nat} (h : SlotMatches s name i) :
    findInDir s 0 name = .ok (slotInum s i) ∧ ∃ u, inodeDelete s (slotInum s i) = .ok u ∧
      clearDirEntry u 0 name =
        .ok (0, { u with fsData := clearEntry u.fsData (rootAddr u) i }) := by
  obtain ⟨n, hb⟩ := h.binds hI
  obtain ⟨hn0, hn, -⟩ := hI.live_inode hb.live hb.inum
  rw [hb.inum]
  -- the deletion leaves the data, and with it the root
  have hbase := (hI.unbind hb.live hb.inum).base
  have hroot : Base { s.unbind i n with fsData := s.fsData } :=
    hbase.frame rfl rfl hbase.rootTaken hbase.rootBlock
  refine ⟨findInDir_of_binds hI hb, { s.unbind i n with fsData := s.fsData },
    inodeDelete_eq hI hn hn0, ?_⟩
  rw [hroot.rootAddr]
  exact clearDirEntry_of_binds hI hb hroot rfl rfl

theorem Inv.unlinkExact (hI : Inv s) : UnlinkExact s := by
  refine ⟨?_, ?_, fun name i h => hI.clears_found h⟩
  · intro target i n hl
    cases target with
    | none => exact absurd hl not_leads_null
    | some p =>
      obtain ⟨hv, hb⟩ := (leads_iff hI).mp hl
      exact ⟨_, tfsUnlink_found hI hv hb, .unbind hI hb⟩
  · intro target hl
    cases target with
    | none => exact tfsUnlink_invalid (by simp)
    | some p =>
      by_cases hv : validPathname p = true
      · rcases hI.dir.missing_or_binds p.tail.bytes with hm | ⟨i, n, hb⟩
        · exact tfsUnlink_missing hI hv hm
        · exact absurd ((leads_iff hI).mpr ⟨hv, hb⟩) (hl i n)
      · exact tfsUnlink_invalid (invalid_some hv)

/-- In every reachable state an unlink deletes exactly the file named, or fails and
changes nothing. -/
theorem unlink_exact {params : TfsParams} (hp : params.Sane)
    (h : Reachable (Initial params) Steps s) : UnlinkExact s :=
  (inv_of_reachable hp h).unlinkExact

/-- Two files made, the first of them unlinked, the second written to: its slot
comes after one that is empty again. -/
theorem unlink_exact_small : UnlinkExact (after small
    [.open (some pathA) tfsOCreat, .open (some pathB) tfsOCreat, .unlink (some pathA),
      .write 1 (fun _ => 7) 5]) :=
  unlink_exact smallParams_sane (reachable_after reachable_small _)

end MBroker.Fs
