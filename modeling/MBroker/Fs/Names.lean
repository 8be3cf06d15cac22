import Mathlib.Data.Set.Card
import MBroker.Fs.Handle

/- Which files there are, and which handles are taken, through an open that may
   create its file, an open for appending and an unlink. `Creatable`, `Openable`
   and `Removable` are the conditions under which the calls do not return -1. -/
namespace MBroker.Fs
open MBroker.Lib Function

/-- The names in the root directory. -/
def fileNames (s : FsState) : Set (List UInt8) := {x | lookup s x ≠ none}

def takenHandles (s : FsState) : Finset Nat :=
  (Finset.range s.fsParams.maxOpenFilesCount).filter fun h => s.freeOpenFileEntries h = .taken

/-- There is a file of that path. -/
def Removable (s : FsState) (p : CString) : Prop :=
  validPathname p = true ∧ lookup s p.tail.bytes ≠ none

/-- There is, and a handle for it. -/
def Openable (s : FsState) (p : CString) : Prop := Removable s p ∧ freeHandle s ≠ none

/-- There is a handle, and there is the file or room to create it. -/
def Creatable (s : FsState) (p : CString) : Prop :=
  validPathname p = true ∧ freeHandle s ≠ none ∧ (lookup s p.tail.bytes ≠ none ∨
    freeInode s ≠ none ∧ p.tail.bytes.length ≤ 39 ∧ emptySlot s ≠ none)

instance (s : FsState) (p : CString) : Decidable (Removable s p) :=
  inferInstanceAs (Decidable (_ ∧ _))

instance (s : FsState) (p : CString) : Decidable (Openable s p) :=
  inferInstanceAs (Decidable (_ ∧ _))

instance (s : FsState) (p : CString) : Decidable (Creatable s p) :=
  inferInstanceAs (Decidable (_ ∧ _ ∧ (_ ∨ _)))

/-- The file `x` is there, and handle `h` has been given out. -/
structure Entered (s t : FsState) (x : List UInt8) (h : Nat) : Prop where
  inv : Inv t
  params : t.fsParams = s.fsParams
  files : fileNames t = insert x (fileNames s)
  free : freeHandle s = some h
  entries : t.freeOpenFileEntries = update s.freeOpenFileEntries h .taken

/-- The file `x` is gone. -/
structure Removed (s t : FsState) (x : List UInt8) : Prop where
  inv : Inv t
  params : t.fsParams = s.fsParams
  files : fileNames t = fileNames s \ {x}
  entries : t.freeOpenFileEntries = s.freeOpenFileEntries

variable {s t : FsState} {p : CString} {x : List UInt8} {h : Nat}

theorem invalid_some (hv : ¬ validPathname p = true) :
    ∀ q, some p = some q → validPathname q = false := by
  intro q hq
  cases hq
  exact Bool.eq_false_iff.mpr hv

theorem mem_fileNames : x ∈ fileNames s ↔ lookup s x ≠ none := Iff.rfl

theorem fileNames_initial {params : TfsParams} (hp : params.Sane) (h : Initial params s) :
    fileNames s = ∅ := by
  have hI := Inv.initial hp h
  obtain ⟨-, -, mem, rfl⟩ := h.formatted
  ext x
  rw [mem_fileNames, (lookup_eq_none hI.dir).mpr fun i hi => absurd hi (not_live_formatted i)]
  simp

/-- Two paths to the same name are the same. -/
theorem eq_of_tail_eq {q : CString} (hp : validPathname p = true) (hq : validPathname q = true)
    (h : p.tail.bytes = q.tail.bytes) : p = q := by
  simp only [validPathname, Bool.and_eq_true, decide_eq_true_eq] at hp hq
  have hbytes : p.bytes = q.bytes :=
    calc p.bytes = slash :: p.bytes.tail := (List.cons_head?_tail hp.2).symm
      _ = slash :: q.bytes.tail := congrArg _ h
      _ = q.bytes := List.cons_head?_tail hq.2
  cases p
  cases q
  rw [CString.mk.injEq]
  exact hbytes

/-! ## Opening -/

theorem tfsOpen_creatable (hI : Inv s) (hc : Creatable s p) :
    ∃ (h : Nat) (t : FsState), tfsOpen s (some p) tfsOCreat = .ok ((h : Int), t) ∧
      Entered s t p.tail.bytes h := by
  obtain ⟨hv, hh, hfile⟩ := hc
  obtain ⟨h, hh⟩ := Option.ne_none_iff_exists'.mp hh
  have hinv : ∀ t, tfsOpen s (some p) tfsOCreat = .ok ((h : Int), t) → Inv t := by
    intro t hopen
    have hst : step s (.open (some p) tfsOCreat) = .ok (⟨h, []⟩, t) := by
      simp only [step, hopen]
      rfl
    exact hI.step ⟨_, hst⟩
  cases hl : lookup s p.tail.bytes with
  | some n =>
    obtain ⟨i, hb⟩ := (lookup_eq_some hI.dir).mp hl
    have hcut : s.cut tfsOCreat n = s := cut_eq_self _ _ rfl
    -- the file is there: nothing but the handle is new
    have hopen : tfsOpen s (some p) tfsOCreat = _ := tfsOpen_found hI hv hb
    rw [hcut, addToOpenFileTable_of_some hh] at hopen
    refine ⟨h, _, hopen, hinv _ hopen, rfl, ?_, hh, rfl⟩
    show fileNames s = _
    rw [Set.insert_eq_of_mem]
    rw [mem_fileNames, hl]
    simp
  | none =>
    obtain ⟨hn, hlen, hi⟩ := hfile.resolve_left (absurd hl)
    obtain ⟨n, hn⟩ := Option.ne_none_iff_exists'.mp hn
    obtain ⟨i, hi⟩ := Option.ne_none_iff_exists'.mp hi
    have hm := (lookup_eq_none hI.dir).mp hl
    obtain ⟨hlt, hfree⟩ := freeInode_some hn
    obtain ⟨hid, hempty, hfirst⟩ := emptySlot_some hi
    -- the file is created, and the handle is as free as before
    have hbind := hI.bindName (hI.base.freeInode_pos hn) hlt hfree hid hempty hfirst
      ⟨validPathname_tail hv, hlen⟩ hm
    have hopen : tfsOpen s (some p) tfsOCreat = _ := tfsOpen_created hI hv hm rfl hn hlen hi
    have hh' : freeHandle (s.bindName i n p.tail) = some h := hh
    rw [addToOpenFileTable_of_some hh'] at hopen
    refine ⟨h, _, hopen, hinv _ hopen, rfl, ?_, hh, rfl⟩
    ext x
    have hx := lookup_bindName hI hbind hn hi hlen x
    show lookup (s.bindName i n p.tail) x ≠ none ↔ _
    rw [hx, Set.mem_insert_iff, mem_fileNames]
    split
    · next heq => simp [heq]
    · next hne => simp [hne]

theorem Entered.of_open (hI : Inv s) (hc : Creatable s p)
    (hopen : tfsOpen s (some p) tfsOCreat = .ok ((h : Int), t)) : Entered s t p.tail.bytes h := by
  obtain ⟨g, u, hopen', hentered⟩ := tfsOpen_creatable hI hc
  rw [hopen, Except.ok.injEq, Prod.mk.injEq, Int.ofNat_inj] at hopen'
  obtain ⟨rfl, rfl⟩ := hopen'
  exact hentered

theorem tfsOpen_not_creatable (hI : Inv s) (hc : ¬ Creatable s p) :
    ∃ t, tfsOpen s (some p) tfsOCreat = .ok (-1, t) := by
  by_cases hv : validPathname p = true
  swap
  · exact ⟨s, tfsOpen_invalid (invalid_some hv)⟩
  cases hl : lookup s p.tail.bytes with
  | some n =>
    obtain ⟨i, hb⟩ := (lookup_eq_some hI.dir).mp hl
    -- only the handle can be missing
    have hnone : freeHandle s = none := by
      by_contra hh
      exact hc ⟨hv, hh, .inl (by rw [hl]; simp)⟩
    have hcut : s.cut tfsOCreat n = s := cut_eq_self _ _ rfl
    have hopen : tfsOpen s (some p) tfsOCreat = _ := tfsOpen_found hI hv hb
    rw [hcut, addToOpenFileTable_of_none hnone] at hopen
    exact ⟨s, hopen⟩
  | none =>
    have hm := (lookup_eq_none hI.dir).mp hl
    cases hn : freeInode s with
    | none => exact ⟨s, tfsOpen_noInode hI hv hm rfl hn⟩
    | some n =>
      by_cases hslot : 39 < p.tail.bytes.length ∨ emptySlot s = none
      · exact ⟨_, tfsOpen_noEntry hI hv hm rfl hn hslot⟩
      · rw [not_or, Nat.not_lt] at hslot
        obtain ⟨i, hi⟩ := Option.ne_none_iff_exists'.mp hslot.2
        -- the file is created before the handle is found missing
        have hnone : freeHandle (s.bindName i n p.tail) = none := by
          by_contra hh
          exact hc ⟨hv, hh, .inr ⟨by rw [hn]; simp, hslot⟩⟩
        have hopen : tfsOpen s (some p) tfsOCreat = _ :=
          tfsOpen_created hI hv hm rfl hn hslot.1 hi
        rw [addToOpenFileTable_of_none hnone] at hopen
        exact ⟨_, hopen⟩

/-- An open for appending. -/
theorem tfsOpen_openable (hI : Inv s) (hc : Openable s p) :
    ∃ h n : Nat, lookup s p.tail.bytes = some n ∧ freeHandle s = some h ∧
      tfsOpen s (some p) tfsOAppend = .ok ((h : Int), s.openHandle h n (s.inodeTable n).iSize) := by
  obtain ⟨⟨hv, hl⟩, hh⟩ := hc
  obtain ⟨n, hl⟩ := Option.ne_none_iff_exists'.mp hl
  obtain ⟨h, hh⟩ := Option.ne_none_iff_exists'.mp hh
  refine ⟨h, n, hl, hh, ?_⟩
  rw [tfsOpen_append hI hv hl, addToOpenFileTable_of_some hh]

theorem tfsOpen_not_openable (hI : Inv s) (hc : ¬ Openable s p) :
    tfsOpen s (some p) tfsOAppend = .ok (-1, s) := by
  by_cases hv : validPathname p = true
  swap
  · exact tfsOpen_invalid (invalid_some hv)
  cases hl : lookup s p.tail.bytes with
  | none => exact tfsOpen_missing hI hv ((lookup_eq_none hI.dir).mp hl) rfl
  | some n =>
    have hnone : freeHandle s = none := by
      by_contra hh
      exact hc ⟨⟨hv, by rw [hl]; simp⟩, hh⟩
    rw [tfsOpen_append hI hv hl, addToOpenFileTable_of_none hnone]

/-! ## Unlinking -/

theorem tfsUnlink_removable (hI : Inv s) (hc : Removable s p) :
    ∃ t, tfsUnlink s (some p) = .ok (0, t) ∧ Removed s t p.tail.bytes := by
  obtain ⟨hv, hl⟩ := hc
  obtain ⟨n, hl⟩ := Option.ne_none_iff_exists'.mp hl
  obtain ⟨i, hb⟩ := (lookup_eq_some hI.dir).mp hl
  refine ⟨_, tfsUnlink_found hI hv hb, hI.unbind hb.live hb.inum, rfl, ?_, rfl⟩
  ext x
  rw [mem_fileNames, lookup_unbind hI hb, Set.mem_sdiff, mem_fileNames, Set.mem_singleton_iff]
  split
  · next heq => simp [heq]
  · next hne => simp [hne]

theorem Removed.of_unlink (hI : Inv s) (hc : Removable s p)
    (hunlink : tfsUnlink s (some p) = .ok (0, t)) : Removed s t p.tail.bytes := by
  obtain ⟨u, hunlink', hremoved⟩ := tfsUnlink_removable hI hc
  rw [hunlink, Except.ok.injEq, Prod.mk.injEq] at hunlink'
  obtain ⟨-, rfl⟩ := hunlink'
  exact hremoved

theorem tfsUnlink_not_removable (hI : Inv s) (hc : ¬ Removable s p) :
    tfsUnlink s (some p) = .ok (-1, s) := by
  by_cases hv : validPathname p = true
  · apply tfsUnlink_missing hI hv
    rw [← lookup_eq_none hI.dir]
    by_contra hl
    exact hc ⟨hv, hl⟩
  · exact tfsUnlink_invalid (invalid_some hv)

/-! ## Counting -/

theorem Keeps.files (hk : Keeps s t) : fileNames t = fileNames s := by
  ext x
  rw [mem_fileNames, mem_fileNames, hk.lookup]

theorem mem_takenHandles {h : Nat} : h ∈ takenHandles s ↔ TakenHandle s h := by
  simp [takenHandles, TakenHandle]

theorem card_takenHandles_le (s : FsState) :
    (takenHandles s).card ≤ s.fsParams.maxOpenFilesCount :=
  (Finset.card_filter_le _ _).trans (Nat.le_of_eq (Finset.card_range _))

theorem takenHandles_congr (hp : t.fsParams = s.fsParams)
    (he : t.freeOpenFileEntries = s.freeOpenFileEntries) : takenHandles t = takenHandles s := by
  unfold takenHandles
  rw [hp, he]

theorem freeHandle_notMem (hh : freeHandle s = some h) : h ∉ takenHandles s := by
  obtain ⟨-, hfree⟩ := freeHandle_some hh
  rw [mem_takenHandles]
  intro ht
  rw [ht.2] at hfree
  cases hfree

/-- A free handle taken is one more. -/
theorem takenHandles_insert (hp : t.fsParams = s.fsParams) (hh : freeHandle s = some h)
    (he : t.freeOpenFileEntries = update s.freeOpenFileEntries h .taken) :
    takenHandles t = insert h (takenHandles s) := by
  obtain ⟨hlt, -⟩ := freeHandle_some hh
  ext g
  rw [Finset.mem_insert, mem_takenHandles, mem_takenHandles, TakenHandle, hp, he]
  by_cases hg : g = h
  · subst hg
    simp [hlt]
  · simp [hg, TakenHandle]

theorem Entered.card_takenHandles (he : Entered s t x h) :
    (takenHandles t).card = (takenHandles s).card + 1 := by
  rw [takenHandles_insert he.params he.free he.entries]
  exact Finset.card_insert_of_notMem (freeHandle_notMem he.free)

theorem Removed.card_takenHandles (hr : Removed s t x) :
    (takenHandles t).card = (takenHandles s).card := by
  rw [takenHandles_congr hr.params hr.entries]

end MBroker.Fs
