import MBroker.Lib.Refinement
import MBroker.Fs.Offsets
import MBroker.Fs.Room

/- TecnicoFS refines the volume. `View` ties the four tables to the two maps: a
   name is bound to the bytes its inode's block holds, and a handle to the name
   of its inode and its offset. A disciplined client never unlinks or cuts a file
   it has open, so the name a handle was opened on stays the name of its inode,
   and each call of the code does to the tables what the call of the volume does
   to the maps (`refines_step`), failures included. -/
namespace MBroker.Fs
open MBroker.Lib Function

structure View (s : FsState) (v : Volume) : Prop where
  files : ∀ name : FileName, v.files.lookup name = (lookup s name.bytes).map (contents s)
  closed : ∀ h, v.handles h = none ↔ ¬ TakenHandle s h
  opened : ∀ h name offset, v.handles h = some (name, offset) →
    offset = (s.openFileTable h).ofOffset ∧ lookup s name.bytes = some (handleInode s h)

structure Refines (p : TfsParams) (s : FsState) (v : Volume) : Prop where
  params : s.fsParams = p
  inv : Inv s
  owned : Owned s
  offsets : OffsetsOk s
  view : View s v

variable {p : TfsParams} {s t : FsState} {v : Volume}

/-! ## Reading the view -/

theorem fileName_eq {path : CString} (hv : validPathname path = true)
    (hl : path.tail.bytes.length ≤ 39) :
    ∃ name : FileName, fileName (some path) = some name ∧ name.toCString = path.tail := by
  have hl' : path.tail.bytes.length ≤ maxFileName - 1 := hl
  refine ⟨⟨path.tail, validPathname_tail hv, hl'⟩, ?_, rfl⟩
  rw [fileName, dif_pos ⟨hv, validPathname_tail hv, hl'⟩]

theorem of_fileName {path : Option CString} {name : FileName} (h : fileName path = some name) :
    ∃ q, path = some q ∧ validPathname q = true ∧ name.toCString = q.tail := by
  cases path with
  | none => cases h
  | some q =>
    rw [fileName] at h
    split at h
    · next hc =>
      cases h
      exact ⟨q, rfl, hc.1, rfl⟩
    · cases h

theorem fileName_eq_none {path : Option CString}
    (h : ∀ q, path = some q → validPathname q = false) : fileName path = none := by
  cases hf : fileName path with
  | none => rfl
  | some name =>
    obtain ⟨q, hq, hv, -⟩ := of_fileName hf
    rw [h q hq] at hv
    cases hv

theorem View.mem_files (hV : View s v) {name : FileName} :
    name ∈ v.files ↔ ∃ n, lookup s name.bytes = some n := by
  rw [← Finmap.lookup_isSome, hV.files, Option.isSome_map, Option.isSome_iff_exists]

theorem View.contents (hV : View s v) {name : FileName} {n : Nat}
    (h : lookup s name.bytes = some n) : v.contents name = Fs.contents s n := by
  rw [Volume.contents, hV.files, h]
  rfl

/-- A taken handle, as the volume knows it. -/
theorem View.handle (hV : View s v) {h : Nat} (ht : TakenHandle s h) :
    ∃ name : FileName, v.handles h = some (name, (s.openFileTable h).ofOffset) ∧
      lookup s name.bytes = some (handleInode s h) := by
  cases hh : v.handles h with
  | none => exact absurd ht ((hV.closed h).mp hh)
  | some x =>
    obtain ⟨name, offset⟩ := x
    obtain ⟨ho, hl⟩ := hV.opened h name offset hh
    exact ⟨name, by rw [ho], hl⟩

theorem View.opened_of_taken (hV : View s v) {h : Nat} (ht : TakenHandle s h) :
    ∃ name : FileName, v.opened h = some (name, (s.openFileTable h).ofOffset) ∧
      lookup s name.bytes = some (handleInode s h) := by
  obtain ⟨name, hh, hl⟩ := hV.handle ht
  refine ⟨name, ?_, hl⟩
  rw [Volume.opened, if_pos (Int.natCast_nonneg h), Int.toNat_natCast, hh]

theorem View.opened_of_bad (hV : View s v) {fhandle : Int}
    (hb : ∀ h : Nat, fhandle = h → ¬ TakenHandle s h) : v.opened fhandle = none := by
  unfold Volume.opened
  split
  · next h0 => exact (hV.closed _).mpr (hb _ (by omega))
  · rfl

theorem View.unused (hV : View s v) (hp : s.fsParams = p) : v.unused p = freeHandle s := by
  unfold Volume.unused freeHandle
  rw [hp]
  apply firstIndex_congr
  intro h hlt
  rw [Bool.eq_iff_iff, Option.isNone_iff_eq_none, hV.closed, decide_eq_true_iff]
  unfold TakenHandle
  rw [hp]
  cases s.freeOpenFileEntries h <;> simp [hlt]

/-- Files counted by name and by inode. -/
theorem Inv.card_names (hI : Inv s) {K : Finset FileName} {F : Finset Nat}
    (hK : ∀ name ∈ K, ∃ n, lookup s name.bytes = some n)
    (hF : ∀ n ∈ F, n ≠ 0 ∧ TakenInode s n)
    (h : ∀ name n, lookup s name.bytes = some n → (name ∈ K ↔ n ∈ F)) : K.card = F.card := by
  refine Finset.card_bij (fun name _ => (lookup s name.bytes).getD 0) ?_ ?_ ?_
  · intro name hn
    obtain ⟨n, hl⟩ := hK name hn
    rw [hl]
    exact (h name n hl).mp hn
  · intro a ha b hb hab
    obtain ⟨n, hn⟩ := hK a ha
    obtain ⟨m, hm⟩ := hK b hb
    rw [hn, hm, Option.getD_some, Option.getD_some] at hab
    subst hab
    exact FileName.ext_bytes (hI.lookup_inj hn hm)
  · intro n hn
    obtain ⟨hn0, ht⟩ := hF n hn
    obtain ⟨name, hl⟩ := hI.exists_name (Nat.pos_of_ne_zero hn0) ht
    exact ⟨name, (h name n hl).mpr hn, by rw [hl, Option.getD_some]⟩

theorem View.card_keys (hV : View s v) (hI : Inv s) :
    v.files.keys.card = (fileInodes s).card := by
  refine hI.card_names (fun name hn => hV.mem_files.mp (Finmap.mem_keys.mp hn))
    (fun n hn => mem_fileInodes.mp hn) fun name n hl => ?_
  obtain ⟨hn0, ht⟩ := hI.lookup_taken hl
  rw [Finmap.mem_keys, hV.mem_files, mem_fileInodes]
  exact ⟨fun _ => ⟨by omega, ht⟩, fun _ => ⟨n, hl⟩⟩

theorem View.card_nonEmpty (hV : View s v) (hI : Inv s) :
    v.nonEmpty.card = (nonEmptyFiles s).card := by
  refine hI.card_names
    (fun name hn => hV.mem_files.mp (Finmap.mem_keys.mp (Finset.mem_filter.mp hn).1))
    (fun n hn => mem_fileInodes.mp (nonEmptyFiles_subset hn)) fun name n hl => ?_
  obtain ⟨hn0, ht⟩ := hI.lookup_taken hl
  have hkey : name ∈ v.files.keys := Finmap.mem_keys.mpr (hV.mem_files.mpr ⟨n, hl⟩)
  rw [Volume.nonEmpty, Finset.mem_filter, mem_nonEmptyFiles, hV.contents hl, Ne, contents_eq_nil]
  simp only [hkey, ht, true_and]
  omega

/-! ## The moves, on the view -/

/-- A state with the same directory, the same bytes in its files and the same
handles. -/
theorem View.frame (hV : View s v) (hl : ∀ x, lookup t x = lookup s x)
    (hc : ∀ x n, lookup s x = some n → Fs.contents t n = Fs.contents s n)
    (htk : ∀ h, TakenHandle t h ↔ TakenHandle s h) (ho : t.openFileTable = s.openFileTable) :
    View t v := by
  refine ⟨fun name => ?_, fun h => ?_, fun h name offset hh => ?_⟩
  · rw [hV.files, hl]
    exact Option.map_congr fun n hn => (hc _ n hn).symm
  · rw [hV.closed, htk]
  · have := hV.opened h name offset hh
    rwa [handleInode, ho, hl]

/-- One file's bytes changed, or one file made. -/
theorem View.put (hV : View s v) {name : FileName} {n : Nat}
    (hn : lookup t name.bytes = some n)
    (hl : ∀ x, x ≠ name.bytes → lookup t x = lookup s x)
    (hc : ∀ x m, x ≠ name.bytes → lookup s x = some m → Fs.contents t m = Fs.contents s m)
    (hold : ∀ m, lookup s name.bytes = some m → m = n)
    (htk : ∀ h, TakenHandle t h ↔ TakenHandle s h) (ho : t.openFileTable = s.openFileTable) :
    View t (v.put name (Fs.contents t n)) := by
  refine ⟨fun x => ?_, fun h => ?_, fun h x offset hh => ?_⟩
  · by_cases hx : x = name
    · subst hx
      rw [Volume.put, Finmap.lookup_insert, hn, Option.map_some]
    · have hxb : x.bytes ≠ name.bytes := fun h => hx (FileName.ext_bytes h)
      rw [Volume.put, Finmap.lookup_insert_of_ne _ hx, hV.files, hl _ hxb]
      exact Option.map_congr fun m hm => (hc _ m hxb hm).symm
  · show v.handles h = none ↔ _
    rw [hV.closed, htk]
  · obtain ⟨hoff, hlk⟩ := hV.opened h x offset hh
    rw [handleInode, ho]
    refine ⟨hoff, ?_⟩
    by_cases hx : x.bytes = name.bytes
    · rw [hx] at hlk ⊢
      rw [hn, ← hold _ hlk]
      rfl
    · rwa [hl _ hx]

/-- A handle's offset moved. -/
theorem View.seek (hV : View s v) {h offset : Nat} {name : FileName}
    (ht : TakenHandle s h) (hn : lookup s name.bytes = some (handleInode s h))
    (hl : ∀ x, lookup t x = lookup s x)
    (hc : ∀ x n, lookup s x = some n → Fs.contents t n = Fs.contents s n)
    (htk : ∀ h, TakenHandle t h ↔ TakenHandle s h)
    (ho : ∀ g, g ≠ h → t.openFileTable g = s.openFileTable g)
    (hh : t.openFileTable h = ⟨(s.openFileTable h).ofInumber, offset⟩) :
    View t (v.seek h name offset) := by
  refine ⟨fun x => ?_, fun g => ?_, fun g x o hg => ?_⟩
  · show v.files.lookup x = _
    rw [hV.files, hl]
    exact Option.map_congr fun n hn => (hc _ n hn).symm
  · show update v.handles h _ g = none ↔ _
    rw [htk]
    by_cases hgh : g = h
    · subst hgh
      simp [ht]
    · rw [update_of_ne hgh, hV.closed]
  · have hg' : update v.handles h (some (name, offset)) g = some (x, o) := hg
    rw [hl]
    by_cases hgh : g = h
    · subst hgh
      rw [update_self] at hg'
      cases hg'
      rw [handleInode, hh]
      exact ⟨rfl, hn⟩
    · rw [update_of_ne hgh] at hg'
      rw [handleInode, ho g hgh]
      exact hV.opened g x o hg'

/-- The lowest unused handle, opened on both sides. -/
theorem View.enter (hV : View s v) (hp : s.fsParams = p) {name : FileName} {n : Nat}
    (hn : lookup s name.bytes = some n) (offset : Nat) :
    (addToOpenFileTable s n offset).1 = (v.enter p name offset).1 ∧
      View (addToOpenFileTable s n offset).2 (v.enter p name offset).2 := by
  have hu := hV.unused hp
  cases hf : freeHandle s with
  | none =>
    rw [addToOpenFileTable_of_none hf, Volume.enter, hu, hf]
    exact ⟨rfl, hV⟩
  | some h =>
    rw [addToOpenFileTable_of_some hf, Volume.enter, hu, hf]
    refine ⟨rfl, fun x => hV.files x, fun g => ?_, fun g x o hg => ?_⟩
    · show update v.handles h _ g = none ↔ _
      by_cases hgh : g = h
      · subst hgh
        have := (freeHandle_some hf).1
        simp [TakenHandle, this]
      · rw [update_of_ne hgh, hV.closed]
        simp [TakenHandle, hgh]
    · have hg' : update v.handles h (some (name, offset)) g = some (x, o) := hg
      show _ ∧ lookup s x.bytes = _
      by_cases hgh : g = h
      · subst hgh
        rw [update_self] at hg'
        cases hg'
        simp [handleInode, hn]
      · rw [update_of_ne hgh] at hg'
        simpa [handleInode, hgh] using hV.opened g x o hg'

theorem View.erase (hV : View s v) {name : FileName}
    (hn : lookup t name.bytes = none) (hl : ∀ x, x ≠ name.bytes → lookup t x = lookup s x)
    (hc : ∀ x m, x ≠ name.bytes → lookup s x = some m → Fs.contents t m = Fs.contents s m)
    (htk : ∀ h, TakenHandle t h ↔ TakenHandle s h) (ho : t.openFileTable = s.openFileTable)
    (hshut : ¬ v.IsOpen name) : View t { v with files := v.files.erase name } := by
  refine ⟨fun x => ?_, fun h => ?_, fun h x offset hh => ?_⟩
  · by_cases hx : x = name
    · subst hx
      rw [Finmap.lookup_erase, hn]
      rfl
    · have hxb : x.bytes ≠ name.bytes := fun h => hx (FileName.ext_bytes h)
      rw [Finmap.lookup_erase_ne hx, hV.files, hl _ hxb]
      exact Option.map_congr fun m hm => (hc _ m hxb hm).symm
  · rw [hV.closed, htk]
  · obtain ⟨hoff, hlk⟩ := hV.opened h x offset hh
    rw [handleInode, ho]
    have hxb : x.bytes ≠ name.bytes := by
      intro hx
      exact hshut ⟨h, offset, FileName.ext_bytes hx ▸ hh⟩
    exact ⟨hoff, by rwa [hl _ hxb]⟩

/-! ## The calls, on the view -/

theorem View.not_mem (hV : View s v) (hI : Inv s) {path : CString} {name : FileName}
    (hm : Missing s path.tail.bytes) (hn : name.toCString = path.tail) : name ∉ v.files := by
  rw [hV.mem_files]
  intro h
  obtain ⟨n, hl⟩ := h
  rw [hn, (lookup_eq_none hI.dir).mpr hm] at hl
  cases hl

/-- A name that leads nowhere, in a call that needs no more than that. -/
theorem openFile_refused (hR : Refines p s v) {path : CString} {mode : BitVec 32}
    (hm : Missing s path.tail.bytes)
    (hno : hasFlag mode tfsOCreat = false ∨ 39 < path.tail.bytes.length ∨ freeInode s = none ∨
      emptySlot s = none) : v.openFile p (some path) mode = (-1, v) := by
  unfold Volume.openFile
  cases hf : fileName (some path) with
  | none => rfl
  | some name =>
    obtain ⟨q, hq, -, hnq⟩ := of_fileName hf
    cases hq
    have hnot := hR.view.not_mem hR.inv hm hnq
    have hfit : path.tail.bytes.length ≤ 39 := by
      have := name.fits
      rw [hnq] at this
      exact this
    have hfull : ¬ (hasFlag mode tfsOCreat = true ∧ v.files.keys.card < Volume.maxFiles p) := by
      intro hmade
      obtain ⟨hc, hcard⟩ := hmade
      rw [hR.view.card_keys hR.inv, Volume.maxFiles, ← hR.params] at hcard
      rcases hno with h | h | h | h
      · rw [h] at hc
        cases hc
      · omega
      · rw [hR.inv.freeInode_eq_none] at h
        omega
      · rw [hR.inv.emptySlot_eq_none, FsState.maxDirEntries] at h
        omega
    simp only [if_neg hnot, if_neg hfull]

/-- The inode taken and given back for a name that found no slot. -/
theorem View.clearInode (hV : View s v) (hI : Inv s) {n : Nat} (hn : freeInode s = some n) :
    View { s with inodeTable := update s.inodeTable n ⟨.tFile, 0, -1⟩ } v := by
  have hn0 := hI.base.freeInode_pos hn
  have hfree := (freeInode_some hn).2
  have hdir := hI.base.sameSlots (hI.clearInode hn0 hfree).base rfl fun _ _ => rfl
  refine hV.frame hdir.lookup (fun x m hm => ?_) (fun _ => Iff.rfl) rfl
  obtain ⟨hm0, hmt⟩ := hI.lookup_taken hm
  have hmn : m ≠ n := hmt.ne_free hfree
  exact hI.contents_frame hm0 hmt rfl (by simp [hmn]) fun _ _ => rfl

/-- A new file is empty, and the others are where they were. -/
theorem View.bindName (hV : View s v) (hI : Inv s) {path : CString} {name : FileName} {i n : Nat}
    (hv : validPathname path = true) (hl : path.tail.bytes.length ≤ 39)
    (hm : Missing s path.tail.bytes) (hn : freeInode s = some n) (hslot : emptySlot s = some i)
    (hbytes : name.bytes = path.tail.bytes) :
    View (s.bindName i n path.tail) (v.put name []) ∧
      lookup (s.bindName i n path.tail) name.bytes = some n := by
  have hn0 := hI.base.freeInode_pos hn
  obtain ⟨hlt, hfree⟩ := freeInode_some hn
  obtain ⟨hi, hempty, hfirst⟩ := emptySlot_some hslot
  have hbind := hI.bindName hn0 hlt hfree hi hempty hfirst ⟨validPathname_tail hv, hl⟩ hm
  have hlook := lookup_bindName hI hbind hn hslot hl
  have hnew : lookup (s.bindName i n path.tail) name.bytes = some n := by rw [hlook, if_pos hbytes]
  have hnil : Fs.contents (s.bindName i n path.tail) n = [] := contents_eq_nil.mpr (by simp)
  refine ⟨?_, hnew⟩
  rw [← hnil]
  refine hV.put hnew (fun x hx => ?_) (fun x m hx hxm => ?_) (fun m hxm => ?_)
    (fun _ => Iff.rfl) rfl
  · rw [hlook, if_neg (hbytes ▸ hx)]
  · obtain ⟨hm0, hmt⟩ := hI.lookup_taken hxm
    have hmn : m ≠ n := hmt.ne_free hfree
    exact hI.contents_frame hm0 hmt rfl (by simp [hmn]) fun x hx => writeEntry_outside hi hx
  · rw [hbytes, lookup_of_missing hm] at hxm
    cases hxm

/-- The file as the open leaves it, truncated or not. -/
theorem View.cut (hV : View s v) (hI : Inv s) (mode : BitVec 32) {name : FileName} {n : Nat}
    (hlook : lookup s name.bytes = some n) :
    View (s.cut mode n) (if hasFlag mode tfsOTrunc = true then v.put name [] else v) ∧
      lookup (s.cut mode n) name.bytes = some n := by
  obtain ⟨hn0, hn⟩ := hI.lookup_taken hlook
  obtain ⟨hcutI, -⟩ := hI.cut mode hn0 hn
  have hdir : SameSlots s (s.cut mode n) :=
    hI.base.sameSlots hcutI.base (cut_fsParams s mode n) fun x _ => by rw [cut_fsData]
  have hlook' : lookup (s.cut mode n) name.bytes = some n := by rw [hdir.lookup, hlook]
  refine ⟨?_, hlook'⟩
  split
  · next ht =>
    have hnil : Fs.contents (s.cut mode n) n = [] := contents_eq_nil.mpr (cut_iSize_trunc s n ht)
    rw [← hnil]
    refine hV.put hlook' (fun x _ => hdir.lookup x) (fun x m hx hxm => ?_) (fun m hxm => ?_)
      (fun h => ?_) (cut_openFileTable s mode n)
    · have hmn : m ≠ n := by
        intro heq
        subst heq
        exact hx (hI.lookup_inj hxm hlook)
      obtain ⟨hm0, hmt⟩ := hI.lookup_taken hxm
      exact hI.contents_frame hm0 hmt (cut_fsParams s mode n) (cut_inodeTable_ne s mode hmn)
        fun x _ => by rw [cut_fsData]
    · rw [hlook] at hxm
      cases hxm
      rfl
    · rw [TakenHandle, cut_fsParams, cut_freeOpenFileEntries]
      rfl
  · next ht =>
    have hsame : s.cut mode n = s := by simp [FsState.cut, ht]
    rwa [hsame]

theorem refines_openCreated (hR : Refines p s v) {q : CString} {mode : BitVec 32} {i n : Nat}
    (hv : validPathname q = true) (hm : Missing s q.tail.bytes)
    (hc : hasFlag mode tfsOCreat = true) (hn : freeInode s = some n)
    (hl : q.tail.bytes.length ≤ 39) (hslot : emptySlot s = some i) :
    (addToOpenFileTable (s.bindName i n q.tail) n 0).1 = (v.openFile p (some q) mode).1 ∧
      View (addToOpenFileTable (s.bindName i n q.tail) n 0).2
        (v.openFile p (some q) mode).2 := by
  have hI := hR.inv
  obtain ⟨name, hname, hq⟩ := fileName_eq hv hl
  have hroom : hasFlag mode tfsOCreat = true ∧ v.files.keys.card < Volume.maxFiles p := by
    refine ⟨hc, ?_⟩
    have h1 := mt hI.freeInode_eq_none.mpr (by simp [hn])
    have h2 := mt hI.emptySlot_eq_none.mpr (by simp [hslot])
    rw [hR.view.card_keys hI, Volume.maxFiles, ← hR.params]
    rw [FsState.maxDirEntries] at h2
    omega
  have hopen : v.openFile p (some q) mode = (v.put name []).enter p name 0 := by
    simp only [Volume.openFile, hname, if_neg (hR.view.not_mem hI hm hq), if_pos hroom]
  have hbytes : name.bytes = q.tail.bytes := by rw [← hq]
  obtain ⟨hput, hlook⟩ := hR.view.bindName hI hv hl hm hn hslot hbytes
  rw [hopen]
  exact hput.enter hR.params hlook 0

theorem refines_openFound (hR : Refines p s v) {q : CString} {mode : BitVec 32} {i n : Nat}
    (hD : v.Disciplined p (.open (some q) mode)) (hv : validPathname q = true)
    (hb : Binds s i q.tail.bytes n) :
    (addToOpenFileTable (s.cut mode n) n (s.openOffset mode n)).1 =
        (v.openFile p (some q) mode).1 ∧
      View (addToOpenFileTable (s.cut mode n) n (s.openOffset mode n)).2
        (v.openFile p (some q) mode).2 := by
  have hI := hR.inv
  have hV := hR.view
  have hlen := (hI.dir.name i hb.live).2
  rw [hb.name] at hlen
  obtain ⟨name, hname, hq⟩ := fileName_eq hv hlen
  have hlook : lookup s name.bytes = some n := by
    rw [hq]
    exact lookup_of_binds hI.dir hb
  have hmem : name ∈ v.files := hV.mem_files.mpr ⟨n, hlook⟩
  cases hu : v.unused p with
  | some h =>
    obtain ⟨hcut, hlook'⟩ := hV.cut hI mode hlook
    -- the file after the truncation, on the volume's side
    obtain ⟨w, hw⟩ : ∃ w, (if hasFlag mode tfsOTrunc = true then v.put name [] else v) = w :=
      ⟨_, rfl⟩
    rw [hw] at hcut
    have hoff : s.openOffset mode n =
        if hasFlag mode tfsOAppend = true then (w.contents name).length else 0 := by
      rw [FsState.openOffset, hcut.contents hlook', contents_length]
    have hopen : v.openFile p (some q) mode = w.enter p name (s.openOffset mode n) := by
      simp only [Volume.openFile, hname, if_pos hmem, hu, hw, hoff]
      rfl
    have hparams : (s.cut mode n).fsParams = p := by rw [cut_fsParams, hR.params]
    rw [hopen]
    exact hcut.enter hparams hlook' _
  | none =>
    -- without a handle to spare the client does not truncate
    have ht : ¬ hasFlag mode tfsOTrunc = true := by
      intro ht
      obtain ⟨h, hlt, hh⟩ := (hD ht).2
      have := firstIndex_eq_none.mp hu h hlt
      simp [hh] at this
    have hsame : s.cut mode n = s := by simp [FsState.cut, ht]
    have hfree : freeHandle (s.cut mode n) = none := by
      rw [hsame, ← hV.unused hR.params, hu]
    have hopen : v.openFile p (some q) mode = (-1, v) := by
      simp only [Volume.openFile, hname, if_pos hmem, hu]
      rfl
    rw [hopen, addToOpenFileTable_of_none hfree, hsame]
    exact ⟨rfl, hV⟩

theorem refines_open (hR : Refines p s v) {path : Option CString} {mode : BitVec 32}
    (hD : v.Disciplined p (.open path mode)) {r : Ret} (he : Effect s (.open path mode) r t) :
    r = (v.step p (.open path mode)).1 ∧ View t (v.step p (.open path mode)).2 := by
  cases he with
  | openInvalid hv =>
    have hsame : v.openFile p path mode = (-1, v) := by
      rw [Volume.openFile, fileName_eq_none hv]
    rw [Volume.step, hsame]
    exact ⟨rfl, hR.view⟩
  | openMissing hv hm hc =>
    rw [Volume.step, openFile_refused hR hm (.inl hc)]
    exact ⟨rfl, hR.view⟩
  | openNoInode hv hm hc hn =>
    rw [Volume.step, openFile_refused hR hm (.inr (.inr (.inl hn)))]
    exact ⟨rfl, hR.view⟩
  | @openNoEntry q mode n hv hm hc hn hfull =>
    have hno : hasFlag mode tfsOCreat = false ∨ 39 < q.tail.bytes.length ∨ freeInode s = none ∨
        emptySlot s = none := by
      rcases hfull with h | h
      · exact .inr (.inl h)
      · exact .inr (.inr (.inr h))
    rw [Volume.step, openFile_refused hR hm hno]
    exact ⟨rfl, hR.view.clearInode hR.inv hn⟩
  | openCreated hv hm hc hn hl hslot =>
    obtain ⟨hr, hview⟩ := refines_openCreated hR hv hm hc hn hl hslot
    exact ⟨by rw [Volume.step, hr], hview⟩
  | openFound hv hb =>
    obtain ⟨hr, hview⟩ := refines_openFound hR hD hv hb
    exact ⟨by rw [Volume.step, hr], hview⟩

theorem refines_close (hV : View s v) {fhandle : Int} {r : Ret}
    (he : Effect s (.close fhandle) r t) :
    r = (v.step p (.close fhandle)).1 ∧ View t (v.step p (.close fhandle)).2 := by
  cases he with
  | closeBad hb =>
    simp only [Volume.step, Volume.closeFile, hV.opened_of_bad hb]
    exact ⟨trivial, hV⟩
  | @closeDone h ht =>
    obtain ⟨name, ho, -⟩ := hV.opened_of_taken ht
    simp only [Volume.step, Volume.closeFile, ho, Int.toNat_natCast]
    refine ⟨trivial, fun x => hV.files x, fun g => ?_, fun g x o hg => ?_⟩
    · show update v.handles h none g = none ↔ _
      by_cases hgh : g = h
      · subst hgh
        simp [TakenHandle]
      · rw [update_of_ne hgh, hV.closed]
        simp [TakenHandle, hgh]
    · have hg' : update v.handles h none g = some (x, o) := hg
      by_cases hgh : g = h
      · subst hgh
        rw [update_self] at hg'
        cases hg'
      · rw [update_of_ne hgh] at hg'
        exact hV.opened g x o hg'

theorem refines_read (hR : Refines p s v) {fhandle : Int} {len : Nat} {r : Ret}
    (he : Effect s (.read fhandle len) r t) :
    r = (v.step p (.read fhandle len)).1 ∧ View t (v.step p (.read fhandle len)).2 := by
  have hV := hR.view
  cases he with
  | readBad hb =>
    simp only [Volume.step, Volume.readFile, hV.opened_of_bad hb]
    exact ⟨trivial, hV⟩
  | @readNone h len ht hk =>
    obtain ⟨name, ho, hl⟩ := hV.opened_of_taken ht
    obtain ⟨hle, hsz⟩ := hR.offsets h ht
    rw [readLength_eq hR.inv.base _ hle hsz] at hk
    have hdata : ((v.contents name).drop (s.openFileTable h).ofOffset).take len = [] := by
      rw [hV.contents hl, Fs.contents, Mem.read_drop_take, hk, Mem.read_zero]
    simp only [Volume.step, Volume.readFile, ho, hdata, Int.toNat_natCast]
    exact ⟨rfl, hV.seek ht hl (fun _ => rfl) (fun _ _ _ => rfl) (fun _ => Iff.rfl)
      (fun _ _ => rfl) rfl⟩
  | @readSome h len k b ht hk hk0 hb hbc ha =>
    obtain ⟨name, ho, hl⟩ := hV.opened_of_taken ht
    obtain ⟨hle, hsz⟩ := hR.offsets h ht
    rw [readLength_eq hR.inv.base _ hle hsz] at hk
    have hdata : ((v.contents name).drop (s.openFileTable h).ofOffset).take len =
        s.fsData.read (b * s.fsParams.blockSize + (s.openFileTable h).ofOffset) k := by
      rw [hV.contents hl, Fs.contents, Mem.read_drop_take, hk, hb, Int.toNat_natCast]
    simp only [Volume.step, Volume.readFile, ho, hdata, Mem.read_length, Int.toNat_natCast]
    refine ⟨trivial, hV.seek ht hl (fun _ => rfl) (fun _ _ _ => rfl) (fun _ => Iff.rfl)
      (fun g hg => by simp [hg]) (by simp)⟩

/-- A write to the block that is the file's own. -/
theorem View.write (hV : View s v) (hI : Inv s) {h b k : Nat} {buffer : Nat → UInt8}
    {name : FileName} (ht : TakenHandle s h) (hl : lookup s name.bytes = some (handleInode s h))
    (hown : Owner s (handleInode s h) b)
    (ho : (s.openFileTable h).ofOffset ≤ (s.inodeTable (handleInode s h)).iSize)
    (hin : (s.openFileTable h).ofOffset + k ≤ s.fsParams.blockSize) :
    View (s.put h (handleInode s h) b k buffer)
      ((v.put name (Volume.overwrite (v.contents name) (s.openFileTable h).ofOffset
        (Mem.read buffer 0 k))).seek h name ((s.openFileTable h).ofOffset + k)) := by
  obtain ⟨hn0, hn⟩ := hI.lookup_taken hl
  have hI' : Inv (s.put h (handleInode s h) b k buffer) :=
    hI.put hn0 hown.block hown.pos hown.taken.1 (hI.blocks.size _ hn) hin fun _ => hown
  have hdir : SameSlots s (s.put h (handleInode s h) b k buffer) := by
    refine hI.base.sameSlots hI'.base rfl fun x hx => Mem.write_out (.inl ?_)
    exact Nat.lt_of_lt_of_le hx
      (Nat.le_trans (Nat.le_mul_of_pos_left _ hown.pos) (Nat.le_add_right _ _))
  -- first the bytes, the handle still where it was
  obtain ⟨u, hu⟩ : ∃ u : FsState, { s.put h (handleInode s h) b k buffer with
      openFileTable := s.openFileTable } = u := ⟨_, rfl⟩
  have hbytes : Fs.contents u (handleInode s h) = Volume.overwrite (v.contents name)
      (s.openFileTable h).ofOffset (Mem.read buffer 0 k) := by
    rw [hV.contents hl, ← contents_put_self hown.block ho, ← hu]
    rfl
  have hput : View u (v.put name (Volume.overwrite (v.contents name) (s.openFileTable h).ofOffset
      (Mem.read buffer 0 k))) := by
    rw [← hbytes, ← hu]
    refine hV.put ((hdir.lookup _).trans hl) (fun x _ => hdir.lookup x)
      (fun x m hx hxm => ?_) (fun m hm => ?_) (fun _ => Iff.rfl) rfl
    · have hmn : m ≠ handleInode s h := by
        intro heq
        subst heq
        exact hx (hI.lookup_inj hxm hl)
      obtain ⟨-, hmt⟩ := hI.lookup_taken hxm
      exact contents_put_ne hI hin hmn hmt fun hsz hmb => hmn (hown.only m hmt hsz hmb)
    · rw [hl] at hm
      cases hm
      rfl
  subst hu
  exact hput.seek ht ((hdir.lookup _).trans hl) (fun _ => rfl) (fun _ _ _ => rfl)
    (fun _ => Iff.rfl) (fun g hg => by simp [hg]) (by simp)

/-- What the write of a volume does, once it is known how much is written. -/
theorem writeFile_eq (hR : Refines p s v) {h k : Nat} {buffer : Nat → UInt8} {toWrite : Nat}
    {name : FileName} (ht : TakenHandle s h) (hw : toWrite < 2 ^ 63)
    (hk : writeLength s (s.openFileTable h) toWrite = k)
    (ho : v.opened h = some (name, (s.openFileTable h).ofOffset)) :
    v.writeFile p h buffer toWrite =
      if Mem.read buffer 0 k = [] then (0, v)
      else if v.contents name = [] ∧ Volume.maxNonEmpty p ≤ v.nonEmpty.card then (-1, v)
      else ((k : Int), (v.put name (Volume.overwrite (v.contents name) (s.openFileTable h).ofOffset
        (Mem.read buffer 0 k))).seek h name ((s.openFileTable h).ofOffset + k)) := by
  obtain ⟨hle, hsz⟩ := hR.offsets h ht
  rw [writeLength_eq hR.inv.base (Nat.le_trans hle hsz) hw, hR.params] at hk
  simp only [Volume.writeFile, ho, hk, Mem.read_length, Int.toNat_natCast]

theorem read_eq_nil {m : Mem} {a k : Nat} : m.read a k = [] ↔ k = 0 := by
  rw [← List.length_eq_zero_iff, Mem.read_length]

theorem refines_write (hR : Refines p s v) {fhandle : Int} {buffer : Nat → UInt8} {toWrite : Nat}
    (hD : v.Disciplined p (.write fhandle buffer toWrite)) {r : Ret}
    (he : Effect s (.write fhandle buffer toWrite) r t) :
    r = (v.step p (.write fhandle buffer toWrite)).1 ∧
      View t (v.step p (.write fhandle buffer toWrite)).2 := by
  have hV := hR.view
  have hI := hR.inv
  cases he with
  | writeBad hb =>
    simp only [Volume.step, Volume.writeFile, hV.opened_of_bad hb]
    exact ⟨trivial, hV⟩
  | @writeNone h buffer toWrite ht hk =>
    obtain ⟨name, ho, hl⟩ := hV.opened_of_taken ht
    rw [Volume.step, writeFile_eq hR ht hD hk ho, if_pos (read_eq_nil.mpr rfl)]
    exact ⟨rfl, hV⟩
  | @writeNoSpace h buffer toWrite ht hk hz hf =>
    obtain ⟨name, ho, hl⟩ := hV.opened_of_taken ht
    have hfull : v.contents name = [] ∧ Volume.maxNonEmpty p ≤ v.nonEmpty.card := by
      rw [hV.contents hl, contents_eq_nil, hV.card_nonEmpty hI, Volume.maxNonEmpty, ← hR.params]
      have := (hR.owned.freeBlock_eq_none hI).mp hf
      exact ⟨hz, by omega⟩
    rw [Volume.step, writeFile_eq hR ht hD rfl ho, if_neg (mt read_eq_nil.mp (by omega)),
      if_pos hfull]
    exact ⟨rfl, hV⟩
  | @writeFirst h k b buffer toWrite ht hk hk0 hz hf hin =>
    obtain ⟨name, ho, hl⟩ := hV.opened_of_taken ht
    obtain ⟨hn0, hnt⟩ := hI.lookup_taken hl
    have hroom : ¬ (v.contents name = [] ∧ Volume.maxNonEmpty p ≤ v.nonEmpty.card) := by
      intro hfull
      obtain ⟨-, hcard⟩ := hfull
      rw [hV.card_nonEmpty hI, Volume.maxNonEmpty, ← hR.params] at hcard
      have := mt (hR.owned.freeBlock_eq_none hI).mpr (by simp [hf])
      omega
    rw [Volume.step, writeFile_eq hR ht hD hk ho, if_neg (mt read_eq_nil.mp (by omega)),
      if_neg hroom]
    have hgive := hI.giveBlock (b := b) hn0 hz
    have hview : View (s.giveBlock (handleInode s h) b) v := by
      apply hV.frame (hI.base.sameSlots hgive.base rfl fun _ _ => rfl).lookup _ _ rfl
      · exact fun x m hxm => contents_giveBlock hz
      · exact fun _ => Iff.rfl
    obtain ⟨hbc, hfree⟩ := freeBlock_some hf
    refine ⟨rfl, hview.write hgive ht ?_ (hI.giveBlock_owner hbc hfree) ?_ hin⟩
    · exact ((hI.base.sameSlots hgive.base rfl fun _ _ => rfl).lookup _).trans hl
    · have := (hR.offsets h ht).1
      rw [giveBlock_iSize]
      exact this
  | @writeOver h k b buffer toWrite ht hk hk0 hz hb hb0 hbc hin =>
    obtain ⟨name, ho, hl⟩ := hV.opened_of_taken ht
    have hroom : ¬ (v.contents name = [] ∧ Volume.maxNonEmpty p ≤ v.nonEmpty.card) := by
      intro hfull
      obtain ⟨hnil, -⟩ := hfull
      rw [hV.contents hl, contents_eq_nil] at hnil
      omega
    rw [Volume.step, writeFile_eq hR ht hD hk ho, if_neg (mt read_eq_nil.mp (by omega)),
      if_neg hroom]
    obtain ⟨hn0, hnt⟩ := hI.lookup_taken hl
    obtain ⟨c, hown⟩ := hI.owner hn0 hnt hz
    have hcb : c = b := by
      have := hown.block
      rw [hb] at this
      omega
    exact ⟨rfl, hV.write hI ht hl (hcb ▸ hown) (hR.offsets h ht).1 hin⟩

theorem refines_unlink (hR : Refines p s v) {path : Option CString}
    (hD : v.Disciplined p (.unlink path)) {r : Ret} (he : Effect s (.unlink path) r t) :
    r = (v.step p (.unlink path)).1 ∧ View t (v.step p (.unlink path)).2 := by
  have hV := hR.view
  have hI := hR.inv
  cases he with
  | unlinkInvalid hv =>
    have hsame : v.unlinkFile path = (-1, v) := by
      rw [Volume.unlinkFile, fileName_eq_none hv]
    rw [Volume.step, hsame]
    exact ⟨rfl, hV⟩
  | @unlinkMissing q hv hm =>
    have hsame : v.unlinkFile (some q) = (-1, v) := by
      unfold Volume.unlinkFile
      cases hf : fileName (some q) with
      | none => rfl
      | some name =>
        obtain ⟨q', hq', -, hnq⟩ := of_fileName hf
        cases hq'
        simp only [if_neg (hV.not_mem hI hm hnq)]
    rw [Volume.step, hsame]
    exact ⟨rfl, hV⟩
  | @unlinkDone q i n hv hb =>
    obtain ⟨hn0, hn, -⟩ := hI.live_inode hb.live hb.inum
    have hlen := (hI.dir.name i hb.live).2
    rw [hb.name] at hlen
    obtain ⟨name, hname, hq⟩ := fileName_eq hv hlen
    have hbytes : name.bytes = q.tail.bytes := by rw [← hq]
    have hlook : lookup s name.bytes = some n := by
      rw [hbytes]
      exact lookup_of_binds hI.dir hb
    have hafter := lookup_unbind hI hb
    have hsame : v.unlinkFile (some q) = (0, { v with files := v.files.erase name }) := by
      simp only [Volume.unlinkFile, hname, if_pos (hV.mem_files.mpr ⟨n, hlook⟩)]
    rw [Volume.step, hsame]
    refine ⟨rfl, hV.erase (by rw [hafter, if_pos hbytes]) (fun x hx => ?_) (fun x m hx hxm => ?_)
      (fun _ => Iff.rfl) rfl (hD name hname)⟩
    · rw [hafter, if_neg (hbytes ▸ hx)]
    · obtain ⟨hm0, hmt⟩ := hI.lookup_taken hxm
      exact hI.contents_frame hm0 hmt rfl rfl fun x hx => clearEntry_outside hb.live.1 hx

/-! ## Every disciplined run -/

/-- A disciplined client empties no file under a handle. -/
theorem refines_not_cutsBehind (hR : Refines p s v) {op : Op} (hD : v.Disciplined p op) :
    ¬ CutsBehind s op := by
  intro hcut
  obtain ⟨n, hn, h, hlt, htk, hhn, -⟩ := hcut
  obtain ⟨name, hh, hl⟩ := hR.view.handle ⟨hlt, htk⟩
  rw [hhn] at hl
  cases op with
  | «open» path mode =>
    cases path with
    | none => cases hn
    | some q =>
      simp only [emptied] at hn
      split at hn
      · next hv =>
        split at hn
        · next m hm =>
          -- a truncation of the file the handle is open on
          split at hn
          · next ht =>
            cases hn
            have hbytes := hR.inv.lookup_inj hm hl
            have hlen := name.fits
            obtain ⟨name', hname, hq⟩ := fileName_eq hv (by rw [hbytes]; exact hlen)
            refine (hD ht).1 name' hname ⟨h, (s.openFileTable h).ofOffset, ?_⟩
            have : name' = name := FileName.ext_bytes (by rw [hq, hbytes])
            rw [this]
            exact hh
          · cases hn
        · -- a new file takes a free inode, and the handle's is taken
          split at hn
          · exact absurd rfl ((hR.inv.lookup_taken hl).2.ne_free (freeInode_some hn).2)
          · cases hn
      · cases hn
  | close fhandle => cases hn
  | read fhandle len => cases hn
  | write fhandle buffer toWrite => cases hn
  | unlink path => cases hn

theorem refines_not_orphanWrite (hR : Refines p s v) (op : Op) : ¬ OrphanWrite s op := by
  cases op with
  | write fhandle buffer toWrite =>
    intro h
    obtain ⟨-, ht, -, hfree, -⟩ := h
    obtain ⟨name, -, hl⟩ := hR.view.handle ht
    exact (hR.inv.lookup_taken hl).2.ne_free hfree rfl
  | _ => exact id

/-- One call of a disciplined client. -/
theorem refines_step (p : TfsParams) :
    Simulation step (Volume.step p) (Volume.Disciplined p) (Refines p) := by
  intro s v op hR hD
  have hshort : op.Short := by
    cases op with
    | read _ len => exact hD
    | write _ _ toWrite => exact hD
    | _ => trivial
  obtain ⟨r, t, hr⟩ := (hR.offsets.accessSafe hR.inv).completes op hshort
  have he := step_effect hR.inv hr
  have hsim : r = (v.step p op).1 ∧ View t (v.step p op).2 := by
    cases op with
    | «open» path mode => exact refines_open hR hD he
    | close fhandle => exact refines_close hR.view he
    | read fhandle len => exact refines_read hR he
    | write fhandle buffer toWrite => exact refines_write hR hD he
    | unlink path => exact refines_unlink hR hD he
  refine ⟨t, by rw [hr, hsim.1], ?_, hR.inv.effect he, ?_, ?_, hsim.2⟩
  · rw [he.fsParams, hR.params]
  · exact (he.owned_iff hR.inv hR.owned).mpr (refines_not_orphanWrite hR op)
  · exact (he.offsetsOk_iff hR.inv hR.offsets).mpr (refines_not_cutsBehind hR hD)

theorem refines_initial (hp : p.Sane) (h : Initial p s) : Refines p s Volume.empty := by
  have hI := Inv.initial hp h
  have hO := Owned.initial hp h
  have hoff := OffsetsOk.initial h
  obtain ⟨-, -, mem, rfl⟩ := h.formatted
  refine ⟨rfl, hI, hO, hoff, fun name => ?_, fun h => ?_, fun h name offset hh => ?_⟩
  · rw [lookup_of_missing fun i hi => absurd hi (not_live_formatted i)]
    rfl
  · simp [Volume.empty, not_takenHandle_formatted]
  · cases hh

/-- From `tfs_init` on, a disciplined client sees the volume: each call returns,
with the value and the bytes of the volume's call, and no file of the volume is
ever longer than a block. -/
theorem tfs_refines_volume (hp : p.Sane) (h : Initial p s) (ops : List Op)
    (hD : Allowed (Volume.step p) (Volume.Disciplined p) Volume.empty ops) :
    (∃ t, execAll step s ops = .ok ((runAll (Volume.step p) Volume.empty ops).1, t)) ∧
      ∀ name, ((runAll (Volume.step p) Volume.empty ops).2.contents name).length ≤
        p.blockSize := by
  obtain ⟨t, ht, hR⟩ := (refines_step p).run (refines_initial hp h) hD
  refine ⟨⟨t, ht⟩, fun name => ?_⟩
  rw [Volume.contents, hR.view.files]
  cases hl : lookup t name.bytes with
  | none => exact Nat.zero_le _
  | some n =>
    have hsz := hR.inv.blocks.size n (hR.inv.lookup_taken hl).2
    rw [hR.params] at hsz
    rw [Option.map_some, Option.getD_some, contents_length]
    exact hsz

/-- A file made, written, read back through a second handle, and unlinked once
both handles are closed. -/
theorem tfs_refines_volume_small :
    (∃ t, execAll step small [.open (some pathA) tfsOCreat, .write 0 (fun _ => 7) 5,
      .open (some pathA) 0, .read 1 9, .close 0, .close 1, .unlink (some pathA)] =
      .ok ([⟨0, []⟩, ⟨5, []⟩, ⟨1, []⟩, ⟨5, [7, 7, 7, 7, 7]⟩, ⟨0, []⟩, ⟨0, []⟩, ⟨0, []⟩], t)) ∧
      ∀ name, ((runAll (Volume.step smallParams) Volume.empty [.open (some pathA) tfsOCreat,
        .write 0 (fun _ => 7) 5, .open (some pathA) 0, .read 1 9, .close 0, .close 1,
        .unlink (some pathA)]).2.contents name).length ≤ smallParams.blockSize := by
  apply tfs_refines_volume smallParams_sane initial_small _
  refine ⟨fun ht => absurd ht (by decide), (by decide : 5 < 2 ^ 63),
    fun ht => absurd ht (by decide), (by decide : 9 < 2 ^ 63), trivial, trivial, ?_, trivial⟩
  -- no handle is left open
  rintro name - ⟨h, offset, hh⟩
  match h, hh with
  | 0, hh => cases hh
  | 1, hh => cases hh
  | _ + 2, hh => cases hh

end MBroker.Fs
