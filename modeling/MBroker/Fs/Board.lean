import MBroker.Fs.Creations
import MBroker.Lib.Board

/- The files as a board: each call of TecnicoFS that succeeds is one post, or none. A file
   that is unlinked goes from the board whoever has it open, and a message written at the
   end of a file is cut at the block. -/
namespace MBroker.Fs
open MBroker.Lib Function

/-- What each file holds. -/
def fileAt (s : FsState) : Board (List UInt8) UInt8 := fun x => (lookup s x).map (contents s)

variable {s t : FsState} {p : CString}

theorem fileAt_of_lookup {x : List UInt8} {n : Nat} (h : lookup s x = some n) :
    fileAt s x = some (contents s n) := by
  unfold fileAt
  rw [h]
  rfl

theorem fileAt_openHandle (s : FsState) (h n offset : Nat) :
    fileAt (s.openHandle h n offset) = fileAt s := rfl

theorem fileAt_read (hI : Inv s) {fhandle r : Int} {len : Nat} {bytes : List UInt8}
    (h : tfsRead s fhandle len = .ok ((r, bytes), t)) : fileAt t = fileAt s := by
  have hst : step s (.read fhandle len) = .ok (⟨r, bytes⟩, t) := by
    simp only [step, h]
    rfl
  cases step_effect hI hst with
  | readBad | readNone | readSome => rfl

/-- A file made, or found. -/
theorem fileAt_create (hI : Inv s) (hc : Creatable s p) {h : Nat}
    (hopen : tfsOpen s (some p) tfsOCreat = .ok ((h : Int), t)) :
    fileAt t = (fileAt s).post 1024 (.create p.tail.bytes) := by
  obtain ⟨hv, hh, hfile⟩ := hc
  obtain ⟨g, hh⟩ := Option.ne_none_iff_exists'.mp hh
  cases hl : lookup s p.tail.bytes with
  | some n =>
    obtain ⟨i, hb⟩ := (lookup_eq_some hI.dir).mp hl
    have hcut : s.cut tfsOCreat n = s := cut_eq_self _ _ rfl
    rw [tfsOpen_found hI hv hb, hcut, addToOpenFileTable_of_some hh] at hopen
    cases hopen
    rw [fileAt_openHandle]
    funext x
    by_cases hx : x = p.tail.bytes
    · rw [hx, Board.post_create, fileAt_of_lookup hl, Option.getD_some]
    · rw [Board.post_ne hx]
  | none =>
    obtain ⟨hn, hlen, hi⟩ := hfile.resolve_left (absurd hl)
    obtain ⟨n, hn⟩ := Option.ne_none_iff_exists'.mp hn
    obtain ⟨i, hi⟩ := Option.ne_none_iff_exists'.mp hi
    have hm := (lookup_eq_none hI.dir).mp hl
    have hlen1 : 1 ≤ p.tail.bytes.length := validPathname_tail hv
    obtain ⟨hlt, hfree⟩ := freeInode_some hn
    obtain ⟨hid, hempty, hfirst⟩ := emptySlot_some hi
    have hbind := hI.bindName (hI.base.freeInode_pos hn) hlt hfree hid hempty hfirst
      ⟨hlen1, hlen⟩ hm
    have hh' : freeHandle (s.bindName i n p.tail) = some g := hh
    rw [tfsOpen_created hI hv hm rfl hn hlen hi, addToOpenFileTable_of_some hh'] at hopen
    cases hopen
    have hcreated := Created.bindName hI hn hi ⟨hlen1, hlen⟩
    rw [fileAt_openHandle]
    funext x
    have hlookup := lookup_bindName hI hbind hn hi hlen x
    by_cases hx : x = p.tail.bytes
    · -- the new file is empty
      have hnone : fileAt s p.tail.bytes = none := by
        unfold fileAt
        rw [hl]
        rfl
      rw [if_pos hx, hx] at hlookup
      rw [hx, Board.post_create, hnone, fileAt_of_lookup hlookup, contents_eq_nil.mpr hcreated.size]
      rfl
    · rw [Board.post_ne hx]
      rw [if_neg hx] at hlookup
      unfold fileAt
      rw [hlookup]
      apply Option.map_congr
      intro m hlm
      obtain ⟨hm0, htaken⟩ := hI.lookup_taken hlm
      exact (hcreated.files m hm0 htaken).2

theorem fileAt_unlink (hI : Inv s) (hr : Removable s p)
    (hunlink : tfsUnlink s (some p) = .ok (0, t)) :
    fileAt t = (fileAt s).post 1024 (.remove p.tail.bytes) := by
  obtain ⟨hv, hl⟩ := hr
  obtain ⟨n, hl⟩ := Option.ne_none_iff_exists'.mp hl
  obtain ⟨i, hb⟩ := (lookup_eq_some hI.dir).mp hl
  rw [tfsUnlink_found hI hv hb] at hunlink
  cases hunlink
  funext x
  have hlookup := lookup_unbind hI hb x
  by_cases hx : x = p.tail.bytes
  · rw [if_pos hx] at hlookup
    rw [hx, Board.post_remove, ← hx]
    unfold fileAt
    rw [hlookup]
    rfl
  · rw [if_neg hx] at hlookup
    rw [Board.post_ne hx]
    unfold fileAt
    rw [hlookup]
    apply Option.map_congr
    intro m hlm
    obtain ⟨hm0, htaken⟩ := hI.lookup_taken hlm
    exact hI.contents_frame hm0 htaken rfl rfl fun y hy => clearEntry_outside hb.live.1 hy

/-! ## Names and handles that are left alone -/

/-- A file made, or found, leaves the others where they were. -/
theorem lookup_create (hI : Inv s) (hc : Creatable s p) {h n : Nat} {x : List UInt8}
    (hopen : tfsOpen s (some p) tfsOCreat = .ok ((h : Int), t)) (hl : lookup s x = some n) :
    lookup t x = some n := by
  obtain ⟨hv, hh, hfile⟩ := hc
  obtain ⟨g, hh⟩ := Option.ne_none_iff_exists'.mp hh
  cases hp : lookup s p.tail.bytes with
  | some m =>
    obtain ⟨i, hb⟩ := (lookup_eq_some hI.dir).mp hp
    have hcut : s.cut tfsOCreat m = s := cut_eq_self _ _ rfl
    rw [tfsOpen_found hI hv hb, hcut, addToOpenFileTable_of_some hh] at hopen
    cases hopen
    exact hl
  | none =>
    obtain ⟨hn, hlen, hi⟩ := hfile.resolve_left (absurd hp)
    obtain ⟨m, hn⟩ := Option.ne_none_iff_exists'.mp hn
    obtain ⟨i, hi⟩ := Option.ne_none_iff_exists'.mp hi
    have hm := (lookup_eq_none hI.dir).mp hp
    obtain ⟨hlt, hfree⟩ := freeInode_some hn
    obtain ⟨hid, hempty, hfirst⟩ := emptySlot_some hi
    have hbind := hI.bindName (hI.base.freeInode_pos hn) hlt hfree hid hempty hfirst
      ⟨validPathname_tail hv, hlen⟩ hm
    have hh' : freeHandle (s.bindName i m p.tail) = some g := hh
    rw [tfsOpen_created hI hv hm rfl hn hlen hi, addToOpenFileTable_of_some hh'] at hopen
    cases hopen
    have hx := lookup_bindName hI hbind hn hi hlen x
    have hne : x ≠ p.tail.bytes := by
      rintro rfl
      rw [hp] at hl
      cases hl
    rw [if_neg hne] at hx
    exact hx.trans hl

theorem lookup_unlink (hI : Inv s) (hr : Removable s p) {n : Nat} {x : List UInt8}
    (hunlink : tfsUnlink s (some p) = .ok (0, t)) (hl : lookup s x = some n)
    (hx : x ≠ p.tail.bytes) : lookup t x = some n := by
  obtain ⟨hv, hp⟩ := hr
  obtain ⟨m, hp⟩ := Option.ne_none_iff_exists'.mp hp
  obtain ⟨i, hb⟩ := (lookup_eq_some hI.dir).mp hp
  rw [tfsUnlink_found hI hv hb] at hunlink
  cases hunlink
  have hlookup := lookup_unbind hI hb x
  rw [if_neg hx] at hlookup
  exact hlookup.trans hl

/-- The handle a call is on. -/
def Op.handle? : Op → Option Int
  | .open _ _ | .unlink _ => none
  | .close fhandle | .read fhandle _ | .write fhandle _ _ => some fhandle

theorem addToOpenFileTable_other {g n offset : Nat} (hg : TakenHandle s g) :
    (addToOpenFileTable s n offset).2.openFileTable g = s.openFileTable g := by
  cases hh : freeHandle s with
  | none => rw [addToOpenFileTable_of_none hh]
  | some h =>
    have hne : g ≠ h := hg.ne_free (freeHandle_some hh).2
    rw [addToOpenFileTable_of_some hh]
    exact update_of_ne hne _ _

/-- A call that is not on a handle leaves its entry as it is. -/
theorem Effect.openFile {op : Op} {r : Ret} {g : Nat} (he : Effect s op r t)
    (hg : TakenHandle s g) (hop : op.handle? ≠ some g) :
    t.openFileTable g = s.openFileTable g := by
  cases he with
  | @openFound q mode i n hv hb =>
    have hcut : TakenHandle (s.cut mode n) g := by
      unfold TakenHandle
      rw [cut_fsParams, cut_freeOpenFileEntries]
      exact hg
    exact (addToOpenFileTable_other hcut).trans (congrFun (cut_openFileTable s mode n) g)
  | openCreated hv hm hc hn hl he => exact addToOpenFileTable_other (s := s.bindName _ _ _) hg
  | @readSome h | @writeFirst h | @writeOver h =>
    have hne : g ≠ h := by
      rintro rfl
      exact hop rfl
    exact update_of_ne hne _ _
  | _ => rfl

end MBroker.Fs
