import MBroker.Fs.Board
import MBroker.Fs.Refines

/- What TecnicoFS keeps of its past. Two states that look the same from outside may have
   their files on other inodes and other blocks and in other directory slots, and other
   bytes in the blocks that are free. A disciplined client can never tell: the same calls
   return the same from both, and leave them looking the same (`history_independent`). -/
namespace MBroker.Fs
open MBroker.Lib Function

/-- The same names with the same bytes, and the same handles on the same names at the same
offsets. -/
structure Alike (s t : FsState) : Prop where
  files : fileAt s = fileAt t
  taken : ∀ h, TakenHandle s h ↔ TakenHandle t h
  offset : ∀ h, TakenHandle s h → (s.openFileTable h).ofOffset = (t.openFileTable h).ofOffset
  name : ∀ h x, TakenHandle s h →
    (lookup s x = some (handleInode s h) ↔ lookup t x = some (handleInode t h))

variable {p : TfsParams} {s t s₀ t₀ : FsState} {v w : Volume}

/-- A name in the directory is one that an entry can hold. -/
theorem exists_fileName (hI : Inv s) {x : List UInt8} {n : Nat} (hl : lookup s x = some n) :
    ∃ name : FileName, name.bytes = x := by
  obtain ⟨i, hb⟩ := (lookup_eq_some hI.dir).mp hl
  obtain ⟨hpos, hlen⟩ := hI.dir.name i hb.live
  rw [hb.name] at hpos hlen
  have hnul : 0 ∉ x := by
    rw [← hb.name]
    exact Mem.zero_not_mem_cstr _ _ _
  exact ⟨⟨⟨x, hnul⟩, hpos, hlen⟩, rfl⟩

theorem Refines.fileAt_eq (hR : Refines p s v) (name : FileName) :
    fileAt s name.bytes = v.files.lookup name := (hR.view.files name).symm

/-- A volume says all there is to see. -/
theorem Refines.volume_eq (hs : Refines p s v) (ht : Refines p t w) (h : Alike s t) : v = w := by
  have hfiles : v.files = w.files := by
    apply Finmap.ext_lookup
    intro name
    rw [← hs.fileAt_eq, ← ht.fileAt_eq, h.files]
  have hhandles : v.handles = w.handles := by
    funext g
    by_cases hg : TakenHandle s g
    · obtain ⟨name, hv, hl⟩ := hs.view.handle hg
      obtain ⟨name', hw, hl'⟩ := ht.view.handle ((h.taken g).mp hg)
      have hname : name = name' :=
        FileName.ext_bytes (ht.inv.lookup_inj ((h.name g _ hg).mp hl) hl')
      rw [hv, hw, hname, h.offset g hg]
    · have hno : ¬ TakenHandle t g := fun ht => hg ((h.taken g).mpr ht)
      rw [(hs.view.closed g).mpr hg, (ht.view.closed g).mpr hno]
  cases v
  cases w
  exact congrArg₂ Volume.mk hfiles hhandles

theorem Refines.alike (hs : Refines p s v) (ht : Refines p t v) : Alike s t := by
  have htaken : ∀ h, TakenHandle s h ↔ TakenHandle t h := by
    intro h
    rw [← not_iff_not, ← hs.view.closed, ← ht.view.closed]
  refine ⟨?_, htaken, ?_, ?_⟩
  · funext x
    by_cases hx : ∃ name : FileName, name.bytes = x
    · obtain ⟨name, rfl⟩ := hx
      rw [hs.fileAt_eq, ht.fileAt_eq]
    · -- neither directory can have such a name
      have hnone : ∀ {u : FsState}, Inv u → fileAt u x = none := by
        intro u hI
        unfold fileAt
        rw [Option.map_eq_none_iff, Option.eq_none_iff_forall_ne_some]
        intro n hn
        exact hx (exists_fileName hI hn)
      rw [hnone hs.inv, hnone ht.inv]
  · intro h hh
    obtain ⟨name, hv, -⟩ := hs.view.handle hh
    obtain ⟨name', hw, -⟩ := ht.view.handle ((htaken h).mp hh)
    rw [hv, Option.some.injEq, Prod.mk.injEq] at hw
    exact hw.2
  · intro h x hh
    obtain ⟨name, hv, hl⟩ := hs.view.handle hh
    obtain ⟨name', hw, hl'⟩ := ht.view.handle ((htaken h).mp hh)
    rw [hv, Option.some.injEq, Prod.mk.injEq] at hw
    rw [← hw.1] at hl'
    refine ⟨?_, ?_⟩
    · intro hx
      rw [hs.inv.lookup_inj hx hl]
      exact hl'
    · intro hx
      rw [ht.inv.lookup_inj hx hl']
      exact hl

/-- Whatever two disciplined histories were, where they have come to look the same they
stay so: the same calls return the same. -/
theorem history_independent (hp : p.Sane) (hs₀ : Initial p s₀) (ht₀ : Initial p t₀)
    {before before' after : List Op} {rs rs' : List Ret}
    (hD : Allowed (Volume.step p) (Volume.Disciplined p) .empty before)
    (hD' : Allowed (Volume.step p) (Volume.Disciplined p) .empty before')
    (hafter : Allowed (Volume.step p) (Volume.Disciplined p)
      (runAll (Volume.step p) .empty before).2 after)
    (hs : execAll step s₀ before = .ok (rs, s)) (ht : execAll step t₀ before' = .ok (rs', t))
    (h : Alike s t) :
    ∃ rs'' s' t', execAll step s after = .ok (rs'', s') ∧ execAll step t after = .ok (rs'', t') ∧
      Alike s' t' := by
  obtain ⟨s₁, hs₁, hRs⟩ := (refines_step p).run (refines_initial hp hs₀) hD
  obtain ⟨t₁, ht₁, hRt⟩ := (refines_step p).run (refines_initial hp ht₀) hD'
  rw [hs] at hs₁
  rw [ht] at ht₁
  cases hs₁
  cases ht₁
  -- both histories come to the one volume
  have heq := hRs.volume_eq hRt h
  rw [← heq] at hRt
  obtain ⟨s', hs', hRs'⟩ := (refines_step p).run hRs hafter
  obtain ⟨t', ht', hRt'⟩ := (refines_step p).run hRt hafter
  exact ⟨_, s', t', hs', ht', hRs'.alike hRt'⟩

/-! ### A file that has come and gone -/

/-- `/b` after a file that is gone: not on the first inode, and not on the first block. -/
def roundabout : List Op := [.open (some pathA) tfsOCreat, .write 0 (fun _ => 7) 3,
  .open (some pathB) tfsOCreat, .write 1 (fun _ => 8) 2, .close 0, .unlink (some pathA), .close 1]

def direct : List Op := [.open (some pathB) tfsOCreat, .write 0 (fun _ => 8) 2, .close 0]

theorem direct_allowed : Allowed (Volume.step smallParams) (Volume.Disciplined smallParams)
    .empty direct :=
  ⟨fun ht => absurd ht (by decide), (by decide : 2 < 2 ^ 63), trivial, trivial⟩

theorem roundabout_allowed : Allowed (Volume.step smallParams) (Volume.Disciplined smallParams)
    .empty roundabout := by
  refine ⟨fun ht => absurd ht (by decide), (by decide : 3 < 2 ^ 63),
    fun ht => absurd ht (by decide), (by decide : 2 < 2 ^ 63), trivial, ?_, trivial, trivial⟩
  -- the handle on `/a` is closed
  rintro name hname ⟨h, offset, hh⟩
  match h, hh with
  | 0, hh => cases hh
  | 1, hh =>
    cases hname
    have hfile : Option.map Prod.fst _ = some (⟨pathA.tail, by decide, by decide⟩ : FileName) :=
      congrArg (Option.map Prod.fst) hh
    exact absurd hfile (by decide)
  | _ + 2, hh => cases hh

theorem roundabout_eq_direct : (runAll (Volume.step smallParams) .empty roundabout).2 =
    (runAll (Volume.step smallParams) .empty direct).2 := by
  refine congrArg₂ Volume.mk ?_ ?_
  · decide
  · funext h
    match h with
    | 0 => rfl
    | 1 => rfl
    | _ + 2 => rfl

theorem history_independent_gone :
    ∃ rs s rs' t rs'' s' t', execAll step small roundabout = .ok (rs, s) ∧
      execAll step small direct = .ok (rs', t) ∧
      execAll step s [.open (some pathB) 0, .read 0 9] = .ok (rs'', s') ∧
      execAll step t [.open (some pathB) 0, .read 0 9] = .ok (rs'', t') ∧ Alike s' t' := by
  obtain ⟨s, hs, hRs⟩ := (refines_step smallParams).run
    (refines_initial smallParams_sane initial_small) roundabout_allowed
  obtain ⟨t, ht, hRt⟩ := (refines_step smallParams).run
    (refines_initial smallParams_sane initial_small) direct_allowed
  rw [← roundabout_eq_direct] at hRt
  have hafter : Allowed (Volume.step smallParams) (Volume.Disciplined smallParams)
      (runAll (Volume.step smallParams) .empty roundabout).2
      [.open (some pathB) 0, .read 0 9] :=
    ⟨fun ht => absurd ht (by decide), (by decide : 9 < 2 ^ 63), trivial⟩
  obtain ⟨rs'', s', t', hs', ht', hsame⟩ := history_independent smallParams_sane initial_small
    initial_small roundabout_allowed direct_allowed hafter hs ht (hRs.alike hRt)
  exact ⟨_, s, _, t, rs'', s', t', hs, ht, hs', ht', hsame⟩

end MBroker.Fs
