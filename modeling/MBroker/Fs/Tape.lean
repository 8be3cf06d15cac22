import MBroker.Fs.Refines
import MBroker.Lib.Tape

/- What a handle is to the one that has it: a tape of its own. Between the calls on the
   handle there may be any calls on other files and handles, so long as the file is not
   written through another handle: what the calls on the handle return and what becomes of
   the file is what the tape says (`private_tape`). So the bytes written through a handle,
   in any pieces, are the bytes read from there through another (`written_is_read`). -/
namespace MBroker.Fs
open MBroker.Lib Function

/-- The access that a call on handle `h` is. -/
def Op.access? (h : Nat) : Op → Option (Access UInt8)
  | .read fhandle len => if fhandle = h then some (.read len) else none
  | .write fhandle buffer toWrite =>
    if fhandle = h then some (.write (Mem.read buffer 0 toWrite)) else none
  | .open _ _ | .close _ | .unlink _ => none

theorem Op.of_access {h : Nat} {op : Op} {a : Access UInt8} (hop : op.access? h = some a) :
    (∃ len, op = .read h len ∧ a = .read len) ∨
      ∃ buffer toWrite, op = .write h buffer toWrite ∧
        a = .write (Mem.read buffer 0 toWrite) := by
  cases op with
  | «open» | close | unlink => cases hop
  | read fhandle len =>
    rw [Op.access?, Option.ite_none_right_eq_some, Option.some.injEq] at hop
    obtain ⟨rfl, rfl⟩ := hop
    exact .inl ⟨len, rfl, rfl⟩
  | write fhandle buffer toWrite =>
    rw [Op.access?, Option.ite_none_right_eq_some, Option.some.injEq] at hop
    obtain ⟨rfl, rfl⟩ := hop
    exact .inr ⟨buffer, toWrite, rfl, rfl⟩

/-- What the calls on handle `h` return. -/
def returned (h : Nat) : List Op → List Ret → List Ret
  | op :: ops, r :: rs =>
    if (op.access? h).isSome then r :: returned h ops rs else returned h ops rs
  | _, _ => []

/-- What an access of a tape gets, as a call returns it. -/
def Ret.of (got : Nat × List UInt8) : Ret := ⟨got.1, got.2⟩

namespace Volume

/-- Handle `h` is at the head of the tape that the file `x` is. -/
structure At (v : Volume) (h : Nat) (x : FileName) (t : Tape UInt8) : Prop where
  handle : v.handles h = some (x, t.pos)
  held : v.files.lookup x = some t.held

/-- The disciplined calls that leave handle `h` open, do not write its file `x` through
another handle, and write it only where there is a block for it. -/
structure Yields (p : TfsParams) (h : Nat) (x : FileName) (v : Volume) (op : Op) : Prop where
  disciplined : Disciplined p v op
  close : op ≠ .close h
  write : ∀ fhandle buffer toWrite offset, op = .write fhandle buffer toWrite → fhandle ≠ h →
    v.opened fhandle ≠ some (x, offset)
  room : ∀ buffer toWrite, op = .write h buffer toWrite →
    v.contents x ≠ [] ∨ v.nonEmpty.card < maxNonEmpty p

variable {p : TfsParams} {v : Volume} {h : Nat} {x name : FileName} {t : Tape UInt8}

theorem At.pos_eq {pos : Nat} (hA : v.At h x t) (hopen : v.handles h = some (x, pos)) :
    pos = t.pos := by
  have heq := hopen.symm.trans hA.handle
  rw [Option.some.injEq, Prod.mk.injEq] at heq
  exact heq.2

theorem At.contents (hA : v.At h x t) : v.contents x = t.held := by
  unfold Volume.contents
  rw [hA.held]
  rfl

theorem At.opened (hA : v.At h x t) : v.opened h = some (x, t.pos) := by
  unfold Volume.opened
  rw [if_pos (Int.natCast_nonneg h), Int.toNat_natCast]
  exact hA.handle

theorem At.put (hA : v.At h x t) (hne : x ≠ name) (bytes : List UInt8) :
    (v.put name bytes).At h x t :=
  ⟨hA.handle, (Finmap.lookup_insert_of_ne _ hne).trans hA.held⟩

theorem At.seek (hA : v.At h x t) {g : Nat} (hne : h ≠ g) (offset : Nat) :
    (v.seek g name offset).At h x t :=
  ⟨(update_of_ne hne _ _).trans hA.handle, hA.held⟩

theorem At.enter (hA : v.At h x t) (offset : Nat) : (v.enter p name offset).2.At h x t := by
  unfold Volume.enter
  cases hunused : v.unused p with
  | none => exact hA
  | some g =>
    refine hA.seek ?_ offset
    rintro rfl
    have hnone := (firstIndex_eq_some.mp hunused).2.1
    rw [hA.handle] at hnone
    cases hnone

theorem At.openFile (hA : v.At h x t) {path : Option CString} {mode : BitVec 32}
    (hD : Disciplined p v (.open path mode)) : (v.openFile p path mode).2.At h x t := by
  unfold Volume.openFile
  cases hname : fileName path with
  | none => exact hA
  | some name =>
    dsimp only
    by_cases hmem : name ∈ v.files
    · rw [if_pos hmem]
      split
      · exact hA
      · apply At.enter
        split
        · next htrunc =>
          -- the file is open, so it is another that is cut
          have hopen := (hD htrunc).1 name hname
          refine hA.put ?_ []
          rintro rfl
          exact hopen ⟨h, t.pos, hA.handle⟩
        · exact hA
    · rw [if_neg hmem]
      split
      · refine (hA.put ?_ []).enter 0
        rintro rfl
        exact hmem (Finmap.mem_of_lookup_eq_some hA.held)
      · exact hA

theorem At.unlinkFile (hA : v.At h x t) {path : Option CString}
    (hD : Disciplined p v (.unlink path)) : (v.unlinkFile path).2.At h x t := by
  unfold Volume.unlinkFile
  cases hname : fileName path with
  | none => exact hA
  | some name =>
    dsimp only
    split
    · have hne : x ≠ name := by
        rintro rfl
        exact hD x hname ⟨h, t.pos, hA.handle⟩
      exact ⟨hA.handle, (Finmap.lookup_erase_ne hne).trans hA.held⟩
    · exact hA

theorem opened_eq_some {fhandle : Int} {entry : FileName × Nat}
    (h : v.opened fhandle = some entry) :
    ∃ g : Nat, fhandle = g ∧ v.handles g = some entry := by
  unfold Volume.opened at h
  split at h
  · next hnonneg => exact ⟨fhandle.toNat, (Int.toNat_of_nonneg hnonneg).symm, h⟩
  · cases h

theorem At.closeFile (hA : v.At h x t) {fhandle : Int} (hne : fhandle ≠ h) :
    (v.closeFile fhandle).2.At h x t := by
  unfold Volume.closeFile
  cases hopened : v.opened fhandle with
  | none => exact hA
  | some entry =>
    obtain ⟨g, rfl, -⟩ := opened_eq_some hopened
    have hg : h ≠ g := fun heq => hne (congrArg _ heq.symm)
    exact ⟨(update_of_ne hg _ _).trans hA.handle, hA.held⟩

theorem At.readFile (hA : v.At h x t) {fhandle : Int} {len : Nat} (hne : fhandle ≠ h) :
    (v.readFile fhandle len).2.At h x t := by
  unfold Volume.readFile
  cases hopened : v.opened fhandle with
  | none => exact hA
  | some entry =>
    obtain ⟨g, rfl, -⟩ := opened_eq_some hopened
    exact hA.seek (fun heq => hne (congrArg _ heq.symm)) _

theorem At.writeFile (hA : v.At h x t) {fhandle : Int} {buffer : Nat → UInt8} {toWrite : Nat}
    (hne : fhandle ≠ h) (hother : ∀ offset, v.opened fhandle ≠ some (x, offset)) :
    (v.writeFile p fhandle buffer toWrite).2.At h x t := by
  unfold Volume.writeFile
  cases hopened : v.opened fhandle with
  | none => exact hA
  | some entry =>
    obtain ⟨name, offset⟩ := entry
    obtain ⟨g, rfl, -⟩ := opened_eq_some hopened
    have hx : x ≠ name := by
      rintro rfl
      exact hother offset hopened
    dsimp only
    split
    · exact hA
    · split
      · exact hA
      · exact (hA.put hx _).seek (fun heq => hne (congrArg _ heq.symm)) _

/-- A call that is not on the handle leaves the tape as it is. -/
theorem At.elsewhere (hA : v.At h x t) {op : Op} (hY : v.Yields p h x op)
    (hop : op.access? h = none) : (v.step p op).2.At h x t := by
  cases op with
  | «open» path mode => exact hA.openFile hY.disciplined
  | close fhandle => exact hA.closeFile fun heq => hY.close (congrArg _ heq)
  | unlink path => exact hA.unlinkFile hY.disciplined
  | read fhandle len =>
    refine hA.readFile fun heq => ?_
    simp only [Op.access?, if_pos heq, reduceCtorEq] at hop
  | write fhandle buffer toWrite =>
    have hne : fhandle ≠ h := by
      intro heq
      simp only [Op.access?, if_pos heq, reduceCtorEq] at hop
    exact hA.writeFile hne fun offset => hY.write _ _ _ offset rfl hne

theorem At.read (hA : v.At h x t) (len : Nat) :
    (v.readFile h len).1 = .of (t.access p.blockSize (.read len)).1 ∧
      (v.readFile h len).2.At h x (t.access p.blockSize (.read len)).2 := by
  unfold Volume.readFile
  rw [hA.opened]
  dsimp only
  rw [hA.contents]
  exact ⟨rfl, update_self .., hA.held⟩

theorem At.write (hA : v.At h x t) (buffer : Nat → UInt8) (toWrite : Nat)
    (hroom : v.contents x ≠ [] ∨ v.nonEmpty.card < maxNonEmpty p) :
    (⟨(v.writeFile p h buffer toWrite).1, []⟩ : Ret) =
        .of (t.access p.blockSize (.write (Mem.read buffer 0 toWrite))).1 ∧
      (v.writeFile p h buffer toWrite).2.At h x
        (t.access p.blockSize (.write (Mem.read buffer 0 toWrite))).2 := by
  have hdata : Mem.read buffer 0 (min toWrite (p.blockSize - t.pos)) =
      (Mem.read buffer 0 toWrite).take (p.blockSize - t.pos) := by
    have hcut := Mem.read_drop_take buffer 0 toWrite 0 (p.blockSize - t.pos)
    rw [List.drop_zero, Nat.add_zero, Nat.sub_zero, Nat.min_comm] at hcut
    exact hcut.symm
  unfold Volume.writeFile
  rw [hA.opened]
  dsimp only
  rw [hdata]
  by_cases hnil : (Mem.read buffer 0 toWrite).take (p.blockSize - t.pos) = []
  · rw [if_pos hnil]
    refine ⟨?_, ?_⟩
    · simp only [Ret.of, Tape.access, hnil]
      rfl
    · simp only [Tape.access, hnil, Tape.splice_nil]
      exact hA
  · have hgo : ¬ (v.contents x = [] ∧ maxNonEmpty p ≤ v.nonEmpty.card) := by
      rintro ⟨hempty, hfull⟩
      rcases hroom with hne | hlt
      · exact hne hempty
      · omega
    rw [if_neg hnil, if_neg hgo, hA.contents]
    exact ⟨rfl, update_self .., Finmap.lookup_insert _⟩

/-- One call, with the access it is or is not. -/
theorem At.step (hA : v.At h x t) {op : Op} (hY : v.Yields p h x op) {a : Access UInt8}
    (hop : op.access? h = some a) :
    (v.step p op).1 = .of (t.access p.blockSize a).1 ∧
      (v.step p op).2.At h x (t.access p.blockSize a).2 := by
  obtain ⟨len, rfl, rfl⟩ | ⟨buffer, toWrite, rfl, rfl⟩ := Op.of_access hop
  · exact hA.read len
  · exact hA.write buffer toWrite (hY.room buffer toWrite rfl)

/-- What calls on the handle return, and the tape that they leave. -/
theorem At.run (hA : v.At h x t) {ops : List Op}
    (hY : Allowed (Volume.step p) (Yields p h x) v ops) :
    returned h ops (runAll (Volume.step p) v ops).1 =
        (runAll (Tape.access p.blockSize) t (ops.filterMap (Op.access? h))).1.map .of ∧
      (runAll (Volume.step p) v ops).2.At h x
        (runAll (Tape.access p.blockSize) t (ops.filterMap (Op.access? h))).2 := by
  induction ops generalizing v t with
  | nil => exact ⟨rfl, hA⟩
  | cons op ops ih =>
    obtain ⟨hnow, hrest⟩ := hY
    cases hop : op.access? h with
    | none =>
      obtain ⟨hreturned, hat⟩ := ih (hA.elsewhere hnow hop) hrest
      rw [List.filterMap_cons_none hop]
      refine ⟨?_, hat⟩
      simp only [runAll, returned, hop]
      exact hreturned
    | some a =>
      obtain ⟨hgot, hnext⟩ := hA.step hnow hop
      obtain ⟨hreturned, hat⟩ := ih hnext hrest
      rw [List.filterMap_cons_some hop]
      refine ⟨?_, hat⟩
      simp only [runAll, returned, hop, Option.isSome_some, if_true, List.map_cons,
        List.cons.injEq]
      exact ⟨hgot, hreturned⟩

theorem Yields.allowed {ops : List Op} (hY : Allowed (Volume.step p) (Yields p h x) v ops) :
    Allowed (Volume.step p) (Disciplined p) v ops := by
  induction ops generalizing v with
  | nil => trivial
  | cons op ops ih => exact ⟨hY.1.disciplined, ih hY.2⟩

end Volume

/-! ## On the code -/

variable {p : TfsParams} {s s₀ : FsState} {v : Volume} {h g pos : Nat} {x : FileName}

/-- The file that handle `h` is open on, at the handle's offset. -/
def tapeOf (s : FsState) (h : Nat) : Tape UInt8 :=
  ⟨contents s (handleInode s h), (s.openFileTable h).ofOffset⟩

theorem Refines.tapeOf (hR : Refines p s v) (hopen : v.handles h = some (x, pos)) :
    v.At h x (tapeOf s h) := by
  obtain ⟨hpos, hl⟩ := hR.view.opened h x pos hopen
  refine ⟨?_, ?_⟩
  · rw [hopen, hpos]
    rfl
  · rw [hR.view.files, hl]
    rfl

theorem Refines.tape_eq (hR : Refines p s v) {t : Tape UInt8} (hA : v.At h x t) :
    Fs.tapeOf s h = t := by
  have hat := hR.tapeOf hA.handle
  have hheld : (Fs.tapeOf s h).held = t.held := Option.some.inj (hat.held.symm.trans hA.held)
  exact congrArg₂ Tape.mk hheld (hat.pos_eq hA.handle).symm

theorem Refines.fits (hR : Refines p s v) (hopen : v.handles h = some (x, pos)) :
    (Fs.tapeOf s h).Fits p.blockSize := by
  have ht : TakenHandle s h := by
    by_contra hno
    rw [(hR.view.closed h).mpr hno] at hopen
    cases hopen
  obtain ⟨hoffset, hsize⟩ := hR.offsets h ht
  rw [hR.params] at hsize
  refine ⟨?_, ?_⟩
  · rw [Fs.tapeOf, contents_length]
    exact hoffset
  · rw [Fs.tapeOf, contents_length]
    exact hsize

/-- From any point a disciplined client comes to, the calls on a handle return what accesses
of a tape get, and leave the file and the offset as those leave the tape, whatever calls on
other files and handles come between them. -/
theorem private_tape (hp : p.Sane) (h₀ : Initial p s₀) {before ops : List Op}
    (hD : Allowed (Volume.step p) (Volume.Disciplined p) .empty before)
    (hopen : (runAll (Volume.step p) .empty before).2.handles h = some (x, pos))
    (hY : Allowed (Volume.step p) (Volume.Yields p h x)
      (runAll (Volume.step p) .empty before).2 ops) :
    ∃ rs s rs' t, execAll step s₀ before = .ok (rs, s) ∧ execAll step s ops = .ok (rs', t) ∧
      returned h ops rs' = (runAll (Tape.access p.blockSize) (tapeOf s h)
        (ops.filterMap (Op.access? h))).1.map .of ∧
      tapeOf t h = (runAll (Tape.access p.blockSize) (tapeOf s h)
        (ops.filterMap (Op.access? h))).2 := by
  obtain ⟨s, hs, hR⟩ := (refines_step p).run (refines_initial hp h₀) hD
  obtain ⟨t, ht, hR'⟩ := (refines_step p).run hR (Volume.Yields.allowed hY)
  obtain ⟨hreturned, hat⟩ := (hR.tapeOf hopen).run hY
  exact ⟨_, s, _, t, hs, ht, hreturned, hR'.tape_eq hat⟩

def nameA : FileName := ⟨pathA.tail, by decide, by decide⟩

/-- `/a` is made, and opened once more. -/
def twiceOpen : List Op := [.open (some pathA) tfsOCreat, .open (some pathA) 0]

def writing : List Op := [.write 0 (fun _ => 7) 3, .open (some pathB) tfsOCreat,
  .write 2 (fun _ => 8) 1, .write 0 (fun _ => 9) 2]

def reading : List Op := [.read 1 4, .close 0, .read 1 1]

theorem twiceOpen_allowed : Allowed (Volume.step smallParams) (Volume.Disciplined smallParams)
    .empty twiceOpen :=
  ⟨fun ht => absurd ht (by decide), fun ht => absurd ht (by decide), trivial⟩

theorem twiceOpen_first :
    (runAll (Volume.step smallParams) .empty twiceOpen).2.handles 0 = some (nameA, 0) := by
  decide

theorem writing_yields : Allowed (Volume.step smallParams) (Volume.Yields smallParams 0 nameA)
    (runAll (Volume.step smallParams) .empty twiceOpen).2 writing := by
  have hown : ∀ {v : Volume} {n : Nat} {byte : UInt8}, n < 2 ^ 63 →
      (v.contents nameA ≠ [] ∨ v.nonEmpty.card < Volume.maxNonEmpty smallParams) →
      Volume.Yields smallParams 0 nameA v (.write 0 (fun _ => byte) n) := by
    intro v n byte hn hroom
    refine ⟨hn, nofun, ?_, fun _ _ _ => hroom⟩
    intro fhandle buffer toWrite offset heq hne
    cases heq
    exact absurd rfl hne
  refine ⟨hown (by decide) (.inr (by decide)), ?_, ?_, hown (by decide) (.inl (by decide)), trivial⟩
  · exact ⟨fun ht => absurd ht (by decide), nofun, nofun, nofun⟩
  · refine ⟨(by decide : 1 < 2 ^ 63), nofun, ?_, ?_⟩
    · intro fhandle buffer toWrite offset heq hne hopened
      cases heq
      have hname : Option.map Prod.fst _ = some nameA := congrArg (Option.map Prod.fst) hopened
      exact absurd hname (by decide)
    · intro buffer toWrite heq
      injection heq with hhandle
      exact absurd hhandle (by decide)

theorem private_tape_writing :
    ∃ rs s rs' t, execAll step small twiceOpen = .ok (rs, s) ∧
      execAll step s writing = .ok (rs', t) ∧
      returned 0 writing rs' = (runAll (Tape.access 100) (tapeOf s 0)
        (writing.filterMap (Op.access? 0))).1.map .of ∧
      tapeOf t 0 = (runAll (Tape.access 100) (tapeOf s 0)
        (writing.filterMap (Op.access? 0))).2 :=
  private_tape smallParams_sane initial_small twiceOpen_allowed twiceOpen_first writing_yields

end MBroker.Fs
