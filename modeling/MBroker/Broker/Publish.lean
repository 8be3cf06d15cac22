import Mathlib.Algebra.GroupWithZero.Nat
import MBroker.Lib.Table
import MBroker.Fs.Handle
import MBroker.Wire.Task

/- Worker threads in the message loop of `pub_connect_request` on one box. Each
   message is an open for appending, a read that looks how full the box is, a
   write and a close, each of them atomic under the library's mutex and none held
   together with the next.

   `record` is the record of a run: every message taken up, and whether its
   `tfs_write` succeeded. The size of the box is what the argument rests on. It
   grows by at most the length of a message, and by less when the write does not
   start at the end of the box; so a box that ends up with all the bytes of the
   messages had every one of them put at its end. -/
namespace MBroker.Broker
open MBroker.Lib MBroker.Fs Function
open MBroker.Wire (Task messageMaxSize)

/-- A message in the loop: the task decoded, and the handle opened for it. -/
structure Job where
  /-- The place of the message in the record. -/
  index : Nat
  taskOp : Task
  handle : Int

def Job.message (job : Job) : CString := job.taskOp.message

/-- Where a thread is in the loop. -/
inductive Place where
  | idle
  | opened (job : Job)
  | measured (job : Job)
  | written (job : Job)
  /-- Out of the loop by its `break`, the handle still open. -/
  | left (job : Job)

structure Publishers (T : Type) where
  fs : FsState
  place : T → Place
  record : List (CString × Bool)
  /-- A thread called `exit`, or the process was ended. -/
  ended : Bool

inductive PublishStep (T : Type) where
  | «open» (t : T) (taskOp : Task)
  | read (t : T)
  | write (t : T)
  | close (t : T)

/-- The job a thread has a handle for. -/
def Place.job? : Place → Option Job
  | .idle => none
  | .opened job | .measured job | .written job | .left job => some job

/-- The job whose message a thread has still to write. -/
def Place.unwritten? : Place → Option Job
  | .opened job | .measured job => some job
  | .idle | .written _ | .left _ => none

namespace Publishers

variable {T : Type}

def succeeded (record : List (CString × Bool)) : List CString :=
  record.filterMap fun x => if x.2 then some x.1 else none

def totalLength (messages : List CString) : Nat := (messages.map fun m => m.bytes.length).sum

variable [DecidableEq T]

def goTo (s : Publishers T) (t : T) (place : Place) (fs : FsState) : Publishers T :=
  { s with fs, place := update s.place t place }

def exit (s : Publishers T) : Publishers T := { s with ended := true }

/-- `tfs_open(box_name, TFS_O_APPEND)`. -/
def openBox (box : CString) (s : Publishers T) (t : T) (taskOp : Task) : Publishers T :=
  match tfsOpen s.fs (some box) tfsOAppend with
  | .error _ => s.exit
  | .ok (handle, fs) =>
    if handle = -1 then s.exit
    else
      let job := ⟨s.record.length, taskOp, handle⟩
      { s.goTo t (.opened job) fs with record := s.record ++ [(taskOp.message, false)] }

/-- `tfs_read`, and the check whether the message still fits. -/
def readBox (s : Publishers T) (t : T) (job : Job) : Publishers T :=
  match tfsRead s.fs job.handle messageMaxSize with
  | .error _ => s.exit
  | .ok ((bytesRead, _), fs) =>
    if bytesRead < 0 then s.exit
    else if 1024 < bytesRead + job.message.bytes.length then s.goTo t (.left job) fs
    else s.goTo t (.measured job) fs

def writeBox (s : Publishers T) (t : T) (job : Job) : Publishers T :=
  match tfsWrite s.fs job.handle (Mem.padded job.message.bytes) job.message.bytes.length with
  | .error _ => s.exit
  | .ok (wr, fs) =>
    if wr = -1 then s.exit
    else { s.goTo t (.written job) fs with record := s.record.set job.index (job.message, true) }

def closeBox (s : Publishers T) (t : T) (job : Job) : Publishers T :=
  match tfsClose s.fs job.handle with
  | .error _ => s.exit
  | .ok (_, fs) => s.goTo t .idle fs

def next (box : CString) (s : Publishers T) : PublishStep T → Option (Publishers T)
  | .open t taskOp =>
    match s.ended, s.place t with
    | false, .idle => some (openBox box s t taskOp)
    | _, _ => none
  | .read t =>
    match s.ended, s.place t with
    | false, .opened job => some (readBox s t job)
    | _, _ => none
  | .write t =>
    match s.ended, s.place t with
    | false, .measured job => some (writeBox s t job)
    | _, _ => none
  | .close t =>
    match s.ended, s.place t with
    | false, .written job => some (closeBox s t job)
    | _, _ => none

def Steps (box : CString) (s : Publishers T) (a : PublishStep T) (u : Publishers T) : Prop :=
  next box s a = some u

/-- No thread in the loop yet, and the box on inode `n`, in any state of the file
system that calls of it lead to. -/
structure Initial (box : CString) (n : Nat) (s : Publishers T) : Prop where
  fs : Reachable (Fs.Initial tfsDefaultParams) Fs.Steps s.fs
  path : validPathname box = true
  box : lookup s.fs box.tail.bytes = some n
  idle : ∀ t, s.place t = .idle
  record : s.record = []

/-- The messages taken up fit in the box, beside the `old` bytes in it. -/
def Fits (old : List UInt8) (s : Publishers T) : Prop :=
  old.length + totalLength (s.record.map Prod.fst) ≤ 1024

/-- The box has the old bytes and then every message written, whole and once. -/
def Whole (old : List UInt8) (n : Nat) (s : Publishers T) : Prop :=
  ∃ messages : List CString, messages.Perm (succeeded s.record) ∧
    contents s.fs n = old ++ (messages.map fun m => m.bytes).flatten

/-- A write of a non-empty message starts at the end of the box: since the thread's
read no other thread has written. -/
def AtEnd (n : Nat) (s : Publishers T) : PublishStep T → Prop
  | .write t => ∀ job, s.place t = .measured job → job.message.bytes = [] ∨
    (s.fs.openFileTable job.handle.toNat).ofOffset = (s.fs.inodeTable n).iSize
  | .open _ _ | .read _ | .close _ => True

/-! ## The record -/

theorem totalLength_append (a b : List CString) :
    totalLength (a ++ b) = totalLength a + totalLength b := by
  simp [totalLength]

theorem totalLength_perm {a b : List CString} (h : a.Perm b) : totalLength a = totalLength b :=
  (h.map _).sum_nat

theorem length_flatten_bytes (messages : List CString) :
    (messages.map fun m => m.bytes).flatten.length = totalLength messages := by
  simp [totalLength, List.length_flatten, Function.comp_def]

theorem succeeded_append_false (record : List (CString × Bool)) (m : CString) :
    succeeded (record ++ [(m, false)]) = succeeded record := by
  simp [succeeded]

/-- A message marked as written joins the others that were. -/
theorem succeeded_set {record : List (CString × Bool)} {k : Nat} {m : CString}
    (h : record[k]? = some (m, false)) :
    (succeeded (record.set k (m, true))).Perm (succeeded record ++ [m]) := by
  induction record generalizing k with
  | nil => cases h
  | cons x record ih =>
    cases k with
    | zero =>
      rw [List.getElem?_cons_zero, Option.some.injEq] at h
      subst h
      simpa [succeeded] using (List.perm_append_singleton m (succeeded record)).symm
    | succ k =>
      have hrest := ih (k := k) (by simpa using h)
      obtain ⟨m', ok⟩ := x
      cases ok
      · simpa [succeeded] using hrest
      · simpa [succeeded] using hrest.cons m'

theorem map_fst_set {record : List (CString × Bool)} {k : Nat} {m : CString} {ok : Bool}
    (h : record[k]? = some (m, ok)) (ok' : Bool) :
    (record.set k (m, ok')).map Prod.fst = record.map Prod.fst := by
  obtain ⟨hk, hm⟩ := List.getElem?_eq_some_iff.mp h
  have hk' : k < (record.map Prod.fst).length := by simpa using hk
  have hfst : (record.map Prod.fst)[k] = m := by simp [hm]
  rw [List.map_set, ← hfst, List.set_getElem_self]

theorem totalLength_succeeded_le (record : List (CString × Bool)) :
    totalLength (succeeded record) ≤ totalLength (record.map Prod.fst) := by
  induction record with
  | nil => exact Nat.le_refl _
  | cons x record ih =>
    obtain ⟨m, ok⟩ := x
    cases ok
    · simp only [succeeded, totalLength, List.filterMap_cons, Bool.false_eq_true, if_false,
        List.map_cons, List.sum_cons] at ih ⊢
      omega
    · simp only [succeeded, totalLength, List.filterMap_cons, if_true, List.map_cons,
        List.sum_cons] at ih ⊢
      omega

/-- The messages written and one that is not yet are among those taken up. -/
theorem totalLength_succeeded {record : List (CString × Bool)} {k : Nat} {m : CString}
    (h : record[k]? = some (m, false)) :
    totalLength (succeeded record) + m.bytes.length ≤ totalLength (record.map Prod.fst) := by
  have hle := totalLength_succeeded_le (record.set k (m, true))
  rw [map_fst_set h, totalLength_perm (succeeded_set h), totalLength_append] at hle
  simpa [totalLength] using hle

/-! ## The invariant -/

/-- A handle of the box. -/
def Handle (fs : FsState) (n : Nat) (handle : Int) : Prop :=
  ∃ h : Nat, handle = h ∧ Within fs h n

structure Working (box : CString) (n : Nat) (s : Publishers T) : Prop where
  path : validPathname box = true
  inv : Inv s.fs
  blockSize : s.fs.fsParams.blockSize = 1024
  box : lookup s.fs box.tail.bytes = some n
  /-- Every job has a handle of its own. -/
  held : ∀ t job, (s.place t).job? = some job → Handle s.fs n job.handle
  apart : ∀ t u job job', t ≠ u → (s.place t).job? = some job → (s.place u).job? = some job' →
    job.handle ≠ job'.handle
  /-- Every message to be written has a place of its own in the record. -/
  pending : ∀ t job, (s.place t).unwritten? = some job →
    s.record[job.index]? = some (job.message, false)
  single : ∀ t u job job', t ≠ u → (s.place t).unwritten? = some job →
    (s.place u).unwritten? = some job' → job.index ≠ job'.index

theorem job?_of_unwritten? {place : Place} {job : Job} (h : place.unwritten? = some job) :
    place.job? = some job := by
  cases place <;> first | exact h | cases h

variable {box : CString} {n : Nat} {s u : Publishers T} {t : T}

omit [DecidableEq T] in
theorem Initial.working (h : Initial box n s) : Working box n s := by
  have hinit : Inv s.fs := inv_of_reachable tfsDefaultParams_sane h.fs
  have hparams : s.fs.fsParams = tfsDefaultParams :=
    fsParams_of_reachable tfsDefaultParams_sane h.fs
  refine ⟨h.path, hinit, by rw [hparams]; rfl, h.box, ?_, ?_, ?_, ?_⟩
  · intro t job hjob
    rw [h.idle t] at hjob
    cases hjob
  · intro t u job job' _ hjob
    rw [h.idle t] at hjob
    cases hjob
  · intro t job hjob
    rw [h.idle t] at hjob
    cases hjob
  · intro t u job job' _ hjob
    rw [h.idle t] at hjob
    cases hjob

/-- One thread goes to another place, with the handle and the message it has there. -/
theorem Working.goTo (hW : Working box n s) {place : Place} {fs : FsState}
    {record : List (CString × Bool)} (hk : Keeps s.fs fs)
    (hothers : ∀ u job, u ≠ t → (s.place u).job? = some job → Handle fs n job.handle)
    (hself : ∀ job, place.job? = some job → Handle fs n job.handle ∧
      ∀ u job', u ≠ t → (s.place u).job? = some job' → job.handle ≠ job'.handle)
    (hrecord : ∀ u job, u ≠ t → (s.place u).unwritten? = some job →
      record[job.index]? = some (job.message, false))
    (hpending : ∀ job, place.unwritten? = some job →
      record[job.index]? = some (job.message, false) ∧
      ∀ u job', u ≠ t → (s.place u).unwritten? = some job' → job.index ≠ job'.index) :
    Working box n { s.goTo t place fs with record := record } := by
  refine ⟨hW.path, hk.inv, by rw [← hW.blockSize, ← hk.params]; rfl, (hk.lookup _).trans hW.box,
    ?_, ?_, ?_, ?_⟩
  · apply forall_update hothers
    intro job hjob
    exact (hself job hjob).1
  · apply forall_ne_update (fun _ _ h => h.symm) hW.apart
    intro job hjob
    exact (hself job hjob).2
  · apply forall_update hrecord
    intro job hjob
    exact (hpending job hjob).1
  · apply forall_ne_update (fun _ _ h => h.symm) hW.single
    intro job hjob
    exact (hpending job hjob).2

omit [DecidableEq T] in
theorem Working.exit (hW : Working box n s) : Working box n s.exit :=
  ⟨hW.path, hW.inv, hW.blockSize, hW.box, hW.held, hW.apart, hW.pending, hW.single⟩

omit [DecidableEq T] in
theorem Working.boxSize (hW : Working box n s) :
    0 < n ∧ TakenInode s.fs n ∧ (s.fs.inodeTable n).iSize ≤ s.fs.fsParams.blockSize := by
  obtain ⟨hn0, hn⟩ := hW.inv.lookup_taken hW.box
  exact ⟨hn0, hn, hW.inv.blocks.size n hn⟩

/-! ## The steps -/

theorem openBox_cases (hW : Working box n s) (taskOp : Task) :
    openBox box s t taskOp = s.exit ∨ ∃ h, freeHandle s.fs = some h ∧
      openBox box s t taskOp =
        { s.goTo t (.opened ⟨s.record.length, taskOp, h⟩)
            (s.fs.openHandle h n (s.fs.inodeTable n).iSize) with
          record := s.record ++ [(taskOp.message, false)] } := by
  unfold openBox
  rw [tfsOpen_append hW.inv hW.path hW.box]
  cases hh : freeHandle s.fs with
  | none =>
    rw [addToOpenFileTable_of_none hh]
    exact .inl rfl
  | some h =>
    rw [addToOpenFileTable_of_some hh]
    refine .inr ⟨h, rfl, ?_⟩
    dsimp only
    rw [if_neg (by omega)]

theorem readBox_eq (hW : Working box n s) {job : Job} {h : Nat} (hh : job.handle = h)
    (hin : Within s.fs h n) : ∃ place, (place = .left job ∨ place = .measured job) ∧
      readBox s t job =
        s.goTo t place (s.fs.advance h (readable s.fs h n messageMaxSize)) := by
  unfold readBox
  rw [hh, tfsRead_within hW.inv hin hW.boxSize.2.2]
  dsimp only
  rw [if_neg (by omega)]
  split
  · exact ⟨_, .inl rfl, rfl⟩
  · exact ⟨_, .inr rfl, rfl⟩

theorem writeBox_cases (hW : Working box n s) {job : Job} {h : Nat} (hh : job.handle = h)
    (hin : Within s.fs h n) :
    ((s.fs.inodeTable n).iSize = 0 ∧ writeBox s t job = s.exit) ∨
    ∃ fs, Wrote s.fs fs h n (job.message.bytes.take (1024 - (s.fs.openFileTable h).ofOffset)) ∧
      writeBox s t job = { s.goTo t (.written job) fs with
        record := s.record.set job.index (job.message, true) } := by
  obtain ⟨hn0, hn, -⟩ := hW.boxSize
  have hlen : job.message.bytes.length < 2 ^ 63 :=
    Nat.lt_of_le_of_lt (Task.str_length_le _ _) (by decide)
  unfold writeBox
  rw [hh]
  rcases tfsWrite_within hW.inv hin hn0 hn (Mem.padded job.message.bytes) hlen rfl with
    ⟨-, hz, -, hwrite⟩ | ⟨fs, hwrite, hwrote⟩
  · rw [hwrite]
    exact .inl ⟨hz, rfl⟩
  · rw [hwrite]
    refine .inr ⟨fs, ?_, ?_⟩
    · rw [Mem.read_padded _ _ (Nat.min_le_left _ _), hW.blockSize, List.take_eq_take_min] at hwrote
      rw [List.take_eq_take_min]
      simpa [Nat.min_comm] using hwrote
    · dsimp only
      rw [if_neg (by omega)]

theorem closeBox_eq {job : Job} {h : Nat} (hh : job.handle = h)
    (hin : Within s.fs h n) : closeBox s t job = s.goTo t .idle (s.fs.closeHandle h) := by
  unfold closeBox
  rw [hh, tfsClose_taken hin.taken]

/-- A step that writes nothing, or the write of a message. -/
inductive Effect (box : CString) (n : Nat) (s : Publishers T) :
    PublishStep T → Publishers T → Prop
  | other {a : PublishStep T} {u : Publishers T} (hW : Working box n u)
      (hcontents : contents u.fs n = contents s.fs n)
      (hsucceeded : succeeded u.record = succeeded s.record)
      (htotal : totalLength (s.record.map Prod.fst) ≤ totalLength (u.record.map Prod.fst))
      (hend : AtEnd n s a) : Effect box n s a u
  | wrote {t : T} {job : Job} {h : Nat} {fs : FsState} (hplace : s.place t = .measured job)
      (hh : job.handle = h) (hin : Within s.fs h n)
      (hrecord : s.record[job.index]? = some (job.message, false))
      (hwrote : Wrote s.fs fs h n
        (job.message.bytes.take (1024 - (s.fs.openFileTable h).ofOffset)))
      (hW : Working box n { s.goTo t (.written job) fs with
        record := s.record.set job.index (job.message, true) }) :
      Effect box n s (.write t) { s.goTo t (.written job) fs with
        record := s.record.set job.index (job.message, true) }

theorem openBox_effect (hW : Working box n s) (taskOp : Task) :
    Effect box n s (.open t taskOp) (openBox box s t taskOp) := by
  rcases openBox_cases (t := t) hW taskOp with hexit | ⟨h, hfree, hopen⟩
  · rw [hexit]
    exact .other hW.exit rfl rfl (Nat.le_refl _) trivial
  rw [hopen]
  refine .other ?_ rfl (succeeded_append_false _ _) ?_ trivial
  · apply hW.goTo (.openHandle hW.inv hW.box (Nat.le_refl _))
    · intro v job _ hjob
      obtain ⟨g, hg, hin⟩ := hW.held v job hjob
      exact ⟨g, hg, (hin.openHandle _ _ hfree).2⟩
    · intro job hjob
      cases hjob
      refine ⟨⟨h, rfl, .opened hfree (Nat.le_refl _)⟩, fun v job' _ hjob' => ?_⟩
      -- the other handles are taken, and this one was free
      obtain ⟨g, hg, hin⟩ := hW.held v job' hjob'
      have hne := (hin.openHandle n 0 hfree).1
      rw [hg]
      intro heq
      change (h : Int) = g at heq
      omega
    · intro v job _ hjob
      have hp := hW.pending v job hjob
      rw [List.getElem?_append_left (List.getElem?_eq_some_iff.mp hp).1]
      exact hp
    · intro job hjob
      cases hjob
      refine ⟨by simp [Job.message], fun v job' _ hjob' => ?_⟩
      -- the record had no place for the new message before
      have hlt := (List.getElem?_eq_some_iff.mp (hW.pending v job' hjob')).1
      exact Nat.ne_of_gt hlt
  · rw [List.map_append, totalLength_append]
    exact Nat.le_add_right _ _

theorem readBox_effect (hW : Working box n s) {job : Job} (hplace : s.place t = .opened job) :
    Effect box n s (.read t) (readBox s t job) := by
  have hjob : (s.place t).job? = some job := by rw [hplace]; rfl
  have hun : (s.place t).unwritten? = some job := by rw [hplace]; rfl
  obtain ⟨h, hh, hin⟩ := hW.held t job hjob
  obtain ⟨place, hp, hread⟩ := readBox_eq (t := t) hW hh hin
  -- at either place the thread has the job it had
  have hplaceJob : ∀ job', place.job? = some job' → job' = job := by
    intro job' hj
    rcases hp with rfl | rfl <;> exact (Option.some.inj hj).symm
  have hplaceUn : ∀ job', place.unwritten? = some job' → job' = job :=
    fun job' hj => hplaceJob job' (job?_of_unwritten? hj)
  rw [hread]
  refine .other ?_ rfl rfl (Nat.le_refl _) trivial
  apply hW.goTo (.advance hW.inv hin hW.boxSize.2.2 _)
  · intro v job' hv hjob'
    obtain ⟨g, hg, hgin⟩ := hW.held v job' hjob'
    have hne := hW.apart v t job' job hv hjob' hjob
    refine ⟨g, hg, hgin.advance ?_ _⟩
    intro heq
    exact hne (by rw [hg, hh, heq])
  · intro job' hj
    obtain rfl := hplaceJob job' hj
    refine ⟨⟨h, hh, hin.advanced _⟩, fun v job' hv hjob' => ?_⟩
    exact (hW.apart v t job' _ hv hjob' hjob).symm
  · intro v job' _ hjob'
    exact hW.pending v job' hjob'
  · intro job' hj
    obtain rfl := hplaceUn job' hj
    refine ⟨hW.pending t _ hun, fun v job' hv hjob' => ?_⟩
    exact (hW.single v t job' _ hv hjob' hun).symm

theorem writeBox_effect (hW : Working box n s) {job : Job} (hplace : s.place t = .measured job) :
    Effect box n s (.write t) (writeBox s t job) := by
  have hjob : (s.place t).job? = some job := by rw [hplace]; rfl
  have hun : (s.place t).unwritten? = some job := by rw [hplace]; rfl
  obtain ⟨h, hh, hin⟩ := hW.held t job hjob
  rcases writeBox_cases (t := t) hW hh hin with ⟨hz, hexit⟩ | ⟨fs, hwrote, hwrite⟩
  · rw [hexit]
    refine .other hW.exit rfl rfl (Nat.le_refl _) fun job' hj => .inr ?_
    -- the box is empty, so the offset is at its end
    rw [hplace] at hj
    cases hj
    have ho := hin.offset
    rw [hh, Int.toNat_natCast]
    omega
  rw [hwrite]
  refine .wrote hplace hh hin (hW.pending t job hun) hwrote ?_
  apply hW.goTo hwrote.toKeeps
  · intro v job' hv hjob'
    obtain ⟨g, hg, hgin⟩ := hW.held v job' hjob'
    have hne := hW.apart v t job' job hv hjob' hjob
    refine ⟨g, hg, hgin.wrote_ne hin ?_ hwrote⟩
    intro heq
    exact hne (by rw [hg, hh, heq])
  · intro job' hj
    cases hj
    refine ⟨⟨h, hh, hin.wrote hwrote⟩, fun v job' hv hjob' => ?_⟩
    exact (hW.apart v t job' _ hv hjob' hjob).symm
  · intro v job' hv hjob'
    -- another thread's message has another place
    have hne := hW.single v t job' job hv hjob' hun
    rw [List.getElem?_set_ne hne.symm]
    exact hW.pending v job' hjob'
  · intro job' hj
    cases hj

theorem closeBox_effect (hW : Working box n s) {job : Job} (hplace : s.place t = .written job) :
    Effect box n s (.close t) (closeBox s t job) := by
  have hjob : (s.place t).job? = some job := by rw [hplace]; rfl
  obtain ⟨h, hh, hin⟩ := hW.held t job hjob
  rw [closeBox_eq hh hin]
  refine .other ?_ rfl rfl (Nat.le_refl _) trivial
  apply hW.goTo (.closeHandle hW.inv)
  · intro v job' hv hjob'
    obtain ⟨g, hg, hgin⟩ := hW.held v job' hjob'
    have hne := hW.apart v t job' job hv hjob' hjob
    refine ⟨g, hg, hgin.closeHandle ?_⟩
    intro heq
    exact hne (by rw [hg, hh, heq])
  · intro job' hj
    cases hj
  · intro v job' _ hjob'
    exact hW.pending v job' hjob'
  · intro job' hj
    cases hj

theorem effect_of_steps {a : PublishStep T} (hW : Working box n s) (h : Steps box s a u) :
    Effect box n s a u := by
  unfold Steps next at h
  cases a <;> (dsimp only at h; split at h)
  · cases h
    exact openBox_effect hW _
  · cases h
  · next hplace => cases h; exact readBox_effect hW hplace
  · cases h
  · next hplace => cases h; exact writeBox_effect hW hplace
  · cases h
  · next hplace => cases h; exact closeBox_effect hW hplace
  · cases h

/-! ## Sizes -/

/-- The box has at most the bytes of the messages written, beside the old ones. -/
structure Bounded (box : CString) (n : Nat) (old : List UInt8) (s : Publishers T) : Prop
    extends Working box n s where
  size : (s.fs.inodeTable n).iSize ≤ old.length + totalLength (succeeded s.record)

/-- It has them all. -/
def Full (n : Nat) (old : List UInt8) (s : Publishers T) : Prop :=
  (s.fs.inodeTable n).iSize = old.length + totalLength (succeeded s.record)

variable {old : List UInt8} {a : PublishStep T}

theorem totalLength_set {record : List (CString × Bool)} {k : Nat} {m : CString}
    (h : record[k]? = some (m, false)) :
    totalLength (succeeded (record.set k (m, true))) =
      totalLength (succeeded record) + m.bytes.length := by
  rw [totalLength_perm (succeeded_set h), totalLength_append]
  simp [totalLength]

theorem Bounded.step (hB : Bounded box n old s) (hst : Steps box s a u) :
    Bounded box n old u := by
  cases effect_of_steps hB.toWorking hst with
  | other hW hcontents hsucceeded htotal hend =>
    refine ⟨hW, ?_⟩
    rw [← contents_length, hcontents, contents_length, hsucceeded]
    exact hB.size
  | @wrote t job h fs hplace hh hin hrecord hwrote hW =>
    refine ⟨hW, ?_⟩
    -- the box grows by no more than the message, from an offset within it
    have hsize := hwrote.size hin.offset
    have ho := hin.offset
    have hb := hB.size
    have htake := List.length_take_le (1024 - (s.fs.openFileTable h).ofOffset) job.message.bytes
    have htake' := List.length_take_le' (1024 - (s.fs.openFileTable h).ofOffset) job.message.bytes
    show (fs.inodeTable n).iSize ≤ _
    rw [totalLength_set hrecord, hsize]
    omega

/-- A box full after a step was full before it, and the step wrote at its end. -/
theorem Full.before (hu : Full n old u) (hB : Bounded box n old s) (hst : Steps box s a u) :
    Full n old s ∧ AtEnd n s a := by
  unfold Full at hu ⊢
  cases effect_of_steps hB.toWorking hst with
  | other hW hcontents hsucceeded htotal hend =>
    rw [← contents_length, hcontents, contents_length, hsucceeded] at hu
    exact ⟨hu, hend⟩
  | @wrote t job h fs hplace hh hin hrecord hwrote hW =>
    -- it has grown by all of the message, and can have done so only from its end
    have hsize := hwrote.size hin.offset
    have ho := hin.offset
    have hb := hB.size
    have htake' := List.length_take_le' (1024 - (s.fs.openFileTable h).ofOffset) job.message.bytes
    change (fs.inodeTable n).iSize = _ at hu
    rw [totalLength_set hrecord, hsize] at hu
    refine ⟨by omega, fun job' hj => ?_⟩
    rw [hplace] at hj
    cases hj
    rw [hh, Int.toNat_natCast, ← List.length_eq_zero_iff]
    omega

omit [DecidableEq T] in
/-- A box with every message whole is full. -/
theorem Whole.full {s : Publishers T} (h : Whole old n s) : Full n old s := by
  obtain ⟨messages, hperm, hcontents⟩ := h
  unfold Full
  rw [← contents_length, hcontents, List.length_append, length_flatten_bytes,
    totalLength_perm hperm]

/-- A step that writes at the end of the box, if at all, keeps every message whole. -/
theorem Whole.step (hB : Bounded box n old s) (hw : Whole old n s) (hst : Steps box s a u)
    (hend : AtEnd n s a) (hfits : Fits old s) : Whole old n u := by
  have hfull := hw.full
  obtain ⟨messages, hperm, hcontents⟩ := hw
  cases effect_of_steps hB.toWorking hst with
  | other hW hcontents' hsucceeded htotal hend =>
    exact ⟨messages, by rwa [hsucceeded], by rw [hcontents', hcontents]⟩
  | @wrote t job h fs hplace hh hin hrecord hwrote hW =>
    -- the message has room after those in the box
    have hroom := totalLength_succeeded hrecord
    have ho := hin.offset
    unfold Fits at hfits
    unfold Full at hfull
    refine ⟨messages ++ [job.message], ?_, ?_⟩
    · exact (hperm.append_right [job.message]).trans (succeeded_set hrecord).symm
    · have hwhole : job.message.bytes.take (1024 - (s.fs.openFileTable h).ofOffset) =
          job.message.bytes := List.take_of_length_le (by omega)
      rw [hwhole] at hwrote
      have happended : contents fs n = contents s.fs n ++ job.message.bytes := by
        rw [hwrote.contents]
        rcases hend job hplace with hnil | hoff
        · rw [hnil, overwrite_nil, List.append_nil]
        · rw [hh, Int.toNat_natCast, ← contents_length] at hoff
          rw [hoff, overwrite_end]
      calc contents fs n
          = old ++ (messages.map fun m => m.bytes).flatten ++ job.message.bytes := by
            rw [happended, hcontents]
        _ = old ++ ((messages ++ [job.message]).map fun m => m.bytes).flatten := by simp

theorem Fits.before (hu : Fits old u) (hB : Bounded box n old s) (hst : Steps box s a u) :
    Fits old s := by
  unfold Fits at hu ⊢
  cases effect_of_steps hB.toWorking hst with
  | other hW hcontents hsucceeded htotal hend => omega
  | wrote hplace hh hin hrecord hwrote hW =>
    rw [map_fst_set hrecord] at hu
    exact hu

/-! ## Runs -/

/-- Where the messages taken up fit in the box, it ends up with the old bytes and
then every message written, whole and once, exactly when every write started at the
end of the box. -/
theorem messages_whole_iff {ρ : List (PublishStep T × Publishers T)} (h0 : Initial box n s)
    (hr : Run (Steps box) s ρ) (hfits : Fits (contents s.fs n) (lastState s ρ)) :
    Whole (contents s.fs n) n (lastState s ρ) ↔ EveryStep (AtEnd n) s ρ := by
  have hstart : Whole (contents s.fs n) n s :=
    ⟨[], by rw [h0.record]; exact .refl _, by simp⟩
  have hB : Bounded box n (contents s.fs n) s := ⟨h0.working, Nat.le_of_eq hstart.full⟩
  have hstep : ∀ (s' : Publishers T) a u, Bounded box n (contents s.fs n) s' → Steps box s' a u →
      Bounded box n (contents s.fs n) u := fun _ _ _ hI hst => hI.step hst
  refine ⟨?_, ?_⟩
  · intro hwhole
    -- a box full at the end was full all along
    have hfull : EveryState (Full n (contents s.fs n)) s ρ := by
      apply Run.everyState_of_last hstep _ hB hr hwhole.full
      intro s' a u hI hst hu
      exact (hu.before hI hst).1
    apply Run.everyStep _ hB hr hfull
    intro s' a u hI hst hu
    exact ⟨(hu.before hI hst).2, hstep s' a u hI hst⟩
  · intro hend
    -- and what fits at the end did before
    have hall : EveryState (Fits (contents s.fs n)) s ρ := by
      apply Run.everyState_of_last hstep _ hB hr hfits
      intro s' a u hI hst hu
      exact hu.before hI hst
    have hwhole : EveryState (fun s' => Bounded box n (contents s.fs n) s' ∧
        Whole (contents s.fs n) n s') s ρ := by
      apply Run.everyState _ ⟨hB, hstart⟩ hr (hend.and hall.everyStep)
      intro s' a u hI hc hst
      exact ⟨hI.1.step hst, hI.2.step hI.1 hst hc.1 hc.2⟩
    exact hwhole.last.2

/-- Every thread has closed its handle. -/
def AllClosed (s : Publishers T) : Prop := s.ended = false ∧ ∀ t, (s.place t).job? = none

def publishersB : Publishers Bool := ⟨boxB, fun _ => .idle, [], false⟩

/-- Two threads that both read before either writes. -/
def crossed : List (PublishStep Bool × Publishers Bool) :=
  along (next pathB) publishersB [.open true .letterA, .read true, .open false .letterB,
    .read false, .write true, .write false, .close true, .close false]

theorem publishersB_initial : Initial pathB 1 publishersB where
  fs := reachable_boxB
  path := by decide
  box := by decide
  idle := fun _ => rfl
  record := rfl

theorem crossed_fits : Fits (contents publishersB.fs 1) (lastState publishersB crossed) := by
  unfold Fits
  decide +kernel

theorem messages_whole_iff_crossed :
    Whole (contents publishersB.fs 1) 1 (lastState publishersB crossed) ↔
      EveryStep (AtEnd 1) publishersB crossed :=
  messages_whole_iff publishersB_initial (run_along _ _ _) crossed_fits

/-- The second write lands on the first. -/
theorem message_overwritten : ¬ ∀ (box : CString) n (s : Publishers Bool) ρ, Initial box n s →
    Run (Steps box) s ρ → AllClosed (lastState s ρ) → Fits (contents s.fs n) (lastState s ρ) →
      Whole (contents s.fs n) n (lastState s ρ) := by
  intro h
  have hclosed : AllClosed (lastState publishersB crossed) := by
    unfold AllClosed
    decide +kernel
  have hfull := (h _ _ _ _ publishersB_initial (run_along _ _ _) hclosed crossed_fits).full
  revert hfull
  unfold Full
  decide +kernel

end Publishers

end MBroker.Broker
