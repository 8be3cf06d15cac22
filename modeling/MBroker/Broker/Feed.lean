import MBroker.Broker.Board

/- What reaches a subscriber, over whole runs of the broker. Its session reads through a
   handle that was opened at the end of the box and that no other worker uses, so what the
   session reads is what publishers have added to the box since: all of it, once and in the
   order of their turns, whatever the other workers are at (`delivered_in_order`); and two
   subscribers of a box get the same (`subscribers_agree`). A turn of a session is one step:
   of turns that cross, one can overwrite the message of the other (`Publish`). -/
namespace MBroker.Broker
open MBroker.Lib MBroker.Fs MBroker.Wire Function

open Server

theorem WorkerPlace.handle?_eq_some {place : WorkerPlace} {tfsFd : Int} :
    place.handle? = some tfsFd ↔ ∃ builder, place.session = some (builder, .inr tfsFd) := by
  cases place <;> simp [handle?, session]

theorem WorkerPlace.of_session {place : WorkerPlace} {builder : Addr} {tfsFd : Int}
    (h : place.session = some (builder, .inr tfsFd)) :
    ∃ bufferBox, place = .subscribing builder tfsFd bufferBox := by
  cases place with
  | waiting | removing => cases h
  | publishing builder i => cases h
  | subscribing builder tfsFd bufferBox =>
    cases h
    exact ⟨bufferBox, rfl⟩

/-! ## What a step leaves alone -/

/-- Names but those that `gone` tells and handles but those that `used` tells are left alone. -/
structure Spared (s t : FsState) (gone : List UInt8 → Prop) (used : Nat → Prop) : Prop where
  lookup : ∀ x n, ¬ gone x → Fs.lookup s x = some n → Fs.lookup t x = some n
  openFile : ∀ g, TakenHandle s g → ¬ used g → t.openFileTable g = s.openFileTable g

variable {fs t : FsState} {box message : CString} {g n : Nat} {gone : List UInt8 → Prop}
  {used : Nat → Prop}

theorem Spared.refl (fs : FsState) : Spared fs fs gone used :=
  ⟨fun _ _ _ h => h, fun _ _ _ => rfl⟩

/-- A message goes through a handle of its own. -/
theorem Sent.openFile (hI : Inv fs) (h : Sent fs t box message) (hg : TakenHandle fs g) :
    t.openFileTable g = fs.openFileTable g := by
  obtain ⟨⟨⟨hv, -⟩, -⟩, -⟩ := id h.puttable
  obtain ⟨k, n, hl, hfree, -⟩ := tfsOpen_openable hI h.puttable.1
  obtain ⟨hn0, hn, hkeeps, hW⟩ := opened_at_end hI hl hfree
  have hne : g ≠ k := hg.ne_free (freeHandle_some hfree).2
  have hlen := h.fits
  have hput := h.call
  rw [putMessage_eq hI hv hl hfree, if_neg (by omega)] at hput
  rcases tfsWrite_within hkeeps.inv hW hn0 hn (Mem.padded message.bytes)
      (by omega : message.bytes.length < 2 ^ 63) rfl with
    ⟨-, -, -, hwrite⟩ | ⟨u, hwrite, hwrote⟩
  · rw [orExit_error hwrite] at hput
    cases hput
  · have hclose := tfsClose_taken (hW.wrote hwrote).taken
    rw [orExit_ok hwrite (by omega)] at hput
    simp only [bind, Except.bind, hclose, Except.mapError] at hput
    cases hput
    calc u.openFileTable g
        = (fs.openHandle k n (fs.inodeTable n).iSize).openFileTable g := by
          rw [hwrote.moved, update_of_ne hne]
      _ = fs.openFileTable g := update_of_ne hne _ _

theorem Spared.of_sent (hI : Inv fs) (h : Sent fs t box message) : Spared fs t gone used := by
  obtain ⟨n, -, hput⟩ := h.put hI
  exact ⟨fun x n _ hl => (hput.lookup x).trans hl, fun g hg _ => h.openFile hI hg⟩

theorem Spared.openHandle {h offset : Nat} (hfree : freeHandle fs = some h) :
    Spared fs (fs.openHandle h n offset) gone used := by
  refine ⟨fun _ _ _ hl => hl, fun g hg _ => ?_⟩
  have hne : g ≠ h := hg.ne_free (freeHandle_some hfree).2
  exact update_of_ne hne _ _

theorem Spared.create (hI : Inv fs) (hc : Creatable fs box) {h : Nat}
    (hopen : tfsOpen fs (some box) tfsOCreat = .ok ((h : Int), t)) : Spared fs t gone used := by
  refine ⟨fun _ _ _ hl => lookup_create hI hc hopen hl, fun g hg _ => ?_⟩
  have hst : step fs (.open (some box) tfsOCreat) = .ok (⟨h, []⟩, t) := by
    simp only [step, hopen]
    rfl
  exact (step_effect hI hst).openFile hg (by simp [Op.handle?])

theorem Spared.of_unlinked (hI : Inv fs) (h : Unlinked fs t box) (hgone : gone box.tail.bytes) :
    Spared fs t gone used := by
  refine ⟨?_, fun g hg _ => ?_⟩
  · intro x n hx hl
    refine lookup_unlink hI h.removable h.call hl ?_
    rintro rfl
    exact hx hgone
  · have hst : step fs (.unlink (some box)) = .ok (⟨0, []⟩, t) := by
      simp only [step, h.call]
      rfl
    exact (step_effect hI hst).openFile hg (by simp [Op.handle?])

theorem Spared.read (hI : Inv fs) {fhandle r : Int} {len : Nat} {bytes : List UInt8}
    (h : tfsRead fs fhandle len = .ok ((r, bytes), t))
    (hused : ∀ g : Nat, fhandle = g → used g) : Spared fs t gone used := by
  have hst : step fs (.read fhandle len) = .ok (⟨r, bytes⟩, t) := by
    simp only [step, h]
    rfl
  refine ⟨?_, fun g hg hno => ?_⟩
  · intro x n _ hl
    exact ((tfsRead_keeps hI h).1.lookup x).trans hl
  · apply (step_effect hI hst).openFile hg
    intro heq
    exact hno (hused g (Option.some.inj heq))

namespace Crew

variable {W : Type} {c d : Crew W} {a : CrewStep W} {w : W} {builder : Addr} {stack : Mem}

/-- What a step reads for the subscriber of worker `w`. -/
def bytesRead [DecidableEq W] (c : Crew W) (w : W) : CrewStep W → List UInt8
  | .deliver v =>
    if v = w then
      match c.place w with
      | .subscribing _ tfsFd _ =>
        match tfsRead c.server.fs tfsFd messageMaxSize with
        | .ok ((_, bytes), _) => bytes
        | .error _ => []
      | _ => []
    else []
  | .request _ | .take _ _ | .remove _ _ | .publish _ _ => []

/-- What the steps of a run read for it, in order. -/
def received [DecidableEq W] (w : W) (c : Crew W) : List (CrewStep W × Crew W) → List UInt8
  | [] => []
  | (a, d) :: ρ => c.bytesRead w a ++ received w d ρ

/-- The step posts the removal of a box of that name. -/
def Gone (c : Crew W) (a : CrewStep W) (x : List UInt8) : Prop :=
  ∃ p ∈ c.posts a, Board.Removes x p

/-- The step is a subscriber's turn on that handle. -/
def Used (c : Crew W) (a : CrewStep W) (g : Nat) : Prop :=
  ∃ w, a = .deliver w ∧ (c.place w).handle? = some (g : Int)

def Spares (c : Crew W) (a : CrewStep W) (d : Crew W) : Prop :=
  Spared c.server.fs d.server.fs (c.Gone a) (c.Used a)

/-- Subscribers have handles, and no two the same. -/
structure Apart (c : Crew W) : Prop where
  taken : ∀ w tfsFd, (c.place w).handle? = some tfsFd →
    ∃ h : Nat, tfsFd = h ∧ h ∈ takenHandles c.server.fs
  inj : ∀ w v tfsFd, (c.place w).handle? = some tfsFd → (c.place v).handle? = some tfsFd → w = v

/-- The subscriber of worker `w` reads the box `x`, the file on inode `n`, through handle `h`. -/
structure Reading (c : Crew W) (w : W) (x : List UInt8) (h n : Nat) : Prop where
  handle : (c.place w).handle? = some (h : Int)
  lookup : Fs.lookup c.server.fs x = some n
  within : Within c.server.fs h n

section Steps

variable [DecidableEq W]

theorem Effect.spares (hI : Inv c.server.fs) (h : Effect c a d) : c.Spares a d := by
  unfold Spares
  cases h with
  | request | idle | login => exact .refl _
  | subscribe hplace hqueue hop hfirst hs hfs hopen =>
    obtain ⟨n, -, rfl⟩ := hopen
    exact .openHandle hfs.free
  | create hplace hqueue hop hc hfs hopen => exact .create hI hc hopen
  | removeAsked hplace hqueue hop hfs hunlink =>
    refine .of_unlinked hI hunlink ⟨.remove _, ?_, rfl⟩
    rw [posts_take hplace hqueue, hop]
    exact List.mem_singleton_self _
  | remove hplace hfs hunlink =>
    refine .of_unlinked hI hunlink ⟨.remove _, ?_, rfl⟩
    rw [posts_remove hplace]
    exact List.mem_singleton_self _
  | publish hplace hfs hsent =>
    obtain ⟨taskOp, -, hsent⟩ := hsent
    exact .of_sent hI hsent
  | @deliver w builder tfsFd bufferBox buffer fs hplace hfs hread =>
    obtain ⟨bytesRead, bytes, hread⟩ := hread
    refine .read hI hread ?_
    rintro g rfl
    exact ⟨w, rfl, congrArg WorkerPlace.handle? hplace⟩

/-! ## Handles of their own -/

omit [DecidableEq W] in
theorem Apart.of_same (hA : Apart c) (hplace : ∀ v, (d.place v).handle? = (c.place v).handle?)
    (htaken : takenHandles c.server.fs ⊆ takenHandles d.server.fs) : Apart d := by
  refine ⟨?_, ?_⟩
  · intro w tfsFd hw
    rw [hplace] at hw
    obtain ⟨h, heq, hh⟩ := hA.taken w tfsFd hw
    exact ⟨h, heq, htaken hh⟩
  · intro w v tfsFd hw hv
    rw [hplace] at hw hv
    exact hA.inj w v tfsFd hw hv

/-- A new subscriber gets a handle that none has. -/
theorem Apart.of_took (hA : Apart c) {h : Nat} (hnone : (c.place w).handle? = none)
    (hplace : d.place = update c.place w (.subscribing builder h stack))
    (htook : Took c.server.fs d.server.fs h) : Apart d := by
  have hnew : ∀ v, (c.place v).handle? ≠ some (h : Int) := by
    intro v hv
    obtain ⟨g, heq, hg⟩ := hA.taken v h hv
    rw [Int.ofNat_inj] at heq
    rw [← heq] at hg
    exact freeHandle_notMem htook.free hg
  have hat : ∀ v, v ≠ w → (d.place v).handle? = (c.place v).handle? := by
    intro v hv
    rw [hplace, update_of_ne hv]
  have hself : (d.place w).handle? = some (h : Int) := by
    rw [hplace, update_self]
    rfl
  refine ⟨?_, ?_⟩
  · intro v tfsFd hv
    rw [htook.taken]
    by_cases hvw : v = w
    · subst hvw
      rw [hself, Option.some.injEq] at hv
      exact ⟨h, hv.symm, Finset.mem_insert_self ..⟩
    · rw [hat v hvw] at hv
      obtain ⟨g, heq, hg⟩ := hA.taken v tfsFd hv
      exact ⟨g, heq, Finset.mem_insert_of_mem hg⟩
  · intro u v tfsFd hu hv
    by_cases huw : u = w
    · subst huw
      rw [hself, Option.some.injEq] at hu
      by_contra hne
      rw [hat v (Ne.symm hne), ← hu] at hv
      exact hnew v hv
    · rw [hat u huw] at hu
      by_cases hvw : v = w
      · subst hvw
        rw [hself, Option.some.injEq] at hv
        rw [← hv] at hu
        exact absurd hu (hnew u)
      · rw [hat v hvw] at hv
        exact hA.inj u v tfsFd hu hv

theorem Effect.apart (hA : Apart c) (h : Effect c a d) : Apart d := by
  cases h with
  | request | idle => exact hA.of_same (fun _ => rfl) subset_rfl
  | login hplace => exact hA.of_same (apply_goTo hplace rfl) subset_rfl
  | subscribe hplace hqueue hop hfirst hs hfs =>
    exact hA.of_took (by rw [hplace]; rfl) rfl hfs
  | create hplace hqueue hop hc hfs =>
    refine hA.of_same (apply_goTo hplace rfl) ?_
    exact (Finset.subset_insert _ _).trans hfs.taken.symm.subset
  | removeAsked hplace hqueue hop hfs =>
    exact hA.of_same (apply_goTo hplace rfl) hfs.taken.symm.subset
  | remove hplace hfs => exact hA.of_same (apply_goTo hplace rfl) hfs.taken.symm.subset
  | publish hplace hfs => exact hA.of_same (apply_goTo hplace rfl) hfs.taken.symm.subset
  | deliver hplace hfs => exact hA.of_same (apply_goTo hplace rfl) hfs.taken.symm.subset

omit [DecidableEq W] in
theorem Initial.apart (h : c.Initial) : Apart c := by
  refine ⟨?_, ?_⟩
  · intro w tfsFd hw
    rw [h.place] at hw
    cases hw
  · intro w v tfsFd hw
    rw [h.place] at hw
    cases hw

/-! ## A session -/

variable {x : List UInt8} {h n : Nat}

/-- The box after a step that does not remove it. -/
theorem Effect.held (hB : Bounded c.server) (h : Effect c a d)
    (hno : ∀ p ∈ c.posts a, ¬ Board.Removes x p) (hl : lookup c.server.fs x = some n) :
    lookup d.server.fs x = some n ∧ contents d.server.fs n =
      (contents c.server.fs n ++ Board.appended x (c.posts a)).take 1024 := by
  have hl' : lookup d.server.fs x = some n := by
    apply (h.spares hB.inv).lookup x n _ hl
    rintro ⟨p, hp, hr⟩
    exact hno p hp hr
  have hx := fileAt_of_lookup hl
  have hposted := congrFun (h.posted hB) x
  rw [Board.held_foldl hx (length_of_fileAt hB hx) hno, fileAt_of_lookup hl',
    Option.some.injEq] at hposted
  exact ⟨hl', hposted⟩

theorem Effect.grows (hB : Bounded c.server) (h : Effect c a d)
    (hno : ∀ p ∈ c.posts a, ¬ Board.Removes x p) (hl : lookup c.server.fs x = some n) :
    contents c.server.fs n <+: contents d.server.fs n := by
  have hle := length_of_fileAt hB (fileAt_of_lookup hl)
  rw [(h.held hB hno hl).2, List.take_append, List.take_of_length_le hle]
  exact List.prefix_append ..

/-- A turn of the session reads what the box has beyond the handle, and leaves nothing. -/
theorem Reading.deliver (hB : Bounded c.server) (hR : c.Reading w x h n)
    (he : Effect c (.deliver w) d) :
    c.bytesRead w (.deliver w) =
        (contents c.server.fs n).drop (c.server.fs.openFileTable h).ofOffset ∧
      contents d.server.fs n = contents c.server.fs n ∧ Within d.server.fs h n ∧
      (contents d.server.fs n).drop (d.server.fs.openFileTable h).ofOffset = [] := by
  have hle := length_of_fileAt hB (fileAt_of_lookup hR.lookup)
  have hsize := hB.inv.blocks.size n (hB.inv.lookup_taken hR.lookup).2
  have hread := tfsRead_within hB.inv hR.within hsize messageMaxSize
  have hall : ((contents c.server.fs n).drop (c.server.fs.openFileTable h).ofOffset).take
      messageMaxSize = (contents c.server.fs n).drop (c.server.fs.openFileTable h).ofOffset := by
    apply List.take_of_length_le
    rw [List.length_drop]
    exact Nat.le_trans (Nat.sub_le _ _) hle
  rw [hall] at hread
  cases he with
  | @deliver w builder tfsFd bufferBox buffer fs hplace hfs hrun =>
    have hfd : tfsFd = h := by
      have hhandle := hR.handle
      rw [hplace] at hhandle
      exact Option.some.inj hhandle
    subst hfd
    obtain ⟨r, bytes, hrun⟩ := hrun
    rw [hread, Except.ok.injEq, Prod.mk.injEq] at hrun
    obtain ⟨-, rfl⟩ := hrun
    refine ⟨?_, rfl, hR.within.advanced _, ?_⟩
    · unfold bytesRead
      dsimp only
      rw [if_pos rfl, hplace]
      dsimp only
      rw [hread]
    · -- the handle is at the end of the box now
      change (contents c.server.fs n).drop ((c.server.fs.advance h _).openFileTable h).ofOffset = []
      apply List.drop_of_length_le
      rw [contents_length] at hle ⊢
      simp only [FsState.advance_openFileTable, update_self, readable, messageMaxSize]
      omega

/-- What a step reads for the session, and what the box then has beyond the handle, is what
it had beyond the handle before. -/
theorem Reading.step (hB : Bounded c.server) (hA : Apart c) (hR : c.Reading w x h n)
    (he : Effect c a d) (hno : ∀ p ∈ c.posts a, ¬ Board.Removes x p) :
    d.Reading w x h n ∧
      c.bytesRead w a ++ (contents d.server.fs n).drop (d.server.fs.openFileTable h).ofOffset =
        (contents d.server.fs n).drop (c.server.fs.openFileTable h).ofOffset := by
  have hl := (he.held hB hno hR.lookup).1
  have hhandle : (d.place w).handle? = some (h : Int) := by
    obtain ⟨builder, hsession⟩ := WorkerPlace.handle?_eq_some.mp hR.handle
    exact WorkerPlace.handle?_eq_some.mpr ⟨builder, he.keeps_session hsession⟩
  by_cases hw : a = .deliver w
  · subst hw
    obtain ⟨hbytes, hsame, hwithin, hend⟩ := hR.deliver hB he
    refine ⟨⟨hhandle, hl, hwithin⟩, ?_⟩
    rw [hend, List.append_nil, hbytes, hsame]
  · obtain ⟨g, heq, htaken⟩ := (he.apart hA).taken w h hhandle
    rw [Int.ofNat_inj] at heq
    subst heq
    have hopen : d.server.fs.openFileTable h = c.server.fs.openFileTable h := by
      apply (he.spares hB.inv).openFile h hR.within.taken
      rintro ⟨v, rfl, hv⟩
      exact hw (congrArg _ (hA.inj v w h hv hR.handle))
    have hlen := (he.grows hB hno hR.lookup).length_le
    have hbytes : c.bytesRead w a = [] := by
      cases a with
      | deliver v =>
        have hne : v ≠ w := fun heq => hw (congrArg _ heq)
        exact if_neg hne
      | _ => rfl
    refine ⟨⟨hhandle, hl, ?_⟩, by rw [hbytes, hopen, List.nil_append]⟩
    have hoffset := hR.within.offset
    rw [contents_length, contents_length] at hlen
    refine ⟨mem_takenHandles.mp htaken, ?_, ?_⟩
    · unfold handleInode
      rw [hopen]
      exact hR.within.inode
    · rw [hopen]
      omega

end Steps

/-! ## Runs -/

section Runs

variable [DecidableEq W] {ρ σ : List (CrewStep W × Crew W)} {x : List UInt8} {h n : Nat}

theorem Apart.step (hI : c.halt = none → Bounded c.server ∧ Apart c) (hs : c.Steps a d)
    (hd : d.halt = none) : Bounded d.server ∧ Apart d := by
  obtain ⟨ha, hmove⟩ := hs.move
  obtain ⟨hB, hA⟩ := hI ha
  exact ⟨bounded_step hs (fun _ => hB) hd, (hmove.effect hB.inv hd).apart hA⟩

theorem everyState_apart (h0 : c.Initial) (hr : Run Steps c ρ) :
    EveryState (fun c => c.halt = none → Bounded c.server ∧ Apart c) c ρ := by
  apply Run.invariant _ _ hr
  · intro c a d hI hs hd
    exact Apart.step hI hs hd
  · exact fun _ => ⟨h0.bounded, h0.apart⟩

/-- What is read along a run, and what the box has beyond the handle at its end, is what was
added to the box since. -/
theorem Reading.run (hB : Bounded c.server) (hA : Apart c) (hR : c.Reading w x h n)
    (hr : Run Steps c ρ) (hd : (lastState c ρ).halt = none)
    (hno : ∀ p ∈ posted c ρ, ¬ Board.Removes x p) :
    (lastState c ρ).Reading w x h n ∧
      contents c.server.fs n <+: contents (lastState c ρ).server.fs n ∧
      received w c ρ ++ (contents (lastState c ρ).server.fs n).drop
          ((lastState c ρ).server.fs.openFileTable h).ofOffset =
        (contents (lastState c ρ).server.fs n).drop (c.server.fs.openFileTable h).ofOffset := by
  induction ρ generalizing c with
  | nil => exact ⟨hR, List.prefix_refl _, rfl⟩
  | cons y ρ ih =>
    obtain ⟨a, d⟩ := y
    obtain ⟨hs, hrest⟩ := hr
    obtain ⟨-, hmove⟩ := hs.move
    have halive : d.halt = none := (everyState_alive hrest hd).head
    have hnow : ∀ p ∈ c.posts a, ¬ Board.Removes x p :=
      fun p hp => hno p (List.mem_append_left _ hp)
    obtain ⟨hB', hA'⟩ := Apart.step (fun _ => ⟨hB, hA⟩) hs halive
    have heffect := hmove.effect hB.inv halive
    obtain ⟨hR', hstep⟩ := hR.step hB hA heffect hnow
    obtain ⟨hlast, ⟨added, hadded⟩, hrun⟩ :=
      ih hB' hA' hR' hrest hd fun p hp => hno p (List.mem_append_right _ hp)
    have hgrown := heffect.grows hB hnow hR.lookup
    refine ⟨hlast, hgrown.trans ⟨added, hadded⟩, ?_⟩
    have hfrom := hR.within.offset
    have hto := hR'.within.offset
    have hlen := hgrown.length_le
    rw [← contents_length] at hfrom hto
    calc (c.bytesRead w a ++ received w d ρ) ++ (contents (lastState d ρ).server.fs n).drop
            ((lastState d ρ).server.fs.openFileTable h).ofOffset
        = c.bytesRead w a ++ (contents (lastState d ρ).server.fs n).drop
            (d.server.fs.openFileTable h).ofOffset := by rw [List.append_assoc, hrun]
      _ = (c.bytesRead w a ++ (contents d.server.fs n).drop
            (d.server.fs.openFileTable h).ofOffset) ++ added := by
          rw [← hadded, List.drop_append_of_le_length hto, List.append_assoc]
      _ = (contents (lastState d ρ).server.fs n).drop (c.server.fs.openFileTable h).ofOffset := by
          rw [hstep, ← hadded, List.drop_append_of_le_length (by omega)]

omit [DecidableEq W] in
theorem posted_append (c : Crew W) (ρ σ : List (CrewStep W × Crew W)) :
    posted c (ρ ++ σ) = posted c ρ ++ posted (lastState c ρ) σ := by
  induction ρ generalizing c with
  | nil => rfl
  | cons y ρ ih => rw [List.cons_append, posted, ih, posted, lastState, List.append_assoc]

theorem received_append (w : W) (c : Crew W) (ρ σ : List (CrewStep W × Crew W)) :
    received w c (ρ ++ σ) = received w c ρ ++ received w (lastState c ρ) σ := by
  induction ρ generalizing c with
  | nil => rfl
  | cons y ρ ih => rw [List.cons_append, received, ih, received, lastState, List.append_assoc]

/-- Of two sessions at one box, the second at its end: what the first has read and has still
to read is what was left to it, and then what the second has read and has still to read. -/
theorem Reading.agree {w' : W} {h' : Nat} (hB : Bounded c.server) (hA : Apart c)
    (hR : c.Reading w x h n) (hR' : c.Reading w' x h' n)
    (hend : (c.server.fs.openFileTable h').ofOffset = (contents c.server.fs n).length)
    (hr : Run Steps c ρ) (hd : (lastState c ρ).halt = none)
    (hno : ∀ p ∈ posted c ρ, ¬ Board.Removes x p) :
    received w c ρ ++ (contents (lastState c ρ).server.fs n).drop
        ((lastState c ρ).server.fs.openFileTable h).ofOffset =
      (contents c.server.fs n).drop (c.server.fs.openFileTable h).ofOffset ++
        (received w' c ρ ++ (contents (lastState c ρ).server.fs n).drop
          ((lastState c ρ).server.fs.openFileTable h').ofOffset) := by
  obtain ⟨-, ⟨added, hadded⟩, hrun⟩ := hR.run hB hA hr hd hno
  obtain ⟨-, -, hrun'⟩ := hR'.run hB hA hr hd hno
  have hoffset := hR.within.offset
  rw [← contents_length] at hoffset
  rw [hrun, hrun', hend, ← hadded, List.drop_left, List.drop_append_of_le_length hoffset]

end Runs

/-! ## From the subscription on -/

section Subscriptions

variable [DecidableEq W] {ρ σ τ : List (CrewStep W × Crew W)} {tfsFd tfsFd' : Int}
  {bufferBox stack' : Mem} {e : Crew W} {w' : W} {builder' : Addr}

omit [DecidableEq W] in
theorem Reading.opened {h n : Nat}
    (hl : Fs.lookup c.server.fs (c.server.tasks builder).boxName.tail.bytes = some n)
    (hfree : freeHandle c.server.fs = some h) (hplace : d.place w = .subscribing builder h stack)
    (htasks : d.server.tasks = c.server.tasks)
    (hfs : d.server.fs = c.server.fs.openHandle h n (c.server.fs.inodeTable n).iSize) :
    d.Reading w (d.server.tasks builder).boxName.tail.bytes h n ∧
      (d.server.fs.openFileTable h).ofOffset = (contents d.server.fs n).length := by
  refine ⟨⟨congrArg WorkerPlace.handle? hplace, ?_, ?_⟩, ?_⟩
  · rw [htasks, hfs]
    exact hl
  · rw [hfs]
    exact .opened hfree (Nat.le_refl _)
  · rw [hfs, contents_length]
    simp

/-- Only a subscription leaves a worker in the session of a subscriber, which reads from the
end of the box on. -/
theorem Effect.subscribed (he : Effect c (.take w stack) d)
    (hplace : d.place w = .subscribing builder tfsFd bufferBox) :
    ∃ h n : Nat, d.Reading w (d.server.tasks builder).boxName.tail.bytes h n ∧
      (d.server.fs.openFileTable h).ofOffset = (contents d.server.fs n).length := by
  cases he with
  | idle hwait =>
    change c.place w = _ at hplace
    rw [hwait] at hplace
    cases hplace
  | login | create | removeAsked =>
    rw [goTo_place] at hplace
    cases hplace
  | @subscribe w stack asked queue i h fs hwait hqueue hop hfirst hs hfs hopen =>
    obtain ⟨n, hl, rfl⟩ := hopen
    rw [goTo_place, WorkerPlace.subscribing.injEq] at hplace
    obtain ⟨rfl, -, -⟩ := hplace
    exact ⟨h, n, Reading.opened (c := { c with queue }) hl hfs.free (goTo_place ..) rfl rfl⟩

/-- A session that a step the process survives begins. -/
theorem Steps.subscribed (hI : c.halt = none → Bounded c.server ∧ Apart c)
    (hs : c.Steps (.take w stack) d) (hd : d.halt = none)
    (hsession : (d.place w).session = some (builder, .inr tfsFd)) :
    Bounded d.server ∧ Apart d ∧
      ∃ h n : Nat, d.Reading w (d.server.tasks builder).boxName.tail.bytes h n ∧
        (d.server.fs.openFileTable h).ofOffset = (contents d.server.fs n).length := by
  obtain ⟨bufferBox, hplace⟩ := WorkerPlace.of_session hsession
  obtain ⟨ha, hmove⟩ := hs.move
  obtain ⟨hB, hA⟩ := Apart.step hI hs hd
  exact ⟨hB, hA, (hmove.effect (hI ha).1.inv hd).subscribed hplace⟩

/-- From its subscription to a box that is not removed a subscriber reads what the turns of
publishers add to the box: each turn reads all that was added and not yet read, whatever the
other workers did in between, until the box is full. -/
theorem delivered_in_order (h0 : c.Initial) (hρ : Run Steps c ρ)
    (hs : (lastState c ρ).Steps (.take w stack) d)
    (hsession : (d.place w).session = some (builder, .inr tfsFd)) (hσ : Run Steps d σ)
    (hd : (lastState d σ).halt = none)
    (hno : ∀ p ∈ posted d σ, ¬ Board.Removes (d.server.tasks builder).boxName.tail.bytes p) :
    ∃ held unread, fileAt d.server.fs (d.server.tasks builder).boxName.tail.bytes = some held ∧
      received w d σ ++ unread =
        (Board.appended (d.server.tasks builder).boxName.tail.bytes (posted d σ)).take
          (1024 - held.length) ∧
      ∀ e, (lastState d σ).Steps (.deliver w) e → e.halt = none →
        (lastState d σ).bytesRead w (.deliver w) = unread := by
  have halive : d.halt = none := (everyState_alive hσ hd).head
  obtain ⟨hB, hA, h, n, hR, hend⟩ := hs.subscribed (everyState_apart h0 hρ).last halive hsession
  obtain ⟨hlast, -, hrun⟩ := hR.run hB hA hσ hd hno
  have hx := fileAt_of_lookup hR.lookup
  have hle := length_of_fileAt hB hx
  have hheld : contents (lastState d σ).server.fs n = (contents d.server.fs n ++
      Board.appended (d.server.tasks builder).boxName.tail.bytes (posted d σ)).take 1024 := by
    have hlog := congrFun (fileAt_run (fun _ => hB) hσ hd)
      (d.server.tasks builder).boxName.tail.bytes
    rw [Board.held_foldl hx hle hno, fileAt_of_lookup hlast.lookup, Option.some.injEq] at hlog
    exact hlog
  refine ⟨contents d.server.fs n, _, hx, hrun.trans ?_, ?_⟩
  · rw [hend, hheld, List.take_append, List.take_of_length_le hle, List.drop_left]
  · intro e he hhalt
    have hBlast := (everyState_bounded (fun _ => hB) hσ).last hd
    exact (hlast.deliver hBlast (he.move.2.effect hBlast.inv hhalt)).1

/-- Two subscribers of a box that is not removed agree: what the second reads, and has still
to read, is what the first does from the point on at which the second came. -/
theorem subscribers_agree (h0 : c.Initial) (hρ : Run Steps c ρ)
    (hs : (lastState c ρ).Steps (.take w stack) d)
    (hsession : (d.place w).session = some (builder, .inr tfsFd)) (hσ : Run Steps d σ)
    (hs' : (lastState d σ).Steps (.take w' stack') e)
    (hsession' : (e.place w').session = some (builder', .inr tfsFd'))
    (hsame : (e.server.tasks builder').boxName.tail.bytes =
      (d.server.tasks builder).boxName.tail.bytes) (hτ : Run Steps e τ)
    (hd : (lastState e τ).halt = none)
    (hno : ∀ p ∈ posted d (σ ++ (.take w' stack', e) :: τ),
      ¬ Board.Removes (d.server.tasks builder).boxName.tail.bytes p) :
    ∃ held between unread unread',
      fileAt d.server.fs (d.server.tasks builder).boxName.tail.bytes = some held ∧
      fileAt e.server.fs (d.server.tasks builder).boxName.tail.bytes = some (held ++ between) ∧
      received w d (σ ++ (.take w' stack', e) :: τ) ++ unread =
        between ++ (received w' e τ ++ unread') ∧
      ∀ f, f.halt = none →
        ((lastState e τ).Steps (.deliver w) f →
          (lastState e τ).bytesRead w (.deliver w) = unread) ∧
        ((lastState e τ).Steps (.deliver w') f →
          (lastState e τ).bytesRead w' (.deliver w') = unread') := by
  have halive' : e.halt = none := (everyState_alive hτ hd).head
  -- up to the second subscription, and from there on
  have hone : Run Steps d (σ ++ [(.take w' stack', e)]) := hσ.append ⟨hs', trivial⟩
  have hto : lastState d (σ ++ [(.take w' stack', e)]) = e := lastState_append ..
  have hsplit : σ ++ (.take w' stack', e) :: τ = (σ ++ [(.take w' stack', e)]) ++ τ := by
    rw [List.append_assoc, List.singleton_append]
  rw [hsplit, posted_append, hto] at hno
  rw [hsplit, received_append, hto]
  have hmid : (lastState d (σ ++ [(.take w' stack', e)])).halt = none := by
    rw [hto]
    exact halive'
  have halive : d.halt = none := (everyState_alive hone hmid).head
  obtain ⟨hB, hA, h, n, hR, hend⟩ := hs.subscribed (everyState_apart h0 hρ).last halive hsession
  obtain ⟨hRe, ⟨between, hbetween⟩, hfirst⟩ := hR.run hB hA hone hmid
    fun p hp => hno p (List.mem_append_left _ hp)
  rw [hto] at hRe hbetween hfirst
  have hI : (lastState d σ).halt = none →
      Bounded (lastState d σ).server ∧ Apart (lastState d σ) := by
    have hrun : Run Steps (lastState c ρ) ((.take w stack, d) :: σ) := ⟨hs, hσ⟩
    have hlast := (everyState_apart h0 (hρ.append hrun)).last
    rwa [lastState_append] at hlast
  obtain ⟨hB', hA', h', n', hR', hend'⟩ := hs'.subscribed hI halive' hsession'
  rw [hsame] at hR'
  obtain rfl : n' = n := Option.some.inj (hR'.lookup.symm.trans hRe.lookup)
  have hno' : ∀ p ∈ posted e τ, ¬ Board.Removes (d.server.tasks builder).boxName.tail.bytes p :=
    fun p hp => hno p (List.mem_append_right _ hp)
  obtain ⟨hRf, -⟩ := hRe.run hB' hA' hτ hd hno'
  obtain ⟨hRf', -⟩ := hR'.run hB' hA' hτ hd hno'
  have hBf := (everyState_bounded (fun _ => hB') hτ).last hd
  have hrest := hRe.agree hB' hA' hR' hend' hτ hd hno'
  refine ⟨contents d.server.fs n', between, _, _, fileAt_of_lookup hR.lookup, ?_,
    ?_, fun f hf => ⟨fun hs => (hRf.deliver hBf (hs.move.2.effect hBf.inv hf)).1,
      fun hs => (hRf'.deliver hBf (hs.move.2.effect hBf.inv hf)).1⟩⟩
  · rw [fileAt_of_lookup hRe.lookup, hbetween]
  · rw [List.append_assoc, hrest, ← List.append_assoc, hfirst, hend, ← hbetween, List.drop_left]

/-! ### A box with a publisher and a subscriber -/

def trio : Crew (Option Bool) := ⟨started, [], fun _ => .waiting, none⟩

theorem trio_initial : trio.Initial := ⟨started_initial, rfl, fun _ => rfl, rfl⟩

/-- A box is made and a publisher of it comes, and a subscriber asks. -/
def asking : List (CrewStep (Option Bool) × Crew (Option Bool)) :=
  along next trio [.request (requestFor .createBox pathB), .take none fun _ => 0,
    .request (requestFor .loginPub pathB), .take (some true) fun _ => 0,
    .request (requestFor .loginSub pathB)]

/-- The subscriber is in. -/
def listening : Crew (Option Bool) :=
  ((lastState trio asking).next (.take (some false) fun _ => 0)).getD trio

/-- The publisher says `hello`, and the subscriber has a turn. -/
def heard : List (CrewStep (Option Bool) × Crew (Option Bool)) :=
  along next listening [.publish (some true) helloTurn, .deliver (some false)]

theorem steps_getD {b : Crew W} (h : (c.next a).isSome = true) :
    c.Steps a ((c.next a).getD b) := by
  obtain ⟨d, hd⟩ := Option.isSome_iff_exists.mp h
  unfold Steps
  rw [hd]
  rfl

theorem delivered_in_order_heard :
    ∃ held unread,
      fileAt listening.server.fs (listening.server.tasks taskOp).boxName.tail.bytes = some held ∧
      received (some false) listening heard ++ unread =
        (Board.appended (listening.server.tasks taskOp).boxName.tail.bytes
          (posted listening heard)).take (1024 - held.length) ∧
      ∀ e, (lastState listening heard).Steps (.deliver (some false)) e → e.halt = none →
        (lastState listening heard).bytesRead (some false) (.deliver (some false)) = unread := by
  have hs : (lastState trio asking).Steps (.take (some false) fun _ => 0) listening :=
    steps_getD (by decide +kernel)
  have hsession : (listening.place (some false)).session = some (taskOp, .inr 1) := by
    decide +kernel
  have hd : (lastState listening heard).halt = none := by decide +kernel
  have hno : ∀ p ∈ posted listening heard,
      ¬ Board.Removes (listening.server.tasks taskOp).boxName.tail.bytes p := by
    decide +kernel
  exact delivered_in_order (ρ := asking) (σ := heard) trio_initial (run_along _ _ _) hs hsession
    (run_along _ _ _) hd hno

/-! ### A second subscriber after the first message -/

def quartet : Crew (Bool × Bool) := ⟨started, [], fun _ => .waiting, none⟩

theorem quartet_initial : quartet.Initial := ⟨started_initial, rfl, fun _ => rfl, rfl⟩

def firstAsking : List (CrewStep (Bool × Bool) × Crew (Bool × Bool)) :=
  along next quartet [.request (requestFor .createBox pathB), .take (false, false) fun _ => 0,
    .request (requestFor .loginPub pathB), .take (false, true) fun _ => 0,
    .request (requestFor .loginSub pathB)]

def firstIn : Crew (Bool × Bool) :=
  ((lastState quartet firstAsking).next (.take (true, false) fun _ => 0)).getD quartet

def secondAsking : List (CrewStep (Bool × Bool) × Crew (Bool × Bool)) :=
  along next firstIn [.publish (false, true) helloTurn, .request (requestFor .loginSub pathB)]

/-- The second is in. It is unfolded by the kernel only. -/
@[irreducible] def secondIn : Crew (Bool × Bool) :=
  ((lastState firstIn secondAsking).next (.take (true, true) fun _ => 0)).getD quartet

/-- Both hear the second message, and the first both. -/
def bothHear : List (CrewStep (Bool × Bool) × Crew (Bool × Bool)) :=
  along next secondIn [.publish (false, true) helloTurn, .deliver (true, false),
    .deliver (true, true)]

theorem subscribers_agree_bothHear :
    ∃ held between unread unread',
      fileAt firstIn.server.fs (firstIn.server.tasks taskOp).boxName.tail.bytes = some held ∧
      fileAt secondIn.server.fs (firstIn.server.tasks taskOp).boxName.tail.bytes =
        some (held ++ between) ∧
      received (true, false) firstIn
          (secondAsking ++ (.take (true, true) fun _ => 0, secondIn) :: bothHear) ++ unread =
        between ++ (received (true, true) secondIn bothHear ++ unread') ∧
      ∀ f, f.halt = none →
        ((lastState secondIn bothHear).Steps (.deliver (true, false)) f →
          (lastState secondIn bothHear).bytesRead (true, false) (.deliver (true, false)) =
            unread) ∧
        ((lastState secondIn bothHear).Steps (.deliver (true, true)) f →
          (lastState secondIn bothHear).bytesRead (true, true) (.deliver (true, true)) =
            unread') := by
  have hs : (lastState quartet firstAsking).Steps (.take (true, false) fun _ => 0) firstIn :=
    steps_getD (by decide +kernel)
  have hs' : (lastState firstIn secondAsking).Steps (.take (true, true) fun _ => 0) secondIn := by
    unfold secondIn
    exact steps_getD (by decide +kernel)
  have hsession : (firstIn.place (true, false)).session = some (taskOp, .inr 1) := by
    decide +kernel
  have hsession' : (secondIn.place (true, true)).session = some (taskOp, .inr 2) := by
    decide +kernel
  have hd : (lastState secondIn bothHear).halt = none := by decide +kernel
  have hsame : (secondIn.server.tasks taskOp).boxName.tail.bytes =
      (firstIn.server.tasks taskOp).boxName.tail.bytes := by decide +kernel
  have hno : ∀ p ∈ posted firstIn
      (secondAsking ++ (.take (true, true) fun _ => 0, secondIn) :: bothHear),
      ¬ Board.Removes (firstIn.server.tasks taskOp).boxName.tail.bytes p := by
    decide +kernel
  have hρ : Run Steps quartet firstAsking := run_along ..
  have hσ : Run Steps firstIn secondAsking := run_along ..
  have hτ : Run Steps secondIn bothHear := run_along ..
  exact subscribers_agree (c := quartet) (d := firstIn) (e := secondIn) quartet_initial hρ hs
    hsession hσ hs' hsession' hsame hτ hd hno

end Subscriptions

end Crew

end MBroker.Broker
