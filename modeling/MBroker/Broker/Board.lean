import MBroker.Broker.Lifetime
import MBroker.Broker.Storage
import MBroker.Fs.Board

/- What is in the boxes, over whole runs of the broker. Each step of a worker comes to one
   post on a board of boxes of 1024 bytes, or to none, whatever the other workers are at
   (`board_refined`); so a box holds the messages that were published to it since it was
   made, one after the other in the order of the turns, cut at 1024 bytes (`box_is_log`).
   When no handle is left, nothing is posted any more (`boxes_sealed`). A turn of a session
   is one step here. -/
namespace MBroker.Broker
open MBroker.Lib MBroker.Fs MBroker.Wire Function

open Server

variable {fs t : FsState} {box message : CString}

/-- A message put into its box. -/
theorem fileAt_put {n : Nat} (hI : Inv fs) (hsize : fs.fsParams.blockSize = 1024)
    (hl : lookup fs box.tail.bytes = some n) (h : Put fs t n message) :
    fileAt t = (fileAt fs).post 1024 (.append box.tail.bytes message.bytes) := by
  obtain ⟨hn0, hn⟩ := hI.lookup_taken hl
  have hlen : (contents fs n).length ≤ 1024 := by
    rw [contents_length, ← hsize]
    exact (hI.inRange hn0 hn).size
  funext x
  by_cases hx : x = box.tail.bytes
  · have hl' : lookup t box.tail.bytes = some n := (h.lookup _).trans hl
    rw [hx, Board.post_append, fileAt_of_lookup hl, fileAt_of_lookup hl', Option.map_some,
      h.contents, hsize, List.take_append, List.take_of_length_le hlen]
  · rw [Board.post_ne hx]
    unfold fileAt
    rw [h.lookup]
    apply Option.map_congr
    intro m hlm
    obtain ⟨-, hm⟩ := hI.lookup_taken hlm
    refine h.others m ?_ hm
    rintro rfl
    exact hx (hI.lookup_inj hlm hl)

namespace Crew

variable {W : Type} {c d : Crew W} {a : CrewStep W} {w : W} {builder : Addr} {stack : Mem}

/-- What a step posts: a creation and a removal under the name in the task, a publisher's
turn its message. -/
def posts (c : Crew W) : CrewStep W → List (Post (List UInt8) UInt8)
  | .take w _ =>
    match c.place w, c.queue with
    | .waiting, builder :: _ =>
      match OpCode.ofCode? (c.server.tasks builder).opcode with
      | some .createBox => [.create (c.server.tasks builder).boxName.tail.bytes]
      | some .removeBox => [.remove (c.server.tasks builder).boxName.tail.bytes]
      | _ => []
    | _, _ => []
  | .remove w _ =>
    match c.place w with
    | .removing builder => [.remove (c.server.tasks builder).boxName.tail.bytes]
    | _ => []
  | .publish w turn =>
    match c.place w, turn.decode pubRequestSize with
    | .publishing builder _, .ok taskOp =>
      [.append (c.server.tasks builder).boxName.tail.bytes taskOp.message.bytes]
    | _, _ => []
  | .request _ | .deliver _ => []

/-- What the steps of a run post, in order. -/
def posted (c : Crew W) : List (CrewStep W × Crew W) → List (Post (List UInt8) UInt8)
  | [] => []
  | (a, d) :: ρ => c.posts a ++ posted d ρ

/-- The files after a step are those before it and what it posts. -/
def Posted (c : Crew W) (a : CrewStep W) (d : Crew W) : Prop :=
  fileAt d.server.fs = (c.posts a).foldl (Board.post 1024) (fileAt c.server.fs)

section Steps

variable {queue : List Addr}

theorem posts_take (hplace : c.place w = .waiting) (hqueue : c.queue = builder :: queue) :
    c.posts (.take w stack) =
      match OpCode.ofCode? (c.server.tasks builder).opcode with
      | some .createBox => [.create (c.server.tasks builder).boxName.tail.bytes]
      | some .removeBox => [.remove (c.server.tasks builder).boxName.tail.bytes]
      | _ => [] := by
  simp only [posts, hplace, hqueue]

/-- What is neither a creation nor a removal posts nothing. -/
theorem posts_eq_nil (hplace : c.place w = .waiting) (hqueue : c.queue = builder :: queue)
    (hcreate : OpCode.ofCode? (c.server.tasks builder).opcode ≠ some .createBox)
    (hremove : OpCode.ofCode? (c.server.tasks builder).opcode ≠ some .removeBox) :
    c.posts (.take w stack) = [] := by
  rw [posts_take hplace hqueue]
  split
  · next hop => exact absurd hop hcreate
  · next hop => exact absurd hop hremove
  · rfl

theorem posts_remove (hplace : c.place w = .removing builder) :
    c.posts (.remove w stack) = [.remove (c.server.tasks builder).boxName.tail.bytes] := by
  simp only [posts, hplace]

theorem posts_publish {i : Nat} {turn : Turn} {taskOp : Task}
    (hplace : c.place w = .publishing builder i)
    (hdec : turn.decode pubRequestSize = .ok taskOp) :
    c.posts (.publish w turn) =
      [.append (c.server.tasks builder).boxName.tail.bytes taskOp.message.bytes] := by
  simp only [posts, hplace, hdec]

theorem Effect.posted [DecidableEq W] (hB : Bounded c.server) (h : Effect c a d) :
    c.Posted a d := by
  have hI := hB.inv
  unfold Posted
  cases h with
  | request task => rfl
  | idle hplace hqueue hcreate hremove =>
    rw [posts_eq_nil hplace hqueue hcreate hremove]
    rfl
  | login hplace hqueue hop =>
    rw [posts_eq_nil hplace hqueue (by simp [hop]) (by simp [hop])]
    rfl
  | subscribe hplace hqueue hop hfirst hs hfs hopen =>
    obtain ⟨n, -, rfl⟩ := hopen
    rw [posts_eq_nil hplace hqueue (by simp [hop]) (by simp [hop])]
    exact fileAt_openHandle ..
  | create hplace hqueue hop hc hfs hopen =>
    rw [posts_take hplace hqueue, hop]
    exact fileAt_create hI hc hopen
  | removeAsked hplace hqueue hop hfs hunlink =>
    rw [posts_take hplace hqueue, hop]
    exact fileAt_unlink hI hunlink.removable hunlink.call
  | remove hplace hfs hunlink =>
    rw [posts_remove hplace]
    exact fileAt_unlink hI hunlink.removable hunlink.call
  | publish hplace hfs hsent =>
    obtain ⟨taskOp, hdec, hsent⟩ := hsent
    obtain ⟨n, hl, hput⟩ := hsent.put hI
    rw [posts_publish hplace hdec]
    exact fileAt_put hI (by rw [hB.params]; rfl) hl hput
  | deliver hplace hfs hread =>
    obtain ⟨bytesRead, bytes, hread⟩ := hread
    exact fileAt_read hI hread

end Steps

/-! ## Runs -/

section Runs

variable [DecidableEq W] {ρ σ : List (CrewStep W × Crew W)}

theorem bounded_step (h : c.Steps a d) (hB : c.halt = none → Bounded c.server)
    (hd : d.halt = none) : Bounded d.server := by
  obtain ⟨ha, hmove⟩ := h.move
  have hinv := (hB ha).inv
  exact ((hmove.effect hinv hd).turnsTo hinv).bounded (hB ha)

omit [DecidableEq W] in
theorem Initial.bounded (h : c.Initial) : Bounded c.server := .initial h.server

theorem everyState_bounded (hB : c.halt = none → Bounded c.server) (hr : Run Steps c ρ) :
    EveryState (fun c => c.halt = none → Bounded c.server) c ρ :=
  Run.invariant (I := fun c => c.halt = none → Bounded c.server)
    (fun _ _ _ hB h hd => bounded_step h hB hd) hB hr

/-- While the broker runs, the files are what its steps have posted. -/
theorem fileAt_run (hB : c.halt = none → Bounded c.server) (hr : Run Steps c ρ)
    (hd : (lastState c ρ).halt = none) :
    fileAt (lastState c ρ).server.fs =
      (posted c ρ).foldl (Board.post 1024) (fileAt c.server.fs) := by
  induction ρ generalizing c with
  | nil => rfl
  | cons x ρ ih =>
    obtain ⟨ha, hmove⟩ := hr.1.move
    have halive : x.2.halt = none := (everyState_alive hr.2 hd).head
    have hstep := (hmove.effect (hB ha).inv halive).posted (hB ha)
    rw [posted, List.foldl_append, ← hstep]
    exact ih (bounded_step hr.1 hB) hr.2 hd

omit [DecidableEq W] in
theorem fileAt_initial (h0 : c.Initial) : fileAt c.server.fs = fun _ => none := by
  funext x
  have hempty := fileNames_initial tfsDefaultParams_sane h0.server.fs
  have hx : x ∉ fileNames c.server.fs := by
    rw [hempty]
    exact Set.notMem_empty x
  unfold fileAt
  rw [not_not.mp fun h => hx (mem_fileNames.mpr h)]
  rfl

/-- While the broker runs, its files are a board of boxes of 1024 bytes with what its steps
have posted, whatever the workers were at in between. -/
theorem board_refined (h0 : c.Initial) (hr : Run Steps c ρ) (hd : (lastState c ρ).halt = none) :
    fileAt (lastState c ρ).server.fs =
      (posted c ρ).foldl (Board.post 1024) (fun _ => none) := by
  rw [← fileAt_initial h0]
  exact fileAt_run (fun _ => h0.bounded) hr hd

omit [DecidableEq W] in
/-- The bytes of a file are at most those of a block. -/
theorem length_of_fileAt (hB : Bounded c.server) {x held : List UInt8}
    (hx : fileAt c.server.fs x = some held) : held.length ≤ 1024 := by
  obtain ⟨n, hl, hheld⟩ := Option.map_eq_some_iff.mp hx
  obtain ⟨hn0, hn⟩ := hB.inv.lookup_taken hl
  have hsize := (hB.inv.inRange hn0 hn).size
  rw [hB.params] at hsize
  rw [← hheld, contents_length]
  exact hsize

/-- What was published to a box since, as long as it is not removed, comes after what it held,
in the order of the turns, up to 1024 bytes. -/
theorem box_is_log (h0 : c.Initial) (hρ : Run Steps c ρ) (hσ : Run Steps (lastState c ρ) σ)
    (hd : (lastState (lastState c ρ) σ).halt = none) {x held : List UInt8}
    (hx : fileAt (lastState c ρ).server.fs x = some held)
    (hno : ∀ p ∈ posted (lastState c ρ) σ, ¬ Board.Removes x p) :
    fileAt (lastState (lastState c ρ) σ).server.fs x =
      some ((held ++ Board.appended x (posted (lastState c ρ) σ)).take 1024) := by
  have hB := (everyState_bounded (fun _ => h0.bounded) hρ).last
  have halive : (lastState c ρ).halt = none := (everyState_alive hσ hd).head
  rw [fileAt_run hB hσ hd]
  exact Board.held_foldl hx (length_of_fileAt (hB halive) hx) hno

/-! ## When every handle is taken -/

theorem card_takenHandles_lt {h : Nat} (hh : freeHandle fs = some h) :
    (takenHandles fs).card < fs.fsParams.maxOpenFilesCount := by
  obtain ⟨hlt, hfree⟩ := freeHandle_some hh
  have hsub : takenHandles fs ⊂ Finset.range fs.fsParams.maxOpenFilesCount := by
    apply Finset.filter_ssubset.mpr
    refine ⟨h, Finset.mem_range.mpr hlt, ?_⟩
    rw [hfree]
    nofun
  have hcard := Finset.card_lt_card hsub
  rwa [Finset.card_range] at hcard

omit [DecidableEq W] in
/-- Without an opening and without a publisher's turn there are only removals to post. -/
theorem posts_sealed (hopens : c.opens a = 0) (hno : ∀ w turn, a ≠ .publish w turn) :
    ∀ p ∈ c.posts a, ∃ gone, p = .remove gone := by
  intro p hp
  cases a with
  | request | deliver => cases hp
  | publish w turn => exact absurd rfl (hno w turn)
  | remove w stack =>
    simp only [posts] at hp
    split at hp
    · exact ⟨_, List.mem_singleton.mp hp⟩
    · cases hp
  | take w stack =>
    simp only [posts] at hp
    simp only [opens] at hopens
    split at hp
    · next builder queue hplace hqueue =>
      rw [hplace, hqueue] at hopens
      dsimp only at hopens
      split at hp
      · next hop =>
        rw [hop] at hopens
        cases hopens
      · exact ⟨_, List.mem_singleton.mp hp⟩
      · cases hp
    · cases hp

/-- A step that the broker survives with every handle taken. -/
theorem Effect.sealed (hB : Bounded c.server) (h : Effect c a d)
    (hcard : (takenHandles c.server.fs).card = 16) :
    c.opens a = 0 ∧ (∀ w turn, a ≠ .publish w turn) ∧ (takenHandles d.server.fs).card = 16 := by
  have hturns := h.turnsTo hB.inv
  have htaken := hturns.taken
  have hle := card_takenHandles_le d.server.fs
  rw [(hturns.bounded hB).params] at hle
  change _ ≤ 16 at hle
  refine ⟨by omega, ?_, by omega⟩
  rintro w turn rfl
  cases h with
  | publish hplace hfs hsent =>
    obtain ⟨taskOp, -, hsent⟩ := hsent
    -- the message needs a handle
    obtain ⟨g, hg⟩ := Option.ne_none_iff_exists'.mp hsent.puttable.1.2
    have hmax := card_takenHandles_lt hg
    rw [hB.params] at hmax
    change _ < 16 at hmax
    omega

theorem sealed_run (hB : c.halt = none → Bounded c.server) (hr : Run Steps c σ)
    (hd : (lastState c σ).halt = none) (hcard : (takenHandles c.server.fs).card = 16) :
    EveryStep (fun c a => c.opens a = 0 ∧ ∀ w turn, a ≠ .publish w turn) c σ ∧
      ∀ p ∈ posted c σ, ∃ gone, p = .remove gone := by
  induction σ generalizing c with
  | nil => exact ⟨trivial, nofun⟩
  | cons y σ ih =>
    obtain ⟨hs, hrest⟩ := hr
    obtain ⟨ha, hmove⟩ := hs.move
    have heffect := hmove.effect (hB ha).inv (everyState_alive hrest hd).head
    obtain ⟨hopens, hno, hnext⟩ := heffect.sealed (hB ha) hcard
    obtain ⟨hsteps, hposts⟩ := ih (bounded_step hs hB) hrest hd hnext
    refine ⟨⟨⟨hopens, hno⟩, hsteps⟩, ?_⟩
    intro p hp
    rcases List.mem_append.mp hp with hp | hp
    · exact posts_sealed hopens hno p hp
    · exact hposts p hp

/-- Sixteen openings are the end of it: a broker that still runs makes no box and lets no
subscriber into one, survives no publisher's turn, and has in its boxes what it had. -/
theorem boxes_sealed [Fintype W] (h0 : c.Initial) (hρ : Run Steps c ρ)
    (hsixteen : total opens c ρ = 16) (hσ : Run Steps (lastState c ρ) σ)
    (hd : (lastState (lastState c ρ) σ).halt = none) :
    EveryStep (fun c a => c.opens a = 0 ∧ ∀ w turn, a ≠ .publish w turn) (lastState c ρ) σ ∧
      ∀ x held, fileAt (lastState (lastState c ρ) σ).server.fs x = some held →
        fileAt (lastState c ρ).server.fs x = some held := by
  have halive : (lastState c ρ).halt = none := (everyState_alive hσ hd).head
  have hcard := (handle_budget h0 hρ halive).1
  have hB := (everyState_bounded (fun _ => h0.bounded) hρ).last
  obtain ⟨hsteps, hposts⟩ := sealed_run hB hσ hd (hcard.symm.trans hsixteen)
  refine ⟨hsteps, ?_⟩
  intro x held hx
  rw [fileAt_run hB hσ hd] at hx
  exact Board.of_foldl_removes hposts hx

/-! ### A publisher of a box that is still there -/

/-- The publisher's session sends `hello`. -/
def greeting : List (CrewStep Bool × Crew Bool) :=
  along next (lastState pair login) [.publish false helloTurn]

def sixteen : Crew (Option (Fin 15)) := ⟨started, [], fun _ => .waiting, none⟩

theorem sixteen_initial : sixteen.Initial := ⟨started_initial, rfl, fun _ => rfl, rfl⟩

/-- A box is made, and fifteen subscribers come. It is unfolded by the kernel only. -/
@[irreducible] def spent : List (CrewStep (Option (Fin 15)) × Crew (Option (Fin 15))) :=
  along next sixteen ([.request (requestFor .createBox pathB), .take none fun _ => 0] ++
    (List.finRange 15).flatMap fun i =>
      [.request (requestFor .loginSub pathB), .take (some i) fun _ => 0])

/-- All of them have a turn. -/
def turns : List (CrewStep (Option (Fin 15)) × Crew (Option (Fin 15))) :=
  along next (lastState sixteen spent) ((List.finRange 15).map fun i => .deliver (some i))

theorem boxes_sealed_spent :
    EveryStep (fun c a => c.opens a = 0 ∧ ∀ w turn, a ≠ .publish w turn)
      (lastState sixteen spent) turns ∧
    ∀ x held, fileAt (lastState (lastState sixteen spent) turns).server.fs x = some held →
      fileAt (lastState sixteen spent).server.fs x = some held := by
  have hsixteen : total opens sixteen spent = 16 := by decide +kernel
  have hd : (lastState (lastState sixteen spent) turns).halt = none := by decide +kernel
  have hρ : Run Steps sixteen spent := by
    unfold spent
    exact run_along _ _ _
  exact boxes_sealed (c := sixteen) (ρ := spent) (σ := turns) sixteen_initial hρ hsixteen
    (run_along _ _ _) hd

theorem board_refined_login :
    fileAt (lastState pair login).server.fs =
      (posted pair login).foldl (Board.post 1024) (fun _ => none) :=
  board_refined pair_initial (run_along _ _ _) (by decide +kernel)

theorem box_is_log_greeting :
    fileAt (lastState (lastState pair login) greeting).server.fs [98] =
      some (([] ++ Board.appended [98] (posted (lastState pair login) greeting)).take 1024) := by
  have hd : (lastState (lastState pair login) greeting).halt = none := by decide +kernel
  have hx : fileAt (lastState pair login).server.fs [98] = some [] := by decide +kernel
  have hno : ∀ p ∈ posted (lastState pair login) greeting, ¬ Board.Removes [98] p := by
    decide +kernel
  have hr : Run Steps (lastState pair login) greeting := run_along _ _ _
  exact box_is_log (c := pair) (ρ := login) (σ := greeting) pair_initial (run_along _ _ _) hr hd
    hx hno

end Runs

end Crew

end MBroker.Broker
