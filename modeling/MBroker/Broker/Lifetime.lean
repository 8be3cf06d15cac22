import Mathlib.Data.Fintype.Card
import MBroker.Broker.Balance
import MBroker.Broker.Table

/- How long the broker can serve, whatever it is asked and in whatever order its workers
   take their steps. Three things are used up. Each creation and each subscription takes
   a handle that is never given back, of the sixteen there are (`handle_budget`). A box
   lasts no longer than the worker that made it stands between the case of the creation
   and that of the removal, into which the first runs on (`boxes_fleeting`). And each
   session takes a worker that never comes back, but for the last (`sessions_never_end`).
   All three are said of handlers and turns that are one step each: turns that cross can
   leave a handle open and end a session (`Publish`), and handlers that overlap can
   miscount the boxes. -/
namespace MBroker.Broker
open MBroker.Lib MBroker.Fs MBroker.Wire Function

open Server

/-- The session a worker is in: whose it is, and the box or the handle it is at. -/
def WorkerPlace.session : WorkerPlace → Option (Addr × (Nat ⊕ Int))
  | .publishing builder i => some (builder, .inl i)
  | .subscribing builder tfsFd _ => some (builder, .inr tfsFd)
  | .waiting | .removing _ => none

def WorkerPlace.removes : WorkerPlace → Bool
  | .removing _ => true
  | .waiting | .publishing _ _ | .subscribing _ _ _ => false

namespace Crew

variable {W : Type} {c d : Crew W} {a : CrewStep W} {w : W}

/-- The step has the broker open a box: a creation, or a subscription to a box there is. -/
def opens (c : Crew W) : CrewStep W → Nat
  | .take w _ =>
    match c.place w, c.queue with
    | .waiting, builder :: _ =>
      match OpCode.ofCode? (c.server.tasks builder).opcode with
      | some .createBox => 1
      | some .loginSub => if (c.server.firstBox builder).isSome then 1 else 0
      | _ => 0
    | _, _ => 0
  | .request _ | .remove _ _ | .publish _ _ | .deliver _ => 0

/-- The workers between a creation and the removal it runs on into. -/
def removers [Fintype W] (c : Crew W) : Finset W := Finset.univ.filter fun w => (c.place w).removes

/-- The workers in a session. -/
def sessions [Fintype W] (c : Crew W) : Finset W :=
  Finset.univ.filter fun w => (c.place w).session.isSome

/-- Each file has a box and each box a worker about to remove one. -/
structure Fleeting [Fintype W] (c : Crew W) : Prop where
  bounded : Bounded c.server
  boxes : c.server.currentBoxes ≤ c.removers.card

/-- What a step that the process survives does to the boxes, and that it takes `n`
handles. -/
inductive Turnover [DecidableEq W] (n : Nat) (s t : Server) (p q : W → WorkerPlace) : Prop
  | same (hfs : Keeps s.fs t.fs)
      (htaken : (takenHandles t.fs).card = (takenHandles s.fs).card + n)
      (hcur : t.currentBoxes = s.currentBoxes) (hplace : ∀ v, (q v).removes = (p v).removes)
  | added {w : W} {builder : Addr} (hserver : Added s t builder) (hold : (p w).removes = false)
      (hplace : q = update p w (.removing builder)) (hn : n = 1)
  | takenAway {name : CString} (hr : Removable s.fs name) (hserver : TakenAway s t name)
      (hplace : (∀ v, (q v).removes = (p v).removes) ∨ ∃ w, q = update p w .waiting) (hn : n = 0)

def TurnsTo [DecidableEq W] (c : Crew W) (n : Nat) (d : Crew W) : Prop :=
  Turnover n c.server d.server c.place d.place

/-! ## Steps -/

section Steps

variable {builder : Addr} {stack : Mem} {queue : List Addr}

theorem opens_take (hplace : c.place w = .waiting) (hqueue : c.queue = builder :: queue) :
    c.opens (.take w stack) =
      match OpCode.ofCode? (c.server.tasks builder).opcode with
      | some .createBox => 1
      | some .loginSub => if (c.server.firstBox builder).isSome then 1 else 0
      | _ => 0 := by
  simp only [opens, hplace, hqueue]

/-- What is neither a creation nor a subscription to a box there is opens none. -/
theorem opens_eq_zero (hplace : c.place w = .waiting) (hqueue : c.queue = builder :: queue)
    (hcreate : OpCode.ofCode? (c.server.tasks builder).opcode ≠ some .createBox)
    (hsub : OpCode.ofCode? (c.server.tasks builder).opcode = some .loginSub →
      c.server.firstBox builder = none) : c.opens (.take w stack) = 0 := by
  rw [opens_take hplace hqueue]
  split
  · next hop => exact absurd hop hcreate
  · next hop =>
    rw [hsub hop]
    rfl
  · rfl

theorem Effect.turnsTo [DecidableEq W] (hI : Inv c.server.fs) (h : Effect c a d) :
    c.TurnsTo (c.opens a) d := by
  cases h with
  | request task => exact Turnover.same (.refl hI) rfl rfl fun _ => rfl
  | idle hplace hqueue hcreate hremove hlogin hsub =>
    rw [opens_eq_zero hplace hqueue hcreate hsub]
    exact Turnover.same (.refl hI) rfl rfl fun _ => rfl
  | login hplace hqueue hop =>
    rw [opens_eq_zero hplace hqueue (by simp [hop]) (by simp [hop])]
    exact Turnover.same (.refl hI) rfl rfl (apply_goTo hplace rfl)
  | @subscribe w stack builder queue i h fs hplace hqueue hop hfirst hs hfs hopen =>
    obtain ⟨n, hl, rfl⟩ := hopen
    have hopens : c.opens (.take w stack) = 1 := by
      rw [opens_take hplace hqueue, hop]
      simp [hfirst]
    have hcard := Finset.card_insert_of_notMem (freeHandle_notMem hfs.free)
    rw [← hfs.taken] at hcard
    rw [hopens]
    exact Turnover.same (.openHandle hI hl (Nat.le_refl _)) hcard rfl (apply_goTo hplace rfl)
  | @create w stack builder queue h fs hplace hqueue hop hc hfs hopen =>
    have hold : (c.place w).removes = false := by
      rw [hplace]
      rfl
    rw [opens_take hplace hqueue, hop]
    exact Turnover.added (.addBox (.of_open hI hc hopen)) hold rfl rfl
  | removeAsked hplace hqueue hop hfs hunlink =>
    rw [opens_eq_zero hplace hqueue (by simp [hop]) (by simp [hop])]
    exact Turnover.takenAway hunlink.removable (.without (hunlink.removed hI))
      (.inl (apply_goTo hplace rfl)) rfl
  | remove hplace hfs hunlink =>
    exact Turnover.takenAway hunlink.removable (.without (hunlink.removed hI)) (.inr ⟨_, rfl⟩) rfl
  | publish hplace hfs hsent =>
    obtain ⟨taskOp, -, hsent⟩ := hsent
    obtain ⟨n, -, hput⟩ := hsent.put hI
    exact Turnover.same hput.toKeeps (congrArg Finset.card hfs.taken) rfl (apply_goTo hplace rfl)
  | deliver hplace hfs hread =>
    obtain ⟨bytesRead, bytes, hread⟩ := hread
    exact Turnover.same (tfsRead_keeps hI hread).1 (congrArg Finset.card hfs.taken) rfl
      (apply_goTo hplace rfl)

end Steps

/-! ## Boxes and handles -/

section Boxes

variable [DecidableEq W] {s t : Server} {p q : W → WorkerPlace} {n : Nat}

theorem Turnover.bounded (h : Turnover n s t p q) (hB : Bounded s) : Bounded t := by
  cases h with
  | same hfs htaken hcur hplace =>
    obtain ⟨names, hnames, hcard⟩ := hB.files
    have hhandles := hB.handles
    refine ⟨hfs.inv, hfs.params.trans hB.params, ⟨names, ?_, ?_⟩, ?_⟩
    · rw [hnames, hfs.files]
    · rw [hcur]
      exact hcard
    · omega
  | added hserver => exact hB.added hserver
  | takenAway hr hserver => exact hB.takenAway hr hserver

theorem Turnover.taken (h : Turnover n s t p q) :
    (takenHandles t.fs).card = (takenHandles s.fs).card + n := by
  cases h with
  | same hfs htaken => exact htaken
  | added hserver hold hplace hn =>
    obtain ⟨g, hg⟩ := hserver.fs
    rw [hg.card_takenHandles, hn]
  | takenAway hr hserver hplace hn => rw [hserver.fs.card_takenHandles, hn, Nat.add_zero]

theorem Fleeting.turnsTo [Fintype W] (hF : c.Fleeting) (h : c.TurnsTo n d) : d.Fleeting := by
  refine ⟨h.bounded hF.bounded, ?_⟩
  have hboxes := hF.boxes
  cases h with
  | same hfs htaken hcur hplace =>
    have hremovers : d.removers = c.removers := by
      ext v
      simp [removers, hplace]
    rw [hcur, hremovers]
    exact hboxes
  | @added w builder hserver hold hplace =>
    have hremovers : d.removers = insert w c.removers := by
      ext v
      by_cases hv : v = w
      · subst hv
        simp [removers, hplace, WorkerPlace.removes]
      · simp [removers, hplace, hv]
    have hnew : w ∉ c.removers := by simp [removers, hold]
    rw [hserver.currentBoxes, hremovers, Finset.card_insert_of_notMem hnew]
    omega
  | @takenAway name hr hserver hplace =>
    have hcard : c.removers.card ≤ d.removers.card + 1 := by
      rcases hplace with hsame | ⟨w, hplace⟩
      · have hremovers : d.removers = c.removers := by
          ext v
          simp [removers, hsame]
        rw [hremovers]
        exact Nat.le_succ _
      · have hremovers : d.removers = c.removers.erase w := by
          ext v
          by_cases hv : v = w
          · subst hv
            simp [removers, hplace, WorkerPlace.removes]
          · simp [removers, hplace, hv]
        have := Finset.pred_card_le_card_erase (s := c.removers) (a := w)
        rw [hremovers]
        omega
    rw [hserver.currentBoxes]
    omega

/-- So it is while the broker runs. -/
theorem Fleeting.step [Fintype W] (hF : c.halt = none → c.Fleeting) (h : c.Steps a d)
    (hd : d.halt = none) : d.Fleeting := by
  obtain ⟨ha, hmove⟩ := h.move
  have hc := hF ha
  have hinv := hc.bounded.inv
  exact hc.turnsTo ((hmove.effect hinv hd).turnsTo hinv)

omit [DecidableEq W] in
theorem Initial.fleeting [Fintype W] (h : c.Initial) : c.Fleeting := by
  refine ⟨.initial h.server, ?_⟩
  rw [h.server.currentBoxes]
  exact Int.natCast_nonneg _

theorem everyState_fleeting [Fintype W] {ρ : List (CrewStep W × Crew W)} (h0 : c.Initial)
    (hr : Run Steps c ρ) : EveryState (fun c => c.halt = none → c.Fleeting) c ρ := by
  apply Run.invariant _ _ hr
  · intro c a d hF h hd
    exact Fleeting.step hF h hd
  · exact fun _ => h0.fleeting

omit [DecidableEq W] in
/-- No worker is about to remove a box, so there is none, and no file. -/
theorem Fleeting.none [Fintype W] (hF : c.Fleeting) (h : ∀ w, (c.place w).removes = false) :
    c.server.currentBoxes = 0 ∧ fileNames c.server.fs = ∅ := by
  have hremovers : c.removers = ∅ := by
    ext v
    simp [removers, h]
  have hboxes := hF.boxes
  have hnonneg := hF.bounded.nonneg
  rw [hremovers, Finset.card_empty] at hboxes
  obtain ⟨names, hnames, hcard⟩ := hF.bounded.files
  have hempty : names = ∅ := by
    rw [← Finset.card_eq_zero]
    omega
  refine ⟨by omega, ?_⟩
  rw [← hnames, hempty, Finset.coe_empty]

/-- In every state of every run of whole handlers and turns there are at most as many boxes
as workers between a creation and the removal after it, and at most sixteen; where there is
no such worker, there is no box and no file. -/
theorem boxes_fleeting [Fintype W] {ρ : List (CrewStep W × Crew W)} (h0 : c.Initial)
    (hr : Run Steps c ρ) :
    EveryState (fun c => c.halt = none →
      (0 ≤ c.server.currentBoxes ∧ c.server.currentBoxes ≤ c.removers.card ∧
        c.server.currentBoxes ≤ 16) ∧
      ((∀ w, (c.place w).removes = false) →
        c.server.currentBoxes = 0 ∧ fileNames c.server.fs = ∅)) c ρ := by
  apply (everyState_fleeting h0 hr).mono
  intro c hF ha
  exact ⟨⟨(hF ha).bounded.nonneg, (hF ha).boxes, (hF ha).bounded.le⟩, (hF ha).none⟩

/-- A state in which the process has not ended comes after such states only. -/
theorem everyState_alive {ρ : List (CrewStep W × Crew W)} (hr : Run Steps c ρ)
    (hd : (lastState c ρ).halt = none) : EveryState (fun c => c.halt = none) c ρ := by
  apply Run.everyState_of_last (I := fun _ => True) _ _ trivial hr hd
  · exact fun _ _ _ _ _ => trivial
  · exact fun _ _ _ _ h _ => h.move.1

/-- A broker that still runs has handled sixteen creations and subscriptions to boxes at
most: each has taken one of the sixteen handles for good. -/
theorem handle_budget [Fintype W] {ρ : List (CrewStep W × Crew W)} (h0 : c.Initial)
    (hr : Run Steps c ρ) (hd : (lastState c ρ).halt = none) :
    total opens c ρ = (takenHandles (lastState c ρ).server.fs).card ∧ total opens c ρ ≤ 16 := by
  have hstates := (everyState_alive hr hd).and (everyState_fleeting h0 hr)
  have hstep : ∀ (c : Crew W) a (d : Crew W), (c.halt = none ∧ (c.halt = none → c.Fleeting)) →
      (d.halt = none ∧ (d.halt = none → d.Fleeting)) → Steps c a d →
      (takenHandles d.server.fs).card = (takenHandles c.server.fs).card + opens c a := by
    intro c a d hc hd h
    have hinv := (hc.2 hc.1).bounded.inv
    exact ((h.move.2.effect hinv hd.1).turnsTo hinv).taken
  have htotal : (takenHandles (lastState c ρ).server.fs).card =
      (takenHandles c.server.fs).card + total opens c ρ := hr.total_eq hstep hstates
  have hzero : (takenHandles c.server.fs).card = 0 := by rw [h0.takenHandles, Finset.card_empty]
  have hcard := card_takenHandles_le (lastState c ρ).server.fs
  rw [(hstates.last.2 hd).bounded.params] at hcard
  change _ ≤ 16 at hcard
  omega

end Boxes

/-! ## Sessions -/

section Sessions

variable [DecidableEq W]

theorem Effect.keeps_session {k : Addr × (Nat ⊕ Int)} {v : W} (h : Effect c a d)
    (hk : (c.place v).session = some k) : (d.place v).session = some k := by
  have hne : ∀ {w}, (c.place w).session = none → v ≠ w := by
    rintro w hw rfl
    rw [hw] at hk
    cases hk
  cases h with
  | request | idle => exact hk
  | login hplace | subscribe hplace | create hplace | removeAsked hplace | remove hplace =>
    exact (congrArg WorkerPlace.session (update_of_ne (hne (by rw [hplace]; rfl)) _ _)).trans hk
  | publish hplace | deliver hplace =>
    rw [← hk]
    apply apply_goTo hplace
    rfl

/-- A session is at a box, so at its start some worker is about to remove one. -/
theorem exists_spare [Fintype W] {queue : List Addr} {server : Server}
    {place : WorkerPlace} (hF : c.Fleeting) (hplace : c.place w = .waiting) {i : Nat}
    (hi : i < c.server.size) :
    ∃ v, ((goTo { c with queue } w place server).place v).session = none := by
  have hboxes := hF.boxes
  have hsize : c.server.size = c.server.currentBoxes.toNat := rfl
  obtain ⟨v, hv⟩ : c.removers.Nonempty := Finset.card_pos.mp (by omega)
  have hremoves : (c.place v).removes = true := (Finset.mem_filter.mp hv).2
  have hne : v ≠ w := by
    rintro rfl
    rw [hplace] at hremoves
    cases hremoves
  refine ⟨v, ?_⟩
  show (update c.place w place v).session = none
  rw [update_of_ne hne]
  cases hat : c.place v with
  | removing => rfl
  | waiting | publishing | subscribing =>
    rw [hat] at hremoves
    cases hremoves

theorem Effect.spare [Fintype W] (hF : c.Fleeting) (h : Effect c a d)
    (hspare : ∃ v, (c.place v).session = none) : ∃ v, (d.place v).session = none := by
  cases h with
  | request | idle => exact hspare
  | login hplace hqueue hop hi => exact exists_spare hF hplace hi
  | subscribe hplace hqueue hop hfirst =>
    exact exists_spare hF hplace (firstIndex_eq_some.mp hfirst).1
  | @create w | @removeAsked w | @remove w => exact ⟨w, congrArg _ (update_self _ _ _)⟩
  | publish hplace | deliver hplace =>
    obtain ⟨v, hv⟩ := hspare
    refine ⟨v, ?_⟩
    rw [← hv]
    apply apply_goTo hplace
    rfl

theorem everyState_spare [Fintype W] [Nonempty W] {ρ : List (CrewStep W × Crew W)}
    (h0 : c.Initial) (hr : Run Steps c ρ) :
    EveryState (fun c => c.halt = none → c.Fleeting ∧ ∃ v, (c.place v).session = none) c ρ := by
  apply Run.invariant _ _ hr
  · intro c a d hc h hd
    obtain ⟨ha, hmove⟩ := h.move
    obtain ⟨hF, hspare⟩ := hc ha
    have hinv := hF.bounded.inv
    have heffect := hmove.effect hinv hd
    exact ⟨hF.turnsTo (heffect.turnsTo hinv), heffect.spare hF hspare⟩
  · intro _
    obtain ⟨w⟩ := ‹Nonempty W›
    exact ⟨h0.fleeting, w, congrArg _ (h0.place w)⟩

theorem keeps_session_run {ρ : List (CrewStep W × Crew W)} {w : W} {k : Addr × (Nat ⊕ Int)}
    (hI : Inv c.server.fs) (hr : Run Steps c ρ) (hd : (lastState c ρ).halt = none)
    (hk : (c.place w).session = some k) : ((lastState c ρ).place w).session = some k := by
  induction ρ generalizing c with
  | nil => exact hk
  | cons x ρ ih =>
    have heffect := hr.1.move.2.effect hI (everyState_alive hr.2 hd).head
    exact ih (heffect.inv hI) hr.2 hd (heffect.keeps_session hk)

omit [DecidableEq W] in
theorem disjoint_sessions [Fintype W] (c : Crew W) : Disjoint c.removers c.sessions := by
  unfold removers sessions
  rw [Finset.disjoint_filter]
  intro w _ hremoves hsession
  cases hat : c.place w with
  | waiting | publishing | subscribing =>
    rw [hat] at hremoves
    cases hremoves
  | removing =>
    rw [hat] at hsession
    cases hsession

/-- While the broker runs a session never ends; the boxes and the sessions are together no
more than the workers; and the last worker gets into no session. -/
theorem sessions_never_end [Fintype W] [Nonempty W] {ρ σ : List (CrewStep W × Crew W)}
    (h0 : c.Initial) (hr : Run Steps c ρ) (hs : Run Steps (lastState c ρ) σ)
    (hd : (lastState (lastState c ρ) σ).halt = none) :
    (∀ w k, ((lastState c ρ).place w).session = some k →
      ((lastState (lastState c ρ) σ).place w).session = some k) ∧
    (lastState c ρ).server.currentBoxes + (lastState c ρ).sessions.card ≤ Fintype.card W ∧
    (lastState c ρ).sessions.card < Fintype.card W := by
  have halive : (lastState c ρ).halt = none := (everyState_alive hs hd).head
  obtain ⟨hF, v, hv⟩ := (everyState_spare h0 hr).last halive
  refine ⟨fun w k hk => keeps_session_run hF.bounded.inv hs hd hk, ?_, ?_⟩
  · have hboxes := hF.boxes
    have hcard := Finset.card_union_of_disjoint (lastState c ρ).disjoint_sessions
    have hle := Finset.card_le_univ ((lastState c ρ).removers ∪ (lastState c ρ).sessions)
    omega
  · refine Finset.card_lt_univ_of_notMem (x := v) ?_
    simp [sessions, hv]

end Sessions

/-! ## A run of two workers -/

def pair : Crew Bool := ⟨started, [], fun _ => .waiting, none⟩

theorem pair_initial : pair.Initial := ⟨started_initial, rfl, fun _ => rfl, rfl⟩

/-- One makes a box, and the other takes in a publisher of it. -/
def login : List (CrewStep Bool × Crew Bool) :=
  along next pair [.request (requestFor .createBox pathB), .take true fun _ => 0,
    .request (requestFor .loginPub pathB), .take false fun _ => 0]

/-- The first comes to the removal. -/
def afterLogin : List (CrewStep Bool × Crew Bool) :=
  along next (lastState pair login) [.remove true fun _ => 0]

theorem boxes_fleeting_login :
    EveryState (fun c => c.halt = none →
      (0 ≤ c.server.currentBoxes ∧ c.server.currentBoxes ≤ c.removers.card ∧
        c.server.currentBoxes ≤ 16) ∧
      ((∀ w, (c.place w).removes = false) →
        c.server.currentBoxes = 0 ∧ fileNames c.server.fs = ∅)) pair login :=
  boxes_fleeting pair_initial (run_along _ _ _)

theorem handle_budget_login :
    total opens pair login = (takenHandles (lastState pair login).server.fs).card ∧
      total opens pair login ≤ 16 :=
  handle_budget pair_initial (run_along _ _ _) (by decide +kernel)

theorem sessions_never_end_login :
    (∀ w k, ((lastState pair login).place w).session = some k →
      ((lastState (lastState pair login) afterLogin).place w).session = some k) ∧
    (lastState pair login).server.currentBoxes + (lastState pair login).sessions.card ≤
      Fintype.card Bool ∧
    (lastState pair login).sessions.card < Fintype.card Bool :=
  sessions_never_end pair_initial (run_along _ _ _) (run_along _ _ _) (by decide +kernel)

end Crew

end MBroker.Broker
