import MBroker.Broker.Ledger

/- The names of the boxes, against the names they were asked for under. All requests are
   decoded into `task_op`, and every box that is made of one points to the name there. So
   a creation, a removal and the sessions leave each box its name, and a request that is
   decoded gives all of them its own. -/
namespace MBroker.Broker
open MBroker.Lib MBroker.Fs MBroker.Wire Function

open Server

namespace Ledger

variable {W : Type}

/-- Each box has the name it was created under, and a handler that looks for the name in
its task stops at the boxes created under that. -/
structure Named (l : Ledger W) : Prop where
  names : ∀ i : Nat, i < l.crew.server.size → l.crew.server.boxName i = (l.created i).name
  lookups : ∀ (builder : Addr) (i : Nat), i < l.crew.server.size →
    ((l.crew.server.tasks builder).boxName = l.crew.server.boxName i ↔
      (l.crew.server.tasks builder).boxName = (l.created i).name)

/-- So it is as long as the broker runs. -/
def Stable (l : Ledger W) : Prop := l.crew.halt = none → l.Named

/-- The request is decoded while there is a box that was created under another name. -/
def Overwrites (l : Ledger W) : CrewStep W → Prop
  | .request task => ∃ i : Nat, i < l.crew.server.size ∧ (l.created i).name ≠ task.boxName
  | .take _ _ | .remove _ _ | .publish _ _ | .deliver _ => False

/-- Every address in the queue, and every name in the table, is in `task_op`. -/
structure Shared (c : Crew W) : Prop where
  queue : ∀ p ∈ c.queue, p = taskOp
  boxes : ∀ i : Nat, i < c.server.size → (c.server.boxes i).boxName = taskOp

variable {c d : Crew W} {l m : Ledger W} {a : CrewStep W}

theorem Named.of_names
    (h : ∀ i : Nat, i < l.crew.server.size → l.crew.server.boxName i = (l.created i).name) :
    l.Named := by
  refine ⟨h, fun builder i hi => ?_⟩
  rw [h i hi]

theorem Shared.tail {builder : Addr} {queue : List Addr} (hS : Shared c)
    (hqueue : c.queue = builder :: queue) : builder = taskOp ∧ ∀ p ∈ queue, p = taskOp := by
  have hall := hS.queue
  rw [hqueue] at hall
  exact ⟨hall _ List.mem_cons_self, fun p hp => hall p (List.mem_cons_of_mem _ hp)⟩

/-- A removal moves pointers that are all the same. -/
theorem Shared.without (hS : Shared c) (builder : Addr) (fs : FsState) (i : Nat)
    (hi : i < (c.server.without builder fs).size) :
    ((c.server.without builder fs).boxes i).boxName = taskOp := by
  rw [boxes_without hi]
  rw [size_without] at hi
  exact hS.boxes _ (movedFrom_lt hi)

/-- A removal moves the names of the creations as it moves the boxes. -/
theorem Named.without (hN : l.Named) {builder : Addr} {fs : FsState} {name : CString}
    (hname : (l.crew.server.tasks builder).boxName = name)
    (hserver : m.crew.server = l.crew.server.without builder fs)
    (hcreated : m.created = l.crew.server.moved name l.created) : m.Named := by
  refine .of_names fun i hi => ?_
  rw [hserver] at hi ⊢
  have hbox := boxes_without hi
  rw [size_without] at hi
  rw [hcreated, moved_apply l.created hi]
  have hlt : l.crew.server.movedFrom name i < l.crew.server.size := movedFrom_lt hi
  rw [← hN.names _ hlt, boxName, hbox, hname]
  rfl

/-- The names after a request are all its own. -/
theorem named_request_iff (hS : Shared l.crew) (task : Task) :
    Named { l with crew :=
      { l.crew with
        server := l.crew.server.receive taskOp task
        queue := if Enqueues task.opcode then l.crew.queue ++ [taskOp] else l.crew.queue } } ↔
      ¬ l.Overwrites (.request task) := by
  have hread : ∀ i : Nat, i < l.crew.server.size →
      (l.crew.server.receive taskOp task).boxName i = task.boxName := by
    intro i hi
    have hbox : nameOf (l.crew.server.receive taskOp task).tasks (l.crew.server.boxes i) = _ :=
      nameOf_receive _
    rwa [if_pos (hS.boxes i hi)] at hbox
  refine ⟨?_, ?_⟩
  · intro hN hover
    obtain ⟨i, hi, hne⟩ := hover
    exact hne ((hN.names i hi).symm.trans (hread i hi))
  · intro hnot
    refine .of_names fun i hi => (hread i hi).trans ?_
    by_contra hne
    exact hnot ⟨i, hi, fun heq => hne heq.symm⟩

variable [DecidableEq W]

theorem Shared.effect (hS : Shared c) (h : Crew.Effect c a d) : Shared d := by
  cases h with
  | request task =>
    refine ⟨fun p hp => ?_, hS.boxes⟩
    dsimp only at hp
    split at hp
    · rcases List.mem_append.mp hp with hold | hnew
      · exact hS.queue p hold
      · exact List.mem_singleton.mp hnew
    · exact hS.queue p hp
  | idle hplace hqueue => exact ⟨(hS.tail hqueue).2, hS.boxes⟩
  | login hplace hqueue => exact ⟨(hS.tail hqueue).2, hS.boxes⟩
  | @subscribe w stack builder queue i h fs hplace hqueue =>
    refine ⟨(hS.tail hqueue).2, fun k hk => ?_⟩
    exact (pointer_withSubscriber c.server builder i fs k).trans (hS.boxes k hk)
  | @create w stack builder queue h fs hplace hqueue =>
    obtain ⟨hbuilder, htail⟩ := hS.tail hqueue
    refine ⟨htail, fun i hi => ?_⟩
    rcases addBox_cases hi with ⟨-, hbox⟩ | ⟨-, hlt, last, hbox⟩
    · exact (congrArg MailBox.boxName hbox).trans hbuilder
    · exact (congrArg MailBox.boxName hbox).trans (hS.boxes i hlt)
  | removeAsked hplace hqueue => exact ⟨(hS.tail hqueue).2, hS.without _ _⟩
  | remove => exact ⟨hS.queue, hS.without _ _⟩
  | publish => exact ⟨hS.queue, hS.boxes⟩
  | deliver => exact ⟨hS.queue, hS.boxes⟩

/-! ## Steps -/

/-- A step that is no request keeps the names. -/
theorem named_iff (hS : Shared l.crew) (hN : l.Named) (h : Crew.Effect l.crew a d) :
    (l.remember d a).Named ↔ ¬ l.Overwrites a := by
  cases h with
  | request task => exact named_request_iff hS task
  | idle hplace hqueue _ hremove =>
    rw [remember_idle hplace hqueue hremove]
    exact iff_of_true (.of_names hN.names) (fun h => h)
  | login _ hqueue =>
    rw [remember_login hqueue]
    exact iff_of_true (.of_names hN.names) (fun h => h)
  | @subscribe w stack builder queue i h fs _ hqueue _ hfirst =>
    rw [remember_subscribe hqueue hfirst]
    refine iff_of_true (.of_names fun k hk => ?_) (fun h => h)
    rw [← hN.names k hk]
    exact congrArg (fun p : Addr => (l.crew.server.tasks p).boxName)
      (pointer_withSubscriber l.crew.server builder i fs k)
  | @create w stack builder queue h fs hplace hqueue =>
    rw [remember_create hqueue]
    refine iff_of_true (.of_names fun i hi => ?_) (fun h => h)
    rcases addBox_cases hi with ⟨hlast, hbox⟩ | ⟨hold, hlt, last, hbox⟩
    · refine (congrArg (nameOf l.crew.server.tasks) hbox).trans ?_
      show (l.crew.server.tasks builder).boxName = (update l.created _ _ (i : Int)).name
      rw [hlast, update_self]
    · refine (congrArg (nameOf l.crew.server.tasks) hbox).trans ?_
      show _ = (update l.created _ _ (i : Int)).name
      rw [update_of_ne hold, ← hN.names i hlt]
      rfl
  | removeAsked _ hqueue hop =>
    rw [remember_removeAsked hqueue hop]
    exact iff_of_true (hN.without rfl rfl rfl) (fun h => h)
  | remove hplace =>
    rw [remember_remove hplace]
    exact iff_of_true (hN.without rfl rfl rfl) (fun h => h)
  | publish | deliver => exact iff_of_true (.of_names hN.names) (fun h => h)

/-! ## Runs -/

/-- While the broker runs: a sound file system, and one task for all names. -/
def Kept (l : Ledger W) : Prop := l.Sound ∧ (l.crew.halt = none → Shared l.crew)

omit [DecidableEq W] in
theorem Initial.kept (h : l.Initial) : l.Kept := by
  refine ⟨h.sound, fun _ => ⟨fun p hp => ?_, fun i hi => absurd hi (h.no_box i)⟩⟩
  rw [h.queue] at hp
  cases hp

omit [DecidableEq W] in
theorem Initial.stable (h : l.Initial) : l.Stable :=
  fun _ => .of_names fun i hi => absurd hi (h.no_box i)

theorem Kept.step (hK : l.Kept) (h : l.Steps a m) : m.Kept := by
  refine ⟨hK.1.step h, ?_⟩
  obtain ⟨ha, d, rfl, heffect⟩ := h.effect hK.1
  rw [remember_crew]
  exact fun hd => (hK.2 ha).effect (heffect hd)

/-- A request does not end the process. -/
theorem Overwrites.halt {d : Crew W} (ha : l.crew.halt = none) (h : l.crew.Steps a d)
    (hover : l.Overwrites a) : d.halt = none := by
  obtain ⟨-, hmove⟩ := Crew.Steps.move h
  cases hmove with
  | request task => exact ha
  | skip | take | remove | publish | deliver => exact hover.elim

theorem Kept.stable_iff (hK : l.Kept) (hstable : l.Stable) (h : l.Steps a m) :
    m.Stable ↔ ¬ l.Overwrites a := by
  obtain ⟨ha, d, rfl, heffect⟩ := h.effect hK.1
  obtain ⟨hstep, -⟩ := h.crew
  rw [remember_crew] at hstep
  unfold Stable
  rw [remember_crew]
  apply running_iff
  · intro hover
    exact hover.halt ha hstep
  · intro hd
    exact named_iff (hK.2 ha) (hstable ha) (heffect hd)

/-- Along a run the boxes keep the names they were created under exactly when no request
is decoded while there is a box that was created under another. -/
theorem names_stable_iff {ρ : List (CrewStep W × Ledger W)} (h0 : l.Initial)
    (hr : Run Steps l ρ) :
    EveryState Stable l ρ ↔ EveryStep (fun l a => ¬ l.Overwrites a) l ρ := by
  apply Run.everyState_iff (I := Kept) _ _ h0.kept h0.stable hr
  · intro l a m hK hst
    exact hK.step hst
  · intro l a m hK hs hst
    exact hK.stable_iff hs hst

/-- The broker started, with one worker and nothing recorded. -/
def blank : Ledger Unit where
  crew := ⟨started, [], fun _ => .waiting, none⟩
  created := fun _ => ⟨0, pathB⟩
  count := 0
  sessionBox := fun _ => 0

theorem blank_initial : blank.Initial := ⟨started_initial, rfl, fun _ => rfl, rfl⟩

/-- A publisher of `/a` asks to be let in while there is a box `/b`. -/
def relabelling : List (CrewStep Unit × Ledger Unit) :=
  along next blank [.request (requestFor .createBox pathB), .take () fun _ => 0,
    .request (requestFor .loginPub pathA)]

theorem names_stable_iff_relabelling :
    EveryState Stable blank relabelling ↔
      EveryStep (fun l a => ¬ l.Overwrites a) blank relabelling :=
  names_stable_iff blank_initial (run_along _ _ _)

/-- The box is `/a` from then on. -/
theorem login_renames_box : ¬ ∀ (l : Ledger Unit) ρ, l.Initial → Run Steps l ρ →
    EveryState Stable l ρ := by
  intro h
  have hlast := (h blank relabelling blank_initial (run_along _ _ _)).last
  have halive : (lastState blank relabelling).crew.halt = none := by decide +kernel
  have hbox : 0 < (lastState blank relabelling).crew.server.size := by decide +kernel
  have hname := (hlast halive).names 0 hbox
  revert hname
  decide +kernel

end Ledger

end MBroker.Broker
