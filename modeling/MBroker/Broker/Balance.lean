import MBroker.Broker.Effects

/- The handles of the open-file table, against the subscribers that run. A publisher
   gives back, message by message, the handle it took: it opens the box at its end, so
   the read before the write finds nothing, and no decoded message is longer than a
   box, so a turn that no other crosses does not take the branch that leaves the handle
   open (one that another crosses can, see `Publish`). A subscriber keeps its handle
   while it runs. A creation opens the box and drops the handle: each one
   that is accepted leaves one behind. -/
namespace MBroker.Broker
open MBroker.Lib MBroker.Fs MBroker.Wire Function

/-- The handle of a subscriber's session. -/
def WorkerPlace.handle? : WorkerPlace → Option Int
  | .subscribing _ tfsFd _ => some tfsFd
  | .waiting | .removing _ | .publishing _ _ => none

/-- The handle is held by a session that runs. -/
def Crew.Holds {W : Type} (c : Crew W) (h : Nat) : Prop := ∃ w, (c.place w).handle? = some (h : Int)

/-- The entries taken are the handles held. -/
def Crew.Balanced {W : Type} (c : Crew W) : Prop :=
  c.halt = none → ∀ h, h ∈ takenHandles c.server.fs ↔ c.Holds h

/-- The entry is taken, and no session holds it. -/
def Crew.Stray {W : Type} (c : Crew W) (h : Nat) : Prop :=
  h ∈ takenHandles c.server.fs ∧ ¬ c.Holds h

/-- The step is a creation that is accepted. -/
def Crew.Creates {W : Type} (c : Crew W) : CrewStep W → Prop
  | .take w _ => ∃ builder queue, c.place w = .waiting ∧ c.queue = builder :: queue ∧
    OpCode.ofCode? (c.server.tasks builder).opcode = some .createBox ∧
    Creatable c.server.fs (c.server.tasks builder).boxName
  | .request _ | .remove _ _ | .publish _ _ | .deliver _ => False

/-- The entries that no session holds are those of before, and that of a creation. -/
def Crew.Accounted {W : Type} (c : Crew W) (a : CrewStep W) (d : Crew W) : Prop :=
  d.halt = none → ∀ h, d.Stray h ↔ c.Stray h ∨ c.Creates a ∧ freeHandle c.server.fs = some h

/-! ## States -/

namespace Crew

variable {W : Type} {c d : Crew W} {a : CrewStep W} {w : W} {place : WorkerPlace} {t : Server}
  {creates : Prop} {builder : Addr} {stack : Mem}

/-- While the broker runs its file system is sound, and what a session holds is taken. -/
def Kept (c : Crew W) : Prop :=
  c.halt = none → Inv c.server.fs ∧ ∀ h, c.Holds h → h ∈ takenHandles c.server.fs

/-- What a step does to the handles, where the process goes on. -/
inductive Change (c d : Crew W) (creates : Prop) : Prop
  | quiet (hnot : ¬ creates) (hfs : Returned c.server.fs d.server.fs)
      (hheld : ∀ h, d.Holds h ↔ c.Holds h)
  | session {g : Nat} (hnot : ¬ creates) (hfs : Took c.server.fs d.server.fs g)
      (hheld : ∀ h, d.Holds h ↔ h = g ∨ c.Holds h)
  | creation {g : Nat} (hcreates : creates) (hfs : Took c.server.fs d.server.fs g)
      (hheld : ∀ h, d.Holds h ↔ c.Holds h)

theorem creates_take_iff {queue : List Addr} (hplace : c.place w = .waiting)
    (hqueue : c.queue = builder :: queue) :
    c.Creates (.take w stack) ↔
      OpCode.ofCode? (c.server.tasks builder).opcode = some .createBox ∧
        Creatable c.server.fs (c.server.tasks builder).boxName :=
  Crew.exists_taken_iff hplace hqueue

theorem not_creates_take {queue : List Addr} (hplace : c.place w = .waiting)
    (hqueue : c.queue = builder :: queue)
    (hop : OpCode.ofCode? (c.server.tasks builder).opcode ≠ some .createBox) :
    ¬ c.Creates (.take w stack) := by
  rw [creates_take_iff hplace hqueue]
  exact fun h => hop h.1

theorem Change.kept (hc : Change c d creates)
    (hK : ∀ h, c.Holds h → h ∈ takenHandles c.server.fs) :
    Inv d.server.fs ∧ ∀ h, d.Holds h → h ∈ takenHandles d.server.fs := by
  cases hc with
  | quiet hnot hfs hheld =>
    refine ⟨hfs.inv, fun h hd => ?_⟩
    rw [hfs.taken]
    exact hK h ((hheld h).mp hd)
  | session hnot hfs hheld =>
    refine ⟨hfs.inv, fun h hd => ?_⟩
    rw [hfs.taken, Finset.mem_insert]
    exact ((hheld h).mp hd).imp_right (hK h)
  | creation hcreates hfs hheld =>
    refine ⟨hfs.inv, fun h hd => ?_⟩
    rw [hfs.taken, Finset.mem_insert]
    exact .inr (hK h ((hheld h).mp hd))

/-- A session takes up the handle it opens; a creation leaves it. -/
theorem Change.stray_iff (hc : Change c d creates)
    (hK : ∀ h, c.Holds h → h ∈ takenHandles c.server.fs) (h : Nat) :
    d.Stray h ↔ c.Stray h ∨ creates ∧ freeHandle c.server.fs = some h := by
  unfold Stray
  cases hc with
  | quiet hnot hfs hheld => simp [hfs.taken, hheld, hnot]
  | @session g hnot hfs hheld =>
    have hg := freeHandle_notMem hfs.free
    simp only [hfs.taken, Finset.mem_insert, hheld, hnot, false_and, or_false, not_or]
    refine ⟨?_, ?_⟩
    · intro hd
      exact ⟨hd.1.resolve_left hd.2.1, hd.2.2⟩
    · intro hc
      exact ⟨.inr hc.1, fun heq => hg (heq ▸ hc.1), hc.2⟩
  | @creation g hcreates hfs hheld =>
    have hg : ¬ c.Holds g := fun hd => freeHandle_notMem hfs.free (hK g hd)
    simp only [hfs.taken, Finset.mem_insert, hheld, hcreates, true_and, hfs.free, Option.some.injEq]
    refine ⟨?_, ?_⟩
    · rintro ⟨rfl | hold, hnot⟩
      · exact .inr rfl
      · exact .inl ⟨hold, hnot⟩
    · rintro (hold | rfl)
      · exact ⟨.inr hold.1, hold.2⟩
      · exact ⟨.inl rfl, hg⟩

theorem held_iff (hK : ∀ h, c.Holds h → h ∈ takenHandles c.server.fs) :
    (∀ h, h ∈ takenHandles c.server.fs ↔ c.Holds h) ↔ ∀ h, ¬ c.Stray h := by
  refine ⟨?_, ?_⟩
  · intro hb h hs
    exact hs.2 ((hb h).mp hs.1)
  · intro hs h
    refine ⟨fun ht => ?_, hK h⟩
    by_contra hnot
    exact hs h ⟨ht, hnot⟩

theorem Initial.takenHandles (h : c.Initial) : Fs.takenHandles c.server.fs = ∅ := by
  obtain ⟨-, -, mem, heq⟩ := h.server.fs.formatted
  ext g
  rw [heq, mem_takenHandles]
  simp [not_takenHandle_formatted]

theorem Initial.not_holds (h : c.Initial) (g : Nat) : ¬ c.Holds g := by
  intro hd
  obtain ⟨w, hw⟩ := hd
  rw [h.place w] at hw
  cases hw

theorem Initial.kept (h : c.Initial) : c.Kept := by
  refine fun _ => ⟨.initial tfsDefaultParams_sane h.server.fs, fun g hd => ?_⟩
  exact absurd hd (h.not_holds g)

theorem Initial.balanced (h : c.Initial) : c.Balanced := by
  intro _ g
  rw [h.takenHandles]
  simp [h.not_holds g]

/-! ## Steps -/

variable [DecidableEq W]

theorem holds_goTo_iff {old : WorkerPlace} (hplace : c.place w = old)
    (hp : place.handle? = old.handle?) (h : Nat) : (c.goTo w place t).Holds h ↔ c.Holds h := by
  unfold Holds
  simp only [apply_goTo hplace hp]

/-- A worker that comes to hold a handle. -/
theorem holds_goTo_new {g : Nat} (hplace : c.place w = .waiting)
    (hp : place.handle? = some (g : Int)) (h : Nat) :
    (c.goTo w place t).Holds h ↔ h = g ∨ c.Holds h := by
  unfold Holds goTo
  dsimp only
  refine ⟨?_, ?_⟩
  · intro hd
    obtain ⟨v, hv⟩ := hd
    by_cases hvw : v = w
    · subst hvw
      rw [update_self, hp, Option.some.injEq] at hv
      exact .inl (by omega)
    · rw [update_of_ne hvw] at hv
      exact .inr ⟨v, hv⟩
  · rintro (rfl | ⟨v, hv⟩)
    · exact ⟨w, by rw [update_self, hp]⟩
    · have hvw : v ≠ w := by
        intro heq
        rw [heq, hplace] at hv
        cases hv
      exact ⟨v, by rw [update_of_ne hvw, hv]⟩

/-- Every step that the process survives changes the handles in one of the three ways. -/
theorem Effect.change (hI : Inv c.server.fs) (h : Effect c a d) : Change c d (c.Creates a) := by
  cases h with
  | request task => exact .quiet (fun h => h) ⟨hI, rfl⟩ fun _ => Iff.rfl
  | idle hplace hqueue hcreate =>
    exact .quiet (not_creates_take hplace hqueue hcreate) ⟨hI, rfl⟩ fun _ => Iff.rfl
  | login hplace hqueue hop =>
    refine .quiet (not_creates_take hplace hqueue ?_) ⟨hI, rfl⟩ (holds_goTo_iff hplace rfl)
    simp [hop]
  | subscribe hplace hqueue hop _ _ hfs =>
    refine .session (not_creates_take hplace hqueue ?_) hfs (holds_goTo_new hplace rfl)
    simp [hop]
  | create hplace hqueue hop hc hfs =>
    refine .creation ?_ hfs (holds_goTo_iff hplace rfl)
    exact (creates_take_iff hplace hqueue).mpr ⟨hop, hc⟩
  | removeAsked hplace hqueue hop hfs =>
    refine .quiet (not_creates_take hplace hqueue ?_) hfs (holds_goTo_iff hplace rfl)
    simp [hop]
  | remove hplace hfs => exact .quiet (fun h => h) hfs (holds_goTo_iff hplace rfl)
  | publish hplace hfs => exact .quiet (fun h => h) hfs (holds_goTo_iff hplace rfl)
  | deliver hplace hfs => exact .quiet (fun h => h) hfs (holds_goTo_iff hplace rfl)

theorem Move.change (hI : Inv c.server.fs) (h : c.Move a d) (hd : d.halt = none) :
    Change c d (c.Creates a) := (h.effect hI hd).change hI

/-- A creation that is accepted does not end the process. -/
theorem Move.halt_of_creates (hI : Inv c.server.fs) (h : c.Move a d) (ha : c.halt = none)
    (hcreates : c.Creates a) : d.halt = none := by
  cases h with
  | request task => exact hcreates.elim
  | skip => exact ha
  | @take w stack builder queue op hplace hqueue hop =>
    obtain ⟨hcode, hc⟩ := (creates_take_iff hplace hqueue).mp hcreates
    rw [hop, Option.some.injEq] at hcode
    subst hcode
    obtain ⟨hidle, -⟩ := boxCreateRequest_ok stack hI hc
    have hplace : (c.server.handle .createBox builder stack).place (afterCase .createBox builder) =
        .ok (.removing builder) := place_idle hidle
    rw [settle_ok hplace]
    exact ha
  | remove => exact hcreates.elim
  | publish => exact hcreates.elim
  | deliver => exact hcreates.elim

/-! ## Runs -/

theorem Kept.step (hK : c.Kept) (h : c.Steps a d) : d.Kept := by
  obtain ⟨ha, hmove⟩ := h.move
  obtain ⟨hI, hheld⟩ := hK ha
  exact fun hd => (hmove.change hI hd).kept hheld

theorem Kept.accounted (hK : c.Kept) (h : c.Steps a d) : c.Accounted a d := by
  obtain ⟨ha, hmove⟩ := h.move
  obtain ⟨hI, hheld⟩ := hK ha
  exact fun hd => (hmove.change hI hd).stray_iff hheld

theorem Kept.balanced_iff (hK : c.Kept) (hb : c.Balanced) (h : c.Steps a d) :
    d.Balanced ↔ ¬ c.Creates a := by
  obtain ⟨ha, hmove⟩ := h.move
  obtain ⟨hI, hheld⟩ := hK ha
  have hnone := (held_iff hheld).mp (hb ha)
  apply running_iff (hmove.halt_of_creates hI ha)
  intro hd
  have hstray := (hmove.change hI hd).stray_iff hheld
  rw [held_iff (hK.step h hd).2]
  refine ⟨?_, ?_⟩
  · intro hs hcreates
    cases hmove.change hI hd with
    | quiet hnot | session hnot => exact hnot hcreates
    | @creation g _ hfs => exact hs g ((hstray g).mpr (.inr ⟨hcreates, hfs.free⟩))
  · intro hnot g hs
    rcases (hstray g).mp hs with hold | ⟨hcreates, -⟩
    · exact hnone g hold
    · exact hnot hcreates

/-- Along a run the entries taken are the handles held exactly when no creation is
accepted, and every step leaves the entries that no session holds as they were but for the
one that a creation adds. -/
theorem handles_balanced_iff {ρ : List (CrewStep W × Crew W)} (h0 : c.Initial)
    (hr : Run Steps c ρ) :
    (EveryState Balanced c ρ ↔ EveryStep (fun c a => ¬ c.Creates a) c ρ) ∧
      EveryMove Accounted c ρ := by
  refine ⟨?_, ?_⟩
  · apply Run.everyState_iff (I := Kept) _ _ h0.kept h0.balanced hr
    · intro c a d hK hst
      exact hK.step hst
    · intro c a d hK hb hst
      exact hK.balanced_iff hb hst
  · apply Run.everyMove (I := Kept) _ h0.kept hr (.of_forall (fun _ _ => trivial) c ρ)
    intro c a d hK _ hst
    exact ⟨hK.accounted hst, hK.step hst⟩

/-- The broker started, with one worker. -/
def rested : Crew Unit := ⟨started, [], fun _ => .waiting, none⟩

theorem rested_initial : rested.Initial := ⟨started_initial, rfl, fun _ => rfl, rfl⟩

/-- The creation of `/b`. -/
def creation : List (CrewStep Unit × Crew Unit) :=
  along next rested [.request (requestFor .createBox pathB), .take () fun _ => 0]

theorem handles_balanced_iff_creation :
    (EveryState Balanced rested creation ↔
      EveryStep (fun c a => ¬ c.Creates a) rested creation) ∧
      EveryMove Accounted rested creation :=
  handles_balanced_iff rested_initial (run_along _ _ _)

/-- It leaves a handle taken that no session holds. -/
theorem creation_leaves_handle : ¬ ∀ (c : Crew Unit) ρ, c.Initial → Run Steps c ρ →
    EveryState Balanced c ρ := by
  intro h
  have hlast := (h rested creation rested_initial (run_along _ _ _)).last
  have halive : (lastState rested creation).halt = none := by decide +kernel
  have htaken : 0 ∈ takenHandles (lastState rested creation).server.fs := by decide +kernel
  obtain ⟨w, hw⟩ := (hlast halive 0).mp htaken
  have hnone : ((lastState rested creation).place ()).handle? = none := by decide +kernel
  rw [hnone] at hw
  cases hw

end Crew

end MBroker.Broker
