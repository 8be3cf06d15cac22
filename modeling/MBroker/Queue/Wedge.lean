import MBroker.Queue.Wakeups

/- How the queue wedges. A producer that finds the queue full waits on a condition
   variable with `pcq_pusher_condvar_lock` and keeps `pcq_tail_lock`, which every
   consumer has to take to make space. `no_wedge_iff` says that this is the only
   way: as long as no producer has gone to sleep, a consumer inside `pcq_dequeue`
   of a queue that is not empty leaves some thread free to go on. -/
namespace MBroker.Queue
open MBroker.Lib Function

variable {E T : Type}

/-- The queue is not empty, a consumer is inside `pcq_dequeue`, and every thread
inside the two functions sleeps with no signal pending or waits for a lock that a
blocked thread has. -/
def Wedged (s : System T E) : Prop :=
  0 < s.memory.pcqCurrentSize ∧ (∃ t, (s.status t).point.dequeuing = true) ∧
    ∀ t, (s.status t).point.inside = true →
      (s.status t).Asleep = true ∨ ∃ u, blocker program s t = some u ∧ u ≠ t ∧ Blocked program s u

instance [Fintype T] [DecidableEq T] (s : System T E) : Decidable (Wedged s) :=
  inferInstanceAs (Decidable (_ ∧ (∃ _, _) ∧ ∀ _, _ → _ ∨ ∃ _, _ ∧ _ ∧ _))

/-- The queue is not wedged, and no producer sleeps with the lock that a consumer
needs to make space. -/
structure NoWedge (s : System T E) : Prop where
  not_wedged : ¬ Wedged s
  tail_free : ∀ t, (s.status t).AsleepOn .pusher → s.owner .tail ≠ some t

/-- The thread found the queue full and is about to wait for space. -/
def foundFull : Status Lock Cond (Pc E) → Bool
  | .running (.enqWait _) => true
  | _ => false

/-- A producer that found the queue full goes to sleep. -/
def ProducerWaits (s : System T E) : Turn T (Pc E) → Prop
  | .run t _ => foundFull (s.status t) = true
  | _ => False

instance (s : System T E) : (a : Turn T (Pc E)) → Decidable (ProducerWaits s a)
  | .run .. => inferInstanceAs (Decidable (_ = _))
  | .call .. | .spurious _ => inferInstanceAs (Decidable False)

/-- No producer sleeps, or was woken from its wait. -/
def NoProducerWaiting (s : System T E) : Prop :=
  ∀ t, ¬ ((s.status t).AsleepOn .pusher ∨ (s.status t).WokenFrom .pusher)

variable {s s' : System T E}

/-! ## Where the locks are -/

/-- A consumer that sleeps or was woken has no lock. -/
theorem popper_holds {x : Status Lock Cond (Pc E)} (hp : x.Placed program)
    (hx : x.AsleepOn .popper ∨ x.WokenFrom .popper) (l : Lock) : ¬ x.Holds Pc.holds l := by
  have hwait : ∀ {k r}, (∃ p, (program (E := E)).instr p = .wait .popper k r) →
      ¬ (Pc.holds r l ∧ l ≠ k) := by
    intro k r hc
    obtain ⟨p, hi⟩ := hc
    cases p <;> cases hi
    exact fun h => h.2 h.1
  cases x with
  | running p => simp [Status.AsleepOn, Status.WokenFrom] at hx
  | asleep c k r =>
    obtain rfl : c = .popper := by simpa [Status.AsleepOn, Status.WokenFrom] using hx
    exact hwait hp
  | woken c k r =>
    obtain rfl : c = .popper := by simpa [Status.AsleepOn, Status.WokenFrom] using hx
    exact hwait hp

/-- A thread that has `pcq_pusher_condvar_lock` has `pcq_tail_lock`. -/
theorem holds_tail_of_pusher {x : Status Lock Cond (Pc E)} (hp : x.Placed program)
    (hx : x.Holds Pc.holds .pusher) : x.Holds Pc.holds .tail := by
  have hpoint : ∀ p : Pc E, Pc.holds p .pusher → Pc.holds p .tail := by
    intro p h
    cases p <;> simp_all [Pc.holds]
  have hwait : ∀ {c k r}, (∃ p, (program (E := E)).instr p = .wait c k r) →
      Pc.holds r .pusher ∧ .pusher ≠ k → Pc.holds r .tail ∧ .tail ≠ k := by
    intro c k r hc
    obtain ⟨p, hi⟩ := hc
    cases p <;> cases hi
    · exact fun h => absurd rfl h.2
    · exact fun h => by cases h.1
  cases x with
  | running p => exact hpoint p hx
  | asleep c k r => exact hwait hp hx
  | woken c k r => exact hwait hp hx

theorem not_popper {x : Status Lock Cond (Pc E)} {l : Lock} (hp : x.Placed program)
    (hx : x.Holds Pc.holds l) (hn : ¬ (x.AsleepOn .pusher ∨ x.WokenFrom .pusher)) :
    ∃ p, x = .running p := by
  have hpop := fun h => popper_holds hp h l hx
  cases x with
  | running p => exact ⟨p, rfl⟩
  | asleep c k r | woken c k r =>
    cases c
    · exact absurd (by simp [Status.AsleepOn, Status.WokenFrom]) hn
    · exact absurd (by simp [Status.AsleepOn, Status.WokenFrom]) hpop

/-- A thread that has `pcq_tail_lock` wants no lock but the pusher's. -/
theorem wanted_with_tail {p : Pc E} {l : Lock} (hp : Pc.holds p .tail)
    (hw : (Status.running p).lockWanted (program (E := E)) (C := Cond) = some l) : l = .pusher := by
  cases p <;> cases hw
  · exact hp.elim
  · cases hp
  · rfl
  · exact hp.elim

/-- A thread that has some lock but not `pcq_tail_lock` wants that one or none. -/
theorem wanted_without_tail {p : Pc E} {k l : Lock} (hk : Pc.holds p k) (hp : ¬ Pc.holds p .tail)
    (hw : (Status.running p).lockWanted (program (E := E)) (C := Cond) = some l) : l = .tail := by
  cases p <;> cases hw
  · exact hk.elim
  · rfl
  · exact absurd (by simp [Pc.holds]) hp
  · exact hk.elim

theorem blocker_eq_some {t u : T} (h : blocker program s t = some u) :
    ∃ l, (s.status t).lockWanted program = some l ∧ s.owner l = some u := by
  rw [blocker, Option.bind_eq_some_iff] at h
  exact h

/-! ## Not wedged -/

/-- While no producer waits, the thread that has `pcq_tail_lock` can go on. -/
theorem tail_holder_free (hI : Sound s) (hN : NoProducerWaiting s) {u : T}
    (hu : s.owner .tail = some u) :
    ¬ ((s.status u).Asleep = true ∨ ∃ v, blocker program s u = some v ∧ v ≠ u) := by
  have hhold := (hI.owned.owner .tail u).mp hu
  obtain ⟨p, hp⟩ := not_popper (hI.owned.placed u) hhold (hN u)
  rw [hp] at hhold
  rintro (ha | ⟨v, hv, hvu⟩)
  · simp [hp, Status.Asleep] at ha
  · obtain ⟨l, hl, hlv⟩ := blocker_eq_some hv
    rw [hp] at hl
    obtain rfl := wanted_with_tail hhold hl
    -- the pusher's lock is only taken after `pcq_tail_lock`
    have hpusher := (hI.owned.owner .pusher v).mp hlv
    have htail := holds_tail_of_pusher (hI.owned.placed v) hpusher
    rw [← hI.owned.owner, hu] at htail
    exact hvu (Option.some.inj htail).symm

/-- While no producer waits and `pcq_tail_lock` is free, every thread that is blocked
by blocked threads is a sleeping consumer. -/
theorem asleep_of_tail_free (hI : Sound s) (hN : NoProducerWaiting s)
    (hfree : s.owner .tail = none) {t : T} (hb : (s.status t).Asleep = true ∨
      ∃ u, blocker program s t = some u ∧ u ≠ t ∧ Blocked program s u) :
    (s.status t).AsleepOn .popper := by
  rcases hb with ha | ⟨u, hu, -, hbu⟩
  · have hnt := hN t
    cases hx : s.status t with
    | running p | woken c k r => simp [hx, Status.Asleep] at ha
    | asleep c k r =>
      cases c
      · exact absurd (by simp [hx, Status.AsleepOn]) hnt
      · rfl
  · obtain ⟨l, -, hlu⟩ := blocker_eq_some hu
    have hhold := (hI.owned.owner l u).mp hlu
    have htail := hI.owned.free hfree u
    obtain ⟨p, hp⟩ := not_popper (hI.owned.placed u) hhold (hN u)
    rw [hp] at hhold htail
    rcases hbu with ha | hsome
    · simp [hp, Status.Asleep] at ha
    · obtain ⟨v, hv⟩ := Option.isSome_iff_exists.mp hsome
      obtain ⟨k, hk, hkv⟩ := blocker_eq_some hv
      rw [hp] at hk
      obtain rfl := wanted_without_tail hhold htail hk
      rw [hfree] at hkv
      cases hkv

section
variable [Fintype T]

/-- A thread woken from `c`, if their number is not 0. -/
theorem exists_woken {c : Cond} (h : 0 < numWoken s c) : ∃ t, (s.status t).WokenFrom c := by
  obtain ⟨t, ht⟩ := Finset.card_pos.mp h
  exact ⟨t, (Finset.mem_filter.mp ht).2⟩

theorem not_wedged_of (hI : Sound s) (hF : Fed s) (hN : NoProducerWaiting s) : ¬ Wedged s := by
  rintro ⟨hsize, ⟨t, ht⟩, hall⟩
  cases hown : s.owner .tail with
  | some u =>
    have hin : (s.status u).point.inside = true := by
      have hhold := (hI.owned.owner .tail u).mp hown
      obtain ⟨p, hp⟩ := not_popper (hI.owned.placed u) hhold (hN u)
      rw [hp] at hhold ⊢
      cases p <;> first | rfl | exact hhold.elim
    refine tail_holder_free hI hN hown ((hall u hin).imp_right ?_)
    intro h
    obtain ⟨v, hv, hvu, -⟩ := h
    exact ⟨v, hv, hvu⟩
  | none =>
    have hasleep : ∀ u, (s.status u).point.inside = true → (s.status u).AsleepOn .popper :=
      fun u hu => asleep_of_tail_free hI hN hown (hall u hu)
    have hinside : ∀ p : Pc E, p.dequeuing = true → p.inside = true := by
      intro p hp
      cases p <;> first | rfl | cases hp
    -- the consumer sleeps, so one was woken for the element
    have hfed := hF ⟨t, hasleep t (hinside _ ht)⟩
    rw [slackOf_free hown] at hfed
    obtain ⟨w, hw⟩ := exists_woken (s := s) (c := .popper) (by omega)
    have hpoint : (s.status w).point.inside = true := by
      have hp := hI.owned.placed w
      cases hx : s.status w with
      | running p | asleep c k r => simp [hx, Status.WokenFrom] at hw
      | woken c k r =>
        obtain ⟨p, hi⟩ : (Status.woken c k r).Placed program := hx ▸ hp
        cases p <;> cases hi <;> rfl
    have hsleep := hasleep w hpoint
    cases hx : s.status w <;> simp [hx, Status.AsleepOn, Status.WokenFrom] at hw hsleep

end

/-! ## Runs -/

theorem NoProducerWaiting.initial (h : Initial s) : NoProducerWaiting s := by
  obtain ⟨malloc, capacity, q, -, -, -, rfl⟩ := h
  rintro t (ht | ht) <;> exact ht.elim

variable [Fintype T] [DecidableEq T]

theorem NoProducerWaiting.step (hN : NoProducerWaiting s) {a : Turn T (Pc E)}
    (hno : ¬ ProducerWaits s a) (hst : Steps s a s') : NoProducerWaiting s' := by
  intro t ht
  rcases hst.move.inWait ht with hold | ⟨woken, p, l, r, rfl, hs, hi⟩
  · exact hN t hold
  · apply hno
    cases p <;> cases hi
    show foundFull (s.status t) = true
    rw [hs]
    rfl

/-- A producer that waits keeps `pcq_tail_lock`. -/
theorem not_producerWaits_of (hI : Sound s) {a : Turn T (Pc E)} (hst : Steps s a s')
    (hW : NoWedge s') : ¬ ProducerWaits s a := by
  intro hp
  cases a with
  | call | spurious => exact hp
  | run t woken =>
    have hfull : foundFull (s.status t) = true := hp
    obtain ⟨elem, hs⟩ : ∃ elem, s.status t = .running (.enqWait elem) := by
      unfold foundFull at hfull
      split at hfull
      · next elem hx => exact ⟨elem, hx⟩
      · cases hfull
    have htail : s.owner .tail = some t := by
      rw [hI.owned.owner, hs]
      trivial
    have hs' : s' = s.drop t .pusher (.asleep .pusher .pusher (.enqTest elem)) := by
      have h := hst
      simp only [Turns, turn, hs] at h
      exact (Option.some.inj h).symm
    subst hs'
    refine hW.tail_free t ?_ ?_
    · simp [Machine.drop, Status.AsleepOn]
    · simpa [Machine.drop] using htail

/-- Along a run the queue is never wedged, and no producer sleeps with
`pcq_tail_lock`, exactly when no producer that found the queue full goes to sleep. -/
theorem no_wedge_iff {ρ : List (Turn T (Pc E) × System T E)} (h : Initial s)
    (hr : Run Steps s ρ) :
    EveryState NoWedge s ρ ↔ EveryStep (fun s a => ¬ ProducerWaits s a) s ρ := by
  have hstep : ∀ (s : System T E) a s', Sound s ∧ Fed s → Steps s a s' → Sound s' ∧ Fed s' := by
    rintro s a s' ⟨hI, hF⟩ hst
    exact ⟨hI.step hst, waking.move guarding holding hI.owned hI.guarded hF hst.move⟩
  refine ⟨?_, ?_⟩
  · intro hall
    apply Run.everyStep (I := fun s => Sound s ∧ Fed s) _ ⟨.initial h, .initial h⟩ hr hall
    intro s a s' hs hst hW
    exact ⟨not_producerWaits_of hs.1 hst hW, hstep s a s' hs hst⟩
  · intro hno
    have hall : EveryState (fun s => (Sound s ∧ Fed s) ∧ NoProducerWaiting s) s ρ := by
      refine Run.everyState (fun s a s' hs hc hst => ⟨hstep s a s' hs.1 hst, hs.2.step hc hst⟩)
        ⟨⟨.initial h, .initial h⟩, .initial h⟩ hr hno
    apply hall.mono
    rintro s ⟨⟨hI, hF⟩, hN⟩
    refine ⟨not_wedged_of hI hF hN, fun t ht => ?_⟩
    exact absurd (.inl ht) (hN t)

/-- One element in and out. -/
theorem no_wedge_small : EveryState NoWedge (small 1) (runTurns program (small 1)
    (callOf 1 .deqLockTail 3 ++ callOf 0 (.enqLockSize 7) 14 ++ turnsOf 1 10)) := by
  apply (no_wedge_iff (initial_small (by decide) (by decide)) (run_runTurns _ _ _)).mpr
  decide

/-- A producer finds the queue full, and a consumer comes. -/
theorem full_queue_wedges : ¬ ∀ (T E : Type) [Fintype T] [DecidableEq T] (s : System T E),
    Reachable Initial Steps s → ¬ Wedged s := by
  intro h
  have hinit : Initial (small 1) := initial_small (by decide) (by decide)
  have hno := h (Fin 3) Nat _ (reachable_afterTurns (.start hinit)
    (callOf 0 (.enqLockSize 7) 14 ++ callOf 0 (.enqLockSize 8) 5 ++ callOf 1 .deqLockTail 0))
  revert hno
  decide

end MBroker.Queue
