import Mathlib.Data.Fintype.Card
import MBroker.Lib.Transition

/- Threads that share memory under mutexes and condition variables, for any
   program over any memory. A program gives for each program point the one thing
   a thread does there: take a lock, give one back, wait on a condition variable,
   signal one, or access the memory once. A turn is one thread doing that. A wait
   gives its lock back and sleeps in one turn; a signal wakes one sleeper at least
   if there is one, and any sleeper may wake without a signal; a thread that was
   woken takes its lock again before it goes on.

   Who holds a lock is where the program says (`Owned.move`). -/
namespace MBroker.Lib
open Function

/-- What a thread does at a program point, and where it goes on. `L` names the
locks, `C` the condition variables, `M` is the memory and `P` the points. -/
inductive Instr (L C M P : Type)
  /-- The thread is in none of the functions. -/
  | idle
  | lock (l : L) (next : P)
  | unlock (l : L) (next : P)
  | wait (c : C) (l : L) (next : P)
  | signal (c : C) (next : P)
  | access (run : M → M × P)

structure Program (L C M P : Type) where
  instr : P → Instr L C M P
  /-- The points where a call begins. -/
  entry : P → Bool

/-- Where a thread is: at a point, asleep in a wait, or woken from it and about to
take the lock again. -/
inductive Status (L C P : Type)
  | running (p : P)
  | asleep (c : C) (l : L) (next : P)
  | woken (c : C) (l : L) (next : P)
  deriving DecidableEq

structure Machine (T L C M P : Type) where
  memory : M
  owner : L → Option T
  status : T → Status L C P

/-- Whose turn it is. A signal wakes those of the sleepers that `woken` says. -/
inductive Turn (T P : Type)
  | call (t : T) (p : P)
  | run (t : T) (woken : T → Bool)
  | spurious (t : T)

variable {T L C M P : Type}

namespace Status

/-- The point the thread is at, or goes on from once it is awake and has its lock. -/
def point : Status L C P → P
  | running p | asleep _ _ p | woken _ _ p => p

def AsleepOn (c : C) : Status L C P → Prop
  | asleep c' _ _ => c' = c
  | _ => False

def WokenFrom (c : C) : Status L C P → Prop
  | woken c' _ _ => c' = c
  | _ => False

def Asleep : Status L C P → Bool
  | asleep .. => true
  | _ => false

/-- The lock that the thread waits to get. -/
def lockWanted (prog : Program L C M P) : Status L C P → Option L
  | running p =>
    match prog.instr p with
    | .lock l _ => some l
    | _ => none
  | woken _ l _ => some l
  | asleep .. => none

instance [DecidableEq C] (c : C) : (x : Status L C P) → Decidable (x.AsleepOn c)
  | asleep .. => inferInstanceAs (Decidable (_ = _))
  | running _ | woken .. => inferInstanceAs (Decidable False)

instance [DecidableEq C] (c : C) : (x : Status L C P) → Decidable (x.WokenFrom c)
  | woken .. => inferInstanceAs (Decidable (_ = _))
  | running _ | asleep .. => inferInstanceAs (Decidable False)

/-- The status of a thread after a signal of `c`, which wakes it or not. -/
def signalled [DecidableEq C] (c : C) (wake : Bool) : Status L C P → Status L C P
  | asleep c' l p => if c' = c ∧ wake then woken c' l p else asleep c' l p
  | x => x

/-- The locks a thread holds, when `holds` says which it does at each point. -/
def Holds (holds : P → L → Prop) : Status L C P → L → Prop
  | running p, k => holds p k
  | asleep _ l p, k | woken _ l p, k => holds p k ∧ k ≠ l

/-- The thread sleeps, or was woken, where the program has a wait. -/
def Placed (prog : Program L C M P) : Status L C P → Prop
  | running _ => True
  | asleep c l q | woken c l q => ∃ p, prog.instr p = .wait c l q

section
variable [DecidableEq C]

@[simp] theorem signalled_running (c : C) (wake : Bool) (p : P) :
    (running p : Status L C P).signalled c wake = running p := rfl

@[simp] theorem signalled_woken (c d : C) (wake : Bool) (l : L) (p : P) :
    (woken d l p).signalled c wake = woken d l p := rfl

theorem signalled_cases (c : C) (wake : Bool) (x : Status L C P) :
    x.signalled c wake = x ∨
      ∃ l p, x = asleep c l p ∧ wake = true ∧ x.signalled c wake = woken c l p := by
  cases x with
  | running p => exact .inl rfl
  | woken d l p => exact .inl rfl
  | asleep d l p =>
    by_cases h : d = c ∧ wake = true
    · obtain ⟨rfl, hw⟩ := h
      exact .inr ⟨l, p, rfl, hw, if_pos ⟨rfl, hw⟩⟩
    · exact .inl (if_neg h)

theorem holds_signalled {holds : P → L → Prop} {c : C} {wake : Bool} {x : Status L C P} {k : L} :
    (x.signalled c wake).Holds holds k ↔ x.Holds holds k := by
  rcases signalled_cases c wake x with h | ⟨l, p, rfl, -, h⟩ <;> rw [h]
  exact Iff.rfl

theorem placed_signalled {prog : Program L C M P} {c : C} {wake : Bool} {x : Status L C P}
    (hx : x.Placed prog) : (x.signalled c wake).Placed prog := by
  rcases signalled_cases c wake x with h | ⟨l, p, rfl, -, h⟩ <;> rw [h] <;> exact hx

@[simp] theorem point_signalled (c : C) (wake : Bool) (x : Status L C P) :
    (x.signalled c wake).point = x.point := by
  rcases signalled_cases c wake x with h | ⟨l, p, rfl, -, h⟩ <;> rw [h]
  rfl

end

end Status

namespace Machine

variable [DecidableEq T]

def goto (s : Machine T L C M P) (t : T) (x : Status L C P) : Machine T L C M P :=
  { s with status := update s.status t x }

def take [DecidableEq L] (s : Machine T L C M P) (t : T) (l : L) (p : P) : Machine T L C M P :=
  { s with
    owner := update s.owner l (some t)
    status := update s.status t (.running p) }

def drop [DecidableEq L] (s : Machine T L C M P) (t : T) (l : L) (x : Status L C P) :
    Machine T L C M P :=
  { s with
    owner := update s.owner l none
    status := update s.status t x }

def wake [DecidableEq C] (s : Machine T L C M P) (t : T) (c : C) (woken : T → Bool) (p : P) :
    Machine T L C M P :=
  { s with status := update (fun u => (s.status u).signalled c (woken u)) t (.running p) }

def touch (s : Machine T L C M P) (t : T) (run : M → M × P) : Machine T L C M P :=
  { s with
    memory := (run s.memory).1
    status := update s.status t (.running (run s.memory).2) }

end Machine

/-- The thread that has the lock that `t` waits to get. -/
def blocker (prog : Program L C M P) (s : Machine T L C M P) (t : T) : Option T :=
  ((s.status t).lockWanted prog).bind s.owner

/-- Asleep with no signal pending, or waiting for a lock that is taken. -/
def Blocked (prog : Program L C M P) (s : Machine T L C M P) (t : T) : Prop :=
  (s.status t).Asleep = true ∨ (blocker prog s t).isSome = true

instance (prog : Program L C M P) (s : Machine T L C M P) (t : T) : Decidable (Blocked prog s t) :=
  inferInstanceAs (Decidable (_ ∨ _))

variable [DecidableEq T] [DecidableEq L] [DecidableEq C]

/-- A signal wakes a sleeper if there is one. -/
def Wakes (s : Machine T L C M P) (c : C) (woken : T → Bool) : Prop :=
  (∃ u, (s.status u).AsleepOn c) → ∃ u, (s.status u).AsleepOn c ∧ woken u = true

instance [Fintype T] (s : Machine T L C M P) (c : C) (woken : T → Bool) :
    Decidable (Wakes s c woken) :=
  inferInstanceAs (Decidable (_ → _))

/-- One turn, if the thread can take it. -/
def turn [Fintype T] (prog : Program L C M P) (s : Machine T L C M P) :
    Turn T P → Option (Machine T L C M P)
  | .call t p =>
    match s.status t with
    | .running q =>
      match prog.instr q with
      | .idle => if prog.entry p then some (s.goto t (.running p)) else none
      | _ => none
    | _ => none
  | .run t woken =>
    match s.status t with
    | .running p =>
      match prog.instr p with
      | .idle => none
      | .lock l q => if s.owner l = none then some (s.take t l q) else none
      | .unlock l q => some (s.drop t l (.running q))
      | .wait c l q => some (s.drop t l (.asleep c l q))
      | .signal c q => if Wakes s c woken then some (s.wake t c woken q) else none
      | .access run => some (s.touch t run)
    | .woken _ l q => if s.owner l = none then some (s.take t l q) else none
    | .asleep .. => none
  | .spurious t =>
    match s.status t with
    | .asleep c l q => some (s.goto t (.woken c l q))
    | _ => none

/-- What a turn can be. -/
inductive Move (prog : Program L C M P) (s : Machine T L C M P) :
    Turn T P → Machine T L C M P → Prop
  | call {t : T} {p q : P} (hs : s.status t = .running q) (hi : prog.instr q = .idle)
      (he : prog.entry p = true) : Move prog s (.call t p) (s.goto t (.running p))
  | lock {t : T} {woken : T → Bool} {p q : P} {l : L} (hs : s.status t = .running p)
      (hi : prog.instr p = .lock l q) (hf : s.owner l = none) :
      Move prog s (.run t woken) (s.take t l q)
  | relock {t : T} {woken : T → Bool} {c : C} {l : L} {q : P} (hs : s.status t = .woken c l q)
      (hf : s.owner l = none) : Move prog s (.run t woken) (s.take t l q)
  | unlock {t : T} {woken : T → Bool} {p q : P} {l : L} (hs : s.status t = .running p)
      (hi : prog.instr p = .unlock l q) : Move prog s (.run t woken) (s.drop t l (.running q))
  | wait {t : T} {woken : T → Bool} {p q : P} {c : C} {l : L} (hs : s.status t = .running p)
      (hi : prog.instr p = .wait c l q) : Move prog s (.run t woken) (s.drop t l (.asleep c l q))
  | signal {t : T} {woken : T → Bool} {p q : P} {c : C} (hs : s.status t = .running p)
      (hi : prog.instr p = .signal c q) (hw : Wakes s c woken) :
      Move prog s (.run t woken) (s.wake t c woken q)
  | access {t : T} {woken : T → Bool} {p : P} {run : M → M × P} (hs : s.status t = .running p)
      (hi : prog.instr p = .access run) : Move prog s (.run t woken) (s.touch t run)
  | spurious {t : T} {c : C} {l : L} {q : P} (hs : s.status t = .asleep c l q) :
      Move prog s (.spurious t) (s.goto t (.woken c l q))

/-- The states after these turns, each with its turn, up to the first that cannot
be taken. -/
def runTurns [Fintype T] (prog : Program L C M P) (s : Machine T L C M P) :
    List (Turn T P) → List (Turn T P × Machine T L C M P)
  | [] => []
  | a :: as =>
    match turn prog s a with
    | some s' => (a, s') :: runTurns prog s' as
    | none => []

/-- The last of these states. -/
def afterTurns [Fintype T] (prog : Program L C M P) (s : Machine T L C M P) :
    List (Turn T P) → Machine T L C M P
  | [] => s
  | a :: as =>
    match turn prog s a with
    | some s' => afterTurns prog s' as
    | none => s

/-- A step of the system. -/
def Turns [Fintype T] (prog : Program L C M P) (s : Machine T L C M P) (a : Turn T P)
    (s' : Machine T L C M P) : Prop :=
  turn prog s a = some s'

theorem Turns.move [Fintype T] {prog : Program L C M P} {s s' : Machine T L C M P} {a : Turn T P}
    (h : Turns prog s a s') : Move prog s a s' := by
  unfold Turns turn at h
  split at h
  · split at h
    · next hs =>
      split at h
      · next hi =>
        split at h
        · next he =>
          cases h
          exact .call hs hi he
        · cases h
      · cases h
    · cases h
  · split at h
    · next hs =>
      split at h
      · cases h
      · next hi =>
        split at h
        · next hf =>
          cases h
          exact .lock hs hi hf
        · cases h
      · next hi =>
        cases h
        exact .unlock hs hi
      · next hi =>
        cases h
        exact .wait hs hi
      · next hi =>
        split at h
        · next hw =>
          cases h
          exact .signal hs hi hw
        · cases h
      · next hi =>
        cases h
        exact .access hs hi
    · next hs =>
      split at h
      · next hf =>
        cases h
        exact .relock hs hf
      · cases h
    · cases h
  · split at h
    · next hs =>
      cases h
      exact .spurious hs
    · cases h

theorem run_runTurns [Fintype T] (prog : Program L C M P) (s : Machine T L C M P)
    (as : List (Turn T P)) : Run (Turns prog) s (runTurns prog s as) := by
  induction as generalizing s with
  | nil => trivial
  | cons a as ih =>
    rw [runTurns]
    split
    · next s' hs => exact ⟨hs, ih s'⟩
    · trivial

theorem reachable_afterTurns [Fintype T] {prog : Program L C M P}
    {init : Machine T L C M P → Prop} {s : Machine T L C M P}
    (h : Reachable init (Turns prog) s) (as : List (Turn T P)) :
    Reachable init (Turns prog) (afterTurns prog s as) := by
  induction as generalizing s with
  | nil => exact h
  | cons a as ih =>
    rw [afterTurns]
    split
    · next s' hs => exact ih (h.step hs)
    · exact h

/-- A thread sleeps or wakes on `c` after a turn only where it did before, or by
taking the turn at a wait on `c`. -/
theorem Move.inWait {prog : Program L C M P} {s s' : Machine T L C M P} {a : Turn T P}
    (hm : Move prog s a s') {c : C} {u : T}
    (hu : (s'.status u).AsleepOn c ∨ (s'.status u).WokenFrom c) :
    ((s.status u).AsleepOn c ∨ (s.status u).WokenFrom c) ∨
      ∃ woken p l q, a = .run u woken ∧ s.status u = .running p ∧ prog.instr p = .wait c l q := by
  -- the thread that takes the turn, running after it
  have hrun : ∀ {t : T} {q : P}, (update s.status t (.running q) u).AsleepOn c ∨
      (update s.status t (.running q) u).WokenFrom c →
      (s.status u).AsleepOn c ∨ (s.status u).WokenFrom c := by
    intro t q h
    by_cases hut : u = t
    · subst hut
      simp [Status.AsleepOn, Status.WokenFrom] at h
    · rwa [update_of_ne hut] at h
  cases hm with
  | call | lock | relock | unlock | access => exact .inl (hrun hu)
  | @wait t woken p q d l hs hi =>
    by_cases hut : u = t
    · subst hut
      obtain rfl : d = c := by
        simpa [Machine.drop, Status.AsleepOn, Status.WokenFrom] using hu
      exact .inr ⟨woken, p, l, q, rfl, hs, hi⟩
    · simp only [Machine.drop, update_of_ne hut] at hu
      exact .inl hu
  | @signal t woken p q d hs hi hw =>
    left
    by_cases hut : u = t
    · subst hut
      simp [Machine.wake, Status.AsleepOn, Status.WokenFrom] at hu
    · simp only [Machine.wake, update_of_ne hut] at hu
      rcases Status.signalled_cases d (woken u) (s.status u) with hx | ⟨l, r, hx, -, hy⟩
      · rwa [hx] at hu
      · rw [hy] at hu
        rw [hx]
        exact .inl (by simpa [Status.AsleepOn, Status.WokenFrom] using hu)
  | @spurious t d l q hs =>
    left
    by_cases hut : u = t
    · subst hut
      rw [hs]
      exact .inl (by simpa [Machine.goto, Status.AsleepOn, Status.WokenFrom] using hu)
    · simp only [Machine.goto, update_of_ne hut] at hu
      exact hu

/-! ## Who holds a lock -/

/-- `holds` says rightly which locks a thread holds at each point of the program. -/
structure Holding (prog : Program L C M P) (holds : P → L → Prop) : Prop where
  idle : ∀ {p}, prog.instr p = .idle → ∀ k, ¬ holds p k
  entry : ∀ {p}, prog.entry p = true → ∀ k, ¬ holds p k
  lock : ∀ {p l q}, prog.instr p = .lock l q → ∀ k, holds q k ↔ holds p k ∨ k = l
  unlock : ∀ {p l q}, prog.instr p = .unlock l q →
    holds p l ∧ ∀ k, holds q k ↔ holds p k ∧ k ≠ l
  wait : ∀ {p c l q}, prog.instr p = .wait c l q → holds p l ∧ ∀ k, holds q k ↔ holds p k
  signal : ∀ {p c q}, prog.instr p = .signal c q → ∀ k, holds q k ↔ holds p k
  access : ∀ {p run}, prog.instr p = .access run → ∀ m k, holds (run m).2 k ↔ holds p k

/-- The owners of the locks are the threads that hold them. -/
structure Owned (prog : Program L C M P) (holds : P → L → Prop) (s : Machine T L C M P) :
    Prop where
  owner : ∀ k t, s.owner k = some t ↔ (s.status t).Holds holds k
  placed : ∀ t, (s.status t).Placed prog

variable {prog : Program L C M P} {holds : P → L → Prop} {s s' : Machine T L C M P}
  {a : Turn T P}

omit [DecidableEq T] [DecidableEq L] [DecidableEq C] in
theorem Owned.free (h : Owned prog holds s) {k : L} (hk : s.owner k = none) (t : T) :
    ¬ (s.status t).Holds holds k := by
  intro ht
  rw [(h.owner k t).mpr ht] at hk
  cases hk

omit [DecidableEq T] [DecidableEq L] [DecidableEq C] in
theorem Owned.holdsAt (h : Owned prog holds s) {t : T} {p : P} {k : L}
    (hs : s.status t = .running p) (ho : s.owner k = some t) : holds p k := by
  have hheld := (h.owner k t).mp ho
  rwa [hs] at hheld

omit [DecidableEq T] [DecidableEq L] [DecidableEq C] in
theorem Owned.ownerAt (h : Owned prog holds s) {t : T} {p : P} {k : L}
    (hs : s.status t = .running p) (hp : holds p k) : s.owner k = some t := by
  apply (h.owner k t).mpr
  rw [hs]
  exact hp

omit [DecidableEq L] [DecidableEq C] in
/-- A turn of `t` that leaves the other threads the locks they hold. -/
theorem Owned.frame (h : Owned prog holds s) {t : T}
    (hother : ∀ u, u ≠ t → (s'.status u).Placed prog ∧
      ∀ k, (s'.status u).Holds holds k ↔ (s.status u).Holds holds k)
    (hkeep : ∀ k u, u ≠ t → (s'.owner k = some u ↔ s.owner k = some u))
    (hself : (s'.status t).Placed prog)
    (howner : ∀ k, s'.owner k = some t ↔ (s'.status t).Holds holds k) :
    Owned prog holds s' := by
  refine ⟨fun k u => ?_, fun u => ?_⟩
  · by_cases hu : u = t
    · rw [hu]
      exact howner k
    · rw [hkeep k u hu, h.owner k u, (hother u hu).2 k]
  · by_cases hu : u = t
    · rwa [hu]
    · exact (hother u hu).1

omit [DecidableEq C] in
/-- Taking a free lock. -/
theorem Owned.take (h : Owned prog holds s) {t : T} {l : L} {q : P} (hf : s.owner l = none)
    (hq : ∀ k, holds q k ↔ (s.status t).Holds holds k ∨ k = l) :
    Owned prog holds (s.take t l q) := by
  refine h.frame (t := t) (fun u hu => ?_) (fun k u hu => ?_) ?_ fun k => ?_
  · simp only [Machine.take, update_of_ne hu]
    exact ⟨h.placed u, by simp⟩
  · by_cases hk : k = l
    · subst hk
      simp [Machine.take, hf, hu.symm]
    · simp [Machine.take, hk]
  · simp [Machine.take, Status.Placed]
  · by_cases hk : k = l
    · subst hk
      simp [Machine.take, Status.Holds, hq]
    · simp [Machine.take, Status.Holds, hq, hk, h.owner]

omit [DecidableEq C] in
/-- Giving a lock back. -/
theorem Owned.drop (h : Owned prog holds s) {t : T} {l : L} {x : Status L C P}
    (hl : (s.status t).Holds holds l) (hp : x.Placed prog)
    (hx : ∀ k, x.Holds holds k ↔ (s.status t).Holds holds k ∧ k ≠ l) :
    Owned prog holds (s.drop t l x) := by
  refine h.frame (t := t) (fun u hu => ?_) (fun k u hu => ?_) ?_ fun k => ?_
  · simp only [Machine.drop, update_of_ne hu]
    exact ⟨h.placed u, by simp⟩
  · by_cases hk : k = l
    · subst hk
      have hot := (h.owner k t).mpr hl
      simp [Machine.drop, hot, hu.symm]
    · simp [Machine.drop, hk]
  · simpa [Machine.drop] using hp
  · by_cases hk : k = l
    · subst hk
      simp [Machine.drop, hx]
    · simp [Machine.drop, hx, hk, h.owner]

omit [DecidableEq L] [DecidableEq C] in
/-- A turn that leaves all locks. -/
theorem Owned.keep (h : Owned prog holds s) {t : T} (ho : s'.owner = s.owner)
    (hother : ∀ u, u ≠ t → (s'.status u).Placed prog ∧
      ∀ k, (s'.status u).Holds holds k ↔ (s.status u).Holds holds k)
    (hp : (s'.status t).Placed prog)
    (hx : ∀ k, (s'.status t).Holds holds k ↔ (s.status t).Holds holds k) :
    Owned prog holds s' := by
  refine h.frame (t := t) hother (fun k u _ => by rw [ho]) hp fun k => ?_
  rw [ho, hx, h.owner]

theorem Owned.move (hH : Holding prog holds) (h : Owned prog holds s) (hm : Move prog s a s') :
    Owned prog holds s' := by
  have hsame : ∀ {t : T} {x : Status L C P}, ∀ u, u ≠ t →
      (update s.status t x u).Placed prog ∧
        ∀ k, (update s.status t x u).Holds holds k ↔ (s.status u).Holds holds k := by
    intro t x u hu
    rw [update_of_ne hu]
    exact ⟨h.placed u, fun _ => Iff.rfl⟩
  cases hm with
  | @call t p q hs hi he =>
    refine h.keep (t := t) rfl hsame ?_ fun k => ?_
    · simp [Machine.goto, Status.Placed]
    · simp [Machine.goto, Status.Holds, hs, hH.idle hi, hH.entry he]
  | @lock t woken p q l hs hi hf =>
    apply h.take hf
    intro k
    rw [hs]
    exact hH.lock hi k
  | @relock t woken c l q hs hf =>
    apply h.take hf
    intro k
    obtain ⟨p, hi⟩ : (Status.woken c l q).Placed prog := hs ▸ h.placed t
    obtain ⟨hpl, hpq⟩ := hH.wait hi
    rw [hs]
    show holds q k ↔ holds q k ∧ k ≠ l ∨ k = l
    by_cases hk : k = l
    · subst hk
      simp [hpq, hpl]
    · simp [hk]
  | @unlock t woken p q l hs hi =>
    obtain ⟨hpl, hpq⟩ := hH.unlock hi
    refine h.drop ?_ trivial fun k => ?_
    · rw [hs]
      exact hpl
    · rw [hs]
      exact hpq k
  | @wait t woken p q c l hs hi =>
    obtain ⟨hpl, hpq⟩ := hH.wait hi
    refine h.drop ?_ ⟨p, hi⟩ fun k => ?_
    · rw [hs]
      exact hpl
    · rw [hs]
      exact and_congr_left fun _ => hpq k
  | @signal t woken p q c hs hi hw =>
    refine h.keep (t := t) rfl (fun u hu => ?_) ?_ fun k => ?_
    · simp only [Machine.wake, update_of_ne hu]
      exact ⟨Status.placed_signalled (h.placed u), fun k => Status.holds_signalled⟩
    · simp [Machine.wake, Status.Placed]
    · rw [hs]
      simpa [Machine.wake, Status.Holds] using hH.signal hi k
  | @access t woken p run hs hi =>
    refine h.keep (t := t) rfl hsame ?_ fun k => ?_
    · simp [Machine.touch, Status.Placed]
    · rw [hs]
      simpa [Machine.touch, Status.Holds] using hH.access hi s.memory k
  | @spurious t c l q hs =>
    refine h.keep (t := t) rfl hsame ?_ fun k => ?_
    · have hp : (Status.asleep c l q).Placed prog := hs ▸ h.placed t
      simpa [Machine.goto, Status.Placed] using hp
    · simp [Machine.goto, Status.Holds, hs]

end MBroker.Lib
