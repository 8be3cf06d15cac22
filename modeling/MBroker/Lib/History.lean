import MBroker.Lib.Guard
import MBroker.Lib.Refinement

/- The history of the calls that threads make. A stage tells of each point of a program
   whether a thread there is outside of all calls, in one that has yet to take effect, or in
   one that has and still has to be answered. Where the accesses that end the first stage of
   a call are steps of a specification on what the memory stands for (`Commits`), the calls
   of every run are calls of the specification, one after the other in the order of these
   accesses; and each is made, takes effect once and is answered, in this order
   (`Commits.run`). -/
namespace MBroker.Lib
open Function

/-- How far a thread is in a call of `A` that is answered with an `R`. -/
inductive Stage (A R : Type)
  | outside
  | asked (a : A)
  | done (r : R)

inductive Deed (A R : Type)
  | call (a : A)
  | effect (a : A) (r : R)
  | answer (r : R)

variable {T L C M P A R B E : Type}

def Deed.effected : Deed A R → Option (A × R)
  | effect a r => some (a, r)
  | _ => none

namespace Stage

/-- What takes a thread from one stage to another. -/
def deed : Stage A R → Stage A R → Option (Deed A R)
  | outside, asked a => some (.call a)
  | asked a, done r => some (.effect a r)
  | done r, outside => some (.answer r)
  | _, _ => none

@[simp] theorem deed_self (x : Stage A R) : x.deed x = none := by cases x <;> rfl

/-- Calls one after another: each is made, takes effect once and is answered. -/
inductive Goes : Stage A R → List (Deed A R) → Stage A R → Prop
  | rest (x : Stage A R) : Goes x [] x
  | call {a : A} {ds : List (Deed A R)} {x : Stage A R} (h : Goes (asked a) ds x) :
      Goes outside (.call a :: ds) x
  | effect {a : A} {r : R} {ds : List (Deed A R)} {x : Stage A R} (h : Goes (done r) ds x) :
      Goes (asked a) (.effect a r :: ds) x
  | answer {r : R} {ds : List (Deed A R)} {x : Stage A R} (h : Goes outside ds x) :
      Goes (done r) (.answer r :: ds) x

/-- One turn of a thread, and what it makes of the state of the specification. -/
inductive Step (step : B → A → Except E (R × B)) : B → Stage A R → Stage A R → B → Prop
  | rest (b : B) (x : Stage A R) : Step step b x x b
  | call (b : B) (a : A) : Step step b outside (asked a) b
  | effect {b b' : B} {a : A} {r : R} (h : step b a = .ok (r, b')) :
      Step step b (asked a) (done r) b'
  | answer (b : B) (r : R) : Step step b (done r) outside b

variable {step : B → A → Except E (R × B)} {b b' : B} {x y : Stage A R}

theorem Step.goes (h : Step step b x y b') {ds : List (Deed A R)} {z : Stage A R}
    (hg : y.Goes ds z) : x.Goes ((x.deed y).toList ++ ds) z := by
  cases h with
  | rest =>
    rw [deed_self]
    exact hg
  | call => exact .call hg
  | effect => exact .effect hg
  | answer => exact .answer hg

theorem Step.of_asked {a : A} (h : Step step b (asked a) y b') :
    (y = asked a ∧ b' = b) ∨ ∃ r, y = done r ∧ step b a = .ok (r, b') := by
  cases h with
  | rest => exact .inl ⟨rfl, rfl⟩
  | @effect _ _ r h => exact .inr ⟨r, rfl, h⟩

theorem Step.of_done {r : R} (h : Step step b (done r) y b') :
    (y = done r ∨ y = outside) ∧ b' = b := by
  cases h with
  | rest => exact ⟨.inl rfl, rfl⟩
  | answer => exact ⟨.inr rfl, rfl⟩

/-- A turn in front of calls of the specification. -/
theorem Step.execAll (h : Step step b x y b') {es : List (A × R)} {c : B}
    (he : execAll step b' (es.map Prod.fst) = .ok (es.map Prod.snd, c)) :
    execAll step b ((((x.deed y).bind Deed.effected).toList ++ es).map Prod.fst) =
      .ok ((((x.deed y).bind Deed.effected).toList ++ es).map Prod.snd, c) := by
  cases h with
  | rest =>
    rw [deed_self]
    exact he
  | call | answer => exact he
  | @effect _ a r hstep =>
    show Lib.execAll step b (a :: es.map Prod.fst) = _
    simp only [Lib.execAll, hstep, he, bind, Except.bind]
    rfl

end Stage

/-- The thread whose turn it is. -/
def Turn.thread : Turn T P → T
  | .call t _ | .run t _ | .spurious t => t

def Machine.stageOf (stage : P → Stage A R) (s : Machine T L C M P) (t : T) : Stage A R :=
  stage (s.status t).point

theorem stageOf_running {stage : P → Stage A R} {s : Machine T L C M P} {t : T} {p : P}
    (h : s.status t = .running p) : s.stageOf stage t = stage p := by
  rw [Machine.stageOf, h]
  rfl

/-- What a turn does to the call of its thread. -/
def deedOf (stage : P → Stage A R) (s : Machine T L C M P) (a : Turn T P)
    (s' : Machine T L C M P) : Option (T × Deed A R) :=
  ((s.stageOf stage a.thread).deed (s'.stageOf stage a.thread)).map (a.thread, ·)

def history (stage : P → Stage A R) :
    Machine T L C M P → List (Turn T P × Machine T L C M P) → List (T × Deed A R)
  | _, [] => []
  | s, (a, s') :: ρ => (deedOf stage s a s').toList ++ history stage s' ρ

/-- The calls that took effect, in the order in which they did, with their answers. -/
def effects (h : List (T × Deed A R)) : List (A × R) :=
  h.filterMap fun y => y.2.effected

variable [DecidableEq T]

def deedsOf (t : T) (h : List (T × Deed A R)) : List (Deed A R) :=
  (h.filter fun y => y.1 = t).map Prod.snd

section History

variable {stage : P → Stage A R} {s s' : Machine T L C M P} {a : Turn T P}
  {ρ : List (Turn T P × Machine T L C M P)}

theorem deedsOf_history : deedsOf a.thread (history stage s ((a, s') :: ρ)) =
    ((s.stageOf stage a.thread).deed (s'.stageOf stage a.thread)).toList ++
      deedsOf a.thread (history stage s' ρ) := by
  rw [history, deedOf]
  cases (s.stageOf stage a.thread).deed (s'.stageOf stage a.thread) <;> simp [deedsOf]

theorem deedsOf_history_ne {u : T} (hu : u ≠ a.thread) :
    deedsOf u (history stage s ((a, s') :: ρ)) = deedsOf u (history stage s' ρ) := by
  rw [history, deedOf]
  cases (s.stageOf stage a.thread).deed (s'.stageOf stage a.thread) <;> simp [deedsOf, hu.symm]

omit [DecidableEq T] in
theorem effects_history : effects (history stage s ((a, s') :: ρ)) =
    (((s.stageOf stage a.thread).deed (s'.stageOf stage a.thread)).bind Deed.effected).toList ++
      effects (history stage s' ρ) := by
  rw [history, deedOf]
  cases (s.stageOf stage a.thread).deed (s'.stageOf stage a.thread) with
  | none => rfl
  | some d => cases d <;> rfl

end History

variable [DecidableEq L] [DecidableEq C]

/-- A turn leaves the points of the other threads. -/
theorem Move.point {prog : Program L C M P} {s s' : Machine T L C M P} {a : Turn T P}
    (hm : Move prog s a s') {u : T} (hu : u ≠ a.thread) :
    (s'.status u).point = (s.status u).point := by
  cases hm with
  | call | lock | relock | unlock | wait | access | spurious =>
    exact congrArg Status.point (update_of_ne hu ..)
  | @signal t woken p q c hs hi hw =>
    have hut : u ≠ t := hu
    simp [Machine.wake, hut]

/-- Calls take effect at accesses, as steps of `step` on what `abs` makes of the memory. -/
structure Commits (prog : Program L C M P) (stage : P → Stage A R) (inside : P → M → Prop)
    (abs : M → B) (step : B → A → Except E (R × B)) : Prop where
  idle : ∀ {p}, prog.instr p = .idle → stage p = .outside
  entry : ∀ {p}, prog.entry p = true → ∃ a, stage p = .asked a
  lock : ∀ {p l q}, prog.instr p = .lock l q → stage q = stage p
  unlock : ∀ {p l q}, prog.instr p = .unlock l q →
    stage q = stage p ∨ ∃ r, stage p = .done r ∧ stage q = .outside
  wait : ∀ {p c l q}, prog.instr p = .wait c l q → stage q = stage p
  signal : ∀ {p c q}, prog.instr p = .signal c q → stage q = stage p
  access : ∀ {p run m}, prog.instr p = .access run → inside p m →
    (stage (run m).2 = stage p ∧ abs (run m).1 = abs m) ∨
      ∃ a r, stage p = .asked a ∧ stage (run m).2 = .done r ∧
        step (abs m) a = .ok (r, abs (run m).1)

variable {prog : Program L C M P} {stage : P → Stage A R} {holds : P → L → Prop} {g : L}
  {free : M → Prop} {inside : P → M → Prop} {abs : M → B} {step : B → A → Except E (R × B)}
  {s s' : Machine T L C M P} {a : Turn T P}

theorem Commits.move (hC : Commits prog stage inside abs step)
    (hG : Guarding prog holds g free inside) (hO : Owned prog holds s)
    (hgd : Guarded g free inside s) (hm : Move prog s a s') :
    Stage.Step step (abs s.memory) (s.stageOf stage a.thread) (s'.stageOf stage a.thread)
      (abs s'.memory) := by
  -- a turn that leaves the memory and the stage
  have hrest : ∀ {t : T} {p q : P}, s'.memory = s.memory → (s.status t).point = p →
      (s'.status t).point = q → stage q = stage p →
      Stage.Step step (abs s.memory) (s.stageOf stage t) (s'.stageOf stage t)
        (abs s'.memory) := by
    intro t p q hmem hp hq hpq
    rw [Machine.stageOf, Machine.stageOf, hmem, hp, hq, hpq]
    exact .rest _ _
  cases hm with
  | @call t p q hs hi he =>
    obtain ⟨x, hx⟩ := hC.entry he
    have hbefore : s.stageOf stage t = .outside := (stageOf_running hs).trans (hC.idle hi)
    have hafter : (s.goto t (.running p)).stageOf stage t = .asked x :=
      (stageOf_running (update_self ..)).trans hx
    show Stage.Step step _ (s.stageOf stage t) (Machine.stageOf stage _ t) _
    rw [hbefore, hafter]
    exact .call _ x
  | @lock t woken p q l hs hi hf =>
    exact hrest rfl (congrArg Status.point hs) (congrArg Status.point (update_self ..))
      (hC.lock hi)
  | @relock t woken c l q hs hf =>
    exact hrest rfl (congrArg Status.point hs) (congrArg Status.point (update_self ..)) rfl
  | @unlock t woken p q l hs hi =>
    rcases hC.unlock hi with hq | ⟨r, hp, hq⟩
    · exact hrest rfl (congrArg Status.point hs) (congrArg Status.point (update_self ..)) hq
    · have hbefore : s.stageOf stage t = .done r := (stageOf_running hs).trans hp
      have hafter : (s.drop t l (.running q)).stageOf stage t = .outside :=
        (stageOf_running (update_self ..)).trans hq
      show Stage.Step step _ (s.stageOf stage t) (Machine.stageOf stage _ t) _
      rw [hbefore, hafter]
      exact .answer _ r
  | @wait t woken p q c l hs hi =>
    exact hrest rfl (congrArg Status.point hs) (congrArg Status.point (update_self ..))
      (hC.wait hi)
  | @signal t woken p q c hs hi hw =>
    have hafter : (s.wake t c woken q).status t = .running q := by simp [Machine.wake]
    exact hrest rfl (congrArg Status.point hs) (congrArg Status.point hafter) (hC.signal hi)
  | @access t woken p run hs hi =>
    have hin := hgd.insideAt hs (hO.ownerAt hs (hG.access (m := s.memory) hi).1)
    have hbefore : s.stageOf stage t = stage p := stageOf_running hs
    have hafter : (s.touch t run).stageOf stage t = stage (run s.memory).2 :=
      stageOf_running (update_self ..)
    show Stage.Step step _ (s.stageOf stage t) (Machine.stageOf stage _ t)
      (abs (run s.memory).1)
    rw [hbefore, hafter]
    rcases hC.access hi hin with ⟨hq, hm⟩ | ⟨x, r, hp, hq, hx⟩
    · rw [hq, hm]
      exact .rest _ _
    · rw [hp, hq]
      exact .effect hx
  | @spurious t c l q hs =>
    exact hrest rfl (congrArg Status.point hs) (congrArg Status.point (update_self ..)) rfl

/-- The calls of a run are calls of the specification, in the order in which they take
effect, and each thread makes its calls one after another. -/
theorem Commits.run [Fintype T] (hC : Commits prog stage inside abs step)
    (hG : Guarding prog holds g free inside) (hH : Holding prog holds) (hO : Owned prog holds s)
    (hgd : Guarded g free inside s) {ρ : List (Turn T P × Machine T L C M P)}
    (hr : Run (Turns prog) s ρ) :
    execAll step (abs s.memory) ((effects (history stage s ρ)).map Prod.fst) =
        .ok ((effects (history stage s ρ)).map Prod.snd, abs (lastState s ρ).memory) ∧
      ∀ t, (s.stageOf stage t).Goes (deedsOf t (history stage s ρ))
        ((lastState s ρ).stageOf stage t) := by
  induction ρ generalizing s with
  | nil => exact ⟨rfl, fun t => .rest _⟩
  | cons x ρ ih =>
    obtain ⟨a, s'⟩ := x
    have hm : Move prog s a s' := hr.1.move
    obtain ⟨hexec, hgoes⟩ := ih (hO.move hH hm) (hG.move hH hO hgd hm) hr.2
    have hstep := hC.move hG hO hgd hm
    rw [effects_history]
    refine ⟨hstep.execAll hexec, fun t => ?_⟩
    by_cases ht : t = a.thread
    · rw [ht, deedsOf_history]
      exact hstep.goes (hgoes _)
    · have hother : s'.stageOf stage t = s.stageOf stage t := congrArg stage (hm.point ht)
      rw [deedsOf_history_ne ht, ← hother]
      exact hgoes t

end MBroker.Lib
