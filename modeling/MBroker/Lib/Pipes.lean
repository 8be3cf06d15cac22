import Mathlib.Logic.Function.Basic
import MBroker.Lib.Transition

/- Processes that open named pipes. An `open` of one end of a pipe comes back with a
   descriptor only once some process has come to an `open` of the other end, and until
   then its process waits in it. What a process is, and what it does between two opens, is
   left to it: `program` gives, for a place and a choice, what the process does and where
   it is then. An open once come to counts for good, so all the opens that come back where
   a process may go away again come back here.

   Where the pipes of a kind are opened at one end only by any process that has not yet
   opened one of them, no process ever opens one (`Unmet.stuck`). -/
namespace MBroker.Lib
open Function

inductive PipeEnd where
  | reading
  | writing
  deriving DecidableEq, Repr

def PipeEnd.other : PipeEnd → PipeEnd
  | .reading => .writing
  | .writing => .reading

/-- What a process does. -/
inductive Event (N : Type) where
  /-- Anything else, an open that fails among it. -/
  | inner
  /-- It comes to open an end of a pipe. -/
  | asks (name : N) (side : PipeEnd)
  /-- The open comes back with a descriptor. -/
  | gets (name : N) (side : PipeEnd)

/-- The processes, and the opens that were come to. -/
structure Net (T P N : Type) where
  place : T → P
  asked : List (N × PipeEnd)

namespace Net

variable {T P A N : Type} [DecidableEq T] [DecidableEq N]

def Met (n : Net T P N) : Event N → Prop
  | .gets name side => (name, side.other) ∈ n.asked
  | .inner | .asks _ _ => True

instance (n : Net T P N) : (event : Event N) → Decidable (n.Met event)
  | .gets name side => inferInstanceAs (Decidable ((name, side.other) ∈ n.asked))
  | .inner | .asks _ _ => .isTrue trivial

def noted (n : Net T P N) : Event N → List (N × PipeEnd)
  | .asks name side => (name, side) :: n.asked
  | .inner | .gets _ _ => n.asked

def next (program : P → A → Option (Event N × P)) (n : Net T P N) (x : T × A) :
    Option (Net T P N) :=
  match program (n.place x.1) x.2 with
  | none => none
  | some (event, place) =>
    if n.Met event then some ⟨update n.place x.1 place, n.noted event⟩ else none

def Steps (program : P → A → Option (Event N × P)) (n : Net T P N) (x : T × A)
    (m : Net T P N) : Prop :=
  n.next program x = some m

theorem Steps.cases {program : P → A → Option (Event N × P)} {n m : Net T P N} {x : T × A}
    (h : Steps program n x m) : ∃ event place, program (n.place x.1) x.2 = some (event, place) ∧
      n.Met event ∧ m = ⟨update n.place x.1 place, n.noted event⟩ := by
  unfold Steps next at h
  split at h
  · cases h
  · next event place hprogram =>
    split at h
    · next hmet => exact ⟨event, place, hprogram, hmet, (Option.some.inj h).symm⟩
    · cases h

end Net

/-- Outside of the pipes of the kind `K`: a process opens them at the end `e` only, and
stays outside as long as it has not got one. -/
structure Unmet {P A N : Type} (program : P → A → Option (Event N × P)) (K : N → Prop)
    (e : PipeEnd) (Outside : P → Prop) : Prop where
  inner : ∀ {p a q}, Outside p → program p a = some (.inner, q) → Outside q
  asks : ∀ {p a q name side}, Outside p → program p a = some (.asks name side, q) →
    (K name → side = e) ∧ Outside q
  gets : ∀ {p a q name side}, Outside p → program p a = some (.gets name side, q) →
    (K name → side = e) ∧ (¬ K name → Outside q)

namespace Unmet

variable {T P A N : Type} [DecidableEq T] [DecidableEq N]
  {program : P → A → Option (Event N × P)} {K : N → Prop} {e : PipeEnd} {Outside : P → Prop}
  {n m : Net T P N} {x : T × A}

/-- Every process is outside, and at the other end of the pipes there is none. -/
structure Waiting (K : N → Prop) (e : PipeEnd) (Outside : P → Prop) (n : Net T P N) : Prop where
  outside : ∀ t, Outside (n.place t)
  noOther : ∀ name, K name → (name, e.other) ∉ n.asked

/-- The step does not open a pipe of the kind. -/
def OpensNone (program : P → A → Option (Event N × P)) (K : N → Prop) (n : Net T P N)
    (x : T × A) : Prop :=
  ∀ name side q, program (n.place x.1) x.2 = some (.gets name side, q) → ¬ K name

theorem Waiting.step (hu : Unmet program K e Outside) (hw : Waiting K e Outside n)
    (h : Net.Steps program n x m) : OpensNone program K n x ∧ Waiting K e Outside m := by
  obtain ⟨event, place, hprogram, hmet, rfl⟩ := h.cases
  have hout := hw.outside x.1
  have hplace : ∀ {event}, Outside place → (∀ name, K name → (name, e.other) ∉ n.noted event) →
      Waiting K e Outside (⟨update n.place x.1 place, n.noted event⟩ : Net T P N) := by
    intro event hq hno
    refine ⟨fun t => ?_, hno⟩
    by_cases ht : t = x.1
    · subst ht
      exact (congrArg Outside (update_self _ _ _)).mpr hq
    · exact (congrArg Outside (update_of_ne ht _ _)).mpr (hw.outside t)
  cases event with
  | inner =>
    refine ⟨fun name side q hgets => ?_, hplace (hu.inner hout hprogram) hw.noOther⟩
    rw [hprogram] at hgets
    cases hgets
  | asks name side =>
    obtain ⟨hside, hq⟩ := hu.asks hout hprogram
    refine ⟨fun name side q hgets => ?_, hplace hq fun name' hK hmem => ?_⟩
    · rw [hprogram] at hgets
      cases hgets
    · rcases List.mem_cons.mp hmem with heq | hold
      · cases heq
        have := hside hK
        cases e <;> cases this
      · exact hw.noOther name' hK hold
  | gets name side =>
    obtain ⟨hside, hq⟩ := hu.gets hout hprogram
    -- the other end has not been asked for
    have hK : ¬ K name := by
      intro hK
      have hmet : (name, side.other) ∈ n.asked := hmet
      rw [hside hK] at hmet
      exact hw.noOther name hK hmet
    refine ⟨fun name' side' q hgets => ?_, hplace (hq hK) hw.noOther⟩
    rw [hprogram] at hgets
    cases hgets
    exact hK

/-- Along every run every process stays outside, and none of the pipes is opened. -/
theorem stuck (hu : Unmet program K e Outside) {ρ : List ((T × A) × Net T P N)}
    (hw : Waiting K e Outside n) (hr : Run (Net.Steps program) n ρ) :
    EveryState (fun n => ∀ t, Outside (n.place t)) n ρ ∧ EveryStep (OpensNone program K) n ρ := by
  refine ⟨?_, ?_⟩
  · apply EveryState.mono fun _ hw => Waiting.outside hw
    apply Run.invariant _ hw hr
    exact fun n x m hw h => (hw.step hu h).2
  · apply Run.everyStep (P := fun _ => True) _ hw hr
    · exact Run.invariant (fun _ _ _ _ _ => trivial) trivial hr
    · exact fun n x m hw h _ => hw.step hu h

end Unmet

end MBroker.Lib
