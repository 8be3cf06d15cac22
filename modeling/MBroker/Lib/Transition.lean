/- Runs of a labelled transition system, over any states and labels. A run is
   the list of labels taken, each with the state it led to. Three rules carry
   every result about runs elsewhere: what each step keeps, every reachable
   state has (`Reachable.invariant`); what each step that meets `C` keeps, a
   run whose steps meet `C` has throughout (`Run.everyState`); and a property
   that one step keeps exactly when it meets `C` holds along a run exactly when
   the run's steps meet `C` (`Run.everyState_iff`). Two more are about what a step
   does between the state before it and the state after (`Run.everyMove`,
   `Run.everyMove_iff`). -/
namespace MBroker.Lib

variable {S A : Type}

/-- States reached from `init` by steps of `tr`. -/
inductive Reachable (init : S → Prop) (tr : S → A → S → Prop) : S → Prop
  | start {s : S} : init s → Reachable init tr s
  | step {s t : S} {a : A} : Reachable init tr s → tr s a t → Reachable init tr t

theorem Reachable.invariant {init : S → Prop} {tr : S → A → S → Prop} {I : S → Prop}
    (h0 : ∀ s, init s → I s) (hs : ∀ s a t, I s → tr s a t → I t) {s : S}
    (h : Reachable init tr s) : I s := by
  induction h with
  | start hi => exact h0 _ hi
  | step _ ht ih => exact hs _ _ _ ih ht

/-- `ρ` is a run from `s`. -/
def Run (tr : S → A → S → Prop) : S → List (A × S) → Prop
  | _, [] => True
  | s, (a, t) :: ρ => tr s a t ∧ Run tr t ρ

/-- `P` holds in every state of the run, the first one included. -/
def EveryState (P : S → Prop) : S → List (A × S) → Prop
  | s, [] => P s
  | s, (_, t) :: ρ => P s ∧ EveryState P t ρ

/-- Every step of the run meets `C`, read in the state before the step. -/
def EveryStep (C : S → A → Prop) : S → List (A × S) → Prop
  | _, [] => True
  | s, (a, t) :: ρ => C s a ∧ EveryStep C t ρ

/-- Every step of the run does `Q`, between the state before it and the one after. -/
def EveryMove (Q : S → A → S → Prop) : S → List (A × S) → Prop
  | _, [] => True
  | s, (a, t) :: ρ => Q s a t ∧ EveryMove Q t ρ

/-- The state a run ends in. -/
def lastState : S → List (A × S) → S
  | s, [] => s
  | _, (_, t) :: ρ => lastState t ρ

/-- What the steps of a run amount to, each counted in the state before it. -/
def total (f : S → A → Nat) : S → List (A × S) → Nat
  | _, [] => 0
  | s, (a, t) :: ρ => f s a + total f t ρ

/-- The run these labels make, up to the first that cannot be taken. -/
def along (next : S → A → Option S) : S → List A → List (A × S)
  | _, [] => []
  | s, a :: as =>
    match next s a with
    | none => []
    | some t => (a, t) :: along next t as

instance instDecidableEveryStep (C : S → A → Prop) [∀ s a, Decidable (C s a)] :
    (s : S) → (ρ : List (A × S)) → Decidable (EveryStep C s ρ)
  | _, [] => .isTrue trivial
  | s, (a, t) :: ρ =>
    have := instDecidableEveryStep C t ρ
    inferInstanceAs (Decidable (C s a ∧ EveryStep C t ρ))

instance instDecidableEveryMove (Q : S → A → S → Prop) [∀ s a t, Decidable (Q s a t)] :
    (s : S) → (ρ : List (A × S)) → Decidable (EveryMove Q s ρ)
  | _, [] => .isTrue trivial
  | s, (a, t) :: ρ =>
    have := instDecidableEveryMove Q t ρ
    inferInstanceAs (Decidable (Q s a t ∧ EveryMove Q t ρ))

theorem EveryState.head {P : S → Prop} {s : S} {ρ : List (A × S)}
    (h : EveryState P s ρ) : P s := by
  cases ρ with
  | nil => exact h
  | cons x ρ => exact h.1

theorem EveryState.mono {P Q : S → Prop} (hPQ : ∀ s, P s → Q s) {s : S} {ρ : List (A × S)}
    (h : EveryState P s ρ) : EveryState Q s ρ := by
  induction ρ generalizing s with
  | nil => exact hPQ s h
  | cons x ρ ih => exact ⟨hPQ s h.1, ih h.2⟩

theorem EveryState.and {P Q : S → Prop} {s : S} {ρ : List (A × S)} (hp : EveryState P s ρ)
    (hq : EveryState Q s ρ) : EveryState (fun s => P s ∧ Q s) s ρ := by
  induction ρ generalizing s with
  | nil => exact ⟨hp, hq⟩
  | cons x ρ ih => exact ⟨⟨hp.1, hq.1⟩, ih hp.2 hq.2⟩

theorem EveryState.last {P : S → Prop} {s : S} {ρ : List (A × S)} (h : EveryState P s ρ) :
    P (lastState s ρ) := by
  induction ρ generalizing s with
  | nil => exact h
  | cons x ρ ih => exact ih h.2

/-- Every step is taken in a state of the run. -/
theorem EveryState.everyStep {P : S → Prop} {s : S} {ρ : List (A × S)} (h : EveryState P s ρ) :
    EveryStep (fun s _ => P s) s ρ := by
  induction ρ generalizing s with
  | nil => trivial
  | cons x ρ ih => exact ⟨h.1, ih h.2⟩

theorem EveryStep.of_forall {C : S → A → Prop} (h : ∀ s a, C s a) (s : S) (ρ : List (A × S)) :
    EveryStep C s ρ := by
  induction ρ generalizing s with
  | nil => trivial
  | cons x ρ ih => exact ⟨h s x.1, ih x.2⟩

theorem EveryStep.mono {C D : S → A → Prop} (hCD : ∀ s a, C s a → D s a) {s : S}
    {ρ : List (A × S)} (h : EveryStep C s ρ) : EveryStep D s ρ := by
  induction ρ generalizing s with
  | nil => trivial
  | cons x ρ ih => exact ⟨hCD _ _ h.1, ih h.2⟩

theorem EveryStep.and {C D : S → A → Prop} {s : S} {ρ : List (A × S)} (hc : EveryStep C s ρ)
    (hd : EveryStep D s ρ) : EveryStep (fun s a => C s a ∧ D s a) s ρ := by
  induction ρ generalizing s with
  | nil => trivial
  | cons x ρ ih => exact ⟨⟨hc.1, hd.1⟩, ih hc.2 hd.2⟩

/-- The steps of a run that all meet `C` are steps of the system restricted to `C`. -/
theorem Run.restrict {tr : S → A → S → Prop} {C : S → A → Prop} {s : S} {ρ : List (A × S)}
    (hr : Run tr s ρ) (hc : EveryStep C s ρ) : Run (fun s a t => tr s a t ∧ C s a) s ρ := by
  induction ρ generalizing s with
  | nil => trivial
  | cons x ρ ih => exact ⟨⟨hr.1, hc.1⟩, ih hr.2 hc.2⟩

theorem Run.append {tr : S → A → S → Prop} {s : S} {ρ σ : List (A × S)} (hρ : Run tr s ρ)
    (hσ : Run tr (lastState s ρ) σ) : Run tr s (ρ ++ σ) := by
  induction ρ generalizing s with
  | nil => exact hσ
  | cons x ρ ih => exact ⟨hρ.1, ih hρ.2 hσ⟩

theorem lastState_append (s : S) (ρ σ : List (A × S)) :
    lastState s (ρ ++ σ) = lastState (lastState s ρ) σ := by
  induction ρ generalizing s with
  | nil => rfl
  | cons x ρ ih => exact ih x.2

theorem run_along (next : S → A → Option S) (s : S) (as : List A) :
    Run (fun s a t => next s a = some t) s (along next s as) := by
  induction as generalizing s with
  | nil => trivial
  | cons a as ih =>
    unfold along
    cases h : next s a with
    | none => trivial
    | some t => exact ⟨h, ih t⟩

/-- What a step leads to only from where it holds already, holds all along a run that
ends with it. -/
theorem Run.everyState_of_last {tr : S → A → S → Prop} {I P : S → Prop}
    (hI : ∀ s a t, I s → tr s a t → I t) (hP : ∀ s a t, I s → tr s a t → P t → P s) {s : S}
    {ρ : List (A × S)} (hs : I s) (hr : Run tr s ρ) (hl : P (lastState s ρ)) :
    EveryState P s ρ := by
  induction ρ generalizing s with
  | nil => exact hl
  | cons x ρ ih =>
    have hρ := ih (hI _ _ _ hs hr.1) hr.2 hl
    exact ⟨hP _ _ _ hs hr.1 hρ.head, hρ⟩

/-- A measure that each step adds `f` to. -/
theorem Run.total_eq {tr : S → A → S → Prop} {P : S → Prop} {m : S → Nat} {f : S → A → Nat}
    (h : ∀ s a t, P s → P t → tr s a t → m t = m s + f s a) {s : S} {ρ : List (A × S)}
    (hr : Run tr s ρ) (hp : EveryState P s ρ) : m (lastState s ρ) = m s + total f s ρ := by
  induction ρ generalizing s with
  | nil => rfl
  | cons x ρ ih =>
    have hstep := h _ _ _ hp.1 hp.2.head hr.1
    have hrest := ih hr.2 hp.2
    simp only [lastState, total]
    omega

theorem Run.everyState {tr : S → A → S → Prop} {I : S → Prop} {C : S → A → Prop}
    (hs : ∀ s a t, I s → C s a → tr s a t → I t) {s : S} {ρ : List (A × S)}
    (hI : I s) (hr : Run tr s ρ) (hc : EveryStep C s ρ) : EveryState I s ρ := by
  induction ρ generalizing s with
  | nil => exact hI
  | cons x ρ ih => exact ⟨hI, ih (hs _ _ _ hI hc.1 hr.1) hr.2 hc.2⟩

/-- What every step keeps holds all along a run. -/
theorem Run.invariant {tr : S → A → S → Prop} {I : S → Prop} (hI : ∀ s a t, I s → tr s a t → I t)
    {s : S} {ρ : List (A × S)} (hs : I s) (hr : Run tr s ρ) : EveryState I s ρ := by
  apply Run.everyState (C := fun _ _ => True) _ hs hr
  · exact .of_forall (fun _ _ => trivial) s ρ
  · intro s a t hs _ hst
    exact hI s a t hs hst

/-- Where `P` holds of no state that a step which fails `C` leads to, the steps of a
run meet `C` if its states have `P`. -/
theorem Run.everyStep {tr : S → A → S → Prop} {I P : S → Prop} {C : S → A → Prop}
    (hC : ∀ s a t, I s → tr s a t → P t → C s a ∧ I t) {s : S} {ρ : List (A × S)} (hs : I s)
    (hr : Run tr s ρ) (hp : EveryState P s ρ) : EveryStep C s ρ := by
  induction ρ generalizing s with
  | nil => trivial
  | cons x ρ ih =>
    obtain ⟨hc, ht⟩ := hC _ _ _ hs hr.1 hp.2.head
    exact ⟨hc, ih ht hr.2 hp.2⟩

/-- Where `I` is kept by every step and `P` is kept by exactly the steps that
meet `C`, `P` holds along a run exactly when the run's steps meet `C`. -/
theorem Run.everyState_iff {tr : S → A → S → Prop} {I P : S → Prop} {C : S → A → Prop}
    (hI : ∀ s a t, I s → tr s a t → I t)
    (hP : ∀ s a t, I s → P s → tr s a t → (P t ↔ C s a)) {s : S} {ρ : List (A × S)}
    (hs : I s) (hp : P s) (hr : Run tr s ρ) : EveryState P s ρ ↔ EveryStep C s ρ := by
  induction ρ generalizing s with
  | nil => exact ⟨fun _ => trivial, fun _ => hp⟩
  | cons x ρ ih =>
    obtain ⟨a, t⟩ := x
    have hstep : P t ↔ C s a := hP s a t hs hp hr.1
    have hIt : I t := hI s a t hs hr.1
    refine ⟨?_, ?_⟩
    · intro h
      obtain ⟨-, hρ⟩ := h
      have ht : P t := hρ.head
      exact ⟨hstep.mp ht, (ih hIt ht hr.2).mp hρ⟩
    · intro h
      obtain ⟨hc, hρ⟩ := h
      have ht : P t := hstep.mpr hc
      exact ⟨hp, (ih hIt ht hr.2).mpr hρ⟩

/-- Where the steps that meet `C` keep `I` and do `Q`, so do all steps of a run
whose steps meet `C`. -/
theorem Run.everyMove {tr : S → A → S → Prop} {I : S → Prop} {C : S → A → Prop}
    {Q : S → A → S → Prop} (hs : ∀ s a t, I s → C s a → tr s a t → Q s a t ∧ I t) {s : S}
    {ρ : List (A × S)} (hI : I s) (hr : Run tr s ρ) (hc : EveryStep C s ρ) : EveryMove Q s ρ := by
  induction ρ generalizing s with
  | nil => trivial
  | cons x ρ ih =>
    obtain ⟨hq, ht⟩ := hs _ _ _ hI hc.1 hr.1
    exact ⟨hq, ih ht hr.2 hc.2⟩

/-- Where a step does `Q` exactly when it meets `C`, all steps of a run do `Q`
exactly when all meet `C`. -/
theorem Run.everyMove_iff {tr : S → A → S → Prop} {I : S → Prop} {C : S → A → Prop}
    {Q : S → A → S → Prop} (hI : ∀ s a t, I s → tr s a t → Q s a t → I t)
    (hQ : ∀ s a t, I s → tr s a t → (Q s a t ↔ C s a)) {s : S} {ρ : List (A × S)} (hs : I s)
    (hr : Run tr s ρ) : EveryMove Q s ρ ↔ EveryStep C s ρ := by
  induction ρ generalizing s with
  | nil => exact Iff.rfl
  | cons x ρ ih =>
    obtain ⟨a, t⟩ := x
    have hstep : Q s a t ↔ C s a := hQ s a t hs hr.1
    refine ⟨?_, ?_⟩
    · intro h
      obtain ⟨hq, hρ⟩ := h
      exact ⟨hstep.mp hq, (ih (hI s a t hs hr.1 hq) hr.2).mp hρ⟩
    · intro h
      obtain ⟨hc, hρ⟩ := h
      have hq : Q s a t := hstep.mpr hc
      exact ⟨hq, (ih (hI s a t hs hr.1 hq) hr.2).mpr hρ⟩

end MBroker.Lib
