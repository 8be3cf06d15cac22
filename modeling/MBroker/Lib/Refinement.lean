/- A machine that may fault, against a total one that says what it is for. Both
   take the same labels and give the same outputs; `Allowed` are the label
   sequences the specification promises anything about, each label judged in the
   specification's own state. A relation that one allowed label keeps
   (`Simulation`) carries over to every allowed sequence (`Simulation.run`): the
   machine does not fault, and its outputs are the specification's. -/
namespace MBroker.Lib

variable {S T A R E : Type}

/-- Labels one after another: their outputs, and the state after the last. -/
def execAll (step : S → A → Except E (R × S)) (s : S) : List A → Except E (List R × S)
  | [] => .ok ([], s)
  | a :: as => do
    let (r, s) ← step s a
    let (rs, s) ← execAll step s as
    return (r :: rs, s)

def runAll (step : T → A → R × T) (t : T) : List A → List R × T
  | [] => ([], t)
  | a :: as =>
    let (r, t) := step t a
    let (rs, t) := runAll step t as
    (r :: rs, t)

/-- Labels that do not fault: the first one, and those behind it. -/
theorem execAll_cons {step : S → A → Except E (R × S)} {s u : S} {a : A} {as : List A}
    {rs : List R} (h : execAll step s (a :: as) = .ok (rs, u)) :
    ∃ r t rs', step s a = .ok (r, t) ∧ execAll step t as = .ok (rs', u) ∧ rs = r :: rs' := by
  rw [execAll] at h
  cases hr : step s a with
  | error e =>
    rw [hr] at h
    cases h
  | ok x =>
    cases hrs : execAll step x.2 as with
    | error e =>
      rw [hr] at h
      simp only [bind, Except.bind, hrs] at h
      cases h
    | ok y =>
      rw [hr] at h
      simp only [bind, Except.bind, hrs] at h
      cases h
      exact ⟨x.1, x.2, y.1, rfl, hrs, rfl⟩

/-- Every label is allowed in the state it is taken in. -/
def Allowed (step : T → A → R × T) (G : T → A → Prop) : T → List A → Prop
  | _, [] => True
  | t, a :: as => G t a ∧ Allowed step G (step t a).2 as

section RunAll

variable {step : T → A → R × T} {G : T → A → Prop}

theorem length_runAll (t : T) (as : List A) : (runAll step t as).1.length = as.length := by
  induction as generalizing t with
  | nil => rfl
  | cons a as ih => exact congrArg Nat.succ (ih (step t a).2)

theorem runAll_append (t : T) (as bs : List A) :
    runAll step t (as ++ bs) =
      ((runAll step t as).1 ++ (runAll step (runAll step t as).2 bs).1,
        (runAll step (runAll step t as).2 bs).2) := by
  induction as generalizing t with
  | nil => rfl
  | cons a as ih =>
    calc runAll step t (a :: (as ++ bs))
        = ((step t a).1 :: (runAll step (step t a).2 (as ++ bs)).1,
            (runAll step (step t a).2 (as ++ bs)).2) := rfl
      _ = _ := by
        rw [ih]
        rfl

theorem allowed_append (t : T) (as bs : List A) :
    Allowed step G t (as ++ bs) ↔
      Allowed step G t as ∧ Allowed step G (runAll step t as).2 bs := by
  induction as generalizing t with
  | nil => exact ⟨fun h => ⟨trivial, h⟩, And.right⟩
  | cons a as ih =>
    rw [List.cons_append, Allowed, Allowed, ih, and_assoc]
    rfl

end RunAll

/-- One allowed label does not fault, gives the specification's output, and keeps
the relation. -/
def Simulation (cstep : S → A → Except E (R × S)) (astep : T → A → R × T) (G : T → A → Prop)
    (Rel : S → T → Prop) : Prop :=
  ∀ s t a, Rel s t → G t a → ∃ s', cstep s a = .ok ((astep t a).1, s') ∧ Rel s' (astep t a).2

theorem Simulation.run {cstep : S → A → Except E (R × S)} {astep : T → A → R × T}
    {G : T → A → Prop} {Rel : S → T → Prop} (h : Simulation cstep astep G Rel) {s : S} {t : T}
    {as : List A} (hr : Rel s t) (ha : Allowed astep G t as) :
    ∃ s', execAll cstep s as = .ok ((runAll astep t as).1, s') ∧ Rel s' (runAll astep t as).2 := by
  induction as generalizing s t with
  | nil => exact ⟨s, rfl, hr⟩
  | cons a as ih =>
    obtain ⟨s₁, hs₁, hr₁⟩ := h s t a hr ha.1
    obtain ⟨s₂, hs₂, hr₂⟩ := ih hr₁ ha.2
    refine ⟨s₂, ?_, hr₂⟩
    simp only [execAll, runAll, hs₁, hs₂, bind, Except.bind]
    rfl

end MBroker.Lib
