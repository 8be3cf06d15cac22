import MBroker.Lib.Transition

/- Runs that show runs of a coarser system. `label` tells which step of the coarser system
   a step shows, and of some that they show none. If each step keeps a relation to the
   coarser system, which meanwhile takes the step that is shown, a run of any length shows
   a run of it (`Run.shows`). -/
namespace MBroker.Lib

variable {S A S' A' : Type}

/-- The steps that a run shows. -/
def shown (label : S → A → S → Option A') : S → List (A × S) → List A'
  | _, [] => []
  | s, (a, t) :: ρ => (label s a t).toList ++ shown label t ρ

/-- The coarser system takes the step that is shown, if any. -/
def Follows (tr' : S' → A' → S' → Prop) (u : S') : Option A' → S' → Prop
  | none, v => v = u
  | some b, v => tr' u b v

theorem Run.shows {tr : S → A → S → Prop} {tr' : S' → A' → S' → Prop}
    {label : S → A → S → Option A'} {R : S → S' → Prop}
    (h : ∀ s a t u, R s u → tr s a t → ∃ v, Follows tr' u (label s a t) v ∧ R t v)
    {s : S} {u : S'} {ρ : List (A × S)} (hR : R s u) (hr : Run tr s ρ) :
    ∃ σ, Run tr' u σ ∧ σ.map Prod.fst = shown label s ρ ∧ R (lastState s ρ) (lastState u σ) := by
  induction ρ generalizing s u with
  | nil => exact ⟨[], trivial, rfl, hR⟩
  | cons x ρ ih =>
    obtain ⟨a, t⟩ := x
    obtain ⟨v, hv, hRv⟩ := h s a t u hR hr.1
    obtain ⟨σ, hσ, hlabels, hlast⟩ := ih hRv hr.2
    unfold shown
    cases hl : label s a t with
    | none =>
      rw [hl] at hv
      subst hv
      exact ⟨σ, hσ, hlabels, hlast⟩
    | some b =>
      rw [hl] at hv
      exact ⟨(b, v) :: σ, ⟨hv, hσ⟩, congrArg (b :: ·) hlabels, hlast⟩

end MBroker.Lib
