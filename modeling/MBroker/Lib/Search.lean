import Mathlib.Data.Finset.Card

/- The first index below a bound at which a test holds: what a counting loop
   with an early return finds. -/
namespace MBroker.Lib

/-- The first `i < n` with `p i`. -/
def firstIndex (p : Nat → Bool) (n : Nat) : Option Nat := (List.range n).find? p

theorem firstIndex_eq_some {p : Nat → Bool} {n i : Nat} :
    firstIndex p n = some i ↔ i < n ∧ p i = true ∧ ∀ j, j < i → p j = false := by
  unfold firstIndex
  rw [List.find?_range_eq_some]
  simp only [List.mem_range, Bool.not_eq_true']
  refine ⟨?_, ?_⟩
  · intro h
    obtain ⟨hp, hi, hj⟩ := h
    exact ⟨hi, hp, hj⟩
  · intro h
    obtain ⟨hi, hp, hj⟩ := h
    exact ⟨hp, hi, hj⟩

theorem firstIndex_eq_none {p : Nat → Bool} {n : Nat} :
    firstIndex p n = none ↔ ∀ i, i < n → p i = false := by
  unfold firstIndex
  rw [List.find?_range_eq_none]
  simp only [Bool.not_eq_true']

/-- A search fails exactly when every index is one the test rejects. -/
theorem firstIndex_eq_none_iff_card {p : Nat → Bool} {n : Nat} :
    firstIndex p n = none ↔ n ≤ ((Finset.range n).filter fun i => p i = false).card := by
  rw [firstIndex_eq_none]
  refine ⟨?_, ?_⟩
  · intro h
    rw [Finset.filter_true_of_mem fun i hi => h i (Finset.mem_range.mp hi), Finset.card_range]
  · intro h i hi
    have hall : (Finset.range n).filter (fun i => p i = false) = Finset.range n := by
      apply Finset.eq_of_subset_of_card_le (Finset.filter_subset _ _)
      rwa [Finset.card_range]
    have hmem : i ∈ (Finset.range n).filter fun i => p i = false := by
      rw [hall]
      exact Finset.mem_range.mpr hi
    exact (Finset.mem_filter.mp hmem).2

theorem firstIndex_congr {p q : Nat → Bool} {n : Nat} (h : ∀ i, i < n → p i = q i) :
    firstIndex p n = firstIndex q n := by
  unfold firstIndex
  induction n with
  | zero => rfl
  | succ n ih =>
    rw [List.range_succ, List.find?_append, List.find?_append,
      ih fun i hi => h i (by omega), List.find?_cons, List.find?_cons, h n (by omega),
      List.find?_nil, List.find?_nil]

/-- A test that holds at one index only finds that index. -/
theorem firstIndex_unique {p : Nat → Bool} {n i : Nat} (hi : i < n) (hp : p i = true)
    (hu : ∀ j, j < n → p j = true → j = i) : firstIndex p n = some i := by
  rw [firstIndex_eq_some]
  refine ⟨hi, hp, fun j hj => ?_⟩
  cases hpj : p j
  · rfl
  · have := hu j (by omega) hpj
    omega

end MBroker.Lib
