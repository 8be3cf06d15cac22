import Mathlib.Data.List.InsertIdx
import Mathlib.Logic.Function.Basic
import MBroker.Lib.Search

/- An array of which the first `n` elements are in use, the index being any
   integer: what a write past the last one adds to the elements, and what moving
   those behind one of them down takes away. At the end what an update at one place
   leaves of what holds at every place, or at any two. -/
namespace MBroker.Lib
open Function

variable {α β : Type}

/-- The elements in use. -/
def entries (a : Int → α) (n : Nat) : List α := (List.range n).map fun i : Nat => a i

/-- `a[j] = a[j + 1]`, for `n` indices from `j` on. -/
def shift (a : Int → α) (j : Nat) : Nat → Int → α
  | 0 => a
  | n + 1 => shift (update a j (a (j + 1))) (j + 1) n

variable {a b : Int → α} {n i : Nat} {x : α}

@[simp] theorem length_entries (a : Int → α) (n : Nat) : (entries a n).length = n := by
  simp [entries]

theorem getElem?_entries (a : Int → α) (n i : Nat) :
    (entries a n)[i]? = if i < n then some (a i) else none := by
  unfold entries
  rw [List.getElem?_map]
  split
  · next h => simp [List.getElem?_range h]
  · next h => simp [Nat.le_of_not_lt h]

theorem mem_entries : x ∈ entries a n ↔ ∃ i : Nat, i < n ∧ a i = x := by
  simp [entries]

theorem entries_eq_iff : entries a n = entries b n ↔ ∀ i : Nat, i < n → a i = b i := by
  simp [entries]

theorem entries_succ (a : Int → α) (n : Nat) : entries a (n + 1) = entries a n ++ [a n] := by
  simp [entries, List.range_succ]

theorem map_entries (f : α → β) (a : Int → α) (n : Nat) :
    (entries a n).map f = entries (fun i => f (a i)) n := by
  simp [entries, comp_def]

/-- Below `m`, `shift` gives every element from `j` on the one behind it. -/
theorem shift_apply (a : Int → α) (j n k : Nat) :
    shift a j n k = if j ≤ k ∧ k < j + n then a ((k + 1 : Nat) : Int) else a k := by
  induction n generalizing a j with
  | zero => rw [shift, if_neg (by omega)]
  | succ n ih =>
    rw [shift, ih]
    by_cases hkj : k = j
    · subst hkj
      rw [if_neg (by omega), if_pos (by omega), update_self]
      rfl
    · have hk : (k : Int) ≠ j := by omega
      have hk' : ((k + 1 : Nat) : Int) ≠ j ∨ k < j := by omega
      by_cases hin : j ≤ k ∧ k < j + (n + 1)
      · rw [if_pos (by omega), if_pos hin, update_of_ne (by omega)]
      · rw [if_neg (by omega), if_neg hin, update_of_ne hk]

/-- The elements behind `i` moved down, that one is gone. -/
theorem entries_shift (a : Int → α) (hi : i < n) :
    entries (shift a i (n - 1 - i)) (n - 1) = (entries a n).eraseIdx i := by
  apply List.ext_getElem?
  intro k
  rw [getElem?_entries, List.getElem?_eraseIdx, getElem?_entries, getElem?_entries, shift_apply]
  by_cases hki : k < i
  · rw [if_pos (by omega), if_neg (by omega), if_pos hki, if_pos (by omega)]
  · rw [if_neg hki]
    by_cases hk : k < n - 1
    · rw [if_pos hk, if_pos (by omega), if_pos (by omega)]
    · rw [if_neg hk, if_neg (by omega)]

theorem erase_entries [DecidableEq α] (h : firstIndex (fun i => a i = x) n = some i) :
    (entries a n).erase x = (entries a n).eraseIdx i := by
  obtain ⟨hi, hp, hfirst⟩ := firstIndex_eq_some.mp h
  have hidx : (entries a n).idxOf? x = some i := by
    rw [List.idxOf?_eq_some_iff]
    refine ⟨by simpa using hi, ?_, ?_⟩
    · simpa [entries] using hp
    · intro j hj
      simpa [entries] using hfirst j hj
  rw [List.erase_eq_eraseIdx, hidx]

section Places

variable {T P J : Type} [DecidableEq T] {place : T → P} {f : P → Option J} {t : T} {p : P}

/-- What holds of whatever `f` finds at each place still does after a change of one. -/
theorem forall_update {Q : J → Prop} (hothers : ∀ u j, u ≠ t → f (place u) = some j → Q j)
    (hself : ∀ j, f p = some j → Q j) (u : T) (j : J) (hj : f (update place t p u) = some j) :
    Q j := by
  by_cases hu : u = t
  · subst hu
    rw [update_self] at hj
    exact hself j hj
  · rw [update_of_ne hu] at hj
    exact hothers u j hu hj

/-- And so does a symmetric relation between what it finds at any two. -/
theorem forall_ne_update {R : J → J → Prop} (hsymm : ∀ i j, R i j → R j i)
    (hold : ∀ u v i j, u ≠ v → f (place u) = some i → f (place v) = some j → R i j)
    (hself : ∀ i, f p = some i → ∀ u j, u ≠ t → f (place u) = some j → R i j) (u v : T) (i j : J)
    (huv : u ≠ v) (hi : f (update place t p u) = some i) (hj : f (update place t p v) = some j) :
    R i j := by
  by_cases hu : u = t
  · subst hu
    rw [update_self] at hi
    rw [update_of_ne huv.symm] at hj
    exact hself i hi v j huv.symm hj
  · rw [update_of_ne hu] at hi
    by_cases hv : v = t
    · -- the place changed is the second of the two
      subst hv
      rw [update_self] at hj
      exact hsymm j i (hself j hj u i hu hi)
    · rw [update_of_ne hv] at hj
      exact hold u v i j huv hi hj

end Places

end MBroker.Lib
