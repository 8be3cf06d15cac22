import Mathlib.Logic.Function.Basic

/- A ring of cells that holds a window of a log. The log is everything ever put
   in, the window is what was not taken out yet, and entry `j` of the log is in
   cell `j % cap`. The window is no longer than the ring, so its entries are in
   different cells. -/
namespace MBroker.Lib
open Function

variable {E : Type}

/-- The cells hold the entries of `log` from the `r`-th on. -/
structure Stored (cells : Nat → E) (cap : Nat) (log : List E) (r : Nat) : Prop where
  start_le : r ≤ log.length
  fits : log.length ≤ r + cap
  cell : ∀ j, r ≤ j → j < log.length → log[j]? = some (cells (j % cap))

/-- Positions less than a turn of the ring apart are different cells. -/
theorem mod_ne_of_lt {i j cap : Nat} (hij : i < j) (hlt : j < i + cap) : i % cap ≠ j % cap := by
  intro heq
  have hzero : (j - i) % cap = 0 := Nat.sub_mod_eq_zero_of_mod_eq heq.symm
  rw [Nat.mod_eq_of_lt (by omega)] at hzero
  omega

namespace Stored

variable {cells : Nat → E} {cap r : Nat} {log : List E}

/-- The next cell is outside the window. -/
theorem store (h : Stored cells cap log r) (hroom : log.length < r + cap) (e : E) :
    Stored (update cells (log.length % cap) e) cap log r := by
  refine ⟨h.start_le, h.fits, fun j hrj hj => ?_⟩
  rw [update_of_ne (mod_ne_of_lt hj (by omega))]
  exact h.cell j hrj hj

/-- The entry in the next cell is added to the log. -/
theorem append (h : Stored cells cap log r) (hroom : log.length < r + cap) :
    Stored cells cap (log ++ [cells (log.length % cap)]) r := by
  have hr := h.start_le
  refine ⟨?_, ?_, fun j hrj hj => ?_⟩
  · simp
    omega
  · simp
    omega
  · simp only [List.length_append, List.length_singleton] at hj
    by_cases hlast : j = log.length
    · simp [hlast]
    · rw [List.getElem?_append_left (by omega)]
      exact h.cell j hrj (by omega)

/-- The first entry leaves the window. -/
theorem pop (h : Stored cells cap log r) (hne : r < log.length) : Stored cells cap log (r + 1) := by
  have hfits := h.fits
  exact ⟨hne, by omega, fun j hrj hj => h.cell j (by omega) hj⟩

/-- The window, read from the ring. -/
theorem window (h : Stored cells cap log r) {n : Nat} (hn : log.length = r + n) :
    (List.range n).map (fun i => cells ((r % cap + i) % cap)) = log.drop r := by
  refine List.ext_getElem? fun i => ?_
  rw [List.getElem?_drop]
  by_cases hi : i < n
  · rw [h.cell (r + i) (by omega) (by omega)]
    simp [hi]
  · rw [List.getElem?_eq_none (by simp; omega), List.getElem?_eq_none (by omega)]

end Stored

end MBroker.Lib
