import Mathlib.Data.Finset.Card

/- Things that are lent and given back, one at a time: nothing is lent that is out, and
   nothing given back that is not. Then between two loans of one thing it is given back
   (`giveBack_between`), and what was lent is what was given back and what is out
   (`card_out`). -/
namespace MBroker.Lib

variable {K : Type}

inductive Loan (K : Type) where
  | lend (k : K)
  | giveBack (k : K)
  deriving DecidableEq, Repr

namespace Loan

def isLend : Loan K → Bool
  | .lend _ => true
  | .giveBack _ => false

def isGiveBack : Loan K → Bool
  | .lend _ => false
  | .giveBack _ => true

variable [DecidableEq K]

/-- What is out after it. -/
def out (s : Finset K) : Loan K → Finset K
  | .lend k => insert k s
  | .giveBack k => s.erase k

/-- One thing is not lent to two. -/
def Possible (s : Finset K) : Loan K → Prop
  | .lend k => k ∉ s
  | .giveBack k => k ∈ s

def Sound : Finset K → List (Loan K) → Prop
  | _, [] => True
  | s, l :: ls => l.Possible s ∧ Sound (l.out s) ls

variable {s : Finset K} {k : K} {ls ls' : List (Loan K)}

theorem sound_append : Sound s (ls ++ ls') ↔ Sound s ls ∧ Sound (ls.foldl out s) ls' := by
  induction ls generalizing s with
  | nil => exact ⟨fun h => ⟨trivial, h⟩, And.right⟩
  | cons l ls ih =>
    rw [List.cons_append, Sound, Sound, ih, List.foldl_cons, and_assoc]

/-- What is out goes out of it only by being given back. -/
theorem mem_out (hk : k ∈ s) (hno : .giveBack k ∉ ls) : k ∈ ls.foldl out s := by
  induction ls generalizing s with
  | nil => exact hk
  | cons l ls ih =>
    obtain ⟨hne, hrest⟩ := not_or.mp (mt List.mem_cons.mpr hno)
    rw [List.foldl_cons]
    refine ih ?_ hrest
    cases l with
    | lend j => exact Finset.mem_insert_of_mem hk
    | giveBack j =>
      refine Finset.mem_erase.mpr ⟨?_, hk⟩
      rintro rfl
      exact hne rfl

theorem giveBack_between {before between after : List (Loan K)}
    (h : Sound s (before ++ .lend k :: (between ++ .lend k :: after))) :
    .giveBack k ∈ between := by
  by_contra hno
  obtain ⟨-, -, hrest⟩ := sound_append.mp h
  obtain ⟨-, hsecond, -⟩ := sound_append.mp hrest
  exact hsecond (mem_out (Finset.mem_insert_self _ _) hno)

theorem card_out (h : Sound s ls) :
    (ls.foldl out s).card + ls.countP isGiveBack = s.card + ls.countP isLend := by
  induction ls generalizing s with
  | nil => rfl
  | cons l ls ih =>
    obtain ⟨hl, hls⟩ := h
    have hrest := ih hls
    rw [List.foldl_cons, List.countP_cons, List.countP_cons]
    cases l with
    | lend k =>
      have hcard : (out s (.lend k)).card = s.card + 1 := Finset.card_insert_of_notMem hl
      simp only [isLend, isGiveBack, Bool.false_eq_true, if_false, if_true]
      omega
    | giveBack k =>
      have hcard : (out s (.giveBack k)).card + 1 = s.card := Finset.card_erase_add_one hl
      simp only [isLend, isGiveBack, Bool.false_eq_true, if_false, if_true]
      omega

end Loan

end MBroker.Lib
