import Mathlib.Logic.Function.Basic

/- A board of named boxes, each a sequence that is only added to and that is cut at `cap`
   elements. What a box holds after any posts is what was appended to it since it was made,
   up to the cut (`held_foldl`). -/
namespace MBroker.Lib
open Function

variable {N B : Type}

/-- What each box holds, where there is one of the name. -/
abbrev Board (N B : Type) := N → Option (List B)

inductive Post (N B : Type) where
  /-- A box is made; one that is there is left as it is. -/
  | create (name : N)
  | remove (name : N)
  /-- What is beyond the cut is lost. -/
  | append (name : N) (elems : List B)

def Post.name : Post N B → N
  | .create name | .remove name | .append name _ => name

namespace Board

variable [DecidableEq N]

def post (cap : Nat) (b : Board N B) : Post N B → Board N B
  | .create name => update b name (some ((b name).getD []))
  | .remove name => update b name none
  | .append name elems => update b name ((b name).map fun held => (held ++ elems).take cap)

/-- What the posts append to a box. -/
def appended (name : N) : List (Post N B) → List B
  | [] => []
  | .append target elems :: posts =>
    if target = name then elems ++ appended name posts else appended name posts
  | .create _ :: posts | .remove _ :: posts => appended name posts

/-- The post takes the box of that name away. -/
def Removes (name : N) : Post N B → Prop
  | .remove gone => gone = name
  | .create _ | .append _ _ => False

instance (name : N) : DecidablePred (Removes (B := B) name)
  | .remove gone => inferInstanceAs (Decidable (gone = name))
  | .create _ | .append _ _ => .isFalse id

variable {cap : Nat} {b : Board N B} {name : N} {held : List B}

theorem take_append_take (xs ys : List B) :
    (xs.take cap ++ ys).take cap = (xs ++ ys).take cap := by
  rw [List.take_append, List.take_append, List.take_take, Nat.min_self, List.length_take]
  rcases Nat.le_total xs.length cap with h | h
  · rw [Nat.min_eq_right h]
  · rw [Nat.min_eq_left h, Nat.sub_self, Nat.sub_eq_zero_of_le h]

@[simp] theorem post_create (name : N) :
    post cap b (.create name) name = some ((b name).getD []) := update_self ..

@[simp] theorem post_remove (name : N) : post cap b (.remove name) name = none := update_self ..

@[simp] theorem post_append (name : N) (elems : List B) :
    post cap b (.append name elems) name = (b name).map fun held => (held ++ elems).take cap :=
  update_self ..

/-- A post is about one box. -/
theorem post_ne {p : Post N B} (h : name ≠ p.name) : post cap b p name = b name := by
  cases p <;> exact update_of_ne h ..

/-- A box that none of the posts removes holds what it held and what they append, up to the
cut. -/
theorem held_foldl {posts : List (Post N B)} (hb : b name = some held) (hcap : held.length ≤ cap)
    (hno : ∀ p ∈ posts, ¬ Removes name p) :
    posts.foldl (post cap) b name = some ((held ++ appended name posts).take cap) := by
  induction posts generalizing b held with
  | nil =>
    rw [List.foldl_nil, hb, appended, List.append_nil, List.take_of_length_le hcap]
  | cons p posts ih =>
    have hrest : ∀ p ∈ posts, ¬ Removes name p := fun p hp => hno p (List.mem_cons_of_mem _ hp)
    rw [List.foldl_cons]
    cases p with
    | create made =>
      refine ih ?_ hcap hrest
      by_cases heq : name = made
      · subst heq
        rw [post_create, hb, Option.getD_some]
      · rw [post_ne heq, hb]
    | remove gone =>
      have hne : name ≠ gone := fun heq => hno _ List.mem_cons_self heq.symm
      refine ih ?_ hcap hrest
      rw [post_ne hne, hb]
    | append target elems =>
      by_cases heq : target = name
      · subst heq
        have hpost : post cap b (.append target elems) target = some ((held ++ elems).take cap) := by
          rw [post_append, hb, Option.map_some]
        rw [ih hpost (List.length_take_le _ _) hrest, appended, if_pos rfl, take_append_take,
          List.append_assoc]
      · have hpost : post cap b (.append target elems) name = some held := by
          have hne : name ≠ target := Ne.symm heq
          rw [post_ne hne, hb]
        rw [ih hpost hcap hrest, appended, if_neg heq]

/-- Where boxes are only removed, what is there was there before. -/
theorem of_foldl_removes {posts : List (Post N B)} (h : ∀ p ∈ posts, ∃ gone, p = .remove gone)
    (hb : posts.foldl (post cap) b name = some held) : b name = some held := by
  induction posts generalizing b with
  | nil => exact hb
  | cons p posts ih =>
    obtain ⟨gone, rfl⟩ := h p List.mem_cons_self
    have hpost := ih (fun p hp => h p (List.mem_cons_of_mem _ hp)) hb
    by_cases heq : name = gone
    · subst heq
      rw [post_remove] at hpost
      cases hpost
    · exact (post_ne heq).symm.trans hpost

end Board

end MBroker.Lib
