import MBroker.Lib.Monitor
import MBroker.Lib.Refinement

/- Functions that many threads call, each of which does all it does to the memory
   between one lock of a mutex and the unlock after it. The body of a function is
   a tree of locks, unlocks and accesses; `Goes` says that on every path it locks
   before its first access and unlocks after its last, and each point a thread can
   be at carries the proof of it for what is left.

   `runs_serially` is linearizability: whatever the threads' turns, the answers
   are those of the calls made one after the other, each as a whole, in the order
   in which they give the mutex back. Each thread's answers are to its own calls,
   in its order (`calls_answered`), and who holds the mutex can always go on until
   it gives it back or ends the process (`gives_back`). -/
namespace MBroker.Lib
open Function

/-- What a function does from some point on: it returns, ends the process, takes or
gives back a mutex, or accesses the memory once. -/
inductive Proc (L M E R : Type)
  | ret (r : R)
  | abort (e : E)
  | lock (l : L) (next : Proc L M E R)
  | unlock (l : L) (next : Proc L M E R)
  /-- `next` gets the memory as it was before the access. -/
  | access (run : M → M) (next : M → Proc L M E R)

/-- Where a function is with respect to its mutex. -/
inductive Phase
  | before
  | within
  | after
  deriving DecidableEq, Repr

namespace Proc

variable {L M E R R' : Type}

def bind : Proc L M E R → (R → Proc L M E R') → Proc L M E R'
  | ret r, f => f r
  | abort e, _ => abort e
  | lock l p, f => lock l (p.bind f)
  | unlock l p, f => unlock l (p.bind f)
  | access run next, f => access run fun m => (next m).bind f

instance : Monad (Proc L M E) where
  pure := ret
  bind := bind

/-- One access that may end the process. -/
def perform (f : M → Except E (R × M)) : Proc L M E R :=
  access
    (fun m =>
      match f m with
      | .ok (_, m') => m'
      | .error _ => m)
    fun m =>
      match f m with
      | .ok (r, _) => ret r
      | .error e => abort e

/-- One access that reads, and may end the process. -/
def check (f : M → Except E R) : Proc L M E R := perform fun m => (f m).map fun r => (r, m)

/-- One access that writes, and may end the process. -/
def update (f : M → Except E M) : Proc L M E Unit := perform fun m => (f m).map fun m' => ((), m')

/-- One access that only reads. -/
def look (f : M → R) : Proc L M E R := access id fun m => ret (f m)

/-- One access that only writes. -/
def store (f : M → M) : Proc L M E Unit := access f fun _ => ret ()

/-- The whole of it, with the memory to itself. -/
def run : Proc L M E R → M → Except E (R × M)
  | ret r, m => .ok (r, m)
  | abort e, _ => .error e
  | lock _ p, m => p.run m
  | unlock _ p, m => p.run m
  | access f next, m => (next m).run (f m)

/-- On every path, the function goes from the first phase to the second, with one
lock at most and one unlock, and accesses the memory in between only. -/
def Goes (l : L) : Phase → Proc L M E R → Phase → Prop
  | φ, ret _, ψ => φ = ψ
  | φ, abort _, _ => φ = .within
  | φ, lock k p, ψ => φ = .before ∧ k = l ∧ p.Goes l .within ψ
  | φ, unlock k p, ψ => φ = .within ∧ k = l ∧ p.Goes l .after ψ
  | φ, access _ next, ψ => φ = .within ∧ ∀ m, (next m).Goes l .within ψ

variable {l : L} {φ χ ψ : Phase}

/-! ## Its meaning, and what it keeps -/

@[simp] theorem run_pure (r : R) (m : M) : (pure r : Proc L M E R).run m = pure (r, m) := rfl

@[simp] theorem run_bind (p : Proc L M E R) (f : R → Proc L M E R') (m : M) :
    (p >>= f).run m = p.run m >>= fun x => (f x.1).run x.2 := by
  show (p.bind f).run m = _
  induction p generalizing m with
  | ret r => rfl
  | abort e => rfl
  | lock k p ih => exact ih m
  | unlock k p ih => exact ih m
  | access g next ih => exact ih m (g m)

@[simp] theorem run_perform (f : M → Except E (R × M)) (m : M) :
    (perform f : Proc L M E R).run m = f m := by
  simp only [perform, run]
  cases f m with
  | error e => rfl
  | ok x => rfl

@[simp] theorem run_check (f : M → Except E R) (m : M) :
    (check f : Proc L M E R).run m = f m >>= fun r => pure (r, m) := by
  rw [check, run_perform]
  cases f m <;> rfl

@[simp] theorem run_update (f : M → Except E M) (m : M) :
    (update f : Proc L M E Unit).run m = f m >>= fun m' => pure ((), m') := by
  rw [update, run_perform]
  cases f m <;> rfl

@[simp] theorem run_look (f : M → R) (m : M) :
    (look f : Proc L M E R).run m = pure (f m, m) := rfl

@[simp] theorem run_store (f : M → M) (m : M) :
    (store f : Proc L M E Unit).run m = pure ((), f m) := rfl

@[simp] theorem run_lock (p : Proc L M E R) (k : L) (m : M) : (lock k p).run m = p.run m := rfl

@[simp] theorem run_unlock (p : Proc L M E R) (k : L) (m : M) : (unlock k p).run m = p.run m := rfl

theorem Goes.bind {p : Proc L M E R} {f : R → Proc L M E R'} (hp : p.Goes l φ χ)
    (hf : ∀ r, (f r).Goes l χ ψ) : (p >>= f).Goes l φ ψ := by
  show (p.bind f).Goes l φ ψ
  induction p generalizing φ with
  | ret r =>
    cases hp
    exact hf r
  | abort e => exact hp
  | lock k p ih => exact ⟨hp.1, hp.2.1, ih hp.2.2⟩
  | unlock k p ih => exact ⟨hp.1, hp.2.1, ih hp.2.2⟩
  | access g next ih => exact ⟨hp.1, fun m => ih m (hp.2 m)⟩

theorem goes_perform (f : M → Except E (R × M)) :
    (perform f : Proc L M E R).Goes l .within .within := by
  refine ⟨rfl, fun m => ?_⟩
  dsimp only
  split <;> rfl

theorem goes_check (f : M → Except E R) : (check f : Proc L M E R).Goes l .within .within :=
  goes_perform _

theorem goes_update (f : M → Except E M) : (update f : Proc L M E Unit).Goes l .within .within :=
  goes_perform _

theorem goes_look (f : M → R) : (look f : Proc L M E R).Goes l .within .within :=
  ⟨rfl, fun _ => rfl⟩

theorem goes_store (f : M → M) : (store f : Proc L M E Unit).Goes l .within .within :=
  ⟨rfl, fun _ => rfl⟩

/-- After the unlock there is nothing left but to return. -/
def result : (p : Proc L M E R) → p.Goes l .after .after → R
  | ret r, _ => r
  | abort _, h => nomatch h
  | lock .., h => nomatch h.1
  | unlock .., h => nomatch h.1
  | access .., h => nomatch h.1

theorem run_result {p : Proc L M E R} (h : p.Goes l .after .after) (m : M) :
    p.run m = .ok (result p h, m) := by
  cases p with
  | ret r => rfl
  | abort e => cases h
  | lock k p => cases h.1
  | unlock k p => cases h.1
  | access f next => cases h.1

end Proc

variable {A L M E R : Type}

/-- Functions that many threads call, with one mutex around each of them. -/
structure Critical (A L M E R : Type) where
  body : A → Proc L M E R
  mutex : L
  goes : ∀ a, (body a).Goes mutex .before .after

namespace Critical

/-- Where a thread is: it has called nothing yet, it begins a call, it has the mutex
in one and `left` to do, or it has the answer to one. -/
inductive Point (K : Critical A L M E R)
  | outside
  | entering (a : A)
  | inside (a : A) (left : Proc L M E R) (goes : left.Goes K.mutex .within .after)
  | answered (a : A) (r : R)

variable {K : Critical A L M E R}

/-- The first thing a call does. -/
def enter (a : A) : (p : Proc L M E R) → p.Goes K.mutex .before .after → Instr L Empty M K.Point
  | .lock k p, h => .lock k (.inside a p h.2.2)
  | .ret _, h => nomatch h
  | .abort _, h => nomatch h
  | .unlock .., h => nomatch h.1
  | .access .., h => nomatch h.1

/-- What a call that has the mutex does next. -/
def proceed (a : A) : (p : Proc L M E R) → p.Goes K.mutex .within .after → Instr L Empty M K.Point
  | .access f next, h => .access fun m => (f m, .inside a (next m) (h.2 m))
  | .unlock k p, h => .unlock k (.answered a (p.result h.2.2))
  -- a process that was ended goes no further
  | .abort e, h => .access fun m => (m, .inside a (.abort e) h)
  | .ret _, h => nomatch h
  | .lock .., h => nomatch h.1

/-- The threads' program. -/
def program (K : Critical A L M E R) : Program L Empty M K.Point where
  entry
    | .entering _ => true
    | _ => false
  instr
    | .outside | .answered .. => .idle
    | .entering a => enter a (K.body a) (K.goes a)
    | .inside a p h => proceed a p h

/-- A thread holds the mutex between its lock and its unlock. -/
def Point.holds : K.Point → L → Prop
  | .inside .., k => k = K.mutex
  | _, _ => False

/-- The call under way at a point. -/
def Point.under : K.Point → Option A
  | .entering a | .inside a _ _ => some a
  | .outside | .answered .. => none

/-- No thread has called anything, and the memory is `m`. -/
def start {T : Type} (K : Critical A L M E R) (m : M) : Machine T L Empty M K.Point where
  memory := m
  owner := fun _ => none
  status := fun _ => .running .outside

/-! ## What a thread does at each point -/

theorem enter_eq (a : A) {p : Proc L M E R} (h : p.Goes K.mutex .before .after) :
    ∃ p' h', enter a p h = .lock K.mutex (.inside a p' h') ∧ ∀ m, p'.run m = p.run m := by
  cases p with
  | lock k p =>
    obtain ⟨-, rfl, h'⟩ := h
    exact ⟨p, h', rfl, fun _ => rfl⟩
  | ret r => cases h
  | abort e => cases h
  | unlock k p => cases h.1
  | access f next => cases h.1

/-- A call that has the mutex gives it back with the answer, or goes on within; what
it comes to stays what it was. -/
theorem proceed_cases (a : A) {p : Proc L M E R} (h : p.Goes K.mutex .within .after) :
    (∃ r, proceed a p h = .unlock K.mutex (.answered a r) ∧ ∀ m, p.run m = .ok (r, m)) ∨
      ∃ f, proceed a p h = .access f ∧
        ∀ m, ∃ p' h', (f m).2 = .inside a p' h' ∧ p'.run (f m).1 = p.run m := by
  cases p with
  | unlock k p =>
    obtain ⟨-, rfl, h'⟩ := h
    exact .inl ⟨p.result h', rfl, fun m => p.run_result h' m⟩
  | access g next => exact .inr ⟨_, rfl, fun m => ⟨next m, h.2 m, rfl, rfl⟩⟩
  | abort e => exact .inr ⟨_, rfl, fun m => ⟨.abort e, h, rfl, rfl⟩⟩
  | ret r => cases h
  | lock k p => cases h.1

/-- What the program has at each point. -/
theorem program_cases (q : K.Point) :
    (K.program.instr q = .idle ∧ q.under = none ∧ ∀ k, ¬ q.holds k) ∨
    (∃ a p h, q = .entering a ∧ K.program.instr q = .lock K.mutex (.inside a p h) ∧
      ∀ m, p.run m = (K.body a).run m) ∨
    ∃ a p h, q = .inside a p h ∧ K.program.instr q = proceed a p h := by
  cases q with
  | outside => exact .inl ⟨rfl, rfl, fun _ => id⟩
  | answered a r => exact .inl ⟨rfl, rfl, fun _ => id⟩
  | entering a =>
    obtain ⟨p, h, hi, hp⟩ := enter_eq a (K.goes a)
    exact .inr (.inl ⟨a, p, h, rfl, hi, hp⟩)
  | inside a p h => exact .inr (.inr ⟨a, p, h, rfl, rfl⟩)

theorem instr_lock {q q' : K.Point} {k : L} (hi : K.program.instr q = .lock k q') :
    k = K.mutex ∧ ∃ a p h, q = .entering a ∧ q' = .inside a p h ∧
      ∀ m, p.run m = (K.body a).run m := by
  rcases program_cases q with ⟨h, -⟩ | ⟨a, p, h, hq, hins, hp⟩ | ⟨a, p, h, hq, hins⟩
  · rw [h] at hi
    cases hi
  · rw [hins] at hi
    cases hi
    exact ⟨rfl, a, p, h, hq, rfl, hp⟩
  · rw [hins] at hi
    rcases proceed_cases a h with ⟨r, hr, -⟩ | ⟨f, hf, -⟩
    · rw [hr] at hi
      cases hi
    · rw [hf] at hi
      cases hi

theorem instr_unlock {q q' : K.Point} {k : L} (hi : K.program.instr q = .unlock k q') :
    k = K.mutex ∧ ∃ a p h r, q = .inside a p h ∧ q' = .answered a r ∧
      ∀ m, p.run m = .ok (r, m) := by
  rcases program_cases q with ⟨h, -⟩ | ⟨a, p, h, hq, hins, hp⟩ | ⟨a, p, h, hq, hins⟩
  · rw [h] at hi
    cases hi
  · rw [hins] at hi
    cases hi
  · rw [hins] at hi
    rcases proceed_cases a h with ⟨r, hr, hrun⟩ | ⟨f, hf, -⟩
    · rw [hr] at hi
      cases hi
      exact ⟨rfl, a, p, h, r, hq, rfl, hrun⟩
    · rw [hf] at hi
      cases hi

theorem instr_access {q : K.Point} {f : M → M × K.Point} (hi : K.program.instr q = .access f) :
    ∃ a p h, q = .inside a p h ∧
      ∀ m, ∃ p' h', (f m).2 = .inside a p' h' ∧ p'.run (f m).1 = p.run m := by
  rcases program_cases q with ⟨h, -⟩ | ⟨a, p, h, hq, hins, hp⟩ | ⟨a, p, h, hq, hins⟩
  · rw [h] at hi
    cases hi
  · rw [hins] at hi
    cases hi
  · rw [hins] at hi
    rcases proceed_cases a h with ⟨r, hr, hrun⟩ | ⟨g, hg, hnext⟩
    · rw [hr] at hi
      cases hi
    · rw [hg] at hi
      cases hi
      exact ⟨a, p, h, hq, hnext⟩

theorem instr_idle {q : K.Point} (hi : K.program.instr q = .idle) :
    q.under = none ∧ ∀ k, ¬ q.holds k := by
  rcases program_cases q with ⟨-, h⟩ | ⟨a, p, h, hq, hins, hp⟩ | ⟨a, p, h, hq, hins⟩
  · exact h
  · rw [hins] at hi
    cases hi
  · rw [hins] at hi
    rcases proceed_cases a h with ⟨r, hr, -⟩ | ⟨f, hf, -⟩
    · rw [hr] at hi
      cases hi
    · rw [hf] at hi
      cases hi

theorem holding (K : Critical A L M E R) : Holding K.program Point.holds where
  idle {q} hi := (instr_idle hi).2
  entry {q} he k := by
    cases q with
    | entering a => exact id
    | _ => cases he
  lock {q k q'} hi k' := by
    obtain ⟨rfl, a, p, h, rfl, rfl, -⟩ := instr_lock hi
    simp [Point.holds]
  unlock {q k q'} hi := by
    obtain ⟨rfl, a, p, h, r, rfl, rfl, -⟩ := instr_unlock hi
    simp [Point.holds]
  wait {q c k q'} hi := c.elim
  signal {q c q'} hi := c.elim
  access {q f} hi m k := by
    obtain ⟨a, p, h, rfl, hnext⟩ := instr_access hi
    obtain ⟨p', h', hp', -⟩ := hnext m
    simp [hp', Point.holds]

/-! ## Calls and answers -/

variable {T : Type}

/-- The call a turn begins. -/
def callOf : Turn T K.Point → Option (T × A)
  | .call t (.entering a) => some (t, a)
  | _ => none

/-- The answer a turn gives, in the state it leads to. -/
def answerOf (x : Turn T K.Point) (s : Machine T L Empty M K.Point) : Option (T × A × R) :=
  match x with
  | .run t _ =>
    match s.status t with
    | .running (.answered a r) => some (t, a, r)
    | _ => none
  | _ => none

/-- The calls made in a run, and the answers given in it. -/
def calls (ρ : List (Turn T K.Point × Machine T L Empty M K.Point)) : List (T × A) :=
  ρ.filterMap fun x => callOf x.1

def answers (ρ : List (Turn T K.Point × Machine T L Empty M K.Point)) : List (T × A × R) :=
  ρ.filterMap fun x => answerOf x.1 x.2

/-- The call that thread `t` is in and has no answer to. -/
def pending (s : Machine T L Empty M K.Point) (t : T) : Option A := (s.status t).point.under

/-- A call as a whole. -/
def whole (K : Critical A L M E R) (m : M) (a : A) : Except E (R × M) := (K.body a).run m

/-- `m` is where whole calls have led to: it is the memory while the mutex is free,
and while a thread has the mutex, what is left of its call comes to what the whole
call comes to in `m`. -/
structure Explained (m : M) (s : Machine T L Empty M K.Point) : Prop where
  owned : Owned K.program Point.holds s
  free : s.owner K.mutex = none → s.memory = m
  held : ∀ t, s.owner K.mutex = some t → ∃ a p h,
    s.status t = .running (.inside a p h) ∧ p.run s.memory = K.whole m a

variable [DecidableEq T] [DecidableEq L] {m : M} {s s' : Machine T L Empty M K.Point}
  {x : Turn T K.Point}

omit [DecidableEq T] [DecidableEq L] in
theorem Explained.start (m : M) : Explained (T := T) m (K.start m) where
  owned := ⟨fun k t => by simp [Critical.start, Status.Holds, Point.holds], fun t => trivial⟩
  free _ := rfl
  held t h := by cases h

/-- A turn of a thread that gives no answer leaves the whole calls as they were; a
turn that gives one makes its call the last of them. -/
theorem Explained.move (hE : Explained m s) (hm : Move K.program s x s') :
    (answerOf x s' = none ∧ Explained m s') ∨
      ∃ t a r m₁, answerOf x s' = some (t, a, r) ∧ K.whole m a = .ok (r, m₁) ∧
        Explained m₁ s' := by
  have howned := hE.owned.move (holding K) hm
  cases hm with
  | @call t q' q hs hi he =>
    refine .inl ⟨rfl, howned, hE.free, fun u hu => ?_⟩
    obtain ⟨a, p, h, hp, hrun⟩ := hE.held u hu
    have hut : u ≠ t := by
      rintro rfl
      rw [hs] at hp
      cases hp
      exact (instr_idle hi).2 K.mutex rfl
    exact ⟨a, p, h, by simpa [Machine.goto, hut] using hp, hrun⟩
  | @lock t w q q' l hs hi hf =>
    obtain ⟨rfl, a, p, h, rfl, rfl, hrun⟩ := instr_lock hi
    refine .inl ⟨by simp [answerOf, Machine.take], howned, fun hn => ?_, fun u hu => ?_⟩
    · simp [Machine.take] at hn
    · have hut : t = u := by simpa [Machine.take] using hu
      subst hut
      exact ⟨a, p, h, by simp [Machine.take], by rw [← hE.free hf]; exact hrun _⟩
  | @unlock t w q q' l hs hi =>
    obtain ⟨rfl, a, p, h, r, rfl, rfl, hret⟩ := instr_unlock hi
    obtain ⟨a', p', h', hs', hrun⟩ := hE.held t (hE.owned.ownerAt hs rfl)
    rw [hs] at hs'
    cases hs'
    refine .inr ⟨t, a, r, s.memory, by simp [answerOf, Machine.drop], ?_, howned, fun _ => rfl,
      fun u hu => ?_⟩
    · rw [← hrun, hret]
    · simp [Machine.drop] at hu
  | @access t w q f hs hi =>
    obtain ⟨a, p, h, rfl, hnext⟩ := instr_access hi
    have howner := hE.owned.ownerAt (k := K.mutex) hs rfl
    obtain ⟨a', p', h', hs', hrun⟩ := hE.held t howner
    rw [hs] at hs'
    cases hs'
    obtain ⟨p₁, h₁, hp₁, hrun₁⟩ := hnext s.memory
    refine .inl ⟨by simp [answerOf, Machine.touch, hp₁], howned, fun hn => ?_, fun u hu => ?_⟩
    · rw [show (s.touch t f).owner = s.owner from rfl, howner] at hn
      cases hn
    · have hut : t = u := by
        rw [show (s.touch t f).owner = s.owner from rfl, howner] at hu
        exact Option.some.inj hu
      subst hut
      exact ⟨a, p₁, h₁, by simp [Machine.touch, hp₁], by rw [← hrun]; exact hrun₁⟩
  | @relock t w c => exact c.elim
  | @wait t w q q' c => exact c.elim
  | @signal t w q q' c => exact c.elim
  | @spurious t c => exact c.elim

omit [DecidableEq T] [DecidableEq L] in
theorem calls_cons (ρ : List (Turn T K.Point × Machine T L Empty M K.Point)) :
    calls ((x, s) :: ρ) = (callOf x).toList ++ calls ρ := by
  unfold calls
  cases h : callOf x <;> simp [h]

omit [DecidableEq T] [DecidableEq L] in
theorem answers_cons (ρ : List (Turn T K.Point × Machine T L Empty M K.Point)) :
    answers ((x, s) :: ρ) = (answerOf x s).toList ++ answers ρ := by
  unfold answers
  cases h : answerOf x s <;> simp [h]

omit [DecidableEq L] in
/-- A turn after which the turn's thread is at `q'`. -/
theorem pending_update {t u : T} {q r : K.Point} {m : Machine T L Empty M K.Point} (hs : s.status u = .running q)
    (hm : m.status = update s.status u (.running r)) :
    pending s u = q.under ∧ pending m u = r.under ∧ (t ≠ u → pending m t = pending s t) := by
  refine ⟨by simp [pending, hs, Status.point], by simp [pending, hm, Status.point], fun htu => ?_⟩
  simp [pending, hm, htu]

/-- What thread `t` was asked and has not answered, before a turn and after it: the
turn makes a call, or answers the one under way, or leaves what is under way. -/
theorem pending_move (hm : Move K.program s x s') (t : T) :
    (pending s t).toList ++ ((callOf x).toList.filter fun y => y.1 = t).map Prod.snd =
      ((answerOf x s').toList.filter fun y => y.1 = t).map (fun y => y.2.1) ++
        (pending s' t).toList := by
  cases hm with
  | @call u q' q hs hi he =>
    obtain ⟨hbefore, hafter, hother⟩ := pending_update (t := t) (m := s.goto u (.running q')) hs rfl
    have hnone := (instr_idle hi).1
    cases q' with
    | entering a =>
      by_cases htu : t = u
      · subst htu
        rw [hbefore, hnone, hafter]
        simp [callOf, answerOf, Point.under]
      · rw [hother htu]
        simp [callOf, answerOf, Ne.symm htu]
    | _ => cases he
  | @lock u w q q' l hs hi hf =>
    obtain ⟨rfl, a, p, h, rfl, rfl, -⟩ := instr_lock hi
    obtain ⟨hbefore, hafter, hother⟩ := pending_update (t := t)
      (m := s.take u K.mutex (.inside a p h)) hs rfl
    have hans : answerOf (.run u w) (s.take u K.mutex (.inside a p h)) = none := by
      simp [answerOf, Machine.take]
    by_cases htu : t = u
    · subst htu
      simp [hbefore, hafter, hans, callOf, Point.under]
    · simp [hother htu, hans, callOf]
  | @unlock u w q q' l hs hi =>
    obtain ⟨rfl, a, p, h, r, rfl, rfl, -⟩ := instr_unlock hi
    obtain ⟨hbefore, hafter, hother⟩ := pending_update (t := t)
      (m := s.drop u K.mutex (.running (.answered a r))) hs rfl
    have hans : answerOf (.run u w) (s.drop u K.mutex (.running (.answered a r))) =
        some (u, a, r) := by
      simp [answerOf, Machine.drop]
    by_cases htu : t = u
    · subst htu
      simp [hbefore, hafter, hans, callOf, Point.under]
    · simp [hother htu, hans, callOf, Ne.symm htu]
  | @access u w q f hs hi =>
    obtain ⟨a, p, h, rfl, hnext⟩ := instr_access hi
    obtain ⟨p', h', hp', -⟩ := hnext s.memory
    obtain ⟨hbefore, hafter, hother⟩ := pending_update (t := t) (r := .inside a p' h')
      (m := s.touch u f) hs (by simp [Machine.touch, hp'])
    have hans : answerOf (.run u w) (s.touch u f) = none := by
      simp [answerOf, Machine.touch, hp']
    by_cases htu : t = u
    · subst htu
      simp [hbefore, hafter, hans, callOf, Point.under]
    · simp [hother htu, hans, callOf]
  | @relock t w c => exact c.elim
  | @wait t w q q' c => exact c.elim
  | @signal t w q q' c => exact c.elim
  | @spurious t c => exact c.elim

variable [Fintype T]

/-- Each thread is answered what it asks, in its order, and nothing else: what it was
asked at the start and in the run is what it has answered and what it is still in. -/
theorem calls_answered {ρ : List (Turn T K.Point × Machine T L Empty M K.Point)}
    (hr : Run (Turns K.program) s ρ) (t : T) :
    (pending s t).toList ++ ((calls ρ).filter fun y => y.1 = t).map Prod.snd =
      ((answers ρ).filter fun y => y.1 = t).map (fun y => y.2.1) ++
        (pending (lastState s ρ) t).toList := by
  induction ρ generalizing s with
  | nil => simp [calls, answers, lastState]
  | cons y ρ ih =>
    obtain ⟨x, s₁⟩ := y
    have hmove := pending_move hr.1.move t
    rw [calls_cons, answers_cons, List.filter_append, List.filter_append, List.map_append,
      List.map_append, ← List.append_assoc, hmove, List.append_assoc, ih hr.2, List.append_assoc]
    rfl

/-- Linearizability: the answers of a run are those of the calls made one after the
other, each as a whole. -/
theorem Explained.run (hE : Explained m s) {ρ : List (Turn T K.Point × Machine T L Empty M K.Point)}
    (hr : Run (Turns K.program) s ρ) :
    ∃ m', execAll K.whole m ((answers ρ).map fun y => y.2.1) =
        .ok ((answers ρ).map fun y => y.2.2, m') ∧ Explained m' (lastState s ρ) := by
  induction ρ generalizing m s with
  | nil => exact ⟨m, rfl, hE⟩
  | cons y ρ ih =>
    obtain ⟨x, s₁⟩ := y
    obtain ⟨hstep, hρ⟩ := hr
    rw [answers_cons]
    rcases hE.move hstep.move with ⟨hans, hE₁⟩ | ⟨t, a, r, m₁, hans, hrun, hE₁⟩
    · rw [hans]
      exact ih hE₁ hρ
    · obtain ⟨m', hexec, hlast⟩ := ih hE₁ hρ
      refine ⟨m', ?_, hlast⟩
      simp only [hans, Option.toList_some, List.cons_append, List.nil_append, List.map_cons,
        execAll, hrun, hexec, bind, Except.bind]
      rfl

/-- Who has the mutex comes to its answer, or to the end of the process, by turns of
its own. -/
theorem gives_back {t : T} {a : A} {p : Proc L M E R} {h : p.Goes K.mutex .within .after}
    (hs : s.status t = .running (.inside a p h)) (w : T → Bool) :
    ∃ ρ, Run (Turns K.program) s ρ ∧ (∀ y ∈ ρ, y.1 = .run t w) ∧
      ((∃ r, (lastState s ρ).status t = .running (.answered a r)) ∨
        ∃ e h', (lastState s ρ).status t = .running (.inside a (.abort e) h')) := by
  induction p generalizing s with
  | ret r => cases h
  | lock k p ih => cases h.1
  | abort e => exact ⟨[], trivial, by simp, .inr ⟨e, h, hs⟩⟩
  | unlock k p ih =>
    have hturn : turn K.program s (.run t w) =
        some (s.drop t k (.running (.answered a (p.result h.2.2)))) := by
      simp [turn, hs, program, proceed]
    refine ⟨[(.run t w, _)], ⟨hturn, trivial⟩, by simp, .inl ⟨p.result h.2.2, ?_⟩⟩
    simp [lastState, Machine.drop]
  | access f next ih =>
    have hturn : turn K.program s (.run t w) =
        some (s.touch t fun m => (f m, .inside a (next m) (h.2 m))) := by
      simp [turn, hs, program, proceed]
    obtain ⟨ρ, hrun, hown, hlast⟩ := ih s.memory (h := h.2 s.memory)
      (s := s.touch t fun m => (f m, .inside a (next m) (h.2 m))) (by simp [Machine.touch])
    exact ⟨(.run t w, _) :: ρ, ⟨hturn, hrun⟩, by simpa using hown, hlast⟩

omit [Fintype T] in
/-- A thread's turn is no other thread's. -/
theorem status_of_ne {t u : T} {w : T → Bool} (hm : Move K.program s (.run u w) s')
    (htu : t ≠ u) : s'.status t = s.status t := by
  cases hm with
  | lock | relock | unlock | access => exact update_of_ne htu _ _
  | @wait u w q q' c => exact c.elim
  | @signal u w q q' c => exact c.elim

/-- What the turns of one thread leave. -/
theorem turns_of_one (h : Owned K.program Point.holds s) {u : T} {w : T → Bool}
    {ρ : List (Turn T K.Point × Machine T L Empty M K.Point)} (hr : Run (Turns K.program) s ρ)
    (hu : ∀ y ∈ ρ, y.1 = .run u w) :
    Owned K.program Point.holds (lastState s ρ) ∧
      ∀ t, t ≠ u → (lastState s ρ).status t = s.status t := by
  induction ρ generalizing s with
  | nil => exact ⟨h, fun _ _ => rfl⟩
  | cons y ρ ih =>
    obtain ⟨x, s₁⟩ := y
    obtain rfl : x = .run u w := hu (x, s₁) (by simp)
    have hm := Turns.move hr.1
    obtain ⟨howned, hstatus⟩ := ih (h.move (holding K) hm) hr.2 fun y hy => hu y (by simp [hy])
    exact ⟨howned, fun t htu => (hstatus t htu).trans (status_of_ne hm htu)⟩

/-- A call has ended the process. -/
def Ended (s : Machine T L Empty M K.Point) : Prop :=
  ∃ u a e h, s.status u = .running (.inside a (.abort e) h)

omit [DecidableEq T] [DecidableEq L] [Fintype T] in
theorem inside_of_holds {y : Status L Empty K.Point} {k : L} (h : y.Holds Point.holds k) :
    ∃ a p h', y = .running (.inside a p h') := by
  cases y with
  | asleep c => exact c.elim
  | woken c => exact c.elim
  | running q =>
    cases q with
    | inside a p h' => exact ⟨a, p, h', rfl⟩
    | _ => exact h.elim

/-- A call that begins with the mutex free can be answered. -/
theorem enter_answer (hf : s.owner K.mutex = none) {t : T} {a : A}
    (hs : s.status t = .running (.entering a)) :
    ∃ ρ, Run (Turns K.program) s ρ ∧
      ((∃ r, (lastState s ρ).status t = .running (.answered a r)) ∨ Ended (lastState s ρ)) := by
  obtain ⟨p, h, hi, -⟩ := enter_eq a (K.goes a)
  have hturn : turn K.program s (.run t fun _ => false) =
      some (s.take t K.mutex (.inside a p h)) := by
    simp [turn, hs, program, hi, hf]
  have hat : (s.take t K.mutex (.inside a p h)).status t = .running (.inside a p h) := by
    simp [Machine.take]
  obtain ⟨ρ, hrun, -, hlast⟩ := gives_back hat fun _ => false
  refine ⟨(.run t fun _ => false, _) :: ρ, ⟨hturn, hrun⟩, ?_⟩
  rcases hlast with hans | ⟨e, h', he⟩
  · exact .inl hans
  · exact .inr ⟨t, a, e, h', he⟩

/-- No deadlock: wherever the threads are, a call under way can be answered, unless a
call ends the process. -/
theorem can_answer (h : Owned K.program Point.holds s) {t : T} {a : A}
    (ht : pending s t = some a) :
    ∃ ρ, Run (Turns K.program) s ρ ∧
      ((∃ r, (lastState s ρ).status t = .running (.answered a r)) ∨ Ended (lastState s ρ)) := by
  cases hs : s.status t with
  | asleep c => exact c.elim
  | woken c => exact c.elim
  | running q =>
    rw [pending, hs] at ht
    cases q with
    | outside => cases ht
    | answered a' r => cases ht
    | inside a' p h' =>
      cases ht
      obtain ⟨ρ, hrun, -, hlast⟩ := gives_back hs fun _ => false
      rcases hlast with hans | ⟨e, h', he⟩
      · exact ⟨ρ, hrun, .inl hans⟩
      · exact ⟨ρ, hrun, .inr ⟨t, a, e, h', he⟩⟩
    | entering a' =>
      cases ht
      cases ho : s.owner K.mutex with
      | none => exact enter_answer ho hs
      | some u =>
        -- whoever has the mutex first comes to its own answer
        have hu := (h.owner K.mutex u).mp ho
        obtain ⟨b, p, h', hsu⟩ := inside_of_holds hu
        have htu : t ≠ u := by
          rintro rfl
          rw [hs] at hsu
          cases hsu
        obtain ⟨ρ, hrun, hown, hlast⟩ := gives_back hsu fun _ => false
        obtain ⟨howned, hstatus⟩ := turns_of_one h hrun hown
        rcases hlast with ⟨r, hr⟩ | ⟨e, h'', he⟩
        · have hfree : (lastState s ρ).owner K.mutex = none := by
            rw [Option.eq_none_iff_forall_ne_some]
            intro v hv
            have hheld := (howned.owner K.mutex v).mp hv
            by_cases hvu : v = u
            · rw [hvu, hr] at hheld
              exact hheld
            · rw [hstatus v hvu, ← h.owner, ho] at hheld
              exact hvu (Option.some.inj hheld).symm
          obtain ⟨σ, hσ, hend⟩ := enter_answer hfree ((hstatus t htu).trans hs)
          refine ⟨ρ ++ σ, hrun.append hσ, ?_⟩
          rwa [lastState_append]
        · exact ⟨ρ, hrun, .inr ⟨u, b, e, h'', he⟩⟩

end Critical
end MBroker.Lib
