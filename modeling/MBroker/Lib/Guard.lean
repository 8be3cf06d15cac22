import MBroker.Lib.Monitor

/- Two invariant rules for threads under mutexes and condition variables. A lock
   that is held at every access guards the memory: what holds of the memory is
   told by the point its holder is at (`Guarding.move`). And where every signal of
   a condition variable is sent under the lock its sleepers wait with, no wake-up
   is lost: while a thread sleeps, there is no more to do than there are woken
   threads, but for what the lock's holder is about to do (`Waking.move`). -/
namespace MBroker.Lib
open Function

variable {T L C M P : Type}

/-- A step by which the holder of `g` neither gives it back nor accesses the memory. -/
inductive Silent (prog : Program L C M P) (g : L) : P → P → Prop
  | lock {p q : P} {l : L} (hi : prog.instr p = .lock l q) (hl : l ≠ g) : Silent prog g p q
  | unlock {p q : P} {l : L} (hi : prog.instr p = .unlock l q) (hl : l ≠ g) : Silent prog g p q
  | wait {p q : P} {c : C} {l : L} (hi : prog.instr p = .wait c l q) (hl : l ≠ g) :
      Silent prog g p q
  | signal {p q : P} {c : C} (hi : prog.instr p = .signal c q) : Silent prog g p q

/-! ## What a lock guards -/

/-- The lock `g` guards the memory: `free` holds of it while `g` is free, and
`inside p` while the holder of `g` is at `p`. -/
structure Guarding (prog : Program L C M P) (holds : P → L → Prop) (g : L) (free : M → Prop)
    (inside : P → M → Prop) : Prop where
  lock : ∀ {p q m}, prog.instr p = .lock g q → free m → inside q m
  relock : ∀ {p c q m}, prog.instr p = .wait c g q → free m → inside q m
  unlock : ∀ {p q m}, prog.instr p = .unlock g q → inside p m → free m
  wait : ∀ {p c q m}, prog.instr p = .wait c g q → inside p m → free m
  silent : ∀ {p q m}, Silent prog g p q → holds p g → inside p m → inside q m
  access : ∀ {p run m}, prog.instr p = .access run →
    holds p g ∧ (inside p m → inside (run m).2 (run m).1)

structure Guarded (g : L) (free : M → Prop) (inside : P → M → Prop) (s : Machine T L C M P) :
    Prop where
  free : s.owner g = none → free s.memory
  inside : ∀ t, s.owner g = some t → inside (s.status t).point s.memory

variable [DecidableEq T] [DecidableEq L] [DecidableEq C]
variable {prog : Program L C M P} {holds : P → L → Prop} {g : L} {free : M → Prop}
  {inside : P → M → Prop} {s s' : Machine T L C M P} {a : Turn T P}

omit [DecidableEq T] [DecidableEq L] [DecidableEq C] in
theorem Guarded.insideAt (h : Guarded g free inside s) {t : T} {p : P}
    (hs : s.status t = .running p) (ho : s.owner g = some t) : inside p s.memory := by
  have hin := h.inside t ho
  rwa [hs] at hin

omit [DecidableEq L] [DecidableEq C] in
/-- A turn that leaves the memory and the owner of `g`. -/
theorem Guarded.keep (h : Guarded g free inside s) {t : T} (hm : s'.memory = s.memory)
    (ho : s'.owner g = s.owner g)
    (hother : ∀ u, u ≠ t → (s'.status u).point = (s.status u).point)
    (ht : s.owner g = some t → inside (s.status t).point s.memory →
      inside (s'.status t).point s.memory) : Guarded g free inside s' := by
  refine ⟨fun hn => ?_, fun u hu => ?_⟩
  · rw [hm]
    exact h.free (by rwa [ho] at hn)
  · rw [ho] at hu
    rw [hm]
    by_cases hut : u = t
    · rw [hut] at hu ⊢
      exact ht hu (h.inside t hu)
    · rw [hother u hut]
      exact h.inside u hu

omit [DecidableEq C] in
theorem Guarded.take (h : Guarded g free inside s) {t : T} {l : L} {q : P} (hf : s.owner l = none)
    (hg : l = g → free s.memory → inside q s.memory)
    (hne : l ≠ g → s.owner g = some t → inside (s.status t).point s.memory → inside q s.memory) :
    Guarded g free inside (s.take t l q) := by
  by_cases hl : l = g
  · subst hl
    refine ⟨fun hn => ?_, fun u hu => ?_⟩
    · simp [Machine.take] at hn
    · obtain rfl : t = u := by simpa [Machine.take] using hu
      simpa [Machine.take, Status.point] using hg rfl (h.free hf)
  · refine h.keep (t := t) rfl ?_ (fun u hu => ?_) fun ho hin => ?_
    · simp [Machine.take, Ne.symm hl]
    · simp [Machine.take, hu]
    · simpa [Machine.take, Status.point] using hne hl ho hin

omit [DecidableEq C] in
theorem Guarded.drop (h : Guarded g free inside s) {t : T} {l : L} {x : Status L C P}
    (hot : s.owner l = some t)
    (hg : l = g → inside (s.status t).point s.memory → free s.memory)
    (hne : l ≠ g → s.owner g = some t → inside (s.status t).point s.memory →
      inside x.point s.memory) : Guarded g free inside (s.drop t l x) := by
  by_cases hl : l = g
  · subst hl
    refine ⟨fun _ => hg rfl (h.inside t hot), fun u hu => ?_⟩
    simp [Machine.drop] at hu
  · refine h.keep (t := t) rfl ?_ (fun u hu => ?_) fun ho hin => ?_
    · simp [Machine.drop, Ne.symm hl]
    · simp [Machine.drop, hu]
    · simpa [Machine.drop] using hne hl ho hin

theorem Guarding.move (hG : Guarding prog holds g free inside) (hH : Holding prog holds)
    (hO : Owned prog holds s) (h : Guarded g free inside s) (hm : Move prog s a s') :
    Guarded g free inside s' := by
  cases hm with
  | @call t p q hs hi he =>
    refine h.keep (t := t) rfl rfl (fun u hu => by simp [Machine.goto, hu]) fun ho _ => ?_
    exact absurd (hO.holdsAt hs ho) (hH.idle hi g)
  | @lock t woken p q l hs hi hf =>
    refine h.take hf (fun hl hfree => ?_) fun hl ho hin => ?_
    · subst hl
      exact hG.lock hi hfree
    · rw [hs] at hin
      exact hG.silent (.lock hi hl) (hO.holdsAt hs ho) hin
  | @relock t woken c l q hs hf =>
    refine h.take hf (fun hl hfree => ?_) fun hl ho hin => ?_
    · subst hl
      obtain ⟨p, hi⟩ : (Status.woken c l q).Placed prog := hs ▸ hO.placed t
      exact hG.relock hi hfree
    · rwa [hs] at hin
  | @unlock t woken p q l hs hi =>
    refine h.drop (hO.ownerAt hs (hH.unlock hi).1) (fun hl hin => ?_) fun hl ho hin => ?_
    · subst hl
      rw [hs] at hin
      exact hG.unlock hi hin
    · rw [hs] at hin
      exact hG.silent (.unlock hi hl) (hO.holdsAt hs ho) hin
  | @wait t woken p q c l hs hi =>
    refine h.drop (hO.ownerAt hs (hH.wait hi).1) (fun hl hin => ?_) fun hl ho hin => ?_
    · subst hl
      rw [hs] at hin
      exact hG.wait hi hin
    · rw [hs] at hin
      exact hG.silent (.wait hi hl) (hO.holdsAt hs ho) hin
  | @signal t woken p q c hs hi hw =>
    refine h.keep (t := t) rfl rfl (fun u hu => by simp [Machine.wake, hu]) fun ho hin => ?_
    rw [hs] at hin
    simpa [Machine.wake, Status.point] using hG.silent (.signal hi) (hO.holdsAt hs ho) hin
  | @access t woken p run hs hi =>
    obtain ⟨hpg, hrun⟩ := hG.access (m := s.memory) hi
    have hot := hO.ownerAt hs hpg
    refine ⟨fun hn => ?_, fun u hu => ?_⟩
    · have hn' : s.owner g = none := hn
      rw [hot] at hn'
      cases hn'
    · have hu' : s.owner g = some u := hu
      rw [hot] at hu'
      cases hu'
      simpa [Machine.touch, Status.point] using hrun (h.insideAt hs hot)
  | @spurious t c l q hs =>
    refine h.keep (t := t) rfl rfl (fun u hu => by simp [Machine.goto, hu]) fun _ hin => ?_
    rw [hs] at hin
    simpa [Machine.goto, Status.point] using hin

/-! ## Wake-ups -/

/-- How many threads were woken from `c` and wait for their lock. -/
def numWoken [Fintype T] (s : Machine T L C M P) (c : C) : Nat :=
  (Finset.univ.filter fun t => (s.status t).WokenFrom c).card

/-- What the holder of `g` is still allowed, 0 while `g` is free. -/
def slackOf (g : L) (slack : P → Nat) (s : Machine T L C M P) : Nat :=
  match s.owner g with
  | some t => slack (s.status t).point
  | none => 0

/-- `need` is how many threads the memory has work for. A thread sleeps on `c` when
there is no work, with the lock `g`, and the work grows under `g` and is signalled
under `g`: `slack p` is how much of it the holder at `p` is still to signal or to
take itself. -/
structure Waking (prog : Program L C M P) (holds : P → L → Prop) (g : L) (inside : P → M → Prop)
    (c : C) (need : M → Nat) (slack : P → Nat) : Prop where
  wait : ∀ {p l q m}, prog.instr p = .wait c l q → l = g ∧ (inside p m → need m = 0)
  relock : ∀ {p q}, prog.instr p = .wait c g q → 1 ≤ slack q
  waitOther : ∀ {p d q}, prog.instr p = .wait d g q → d ≠ c → slack p = 0
  unlock : ∀ {p q}, prog.instr p = .unlock g q → slack p = 0
  silent : ∀ {p q}, Silent prog g p q → prog.instr p ≠ .signal c q → holds p g → slack p ≤ slack q
  signal : ∀ {p q}, prog.instr p = .signal c q → holds p g ∧ slack p ≤ slack q + 1
  access : ∀ {p run m}, prog.instr p = .access run → inside p m →
    need (run m).1 + slack p ≤ need m + slack (run m).2

/-- While a thread sleeps on `c`, there is no more work than there are woken threads. -/
def Served [Fintype T] (g : L) (c : C) (need : M → Nat) (slack : P → Nat)
    (s : Machine T L C M P) : Prop :=
  (∃ u, (s.status u).AsleepOn c) → need s.memory ≤ numWoken s c + slackOf g slack s

section
variable [Fintype T] {c : C} {need : M → Nat} {slack : P → Nat}

omit [DecidableEq T] [DecidableEq L] in
theorem numWoken_le (h : ∀ u, (s.status u).WokenFrom c → (s'.status u).WokenFrom c) :
    numWoken s c ≤ numWoken s' c := by
  apply Finset.card_le_card
  intro u hu
  simp only [Finset.mem_filter, Finset.mem_univ, true_and] at hu ⊢
  exact h u hu

omit [DecidableEq L] in
/-- One thread at most woken no longer. -/
theorem numWoken_le_succ {t : T}
    (h : ∀ u, u ≠ t → (s.status u).WokenFrom c → (s'.status u).WokenFrom c) :
    numWoken s c ≤ numWoken s' c + 1 := by
  calc numWoken s c
      ≤ (insert t (Finset.univ.filter fun u => (s'.status u).WokenFrom c)).card := by
        apply Finset.card_le_card
        intro u hu
        simp only [Finset.mem_filter, Finset.mem_univ, true_and, Finset.mem_insert] at hu ⊢
        exact or_iff_not_imp_left.mpr fun hut => h u hut hu
    _ ≤ numWoken s' c + 1 := Finset.card_insert_le _ _

omit [DecidableEq T] [DecidableEq L] in
/-- One thread at least woken. -/
theorem succ_numWoken_le {u : T} (h : ∀ u, (s.status u).WokenFrom c → (s'.status u).WokenFrom c)
    (hu : ¬ (s.status u).WokenFrom c) (hu' : (s'.status u).WokenFrom c) :
    numWoken s c + 1 ≤ numWoken s' c := by
  refine Finset.card_lt_card (Finset.ssubset_iff_of_subset (fun v hv => ?_) |>.mpr ⟨u, ?_, ?_⟩)
  · simp only [Finset.mem_filter, Finset.mem_univ, true_and] at hv ⊢
    exact h v hv
  · simpa using hu'
  · simpa using hu

omit [Fintype T] [DecidableEq T] [DecidableEq L] [DecidableEq C] in
theorem slackOf_held {t : T} (h : s.owner g = some t) :
    slackOf g slack s = slack (s.status t).point := by
  rw [slackOf, h]

omit [Fintype T] [DecidableEq T] [DecidableEq L] [DecidableEq C] in
theorem slackOf_free (h : s.owner g = none) : slackOf g slack s = 0 := by
  rw [slackOf, h]

omit [Fintype T] [DecidableEq L] [DecidableEq C] in
/-- A turn of `t` that leaves the owner of `g`. -/
theorem slackOf_le {t : T} (ho : s'.owner g = s.owner g)
    (hother : ∀ u, u ≠ t → (s'.status u).point = (s.status u).point)
    (ht : s.owner g = some t → slack (s.status t).point ≤ slack (s'.status t).point) :
    slackOf g slack s ≤ slackOf g slack s' := by
  cases hg : s.owner g with
  | none =>
    rw [slackOf_free hg]
    exact Nat.zero_le _
  | some u =>
    rw [slackOf_held hg, slackOf_held (ho.trans hg)]
    by_cases hu : u = t
    · rw [hu] at hg ⊢
      exact ht hg
    · rw [hother u hu]

omit [Fintype T] [DecidableEq C] in
/-- A thread at `p` takes a lock and goes on at `q`. -/
theorem slackOf_take {t : T} {l : L} {q : P} (hf : s.owner l = none)
    (hne : l ≠ g → s.owner g = some t → slack (s.status t).point ≤ slack q) :
    slackOf g slack s ≤ slackOf g slack (s.take t l q) := by
  by_cases hl : l = g
  · subst hl
    rw [slackOf_free hf]
    exact Nat.zero_le _
  · apply slackOf_le (t := t)
    · simp [Machine.take, Ne.symm hl]
    · intro u hu
      simp [Machine.take, hu]
    · intro ho
      simpa [Machine.take, Status.point] using hne hl ho

omit [Fintype T] [DecidableEq C] in
/-- A thread gives a lock back, which for `g` it does with no slack left. -/
theorem slackOf_drop {t : T} {l : L} {x : Status L C P} (hot : s.owner l = some t)
    (hg : l = g → slack (s.status t).point = 0)
    (hne : l ≠ g → s.owner g = some t → slack (s.status t).point ≤ slack x.point) :
    slackOf g slack s ≤ slackOf g slack (s.drop t l x) := by
  by_cases hl : l = g
  · rw [hl] at hot
    rw [slackOf_held hot, hg hl]
    exact Nat.zero_le _
  · apply slackOf_le (t := t)
    · simp [Machine.drop, Ne.symm hl]
    · intro u hu
      simp [Machine.drop, hu]
    · intro ho
      simpa [Machine.drop] using hne hl ho

omit [DecidableEq T] [DecidableEq L] in
/-- A turn that makes no work and puts no thread to sleep on `c`. -/
theorem Served.keep (h : Served g c need slack s) (hm : s'.memory = s.memory)
    (hasleep : ∀ u, (s'.status u).AsleepOn c → (s.status u).AsleepOn c)
    (hle : (∃ u, (s.status u).AsleepOn c) →
      numWoken s c + slackOf g slack s ≤ numWoken s' c + slackOf g slack s') :
    Served g c need slack s' := by
  intro hc
  obtain ⟨u, hu⟩ := hc
  have hex : ∃ u, (s.status u).AsleepOn c := ⟨u, hasleep u hu⟩
  rw [hm]
  exact Nat.le_trans (h hex) (hle hex)

omit [DecidableEq L] in
/-- A turn that makes no work and leaves all threads but `t`, which it does not put
to sleep on `c`. -/
theorem Served.frame (h : Served g c need slack s) {t : T} (hm : s'.memory = s.memory)
    (hother : ∀ u, u ≠ t → s'.status u = s.status u) (ht : ¬ (s'.status t).AsleepOn c)
    (hw : ¬ (s.status t).WokenFrom c) (hs : slackOf g slack s ≤ slackOf g slack s') :
    Served g c need slack s' := by
  refine h.keep hm (fun u hu => ?_) fun _ => Nat.add_le_add (numWoken_le fun u hu => ?_) hs
  · by_cases hut : u = t
    · exact absurd (hut ▸ hu) ht
    · rwa [hother u hut] at hu
  · by_cases hut : u = t
    · exact absurd (hut ▸ hu) hw
    · rwa [hother u hut]

theorem Waking.relocked (hW : Waking prog holds g inside c need slack) (hO : Owned prog holds s)
    (h : Served g c need slack s) {t : T} {d : C} {l : L} {q : P}
    (hs : s.status t = .woken d l q) (hf : s.owner l = none) :
    Served g c need slack (s.take t l q) := by
  obtain ⟨p, hi⟩ : (Status.woken d l q).Placed prog := hs ▸ hO.placed t
  by_cases hd : d = c
  · -- the thread takes what it was woken for
    subst hd
    obtain ⟨rfl, -⟩ := hW.wait (m := s.memory) hi
    have hone := hW.relock hi
    refine h.keep rfl (fun u hu => ?_) fun _ => ?_
    · by_cases hut : u = t
      · simp [hut, Machine.take, Status.AsleepOn] at hu
      · simpa [Machine.take, hut] using hu
    · have hle : numWoken s d ≤ numWoken (s.take t l q) d + 1 :=
        numWoken_le_succ (t := t) fun u hu hw => by simpa [Machine.take, hu] using hw
      have hfree : slackOf l slack s = 0 := slackOf_free hf
      have hheld : slackOf l slack (s.take t l q) = slack q := by
        rw [slackOf_held (t := t) (by simp [Machine.take])]
        simp [Machine.take, Status.point]
      omega
  · refine h.frame (t := t) rfl (fun u hu => update_of_ne hu ..)
      (by simp [Machine.take, Status.AsleepOn]) (by simp [hs, Status.WokenFrom, hd]) ?_
    apply slackOf_take hf
    intro _ _
    rw [hs]
    exact Nat.le_refl _

theorem Waking.waited (hW : Waking prog holds g inside c need slack) (hH : Holding prog holds)
    (hO : Owned prog holds s) (hgd : Guarded g free inside s) (h : Served g c need slack s) {t : T}
    {d : C} {l : L} {p q : P} (hs : s.status t = .running p) (hi : prog.instr p = .wait d l q) :
    Served g c need slack (s.drop t l (.asleep d l q)) := by
  have hot := hO.ownerAt hs (hH.wait hi).1
  by_cases hd : d = c
  · -- it sleeps because there is no work
    subst hd
    obtain ⟨rfl, hzero⟩ := hW.wait (m := s.memory) hi
    intro _
    exact (hzero (hgd.insideAt hs hot)).trans_le (Nat.zero_le _)
  · refine h.frame (t := t) rfl (fun u hu => update_of_ne hu ..)
      (by simp [Machine.drop, Status.AsleepOn, hd]) (by simp [hs, Status.WokenFrom]) ?_
    apply slackOf_drop hot
    · intro hl
      subst hl
      rw [hs]
      exact hW.waitOther hi hd
    · intro hl ho
      rw [hs]
      show slack p ≤ slack q
      exact hW.silent (.wait hi hl) (by simp [hi]) (hO.holdsAt hs ho)

omit [Fintype T] [DecidableEq L] in
/-- A signal leaves the woken threads woken. -/
theorem wokenFrom_wake {t : T} {d : C} {woken : T → Bool} {p q : P}
    (hs : s.status t = .running p) {u : T} (hu : (s.status u).WokenFrom c) :
    ((s.wake t d woken q).status u).WokenFrom c := by
  have hut : u ≠ t := by
    intro heq
    subst heq
    simp [hs, Status.WokenFrom] at hu
  simp only [Machine.wake, update_of_ne hut]
  rcases Status.signalled_cases d (woken u) (s.status u) with hx | ⟨l, r, hx, -⟩
  · rwa [hx]
  · simp [hx, Status.WokenFrom] at hu

omit [Fintype T] [DecidableEq L] in
theorem asleepOn_of_wake {t : T} {d : C} {woken : T → Bool} {q : P} {u : T}
    (hu : ((s.wake t d woken q).status u).AsleepOn c) : (s.status u).AsleepOn c := by
  have hut : u ≠ t := by
    intro heq
    subst heq
    simp [Machine.wake, Status.AsleepOn] at hu
  simp only [Machine.wake, update_of_ne hut] at hu
  rcases Status.signalled_cases d (woken u) (s.status u) with hx | ⟨l, r, -, -, hx⟩
  · rwa [hx] at hu
  · simp [hx, Status.AsleepOn] at hu

omit [DecidableEq L] in
/-- A signal that finds a sleeper wakes one more thread. -/
theorem numWoken_wake {t u : T} {woken : T → Bool} {p q : P} (hs : s.status t = .running p)
    (hu : (s.status u).AsleepOn c) (hwake : woken u = true) :
    numWoken s c + 1 ≤ numWoken (s.wake t c woken q) c := by
  have hut : u ≠ t := by
    intro heq
    subst heq
    simp [hs, Status.AsleepOn] at hu
  refine succ_numWoken_le (u := u) (fun v hv => wokenFrom_wake hs hv) ?_ ?_
  · cases hx : s.status u <;> simp [hx, Status.AsleepOn, Status.WokenFrom] at hu ⊢
  · cases hx : s.status u with
    | asleep d l r =>
      obtain rfl : d = c := by simpa [hx, Status.AsleepOn] using hu
      simp [Machine.wake, hut, hx, Status.signalled, hwake, Status.WokenFrom]
    | running r => simp [hx, Status.AsleepOn] at hu
    | woken d l r => simp [hx, Status.AsleepOn] at hu

omit [DecidableEq L] in
theorem Waking.signalled (hW : Waking prog holds g inside c need slack) (hO : Owned prog holds s)
    (h : Served g c need slack s) {t : T} {d : C} {woken : T → Bool} {p q : P}
    (hs : s.status t = .running p) (hi : prog.instr p = .signal d q) (hw : Wakes s d woken) :
    Served g c need slack (s.wake t d woken q) := by
  refine h.keep rfl (fun u => asleepOn_of_wake) fun hex => ?_
  by_cases hd : d = c
  · subst hd
    obtain ⟨hpg, hle⟩ := hW.signal hi
    have hot := hO.ownerAt hs hpg
    obtain ⟨u, hu, hwake⟩ := hw hex
    have hsucc : numWoken s d + 1 ≤ numWoken (s.wake t d woken q) d := numWoken_wake hs hu hwake
    have hp : slackOf g slack s = slack p := by
      rw [slackOf_held hot, hs]
      rfl
    have hq : slackOf g slack (s.wake t d woken q) = slack q := by
      rw [slackOf_held (s := s.wake t d woken q) (t := t) hot]
      simp [Machine.wake, Status.point]
    omega
  · apply Nat.add_le_add (numWoken_le fun u => wokenFrom_wake hs)
    apply slackOf_le (t := t)
    · rfl
    · intro u hu
      simp [Machine.wake, hu]
    · intro ho
      rw [hs]
      simpa [Machine.wake, Status.point] using
        hW.silent (.signal hi) (by simp [hi, hd]) (hO.holdsAt hs ho)

omit [DecidableEq L] in
theorem Waking.accessed (hW : Waking prog holds g inside c need slack)
    (hG : Guarding prog holds g free inside) (hO : Owned prog holds s)
    (hgd : Guarded g free inside s) (h : Served g c need slack s) {t : T} {p : P} {run : M → M × P}
    (hs : s.status t = .running p) (hi : prog.instr p = .access run) :
    Served g c need slack (s.touch t run) := by
  have hot := hO.ownerAt hs (hG.access (m := s.memory) hi).1
  intro hc
  obtain ⟨u, hu⟩ := hc
  have hut : u ≠ t := by
    intro heq
    subst heq
    simp [Machine.touch, Status.AsleepOn] at hu
  have hneed := h ⟨u, by simpa [Machine.touch, hut] using hu⟩
  have hacc := hW.access hi (hgd.insideAt hs hot)
  have hle : numWoken s c ≤ numWoken (s.touch t run) c := by
    apply numWoken_le
    intro v hv
    have hvt : v ≠ t := by
      intro heq
      subst heq
      simp [hs, Status.WokenFrom] at hv
    simpa [Machine.touch, hvt] using hv
  have hp : slackOf g slack s = slack p := by
    rw [slackOf_held hot, hs]
    rfl
  have hq : slackOf g slack (s.touch t run) = slack (run s.memory).2 := by
    rw [slackOf_held (s := s.touch t run) (t := t) hot]
    simp [Machine.touch, Status.point]
  calc need (s.touch t run).memory
      ≤ numWoken s c + slack (run s.memory).2 := by
        simp only [Machine.touch]
        omega
    _ ≤ numWoken (s.touch t run) c + slackOf g slack (s.touch t run) := by
        rw [hq]
        exact Nat.add_le_add_right hle _

theorem Waking.move (hW : Waking prog holds g inside c need slack)
    (hG : Guarding prog holds g free inside) (hH : Holding prog holds) (hO : Owned prog holds s)
    (hgd : Guarded g free inside s) (h : Served g c need slack s) (hm : Move prog s a s') :
    Served g c need slack s' := by
  have hother : ∀ {t : T} {x : Status L C P} (u : T), u ≠ t → update s.status t x u = s.status u :=
    fun u hu => update_of_ne hu ..
  cases hm with
  | @call t p q hs hi he =>
    refine h.frame (t := t) rfl hother (by simp [Machine.goto, Status.AsleepOn])
      (by simp [hs, Status.WokenFrom]) ?_
    apply slackOf_le (t := t)
    · rfl
    · exact fun u hu => congrArg _ (hother u hu)
    · intro ho
      exact absurd (hO.holdsAt hs ho) (hH.idle hi g)
  | @lock t woken p q l hs hi hf =>
    refine h.frame (t := t) rfl hother (by simp [Machine.take, Status.AsleepOn])
      (by simp [hs, Status.WokenFrom]) ?_
    apply slackOf_take hf
    intro hl ho
    rw [hs]
    show slack p ≤ slack q
    exact hW.silent (.lock hi hl) (by simp [hi]) (hO.holdsAt hs ho)
  | relock hs hf => exact hW.relocked hO h hs hf
  | @unlock t woken p q l hs hi =>
    refine h.frame (t := t) rfl hother (by simp [Machine.drop, Status.AsleepOn])
      (by simp [hs, Status.WokenFrom]) ?_
    apply slackOf_drop (hO.ownerAt hs (hH.unlock hi).1)
    · intro hl
      subst hl
      rw [hs]
      exact hW.unlock hi
    · intro hl ho
      rw [hs]
      show slack p ≤ slack q
      exact hW.silent (.unlock hi hl) (by simp [hi]) (hO.holdsAt hs ho)
  | wait hs hi => exact hW.waited hH hO hgd h hs hi
  | signal hs hi hw => exact hW.signalled hO h hs hi hw
  | access hs hi => exact hW.accessed hG hO hgd h hs hi
  | @spurious t d l q hs =>
    refine h.keep rfl (fun u hu => ?_) fun _ => Nat.add_le_add (numWoken_le fun u hu => ?_) ?_
    · by_cases hut : u = t
      · simp [hut, Machine.goto, Status.AsleepOn] at hu
      · simpa [Machine.goto, hut] using hu
    · have hut : u ≠ t := by
        intro heq
        subst heq
        simp [hs, Status.WokenFrom] at hu
      simpa [Machine.goto, hut] using hu
    · apply slackOf_le (t := t)
      · rfl
      · exact fun u hu => congrArg _ (hother u hu)
      · intro _
        simp [hs, Machine.goto, Status.point]

end

end MBroker.Lib
