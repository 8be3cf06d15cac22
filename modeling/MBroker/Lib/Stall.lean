import MBroker.Lib.Monitor

/- A thread that keeps some locks for good. `Stalling` says of the points `Q` that a thread
   at them goes from one to the next, gives back none of the locks `G` and leaves the
   memory `m` as it is; and of the whole program that no one accesses the memory and no one
   gets out of a call without one of these locks. Then the memory stays `m` and every call
   that is under way stays so, whatever turns follow (`Stalling.run`). -/
namespace MBroker.Lib
open Function

variable {T L C M P : Type}

structure Stalling (prog : Program L C M P) (holds : P → L → Prop) (G : L → Prop) (Q : P → Prop)
    (m : M) : Prop where
  inside : ∀ {p}, Q p → prog.instr p ≠ .idle
  lock : ∀ {p l q}, prog.instr p = .lock l q → (Q p → Q q) ∧ prog.instr q ≠ .idle
  unlock : ∀ {p l q}, prog.instr p = .unlock l q → (Q p → ¬ G l ∧ Q q) ∧
    (prog.instr q ≠ .idle ∨ ∃ g, G g ∧ holds p g)
  wait : ∀ {p c l q}, prog.instr p = .wait c l q → (Q p → ¬ G l ∧ Q q) ∧ prog.instr q ≠ .idle
  signal : ∀ {p c q}, prog.instr p = .signal c q → (Q p → Q q) ∧ prog.instr q ≠ .idle
  access : ∀ {p run}, prog.instr p = .access run → (Q p → (run m).1 = m ∧ Q (run m).2) ∧
    ∃ g, G g ∧ holds p g

/-- `t` has the locks, at a point of `Q`. -/
structure Stalled (G : L → Prop) (Q : P → Prop) (m : M) (t : T) (s : Machine T L C M P) : Prop where
  memory : s.memory = m
  owner : ∀ g, G g → s.owner g = some t
  point : Q (s.status t).point

/-- In a call. -/
def Machine.InCall (prog : Program L C M P) (s : Machine T L C M P) (t : T) : Prop :=
  prog.instr (s.status t).point ≠ .idle

variable [DecidableEq T] [DecidableEq L] [DecidableEq C] {prog : Program L C M P}
  {holds : P → L → Prop} {G : L → Prop} {Q : P → Prop} {m : M} {s s' : Machine T L C M P}
  {a : Turn T P} {t : T}

omit [DecidableEq L] [DecidableEq C] in
/-- A turn of `u` to the point `q` that leaves the memory and the locks of `t`. -/
theorem Stalled.turn (h : Stalled G Q m t s) {u : T} {q : P} (hm : s'.memory = s.memory)
    (ho : ∀ g, G g → s'.owner g = s.owner g)
    (hother : ∀ v, v ≠ u → (s'.status v).point = (s.status v).point)
    (hat : (s'.status u).point = q) (hq : u = t → Q q)
    (hin : s.InCall prog u → prog.instr q ≠ .idle) :
    Stalled G Q m t s' ∧ ∀ v, s.InCall prog v → s'.InCall prog v := by
  refine ⟨⟨hm.trans h.memory, fun g hg => (ho g hg).trans (h.owner g hg), ?_⟩, fun v hv => ?_⟩
  · by_cases htu : t = u
    · rw [htu, hat]
      exact hq htu.symm
    · rw [hother t htu]
      exact h.point
  · unfold Machine.InCall
    by_cases hvu : v = u
    · rw [hvu, hat]
      exact hin (hvu ▸ hv)
    · rw [hother v hvu]
      exact hv

theorem Stalling.move (hS : Stalling prog holds G Q m) (hH : Holding prog holds)
    (hO : Owned prog holds s) (h : Stalled G Q m t s) (hm : Move prog s a s') :
    Stalled G Q m t s' ∧ ∀ u, s.InCall prog u → s'.InCall prog u := by
  -- only `t` can be at a point where one of the locks is held
  have hmine : ∀ {u p}, s.status u = .running p → (∃ g, G g ∧ holds p g) → u = t := by
    rintro u p hs ⟨g, hg, hp⟩
    have hown := hO.ownerAt hs hp
    rw [h.owner g hg] at hown
    exact (Option.some.inj hown).symm
  have hpoint : ∀ {u p}, s.status u = .running p → u = t → Q p := by
    rintro u p hs rfl
    have hq := h.point
    rwa [hs] at hq
  have htaken : ∀ {l}, s.owner l = none → ¬ G l := by
    intro l hf hg
    rw [h.owner l hg] at hf
    cases hf
  cases hm with
  | @call u p q hs hi he =>
    refine h.turn (q := p) rfl (fun _ _ => rfl) (fun v hv => congrArg _ (update_of_ne hv _ _))
      (congrArg _ (update_self _ _ _)) (fun hut => ?_) fun hin => ?_
    · exact absurd hi (hS.inside (hpoint hs hut))
    · unfold Machine.InCall at hin
      rw [hs] at hin
      exact absurd hi hin
  | @lock u woken p q l hs hi hf =>
    obtain ⟨hq, hin⟩ := hS.lock hi
    refine h.turn (q := q) rfl (fun g hg => update_of_ne ?_ _ _)
      (fun v hv => congrArg _ (update_of_ne hv _ _)) (congrArg _ (update_self _ _ _))
      (fun hut => hq (hpoint hs hut)) fun _ => hin
    rintro rfl
    exact htaken hf hg
  | @relock u woken c l q hs hf =>
    obtain ⟨p, hi⟩ : (Status.woken c l q).Placed prog := hs ▸ hO.placed u
    refine h.turn (q := q) rfl (fun g hg => update_of_ne ?_ _ _)
      (fun v hv => congrArg _ (update_of_ne hv _ _)) (congrArg _ (update_self _ _ _))
      (fun hut => ?_) fun _ => (hS.wait hi).2
    · rintro rfl
      exact htaken hf hg
    · have hq := h.point
      rwa [← hut, hs] at hq
  | @unlock u woken p q l hs hi =>
    obtain ⟨hq, hin⟩ := hS.unlock hi
    have hl : ¬ G l := by
      intro hg
      exact (hq (hpoint hs (hmine hs ⟨l, hg, (hH.unlock hi).1⟩))).1 hg
    refine h.turn (q := q) rfl (fun g hg => update_of_ne ?_ _ _)
      (fun v hv => congrArg _ (update_of_ne hv _ _)) (congrArg _ (update_self _ _ _))
      (fun hut => (hq (hpoint hs hut)).2) fun _ => ?_
    · rintro rfl
      exact hl hg
    · rcases hin with hin | hheld
      · exact hin
      · exact hS.inside (hq (hpoint hs (hmine hs hheld))).2
  | @wait u woken p q c l hs hi =>
    obtain ⟨hq, hin⟩ := hS.wait hi
    refine h.turn (q := q) rfl (fun g hg => update_of_ne ?_ _ _)
      (fun v hv => congrArg _ (update_of_ne hv _ _)) (congrArg _ (update_self _ _ _))
      (fun hut => (hq (hpoint hs hut)).2) fun _ => hin
    rintro rfl
    exact (hq (hpoint hs (hmine hs ⟨g, hg, (hH.wait hi).1⟩))).1 hg
  | @signal u woken p q c hs hi hw =>
    obtain ⟨hq, hin⟩ := hS.signal hi
    refine h.turn (q := q) rfl (fun _ _ => rfl) (fun v hv => ?_) ?_
      (fun hut => hq (hpoint hs hut)) fun _ => hin
    · simp only [Machine.wake, update_of_ne hv, Status.point_signalled]
    · simp only [Machine.wake, update_self, Status.point]
  | @access u woken p run hs hi =>
    obtain ⟨hq, hheld⟩ := hS.access hi
    obtain rfl := hmine hs hheld
    obtain ⟨hrun, hnext⟩ := hq (hpoint hs rfl)
    have hmem := h.memory
    refine h.turn (q := (run m).2) ?_ (fun _ _ => rfl)
      (fun v hv => congrArg _ (update_of_ne hv _ _)) ?_ (fun _ => hnext) fun _ => hS.inside hnext
    · show (run s.memory).1 = s.memory
      rw [hmem, hrun]
    · rw [← hmem]
      exact congrArg _ (update_self _ _ _)
  | @spurious u c l q hs =>
    obtain ⟨p, hi⟩ : (Status.asleep c l q).Placed prog := hs ▸ hO.placed u
    refine h.turn (q := q) rfl (fun _ _ => rfl) (fun v hv => congrArg _ (update_of_ne hv _ _))
      (congrArg _ (update_self _ _ _)) (fun hut => ?_) fun _ => (hS.wait hi).2
    have hq := h.point
    rwa [← hut, hs] at hq

/-- Whatever turns are taken, the memory stays, and so does every thread that is in a
call. -/
theorem Stalling.run [Fintype T] (hS : Stalling prog holds G Q m) (hH : Holding prog holds)
    (hO : Owned prog holds s) (h : Stalled G Q m t s) {ρ : List (Turn T P × Machine T L C M P)}
    (hr : Run (Turns prog) s ρ) :
    EveryState (fun s' => s'.memory = m ∧ ∀ u, s.InCall prog u → s'.InCall prog u) s ρ := by
  have hstep : ∀ s' a s'', (Owned prog holds s' ∧ Stalled G Q m t s' ∧
      ∀ u, s.InCall prog u → s'.InCall prog u) → Turns prog s' a s'' →
      Owned prog holds s'' ∧ Stalled G Q m t s'' ∧
        ∀ u, s.InCall prog u → s''.InCall prog u := by
    rintro s' a s'' ⟨hO', h', hin⟩ hst
    obtain ⟨hstall, hcall⟩ := hS.move hH hO' h' hst.move
    exact ⟨hO'.move hH hst.move, hstall, fun u hu => hcall u (hin u hu)⟩
  have hall := hr.invariant hstep ⟨hO, h, fun _ hu => hu⟩
  exact hall.mono fun s' hs' => ⟨hs'.2.1.memory, hs'.2.2⟩

end MBroker.Lib
