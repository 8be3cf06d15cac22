import MBroker.Broker.Effects

/- The broker beside a record of the boxes' creations. The table keeps of a box no more
   than a pointer to a name and two counters; the record keeps, for each entry, which
   creation its box is of and the name it was asked for under, and for each worker, which
   creation the box of its session is of. It is written as the table is written: at an
   accepted creation, and where a removal moves entries down. The broker never reads it.
   A handler or a turn of a session is one step, as in `Crew`. -/
namespace MBroker.Broker
open MBroker.Lib MBroker.Fs MBroker.Wire Function

structure Creation where
  serial : Nat
  name : CString

structure Ledger (W : Type) where
  crew : Crew W
  /-- The creation of the box in each entry. -/
  created : Int → Creation
  /-- How many creations there have been. -/
  count : Nat
  /-- The creation of the box that a worker's session is on. -/
  sessionBox : W → Nat

namespace Server

/-- Where the box in entry `i` was before a removal of that name. -/
def movedFrom (s : Server) (name : CString) (i : Nat) : Nat :=
  match firstIndex (fun i => s.boxName i = name) s.size with
  | none => i
  | some k => if k ≤ i then i + 1 else i

/-- An array moved as a removal moves the boxes. -/
def moved {α : Type} (s : Server) (name : CString) (a : Int → α) : Int → α :=
  match firstIndex (fun i => s.boxName i = name) s.size with
  | none => a
  | some k => shift a k (s.size - 1 - k)

end Server

namespace Ledger

variable {W : Type}

def Initial (l : Ledger W) : Prop := l.crew.Initial

/-- The record after a step that has led to `d`. -/
def remember [DecidableEq W] (l : Ledger W) (d : Crew W) : CrewStep W → Ledger W
  | .take w _ =>
    match l.crew.queue with
    | [] => { l with crew := d }
    | builder :: _ =>
      let task := l.crew.server.tasks builder
      -- where the worker is now shows what it has done
      match d.place w with
      | .removing _ =>
        { l with
          crew := d
          created := update l.created l.crew.server.currentBoxes ⟨l.count, task.boxName⟩
          count := l.count + 1 }
      | .publishing _ i =>
        { l with crew := d, sessionBox := update l.sessionBox w (l.created i).serial }
      | .subscribing _ _ _ =>
        match l.crew.server.firstBox builder with
        | none => { l with crew := d }
        | some i =>
          { l with crew := d, sessionBox := update l.sessionBox w (l.created i).serial }
      | .waiting =>
        if OpCode.ofCode? task.opcode = some .removeBox then
          { l with crew := d, created := l.crew.server.moved task.boxName l.created }
        else { l with crew := d }
  | .remove w _ =>
    match l.crew.place w with
    | .removing builder =>
      { l with
        crew := d
        created := l.crew.server.moved (l.crew.server.tasks builder).boxName l.created }
    | _ => { l with crew := d }
  | .request _ | .publish _ _ | .deliver _ => { l with crew := d }

def next [DecidableEq W] (l : Ledger W) (a : CrewStep W) : Option (Ledger W) :=
  (l.crew.next a).map fun d => l.remember d a

def Steps [DecidableEq W] (l : Ledger W) (a : CrewStep W) (m : Ledger W) : Prop := l.next a = some m

end Ledger

/-! ## Entries that move -/

namespace Server

variable {s : Server} {name : CString} {i j : Nat}

theorem takeOut_eq (s : Server) (name : CString) : (s.takeOut name).1 = s.moved name s.boxes := by
  unfold takeOut moved
  cases firstIndex (fun i => s.boxName i = name) s.size <;> rfl

/-- Below the last entry, what is there after a removal was at one place before. -/
theorem moved_apply {α : Type} (a : Int → α) (hi : i < s.size - 1) :
    s.moved name a i = a (s.movedFrom name i) := by
  unfold moved movedFrom
  cases hfirst : firstIndex (fun i => s.boxName i = name) s.size with
  | none => rfl
  | some k =>
    have hlt := (firstIndex_eq_some.mp hfirst).1
    dsimp only
    rw [shift_apply]
    by_cases hki : k ≤ i
    · rw [if_pos (by omega), if_pos hki]
    · rw [if_neg (by omega), if_neg hki]

theorem movedFrom_lt (hi : i < s.size - 1) : s.movedFrom name i < s.size := by
  unfold movedFrom
  split
  · omega
  · split <;> omega

theorem movedFrom_ne (hij : i ≠ j) : s.movedFrom name i ≠ s.movedFrom name j := by
  unfold movedFrom
  split
  · exact hij
  · split <;> split <;> omega

theorem size_without (s : Server) (builder : Addr) (fs : FsState) :
    (s.without builder fs).size = s.size - 1 := by
  show (s.currentBoxes - 1).toNat = s.currentBoxes.toNat - 1
  omega

theorem boxes_without {builder : Addr} {fs : FsState}
    (hi : i < (s.without builder fs).size) :
    (s.without builder fs).boxes i =
      s.boxes (s.movedFrom (s.tasks builder).boxName i) := by
  rw [size_without] at hi
  show (s.takeOut (s.tasks builder).boxName).1 i = _
  rw [takeOut_eq, moved_apply s.boxes hi]

/-- A subscriber changes no pointer to a name. -/
theorem pointer_withSubscriber (s : Server) (builder : Addr) (i : Nat) (fs : FsState) (k : Int) :
    ((s.withSubscriber builder i fs).boxes k).boxName = (s.boxes k).boxName := by
  unfold withSubscriber
  dsimp only
  by_cases hk : k = i
  · subst hk
    rw [update_self]
    rfl
  · rw [update_of_ne hk]

/-- An entry after a creation: the new one at the end, or one of before that is at most no
longer the last. -/
theorem addBox_cases {builder : Addr} (hi : i < (s.addBox builder).size) :
    ((i : Int) = s.currentBoxes ∧ (s.addBox builder).boxes i = newBox builder) ∨
      ((i : Int) ≠ s.currentBoxes ∧ i < s.size ∧
        ∃ last, (s.addBox builder).boxes i = { s.boxes i with last }) := by
  have hsize : i < (s.currentBoxes + 1).toNat := hi
  by_cases hlast : (i : Int) = s.currentBoxes
  · refine .inl ⟨hlast, ?_⟩
    unfold addBox
    dsimp only
    rw [hlast, update_self]
  · refine .inr ⟨hlast, ?_, ?_⟩
    · show i < s.currentBoxes.toNat
      omega
    · unfold addBox
      dsimp only
      rw [update_of_ne hlast]
      by_cases hbefore : (i : Int) = s.currentBoxes - 1
      · rw [hbefore, update_self]
        exact ⟨0, rfl⟩
      · rw [update_of_ne hbefore]
        exact ⟨_, rfl⟩

end Server

/-! ## Steps -/

namespace Ledger

variable {W : Type} [DecidableEq W] {l m : Ledger W} {a : CrewStep W}

@[simp] theorem remember_crew (l : Ledger W) (d : Crew W) (a : CrewStep W) :
    (l.remember d a).crew = d := by
  unfold remember
  split
  · split
    · rfl
    · split
      · rfl
      · rfl
      · split <;> rfl
      · dsimp only
        split <;> rfl
  · split <;> rfl
  all_goals rfl

theorem Steps.crew (h : l.Steps a m) : l.crew.Steps a m.crew ∧ m = l.remember m.crew a := by
  obtain ⟨d, hd, rfl⟩ := Option.map_eq_some_iff.mp h
  rw [remember_crew]
  exact ⟨hd, rfl⟩

/-! What the record is after each step that writes it. -/

section Record

variable {c : Crew W} {w : W} {stack : Mem} {builder : Addr} {queue : List Addr}

theorem remember_idle (hplace : l.crew.place w = .waiting)
    (hqueue : l.crew.queue = builder :: queue)
    (hremove : OpCode.ofCode? (l.crew.server.tasks builder).opcode ≠ some .removeBox) :
    l.remember { l.crew with queue } (.take w stack) =
      { l with crew := { l.crew with queue } } := by
  simp only [remember, hqueue, hplace, if_neg hremove]

theorem remember_login (hqueue : l.crew.queue = builder :: queue) (s : Server) (b : Addr)
    (i : Nat) :
    l.remember (c.goTo w (.publishing b i) s) (.take w stack) =
      { l with
        crew := c.goTo w (.publishing b i) s
        sessionBox := update l.sessionBox w (l.created i).serial } := by
  simp only [remember, hqueue, Crew.goTo_place]

theorem remember_subscribe (hqueue : l.crew.queue = builder :: queue) {i : Nat}
    (hfirst : l.crew.server.firstBox builder = some i) (s : Server) (b : Addr) (tfsFd : Int)
    (bufferBox : Mem) :
    l.remember (c.goTo w (.subscribing b tfsFd bufferBox) s) (.take w stack) =
      { l with
        crew := c.goTo w (.subscribing b tfsFd bufferBox) s
        sessionBox := update l.sessionBox w (l.created i).serial } := by
  simp only [remember, hqueue, Crew.goTo_place, hfirst]

theorem remember_create (hqueue : l.crew.queue = builder :: queue) (s : Server) (b : Addr) :
    l.remember (c.goTo w (.removing b) s) (.take w stack) =
      { l with
        crew := c.goTo w (.removing b) s
        created := update l.created l.crew.server.currentBoxes
          ⟨l.count, (l.crew.server.tasks builder).boxName⟩
        count := l.count + 1 } := by
  simp only [remember, hqueue, Crew.goTo_place]

theorem remember_removeAsked (hqueue : l.crew.queue = builder :: queue)
    (hop : OpCode.ofCode? (l.crew.server.tasks builder).opcode = some .removeBox) (s : Server) :
    l.remember (c.goTo w .waiting s) (.take w stack) =
      { l with
        crew := c.goTo w .waiting s
        created := l.crew.server.moved (l.crew.server.tasks builder).boxName l.created } := by
  simp only [remember, hqueue, Crew.goTo_place, if_pos hop]

theorem remember_remove (hplace : l.crew.place w = .removing builder) (d : Crew W) :
    l.remember d (.remove w stack) =
      { l with
        crew := d
        created := l.crew.server.moved (l.crew.server.tasks builder).boxName l.created } := by
  simp only [remember, hplace]

end Record

/-- While the broker runs its file system is sound. -/
def Sound (l : Ledger W) : Prop := l.crew.halt = none → Inv l.crew.server.fs

omit [DecidableEq W] in
theorem Initial.no_box (h : l.Initial) (i : Nat) : ¬ i < l.crew.server.size := by
  rw [Server.size, h.server.currentBoxes]
  exact Nat.not_lt_zero i

omit [DecidableEq W] in
theorem Initial.sound (h : l.Initial) : l.Sound :=
  fun _ => .initial tfsDefaultParams_sane h.server.fs

/-- A step leads to what its handler does, or ends the process. -/
theorem Steps.effect (hS : l.Sound) (h : l.Steps a m) :
    l.crew.halt = none ∧
      ∃ d, m = l.remember d a ∧ (d.halt = none → Crew.Effect l.crew a d) := by
  obtain ⟨hstep, hm⟩ := h.crew
  obtain ⟨ha, hmove⟩ := Crew.Steps.move hstep
  exact ⟨ha, m.crew, hm, hmove.effect (hS ha)⟩

theorem Sound.step (hS : l.Sound) (h : l.Steps a m) : m.Sound := by
  obtain ⟨ha, d, rfl, heffect⟩ := h.effect hS
  intro hd
  rw [remember_crew] at hd ⊢
  exact (heffect hd).inv (hS ha)

end Ledger

end MBroker.Broker
