import MBroker.Broker.Boxes

/- Creations and removals from the broker's start on, each by its handler, among each
   other in any order. Beside the broker stands what the calls ask for (`boxes`), and
   every index they use on the array (`indices`).

   The bounds rest on the open-file table: a creation keeps the handle it opens, so
   there are never more boxes than taken handles, of which there can be 16. And there
   is never a file without an entry in the table, so a removal that does not make the
   broker exit finds the table not empty. -/
namespace MBroker.Broker
open MBroker.Lib MBroker.Fs MBroker.Wire Function

/-- A request, decoded to the task at `builder`, and its handler's call. -/
structure Call where
  op : OpCode
  builder : Addr
  task : Task
  stack : Mem

def Server.call (s : Server) (c : Call) : Outcome :=
  (s.receive c.builder c.task).handle c.op c.builder c.stack

structure Tracked where
  server : Server
  running : Bool
  boxes : Boxes
  indices : List Int

def Phase.isIdle : Phase → Bool
  | .idle => true
  | .publishing _ _ | .subscribing _ _ _ | .stopped _ => false

namespace Tracked

/-- The call of a creation or a removal, to its end or to an `exit`. -/
def next (p : Tracked) (c : Call) : Option Tracked :=
  if p.running = true ∧ (c.op = .createBox ∨ c.op = .removeBox) then
    let o := p.server.call c
    some ⟨o.server, o.phase.isIdle, p.boxes.apply c.op c.task.boxName, p.indices ++ o.indices⟩
  else none

def Steps (p : Tracked) (c : Call) (q : Tracked) : Prop := next p c = some q

structure Initial (p : Tracked) : Prop where
  server : p.server.Initial
  running : p.running = true
  boxes : p.boxes = ⟨[], ∅⟩
  indices : p.indices = []

/-- While the broker runs, the table has the boxes asked for, once each and in their
order, and they are the files there are. -/
def Agrees (p : Tracked) : Prop :=
  p.running = true → p.server.names = p.boxes.names ∧ p.server.names.Nodup ∧
    fileNames p.server.fs = {x | ∃ name ∈ p.server.names, name.tail.bytes = x}

/-- Every index used lies in the array. -/
def InBounds (p : Tracked) : Prop := ∀ i ∈ p.indices, 0 ≤ i ∧ i < maxBoxes

/-- A call that does not make the broker exit is not the creation of a box that is
there, and its request is not stored over the name of another box. -/
def Apart (p : Tracked) (c : Call) : Prop :=
  match c.op with
  | .createBox => Creatable p.server.fs c.task.boxName →
      c.task.boxName ∉ p.server.names ∧ p.server.Unshared c.builder c.task
  | .removeBox => Removable p.server.fs c.task.boxName → p.server.Unshared c.builder c.task
  | _ => True

/-- The call is not a creation in an empty table, unless that makes the broker exit. -/
def NotFirst (p : Tracked) (c : Call) : Prop :=
  c.op = .createBox → p.server.currentBoxes = 0 → ¬ Creatable p.server.fs c.task.boxName

end Tracked

open Server Tracked

variable {s t : Server} {builder : Addr} {stack : Mem} {p q : Tracked} {c : Call}

/-! ## The invariant -/

/-- What bounds the table. -/
structure Bounded (s : Server) : Prop where
  inv : Inv s.fs
  params : s.fs.fsParams = tfsDefaultParams
  files : ∃ names : Finset (List UInt8),
    ↑names = fileNames s.fs ∧ (names.card : Int) ≤ s.currentBoxes
  handles : s.currentBoxes ≤ (takenHandles s.fs).card

theorem Bounded.nonneg (h : Bounded s) : 0 ≤ s.currentBoxes := by
  obtain ⟨names, -, hcard⟩ := h.files
  omega

theorem Bounded.le (h : Bounded s) : s.currentBoxes ≤ 16 := by
  have hhandles := h.handles
  have hcard := card_takenHandles_le s.fs
  rw [h.params] at hcard
  change _ ≤ 16 at hcard
  omega

theorem Bounded.initial (h : s.Initial) : Bounded s := by
  refine ⟨Inv.initial tfsDefaultParams_sane h.fs,
    fsParams_of_reachable tfsDefaultParams_sane (.start h.fs), ⟨∅, ?_, ?_⟩, ?_⟩
  · rw [fileNames_initial tfsDefaultParams_sane h.fs]
    exact Finset.coe_empty
  · rw [h.currentBoxes]
    exact Int.le_refl 0
  · rw [h.currentBoxes]
    exact Int.natCast_nonneg _

theorem Bounded.added (h : Bounded s) (ha : Added s t builder) : Bounded t := by
  obtain ⟨hinv, hparams, ⟨names, hnames, hcard⟩, hhandles⟩ := h
  obtain ⟨⟨g, hg⟩, -, hcur, -⟩ := ha
  refine ⟨hg.inv, hg.params.trans hparams,
    ⟨insert (s.tasks builder).boxName.tail.bytes names, ?_, ?_⟩, ?_⟩
  · rw [Finset.coe_insert, hnames, hg.files]
  · have hle := Finset.card_insert_le (s.tasks builder).boxName.tail.bytes names
    omega
  · rw [hg.card_takenHandles]
    omega

theorem Bounded.takenAway (h : Bounded s) {name : CString} (hr : Removable s.fs name)
    (ht : TakenAway s t name) : Bounded t := by
  obtain ⟨hinv, hparams, ⟨names, hnames, hcard⟩, hhandles⟩ := h
  obtain ⟨hfs, -, hcur, -⟩ := ht
  have hmem : name.tail.bytes ∈ names := by
    rw [← Finset.mem_coe, hnames]
    exact hr.2
  refine ⟨hfs.inv, hfs.params.trans hparams, ⟨names.erase name.tail.bytes, ?_, ?_⟩, ?_⟩
  · rw [Finset.coe_erase, hnames, hfs.files]
  · have hpos := Finset.card_pos.mpr ⟨_, hmem⟩
    rw [Finset.card_erase_of_mem hmem]
    omega
  · rw [hfs.card_takenHandles]
    omega

theorem Bounded.receive (h : Bounded s) (task : Task) : Bounded (s.receive builder task) :=
  ⟨h.inv, h.params, h.files, h.handles⟩

/-- What a call comes to. -/
inductive CallEffect (p : Tracked) (c : Call) (q : Tracked) : Prop
  | created (hop : c.op = .createBox) (hc : Creatable p.server.fs c.task.boxName)
      (hq : q.running = true) (ht : Added (p.server.receive c.builder c.task) q.server c.builder)
      (hi : q.indices = p.indices ++
        (upTo p.server.size ++ [p.server.currentBoxes - 1, p.server.currentBoxes]))
  | notCreated (hop : c.op = .createBox) (hc : ¬ Creatable p.server.fs c.task.boxName)
      (hq : q.running = false) (hi : q.indices = p.indices ++ upTo p.server.size)
  | removed (hop : c.op = .removeBox) (hc : Removable p.server.fs c.task.boxName)
      (hq : q.running = true)
      (ht : TakenAway (p.server.receive c.builder c.task) q.server c.task.boxName)
      (hi : q.indices = p.indices ++ (takeOut (p.server.receive c.builder c.task)
        c.task.boxName).2)
  | notRemoved (hop : c.op = .removeBox) (hc : ¬ Removable p.server.fs c.task.boxName)
      (hq : q.running = false)
      (hi : q.indices = p.indices ++ (takeOut (p.server.receive c.builder c.task)
        c.task.boxName).2)

theorem of_steps (hst : p.Steps c q) :
    p.running = true ∧ (c.op = .createBox ∨ c.op = .removeBox) ∧
      q = ⟨(p.server.call c).server, (p.server.call c).phase.isIdle,
        p.boxes.apply c.op c.task.boxName, p.indices ++ (p.server.call c).indices⟩ := by
  unfold Tracked.Steps Tracked.next at hst
  split at hst
  · next hguard =>
    cases hst
    exact ⟨hguard.1, hguard.2, rfl⟩
  · cases hst

theorem server_of_steps (hst : p.Steps c q) : q.server = (p.server.call c).server := by
  obtain ⟨-, -, rfl⟩ := of_steps hst
  rfl

theorem boxes_of_steps (hst : p.Steps c q) : q.boxes = p.boxes.apply c.op c.task.boxName := by
  obtain ⟨-, -, rfl⟩ := of_steps hst
  rfl

theorem effect_of_steps (hB : Bounded p.server) (hst : p.Steps c q) : CallEffect p c q := by
  obtain ⟨op, builder, task, stack⟩ := c
  obtain ⟨-, hop, rfl⟩ := of_steps hst
  have hname := receive_boxName p.server builder task
  rcases hop with hop | hop
  · dsimp only at hop
    subst hop
    by_cases hc : Creatable p.server.fs task.boxName
    · obtain ⟨hphase, hindices, hadded⟩ := boxCreateRequest_ok
        (s := p.server.receive builder task) stack hB.inv ((creatable_receive builder).mpr hc)
      refine .created rfl hc ?_ hadded ?_
      · show Phase.isIdle (boxCreateRequest _ _ _).phase = true
        rw [hphase]
        rfl
      · exact congrArg (p.indices ++ ·) hindices
    · obtain ⟨hphase, hindices⟩ := boxCreateRequest_error
        (s := p.server.receive builder task) stack hB.inv (mt (creatable_receive builder).mp hc)
      refine .notCreated rfl hc ?_ ?_
      · show Phase.isIdle (boxCreateRequest _ _ _).phase = false
        rw [hphase]
        rfl
      · exact congrArg (p.indices ++ ·) hindices
  · dsimp only at hop
    subst hop
    have hindices := boxRemoveRequest_indices (p.server.receive builder task) builder stack
    rw [hname] at hindices
    by_cases hc : Removable p.server.fs task.boxName
    · obtain ⟨hphase, htaken⟩ := boxRemoveRequest_ok
        (s := p.server.receive builder task) stack hB.inv ((removable_receive builder).mpr hc)
      rw [hname] at htaken
      refine .removed rfl hc ?_ htaken ?_
      · show Phase.isIdle (boxRemoveRequest _ _ _).phase = true
        rw [hphase]
        rfl
      · exact congrArg (p.indices ++ ·) hindices
    · have hphase := boxRemoveRequest_error
        (s := p.server.receive builder task) stack hB.inv (mt (removable_receive builder).mp hc)
      refine .notRemoved rfl hc ?_ ?_
      · show Phase.isIdle (boxRemoveRequest _ _ _).phase = false
        rw [hphase]
        rfl
      · exact congrArg (p.indices ++ ·) hindices

/-- While the broker runs, the table is bounded; the boxes asked for are always sound. -/
structure Sane (p : Tracked) : Prop where
  sound : p.boxes.Sound
  bounded : p.running = true → Bounded p.server

theorem Sane.step (h : Sane p) (hst : p.Steps c q) : Sane q := by
  have hB := h.bounded ((of_steps hst).1)
  refine ⟨?_, ?_⟩
  · rw [boxes_of_steps hst]
    exact h.sound.apply c.op c.task.boxName
  · intro hrun
    cases effect_of_steps hB hst with
    | created hop hc hq ht hi => exact (hB.receive c.task).added ht
    | removed hop hc hq ht hi => exact (hB.receive c.task).takenAway hc ht
    | notCreated hop hc hq hi | notRemoved hop hc hq hi =>
      rw [hq] at hrun
      cases hrun

theorem Tracked.Initial.sane (h : p.Initial) : Sane p := by
  refine ⟨?_, fun _ => .initial h.server⟩
  rw [h.boxes]
  refine ⟨List.nodup_nil, fun name hname => absurd hname List.not_mem_nil, ?_⟩
  ext x
  simp

/-! ## The table and the files -/

theorem agrees_iff (hs : p.boxes.Sound) (hrun : p.running = true) :
    Agrees p ↔ p.server.view = p.boxes := by
  refine ⟨?_, ?_⟩
  · intro h
    obtain ⟨hnames, -, hfiles⟩ := h hrun
    rw [view, hfiles, hnames, ← hs.files]
  · intro h _
    rw [← h] at hs
    exact ⟨congrArg Boxes.names h, hs.nodup, hs.files⟩

theorem agrees_of_not_running (h : p.running = false) : Agrees p := by
  intro hrun
  rw [h] at hrun
  cases hrun

theorem Tracked.Initial.agrees (h : p.Initial) : Agrees p := by
  rw [agrees_iff h.sane.sound h.running, h.boxes, view,
    fileNames_initial tfsDefaultParams_sane h.server.fs]
  have hlen : p.server.names.length = 0 := by
    rw [length_names, size, h.server.currentBoxes]
    rfl
  rw [List.length_eq_zero_iff.mp hlen]

/-- A call keeps the table and the files as asked for exactly when it is set apart. -/
theorem agrees_step_iff (hS : Sane p) (hA : Agrees p) (hst : p.Steps c q) :
    Agrees q ↔ Apart p c := by
  have hrun := (of_steps hst).1
  have hB := hS.bounded hrun
  have hview := (agrees_iff hS.sound hrun).mp hA
  have hboxes := boxes_of_steps hst
  have hq := hS.step hst
  have hsound : p.server.view.Sound := by
    rw [hview]
    exact hS.sound
  cases effect_of_steps hB hst with
  | created hop hc hqrun ht hi =>
    have hiff := create_view_iff c.builder c.stack hB.inv hB.nonneg hc
    rw [agrees_iff hq.sound hqrun, hboxes, ← hview, server_of_steps hst, call, Apart, hop]
    exact hiff.trans ⟨fun h _ => h, fun h => h hc⟩
  | removed hop hc hqrun ht hi =>
    have hiff := remove_view_iff c.builder c.stack hB.inv hsound hc
    rw [agrees_iff hq.sound hqrun, hboxes, ← hview, server_of_steps hst, call, Apart, hop]
    exact hiff.trans ⟨fun h _ => h, fun h => h hc⟩
  | notCreated hop hc hqrun hi =>
    -- the broker has exited, and nothing is asked of it any more
    refine iff_of_true (agrees_of_not_running hqrun) ?_
    unfold Apart
    rw [hop]
    exact fun h => absurd h hc
  | notRemoved hop hc hqrun hi =>
    refine iff_of_true (agrees_of_not_running hqrun) ?_
    unfold Apart
    rw [hop]
    exact fun h => absurd h hc

/-! ## The indices -/

theorem upTo_inBounds {n : Nat} (hn : n ≤ 16) : ∀ i ∈ upTo n, 0 ≤ i ∧ i < maxBoxes := by
  intro i hi
  simp only [upTo, List.mem_map, List.mem_range] at hi
  obtain ⟨k, hk, rfl⟩ := hi
  simp only [maxBoxes, Int.ofNat_eq_natCast]
  omega

/-- A call uses an index outside of the array exactly when it creates the first box of
an empty table. -/
theorem inBounds_step_iff (hS : Sane p) (hI : InBounds p) (hst : p.Steps c q) :
    InBounds q ↔ NotFirst p c := by
  have hB := hS.bounded ((of_steps hst).1)
  have h0 := hB.nonneg
  have hle := hB.le
  have hsize : p.server.size ≤ 16 := by
    unfold size
    omega
  -- the indices used before are in the array
  have happend : ∀ l, q.indices = p.indices ++ l →
      (InBounds q ↔ ∀ i ∈ l, 0 ≤ i ∧ i < maxBoxes) := by
    intro l hl
    unfold InBounds
    rw [hl, List.forall_mem_append]
    exact and_iff_right hI
  have htakeOut : ∀ i ∈ (takeOut (p.server.receive c.builder c.task) c.task.boxName).2,
      0 ≤ i ∧ i < maxBoxes := by
    intro i hi
    have hin := takeOut_indices _ _ i hi
    change 0 ≤ i ∧ i < p.server.size at hin
    simp only [maxBoxes]
    omega
  unfold NotFirst
  cases effect_of_steps hB hst with
  | created hop hc hq ht hi =>
    -- of the two ends of the table only the first can lie outside
    rw [happend _ hi, List.forall_mem_append, and_iff_right (upTo_inBounds hsize)]
    simp only [List.mem_cons, List.not_mem_nil, or_false, forall_eq_or_imp, forall_eq, maxBoxes,
      hop, hc, forall_const, not_true_eq_false, imp_false]
    omega
  | notCreated hop hc hq hi =>
    rw [happend _ hi]
    exact iff_of_true (upTo_inBounds hsize) fun _ _ => hc
  | removed hop hc hq ht hi | notRemoved hop hc hq hi =>
    rw [happend _ hi]
    apply iff_of_true htakeOut
    intro hcreate
    rw [hop] at hcreate
    cases hcreate

/-! ## Runs -/

/-- The table and the files are as asked for throughout exactly when every call is set
apart, and the indices are in the array exactly when no box is created in an empty
table. -/
theorem table_iff {ρ : List (Call × Tracked)} (h0 : p.Initial) (hr : Run Tracked.Steps p ρ) :
    (EveryState Agrees p ρ ↔ EveryStep Apart p ρ) ∧
      (EveryState InBounds p ρ ↔ EveryStep NotFirst p ρ) := by
  have hstep : ∀ (p : Tracked) c q, Sane p → p.Steps c q → Sane q :=
    fun _ _ _ hS hst => hS.step hst
  have hbounds : InBounds p := by
    intro i hi
    rw [h0.indices] at hi
    cases hi
  refine ⟨?_, ?_⟩
  · apply Run.everyState_iff hstep _ h0.sane h0.agrees hr
    intro p c q hS hA hst
    exact agrees_step_iff hS hA hst
  · apply Run.everyState_iff hstep _ h0.sane hbounds hr
    intro p c q hS hI hst
    exact inBounds_step_iff hS hI hst

def trackedStart : Tracked := ⟨started, true, ⟨[], ∅⟩, []⟩

/-- `/b` created twice. -/
def createdTwice : List (Call × Tracked) :=
  along next trackedStart [⟨.createBox, 0, requestFor .createBox pathB, fun _ => 0⟩,
    ⟨.createBox, 1, requestFor .createBox pathB, fun _ => 0⟩]

theorem trackedStart_initial : trackedStart.Initial := ⟨started_initial, rfl, rfl, rfl⟩

theorem table_iff_createdTwice :
    (EveryState Agrees trackedStart createdTwice ↔ EveryStep Apart trackedStart createdTwice) ∧
      (EveryState InBounds trackedStart createdTwice ↔
        EveryStep NotFirst trackedStart createdTwice) :=
  table_iff trackedStart_initial (run_along _ _ _)

/-- The table has `/b` twice then, and the first creation has used index -1. -/
theorem table_not_as_asked :
    (¬ ∀ (p : Tracked) ρ, p.Initial → Run Tracked.Steps p ρ → EveryState Agrees p ρ) ∧
      ¬ ∀ (p : Tracked) ρ, p.Initial → Run Tracked.Steps p ρ → EveryState InBounds p ρ := by
  refine ⟨?_, ?_⟩
  · intro h
    have hlast := (h _ _ trackedStart_initial (run_along next _ _)).last (ρ := createdTwice)
    have hnodup := (hlast (by decide +kernel)).2.1
    revert hnodup
    decide +kernel
  · intro h
    have hlast := (h _ _ trackedStart_initial (run_along next _ _)).last (ρ := createdTwice)
    have hneg := hlast (-1) (by decide +kernel)
    revert hneg
    decide

end MBroker.Broker
