import Mathlib.Data.Fintype.Defs
import MBroker.Broker.Ledger

/- The counters of the boxes, against the sessions that run. A subscriber that is let in
   is counted, and its session ends only with the process. A publisher that is let in is
   not, so every box has no publisher by its counter and lets in the next one. Each
   handler is one step: an increment that is lost between two of them is not in it. -/
namespace MBroker.Broker
open MBroker.Lib MBroker.Fs MBroker.Wire Function

open Server

def WorkerPlace.publishes : WorkerPlace → Bool
  | .publishing _ _ => true
  | .waiting | .removing _ | .subscribing _ _ _ => false

def WorkerPlace.subscribes : WorkerPlace → Bool
  | .subscribing _ _ _ => true
  | .waiting | .removing _ | .publishing _ _ => false

namespace Ledger

variable {W : Type} [Fintype W]

/-- The workers in a session of that kind on the box of that creation. -/
def sessions (l : Ledger W) (kind : WorkerPlace → Bool) (serial : Nat) : Finset W :=
  Finset.univ.filter fun w => kind (l.crew.place w) = true ∧ l.sessionBox w = serial

/-- The counter of subscribers of every box is right. -/
def SubscribersCounted (l : Ledger W) : Prop :=
  ∀ i : Nat, i < l.crew.server.size → (l.crew.server.boxes i).numSubscribers.toNat =
    (l.sessions WorkerPlace.subscribes (l.created i).serial).card

/-- At most one publisher is on each box, and both counters are right. -/
structure Counted (l : Ledger W) : Prop where
  one : ∀ i : Nat, i < l.crew.server.size →
    (l.sessions WorkerPlace.publishes (l.created i).serial).card ≤ 1
  publishers : ∀ i : Nat, i < l.crew.server.size → (l.crew.server.boxes i).numPublishers.toNat =
    (l.sessions WorkerPlace.publishes (l.created i).serial).card
  subscribers : l.SubscribersCounted

/-- So it is as long as the broker runs. -/
def Admitted (l : Ledger W) : Prop := l.crew.halt = none → l.Counted

omit [Fintype W] in
/-- The step is the login of a publisher of a box there is. -/
def LetsIn (l : Ledger W) : CrewStep W → Prop
  | .take w _ => ∃ builder queue, l.crew.place w = .waiting ∧ l.crew.queue = builder :: queue ∧
    OpCode.ofCode? (l.crew.server.tasks builder).opcode = some .loginPub ∧
    (l.crew.server.tasks builder).boxName ∈ l.crew.server.names
  | .request _ | .remove _ _ | .publish _ _ | .deliver _ => False

/-- The record tells the boxes apart, and a session is on a box that was created. -/
structure Recorded (l : Ledger W) : Prop where
  serial_lt : ∀ i : Nat, i < l.crew.server.size → (l.created i).serial < l.count
  distinct : ∀ i j : Nat, i < l.crew.server.size → j < l.crew.server.size → i ≠ j →
    (l.created i).serial ≠ (l.created j).serial
  session_lt : ∀ w, (l.crew.place w).publishes = true ∨ (l.crew.place w).subscribes = true →
    l.sessionBox w < l.count
  unpublished : ∀ i : Nat, i < l.crew.server.size → (l.crew.server.boxes i).numPublishers = 0
  subscribed : l.SubscribersCounted

/-- No publisher is on a box of the table. -/
def Vacant (l : Ledger W) : Prop :=
  ∀ i : Nat, i < l.crew.server.size → l.sessions WorkerPlace.publishes (l.created i).serial = ∅

variable {l m : Ledger W} {a : CrewStep W} {d : Crew W} {kind : WorkerPlace → Bool} {serial : Nat}

theorem mem_sessions {w : W} : w ∈ l.sessions kind serial ↔
    kind (l.crew.place w) = true ∧ l.sessionBox w = serial := by
  simp [sessions]

theorem Recorded.counted_iff (hR : l.Recorded) : l.Counted ↔ l.Vacant := by
  refine ⟨?_, ?_⟩
  · intro hC i hi
    have hcard := hC.publishers i hi
    rw [hR.unpublished i hi] at hcard
    exact Finset.card_eq_zero.mp hcard.symm
  · intro hV
    refine ⟨fun i hi => ?_, fun i hi => ?_, hR.subscribed⟩
    · rw [hV i hi, Finset.card_empty]
      exact Nat.zero_le 1
    · rw [hV i hi, hR.unpublished i hi]
      rfl

/-- No session is on a box that is still to be created. -/
theorem Recorded.sessions_count (hR : l.Recorded)
    (hk : kind = WorkerPlace.publishes ∨ kind = WorkerPlace.subscribes) :
    l.sessions kind l.count = ∅ := by
  apply Finset.eq_empty_of_forall_notMem
  intro w hw
  obtain ⟨hplace, hbox⟩ := mem_sessions.mp hw
  have hlt := hR.session_lt w (by rcases hk with rfl | rfl <;> simp [hplace])
  omega

/-! ## Sessions -/

/-- Where no session starts or ends. -/
theorem sessions_same (hplace : ∀ w, kind (m.crew.place w) = kind (l.crew.place w))
    (hbox : ∀ w, kind (l.crew.place w) = true → m.sessionBox w = l.sessionBox w) :
    m.sessions kind serial = l.sessions kind serial := by
  ext w
  rw [mem_sessions, mem_sessions, hplace]
  refine and_congr_right fun hw => ?_
  rw [hbox w hw]

/-- The entries of `m` are entries of `l`, each once, and no session starts or ends. -/
structure Frame (l m : Ledger W) (old : Nat → Nat) : Prop where
  lt : ∀ i, i < m.crew.server.size → old i < l.crew.server.size
  ne : ∀ i j, i ≠ j → old i ≠ old j
  created : ∀ i, i < m.crew.server.size → m.created i = l.created (old i)
  numPublishers : ∀ i, i < m.crew.server.size →
    (m.crew.server.boxes i).numPublishers = (l.crew.server.boxes (old i)).numPublishers
  numSubscribers : ∀ i, i < m.crew.server.size →
    (m.crew.server.boxes i).numSubscribers = (l.crew.server.boxes (old i)).numSubscribers
  count : m.count = l.count
  publishes : ∀ w, (m.crew.place w).publishes = (l.crew.place w).publishes
  subscribes : ∀ w, (m.crew.place w).subscribes = (l.crew.place w).subscribes
  sessionBox : m.sessionBox = l.sessionBox

theorem Recorded.frame {old : Nat → Nat} (hR : l.Recorded) (hF : Frame l m old) : m.Recorded := by
  refine ⟨fun i hi => ?_, fun i j hi hj hij => ?_, fun w hw => ?_, fun i hi => ?_, fun i hi => ?_⟩
  · rw [hF.created i hi, hF.count]
    exact hR.serial_lt _ (hF.lt i hi)
  · rw [hF.created i hi, hF.created j hj]
    exact hR.distinct _ _ (hF.lt i hi) (hF.lt j hj) (hF.ne i j hij)
  · rw [hF.publishes, hF.subscribes] at hw
    rw [hF.sessionBox, hF.count]
    exact hR.session_lt w hw
  · rw [hF.numPublishers i hi]
    exact hR.unpublished _ (hF.lt i hi)
  · rw [hF.numSubscribers i hi, hF.created i hi, hR.subscribed _ (hF.lt i hi),
      sessions_same hF.subscribes fun w _ => congrFun hF.sessionBox w]

theorem Vacant.frame {old : Nat → Nat} (hV : l.Vacant) (hF : Frame l m old) : m.Vacant := by
  intro i hi
  rw [hF.created i hi, sessions_same hF.publishes fun w _ => congrFun hF.sessionBox w]
  exact hV _ (hF.lt i hi)

/-! ## Steps -/

/-- A worker that waited is in a session on the box in entry `i`. -/
structure Started [DecidableEq W] (l m : Ledger W) (w : W) (place : WorkerPlace) (i : Nat) :
    Prop where
  lt : i < l.crew.server.size
  waiting : l.crew.place w = .waiting
  place : m.crew.place = update l.crew.place w place
  size : m.crew.server.size = l.crew.server.size
  created : m.created = l.created
  count : m.count = l.count
  sessionBox : m.sessionBox = update l.sessionBox w (l.created i).serial

/-- What a step does to the table and the sessions, where the process goes on. -/
inductive Change [DecidableEq W] (l m : Ledger W) (letsIn : Prop) : Prop
  | quiet {old : Nat → Nat} (hnot : ¬ letsIn) (hF : Frame l m old)
  | publisher {w : W} {builder : Addr} {i : Nat} (hlets : letsIn)
      (hs : Started l m w (.publishing builder i) i)
      (hboxes : m.crew.server.boxes = l.crew.server.boxes)
  | subscriber {w : W} {builder : Addr} {tfsFd : Int} {bufferBox : Mem} {i : Nat} {fs : FsState}
      (hnot : ¬ letsIn) (hs : Started l m w (.subscribing builder tfsFd bufferBox) i)
      (hroom : (l.crew.server.boxes i).numSubscribers.toNat < 1024)
      (hserver : m.crew.server = l.crew.server.withSubscriber builder i fs)
  | creation {builder : Addr} {fs : FsState} {name : CString} (hnot : ¬ letsIn)
      (hserver : m.crew.server = { l.crew.server with fs }.addBox builder)
      (hpublishes : ∀ w, (m.crew.place w).publishes = (l.crew.place w).publishes)
      (hsubscribes : ∀ w, (m.crew.place w).subscribes = (l.crew.place w).subscribes)
      (hcreated : m.created = update l.created l.crew.server.currentBoxes ⟨l.count, name⟩)
      (hcount : m.count = l.count + 1) (hbox : m.sessionBox = l.sessionBox)

omit [Fintype W] in
/-- A step that changes neither the table nor what kind of session any worker is in. -/
theorem Frame.of_same (hboxes : m.crew.server.boxes = l.crew.server.boxes)
    (hsize : m.crew.server.size = l.crew.server.size) (hcreated : m.created = l.created)
    (hcount : m.count = l.count)
    (hpublishes : ∀ w, (m.crew.place w).publishes = (l.crew.place w).publishes)
    (hsubscribes : ∀ w, (m.crew.place w).subscribes = (l.crew.place w).subscribes)
    (hbox : m.sessionBox = l.sessionBox) : Frame l m fun i => i := by
  refine ⟨fun i hi => hsize ▸ hi, fun i j hij => hij, ?_, ?_, ?_, hcount, hpublishes, hsubscribes,
    hbox⟩
  · intro i _
    rw [hcreated]
  · intro i _
    rw [hboxes]
  · intro i _
    rw [hboxes]

omit [Fintype W] in
theorem Frame.of_without {builder : Addr} {fs : FsState}
    (hserver : m.crew.server = l.crew.server.without builder fs)
    (hcreated : m.created =
      l.crew.server.moved (l.crew.server.tasks builder).boxName l.created)
    (hcount : m.count = l.count)
    (hpublishes : ∀ w, (m.crew.place w).publishes = (l.crew.place w).publishes)
    (hsubscribes : ∀ w, (m.crew.place w).subscribes = (l.crew.place w).subscribes)
    (hbox : m.sessionBox = l.sessionBox) :
    Frame l m (l.crew.server.movedFrom (l.crew.server.tasks builder).boxName) := by
  have hlt : ∀ i, i < m.crew.server.size → i < l.crew.server.size - 1 := by
    intro i hi
    rwa [hserver, size_without] at hi
  refine ⟨fun i hi => movedFrom_lt (hlt i hi), fun i j hij => movedFrom_ne hij, fun i hi => ?_,
    fun i hi => ?_, fun i hi => ?_, hcount, hpublishes, hsubscribes, hbox⟩
  · rw [hcreated, moved_apply l.created (hlt i hi)]
  · rw [hserver] at hi ⊢
    rw [boxes_without hi]
  · rw [hserver] at hi ⊢
    rw [boxes_without hi]

omit [Fintype W] in
theorem letsIn_take_iff {w : W} {stack : Mem} {builder : Addr} {queue : List Addr}
    (hplace : l.crew.place w = .waiting) (hqueue : l.crew.queue = builder :: queue) :
    l.LetsIn (.take w stack) ↔
      OpCode.ofCode? (l.crew.server.tasks builder).opcode = some .loginPub ∧
        (l.crew.server.tasks builder).boxName ∈ l.crew.server.names :=
  Crew.exists_taken_iff hplace hqueue

omit [Fintype W] in
theorem not_letsIn_take {w : W} {stack : Mem} {builder : Addr} {queue : List Addr}
    (hplace : l.crew.place w = .waiting) (hqueue : l.crew.queue = builder :: queue)
    (hop : OpCode.ofCode? (l.crew.server.tasks builder).opcode ≠ some .loginPub) :
    ¬ l.LetsIn (.take w stack) := by
  rw [letsIn_take_iff hplace hqueue]
  exact fun h => hop h.1

variable [DecidableEq W]

theorem Recorded.change (hR : l.Recorded) (h : Crew.Effect l.crew a d) :
    Change l (l.remember d a) (l.LetsIn a) := by
  cases h with
  | request task =>
    exact .quiet (fun h => h) (.of_same rfl rfl rfl rfl (fun _ => rfl) (fun _ => rfl) rfl)
  | @idle w stack builder queue hplace hqueue hcreate hremove hlogin =>
    rw [remember_idle hplace hqueue hremove]
    refine .quiet ?_ (.of_same rfl rfl rfl rfl (fun _ => rfl) (fun _ => rfl) rfl)
    rw [letsIn_take_iff hplace hqueue]
    intro hlets
    obtain ⟨hop, hname⟩ := hlets
    obtain ⟨i, hi, hname⟩ := mem_names.mp hname
    -- a publisher is let in wherever there is a box of the name
    have hone := hlogin hop i hi hname.symm
    rw [hR.unpublished i hi] at hone
    cases hone
  | @login w stack builder queue i hplace hqueue hop hi hname =>
    rw [remember_login hqueue]
    have hmem := mem_names.mpr ⟨i, hi, hname.symm⟩
    exact .publisher ((letsIn_take_iff hplace hqueue).mpr ⟨hop, hmem⟩)
      ⟨hi, hplace, rfl, rfl, rfl, rfl, rfl⟩ rfl
  | @subscribe w stack builder queue i h fs hplace hqueue hop hfirst hs =>
    rw [remember_subscribe hqueue hfirst]
    have hnot : ¬ l.LetsIn (.take w stack) := not_letsIn_take hplace hqueue (by simp [hop])
    have hroom : (l.crew.server.boxes i).numSubscribers.toNat < 1024 :=
      Nat.lt_of_le_of_lt (Nat.le_add_right _ _) hs.1
    have hi := (firstIndex_eq_some.mp hfirst).1
    exact .subscriber hnot ⟨hi, hplace, rfl, rfl, rfl, rfl, rfl⟩ (by omega) rfl
  | @create w stack builder queue h fs hplace hqueue hop =>
    rw [remember_create hqueue]
    exact .creation (not_letsIn_take hplace hqueue (by simp [hop])) rfl
      (Crew.apply_goTo hplace rfl) (Crew.apply_goTo hplace rfl) rfl rfl rfl
  | @removeAsked w stack builder queue fs hplace hqueue hop =>
    rw [remember_removeAsked hqueue hop]
    refine .quiet ?_
      (.of_without rfl rfl rfl (Crew.apply_goTo hplace rfl) (Crew.apply_goTo hplace rfl) rfl)
    exact not_letsIn_take hplace hqueue (by simp [hop])
  | remove hplace =>
    rw [remember_remove hplace]
    exact .quiet (fun h => h)
      (.of_without rfl rfl rfl (Crew.apply_goTo hplace rfl) (Crew.apply_goTo hplace rfl) rfl)
  | publish hplace =>
    exact .quiet (fun h => h)
      (.of_same rfl rfl rfl rfl (Crew.apply_goTo hplace rfl) (Crew.apply_goTo hplace rfl) rfl)
  | deliver hplace =>
    exact .quiet (fun h => h)
      (.of_same rfl rfl rfl rfl (Crew.apply_goTo hplace rfl) (Crew.apply_goTo hplace rfl) rfl)

/-! ## Sessions that start -/

section Start

variable {w : W} {place : WorkerPlace} {i : Nat}

omit [Fintype W] in
theorem Started.others (hs : Started l m w place i) {v : W} (hv : v ≠ w) :
    m.crew.place v = l.crew.place v ∧ m.sessionBox v = l.sessionBox v := by
  rw [hs.place, hs.sessionBox, update_of_ne hv, update_of_ne hv]
  exact ⟨rfl, rfl⟩

/-- The sessions of another kind. -/
theorem Started.sessions_other (hs : Started l m w place i) (hp : kind place = false)
    (hw : kind .waiting = false) : m.sessions kind serial = l.sessions kind serial := by
  apply sessions_same
  · intro v
    by_cases hv : v = w
    · rw [hv, hs.waiting, hs.place, update_self, hp, hw]
    · rw [(hs.others hv).1]
  · intro v hv
    refine (hs.others ?_).2
    intro heq
    rw [heq, hs.waiting, hw] at hv
    cases hv

/-- The sessions of its own kind. -/
theorem Started.sessions_own (hs : Started l m w place i) (hp : kind place = true)
    (hw : kind .waiting = false) : m.sessions kind serial =
      if serial = (l.created i).serial then insert w (l.sessions kind serial)
      else l.sessions kind serial := by
  ext v
  rw [mem_sessions]
  by_cases hv : v = w
  · subst hv
    rw [hs.place, hs.sessionBox, update_self, update_self]
    split
    · next heq => simp [hp, heq]
    · next hne => simp [mem_sessions, hs.waiting, hw, Ne.symm hne]
  · rw [(hs.others hv).1, (hs.others hv).2]
    split <;> simp [mem_sessions, hv]

theorem Started.recorded (hs : Started l m w place i) (hR : l.Recorded)
    (hpublishers : ∀ k : Nat, k < m.crew.server.size →
      (m.crew.server.boxes k).numPublishers = 0) (hsubscribers : m.SubscribersCounted) :
    m.Recorded := by
  refine ⟨?_, ?_, fun v hv => ?_, hpublishers, hsubscribers⟩
  · rw [hs.size, hs.created, hs.count]
    exact hR.serial_lt
  · rw [hs.size, hs.created]
    exact hR.distinct
  · rw [hs.count]
    by_cases hvw : v = w
    · rw [hvw, hs.sessionBox, update_self]
      exact hR.serial_lt i hs.lt
    · rw [(hs.others hvw).1] at hv
      rw [(hs.others hvw).2]
      exact hR.session_lt v hv

end Start

/-- The counter of the box that a subscriber goes to is one more, and no other is. -/
theorem counters_withSubscriber {s : Server} {i : Nat}
    (hroom : (s.boxes i).numSubscribers.toNat < 1024) (builder : Addr) (fs : FsState) (k : Nat) :
    ((s.withSubscriber builder i fs).boxes k).numPublishers = (s.boxes k).numPublishers ∧
      ((s.withSubscriber builder i fs).boxes k).numSubscribers.toNat =
        if k = i then (s.boxes k).numSubscribers.toNat + 1
        else (s.boxes k).numSubscribers.toNat := by
  unfold withSubscriber
  dsimp only
  by_cases hk : k = i
  · subst hk
    rw [update_self, if_pos rfl]
    refine ⟨rfl, ?_⟩
    show ((s.boxes k).numSubscribers + 1).toNat = _
    rw [UInt64.toNat_add]
    show ((s.boxes k).numSubscribers.toNat + 1) % 2 ^ 64 = _
    omega
  · have hne : (k : Int) ≠ i := by omega
    rw [update_of_ne hne, if_neg hk]
    exact ⟨rfl, rfl⟩

variable {letsIn : Prop}

theorem Recorded.of_subscriber {w : W} {builder : Addr} {tfsFd : Int} {bufferBox : Mem} {i : Nat}
    {fs : FsState} (hR : l.Recorded)
    (hs : Started l m w (.subscribing builder tfsFd bufferBox) i)
    (hroom : (l.crew.server.boxes i).numSubscribers.toNat < 1024)
    (hserver : m.crew.server = l.crew.server.withSubscriber builder i fs) : m.Recorded := by
  have hcounters := counters_withSubscriber hroom builder fs
  apply hs.recorded hR
  · intro k hk
    rw [hs.size] at hk
    rw [hserver, (hcounters k).1]
    exact hR.unpublished k hk
  · intro k hk
    rw [hs.size] at hk
    rw [hs.created, hs.sessions_own rfl rfl, hserver, (hcounters k).2, hR.subscribed k hk]
    by_cases hki : k = i
    · subst hki
      rw [if_pos rfl, if_pos rfl, Finset.card_insert_of_notMem]
      intro hmem
      have hplace := (mem_sessions.mp hmem).1
      rw [hs.waiting] at hplace
      cases hplace
    · rw [if_neg hki, if_neg (hR.distinct k i hk hs.lt hki)]

omit [Fintype W] [DecidableEq W] in
/-- An entry after a creation is the new one, with counters of zero, or one of before. -/
theorem creation_cases {builder : Addr} {fs : FsState} {name : CString}
    (hserver : m.crew.server = { l.crew.server with fs }.addBox builder)
    (hcreated : m.created = update l.created l.crew.server.currentBoxes ⟨l.count, name⟩) {i : Nat}
    (hi : i < m.crew.server.size) :
    ((i : Int) = l.crew.server.currentBoxes ∧ (m.created i).serial = l.count ∧
      (m.crew.server.boxes i).numPublishers = 0 ∧ (m.crew.server.boxes i).numSubscribers = 0) ∨
    (i < l.crew.server.size ∧ m.created i = l.created i ∧
      (m.crew.server.boxes i).numPublishers = (l.crew.server.boxes i).numPublishers ∧
      (m.crew.server.boxes i).numSubscribers = (l.crew.server.boxes i).numSubscribers) := by
  rw [hserver] at hi ⊢
  rw [hcreated]
  rcases addBox_cases hi with ⟨hlast, hbox⟩ | ⟨hold, hlt, last, hbox⟩
  · refine .inl ⟨hlast, ?_, ?_, ?_⟩
    · rw [show (i : Int) = l.crew.server.currentBoxes from hlast, update_self]
    · rw [hbox]
      rfl
    · rw [hbox]
      rfl
  · refine .inr ⟨hlt, update_of_ne hold _ _, ?_, ?_⟩
    · rw [hbox]
    · rw [hbox]

omit [DecidableEq W] in
/-- A new box has a serial of its own, and nobody is on it yet. -/
theorem Recorded.of_creation {builder : Addr} {fs : FsState} {name : CString} (hR : l.Recorded)
    (hserver : m.crew.server = { l.crew.server with fs }.addBox builder)
    (hpublishes : ∀ w, (m.crew.place w).publishes = (l.crew.place w).publishes)
    (hsubscribes : ∀ w, (m.crew.place w).subscribes = (l.crew.place w).subscribes)
    (hcreated : m.created = update l.created l.crew.server.currentBoxes ⟨l.count, name⟩)
    (hcount : m.count = l.count + 1) (hbox : m.sessionBox = l.sessionBox) : m.Recorded := by
  have hcases := fun i hi => creation_cases (i := i) hserver hcreated hi
  refine ⟨fun i hi => ?_, fun i j hi hj hij => ?_, fun w hw => ?_, fun i hi => ?_, fun i hi => ?_⟩
  · rw [hcount]
    rcases hcases i hi with ⟨-, hserial, -⟩ | ⟨hlt, hold, -⟩
    · omega
    · rw [hold]
      exact Nat.lt_succ_of_lt (hR.serial_lt i hlt)
  · rcases hcases i hi with ⟨hi, hserial, -⟩ | ⟨hlt, hold, -⟩
    · rcases hcases j hj with ⟨hj, -⟩ | ⟨hlt', hold', -⟩
      · omega
      · rw [hserial, hold']
        exact Nat.ne_of_gt (hR.serial_lt j hlt')
    · rcases hcases j hj with ⟨-, hserial', -⟩ | ⟨hlt', hold', -⟩
      · rw [hserial', hold]
        exact Nat.ne_of_lt (hR.serial_lt i hlt)
      · rw [hold, hold']
        exact hR.distinct i j hlt hlt' hij
  · rw [hpublishes, hsubscribes] at hw
    rw [hbox, hcount]
    exact Nat.lt_succ_of_lt (hR.session_lt w hw)
  · rcases hcases i hi with ⟨-, -, hzero, -⟩ | ⟨hlt, -, hsame, -⟩
    · exact hzero
    · exact hsame.trans (hR.unpublished i hlt)
  · rw [sessions_same hsubscribes fun w _ => congrFun hbox w]
    rcases hcases i hi with ⟨-, hserial, -, hzero⟩ | ⟨hlt, hold, -, hsame⟩
    · rw [hserial, hR.sessions_count (.inr rfl), hzero]
      rfl
    · rw [hold, hsame]
      exact hR.subscribed i hlt

theorem Recorded.of_change (hR : l.Recorded) (h : Change l m letsIn) : m.Recorded := by
  cases h with
  | quiet hnot hF => exact hR.frame hF
  | publisher _ hs hboxes =>
    apply hs.recorded hR
    · rw [hs.size, hboxes]
      exact hR.unpublished
    · intro k hk
      rw [hs.size] at hk
      rw [hboxes, hs.created, hs.sessions_other rfl rfl, hR.subscribed k hk]
  | subscriber _ hs hroom hserver => exact hR.of_subscriber hs hroom hserver
  | creation _ hserver hpublishes hsubscribes hcreated hcount hbox =>
    exact hR.of_creation hserver hpublishes hsubscribes hcreated hcount hbox

/-- A publisher is on a box of the table exactly from the first that is let in. -/
theorem Vacant.change_iff (hR : l.Recorded) (hV : l.Vacant) (h : Change l m letsIn) :
    m.Vacant ↔ ¬ letsIn := by
  cases h with
  | quiet hnot hF => exact iff_of_true (hV.frame hF) hnot
  | @publisher w builder i hlets hs hboxes =>
    refine iff_of_false (fun hV' => ?_) (fun hnot => hnot hlets)
    have hempty := hV' i (by rw [hs.size]; exact hs.lt)
    rw [hs.created, hs.sessions_own rfl rfl, if_pos rfl] at hempty
    exact Finset.insert_ne_empty w _ hempty
  | subscriber hnot hs hroom hserver =>
    refine iff_of_true (fun k hk => ?_) hnot
    rw [hs.size] at hk
    rw [hs.created, hs.sessions_other rfl rfl]
    exact hV k hk
  | creation hnot hserver hpublishes _ hcreated _ hbox =>
    refine iff_of_true (fun i hi => ?_) hnot
    rw [sessions_same hpublishes fun w _ => congrFun hbox w]
    rcases creation_cases hserver hcreated hi with ⟨-, hserial, -⟩ | ⟨hlt, hold, -⟩
    · rw [hserial]
      exact hR.sessions_count (.inl rfl)
    · rw [hold]
      exact hV i hlt

/-! ## Runs -/

/-- While the broker runs: a sound file system, and a record that is in order. -/
def Orderly (l : Ledger W) : Prop := l.Sound ∧ (l.crew.halt = none → l.Recorded)

omit [DecidableEq W] in
theorem Initial.recorded (h : l.Initial) : l.Recorded := by
  refine ⟨fun i hi => ?_, fun i j hi => ?_, fun w hw => ?_, fun i hi => ?_, fun i hi => ?_⟩
  · exact absurd hi (h.no_box i)
  · exact absurd hi (h.no_box i)
  · rw [h.place w] at hw
    rcases hw with hw | hw <;> cases hw
  · exact absurd hi (h.no_box i)
  · exact absurd hi (h.no_box i)

theorem Orderly.step (hO : l.Orderly) (h : l.Steps a m) : m.Orderly := by
  refine ⟨hO.1.step h, ?_⟩
  obtain ⟨ha, d, rfl, heffect⟩ := h.effect hO.1
  intro hd
  rw [remember_crew] at hd
  exact (hO.2 ha).of_change ((hO.2 ha).change (heffect hd))

omit [Fintype W] in
/-- A publisher's login does not end the process. -/
theorem LetsIn.halt {d : Crew W} (ha : l.crew.halt = none) (h : l.crew.Steps a d)
    (hlets : l.LetsIn a) : d.halt = none := by
  obtain ⟨-, hmove⟩ := Crew.Steps.move h
  cases hmove with
  | @take w stack builder queue op hplace hqueue hop =>
    obtain ⟨hcode, -⟩ := (letsIn_take_iff hplace hqueue).mp hlets
    rw [hop, Option.some.injEq] at hcode
    subst hcode
    show (Crew.settle _ w .waiting
      (l.crew.server.pubLoop builder l.crew.server.size 0)).halt = none
    rcases pubLoop_phase l.crew.server builder l.crew.server.size 0 with hidle | ⟨i, hi⟩
    · rw [Crew.settle_ok (Crew.place_idle hidle)]
      exact ha
    · rw [Crew.settle_ok (Crew.place_publishing hi)]
      exact ha
  | skip => exact ha
  | request | remove | publish | deliver => exact hlets.elim

theorem Orderly.admitted_iff (hO : l.Orderly) (hA : l.Admitted) (h : l.Steps a m) :
    m.Admitted ↔ ¬ l.LetsIn a := by
  obtain ⟨ha, d, rfl, heffect⟩ := h.effect hO.1
  obtain ⟨hstep, -⟩ := h.crew
  rw [remember_crew] at hstep
  have hR := hO.2 ha
  have hV : l.Vacant := hR.counted_iff.mp (hA ha)
  unfold Admitted
  rw [remember_crew]
  apply running_iff
  · intro hlets
    exact hlets.halt ha hstep
  · intro hd
    have hchange := hR.change (heffect hd)
    rw [(hR.of_change hchange).counted_iff]
    exact hV.change_iff hR hchange

/-- Along a run of whole handlers and turns there is at most one publisher on each box and
both counters are right exactly when no publisher of a box there is logs in; the counters of
subscribers always are. -/
theorem sessions_admitted_iff {ρ : List (CrewStep W × Ledger W)} (h0 : l.Initial)
    (hr : Run Steps l ρ) :
    (EveryState Admitted l ρ ↔ EveryStep (fun l a => ¬ l.LetsIn a) l ρ) ∧
      EveryState (fun l => l.crew.halt = none → l.SubscribersCounted) l ρ := by
  have hstart : l.Orderly := ⟨h0.sound, fun _ => h0.recorded⟩
  have hadmitted : l.Admitted := by
    intro _
    exact h0.recorded.counted_iff.mpr fun i hi => absurd hi (h0.no_box i)
  refine ⟨?_, ?_⟩
  · apply Run.everyState_iff (I := Orderly) _ _ hstart hadmitted hr
    · intro l a m hO hst
      exact hO.step hst
    · intro l a m hO hA hst
      exact hO.admitted_iff hA hst
  · have hall : EveryState Orderly l ρ :=
      Run.invariant (fun l a m hO hst => hO.step hst) hstart hr
    exact hall.mono fun l hO ha => (hO.2 ha).subscribed

/-- The broker started, with two workers and nothing recorded. -/
def blankPair : Ledger Bool where
  crew := ⟨started, [], fun _ => .waiting, none⟩
  created := fun _ => ⟨0, pathB⟩
  count := 0
  sessionBox := fun _ => 0

theorem blankPair_initial : blankPair.Initial := ⟨started_initial, rfl, fun _ => rfl, rfl⟩

/-- A publisher of `/b` logs in as soon as the box is there. -/
def publication : List (CrewStep Bool × Ledger Bool) :=
  along next blankPair [.request (requestFor .createBox pathB), .take true fun _ => 0,
    .request (requestFor .loginPub pathB), .take false fun _ => 0]

theorem sessions_admitted_iff_publication :
    (EveryState Admitted blankPair publication ↔
      EveryStep (fun l a => ¬ l.LetsIn a) blankPair publication) ∧
      EveryState (fun l => l.crew.halt = none → l.SubscribersCounted) blankPair publication :=
  sessions_admitted_iff blankPair_initial (run_along _ _ _)

/-- It is not counted. -/
theorem publisher_not_counted : ¬ ∀ (l : Ledger Bool) ρ, l.Initial → Run Steps l ρ →
    EveryState Admitted l ρ := by
  intro h
  have hlast := (h blankPair publication blankPair_initial (run_along _ _ _)).last
  have halive : (lastState blankPair publication).crew.halt = none := by decide +kernel
  have hbox : 0 < (lastState blankPair publication).crew.server.size := by decide +kernel
  have hcard := (hlast halive).publishers 0 hbox
  revert hcard
  decide +kernel

end Ledger

end MBroker.Broker
