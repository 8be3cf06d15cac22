import MBroker.Broker.Pipes

/- Any number of brokers and clients, each at its own steps, in any order. A client that
   opens the pipe it has made waits there for someone to open the other end. The broker
   would, but by the path in the task it decoded, and the decoder leaves every path empty.
   So no client ever gets past that `open`, no manager has sent a request, and no broker is
   in a session (`none_is_served`). -/
namespace MBroker.Broker
open MBroker.Lib MBroker.Fs MBroker.Wire MBroker.Clients Function

/-! ## Processes -/

inductive Process (W : Type) where
  | publisher (args : Args) (place : PublisherPlace)
  | subscriber (args : Args) (place : SubscriberPlace)
  | manager (args : Args) (place : ManagerPlace)
  | broker (b : Piped W)

inductive Choice (W : Type) where
  | client (r : Return)
  | broker (a : PipedStep W)

namespace Process

variable {W : Type}

def next [DecidableEq W] : Process W → Choice W → Option (Event CString × Process W)
  | .publisher args place, .client r =>
    (Publisher.next args place r).map fun x => (x.1, .publisher args x.2)
  | .subscriber args place, .client r =>
    (Subscriber.next args place r).map fun x => (x.1, .subscriber args x.2)
  | .manager args place, .client r =>
    (Manager.next args place r).map fun x => (x.1, .manager args x.2)
  | .broker b, .broker a => (b.next a).map fun x => (x.1, .broker x.2)
  | _, _ => none

/-- At its start. -/
def Starts : Process W → Prop
  | .publisher args place => place = Publisher.start args
  | .subscriber _ place => place = .making
  | .manager _ place => place = .making
  | .broker b => b.main = .openingServer ∧ b.crew.Initial ∧ ∀ w, b.handling w = none

def registerPipe : Process W → CString
  | .publisher args _ | .subscriber args _ | .manager args _ => args.registerPipe
  | .broker b => b.pipeName

/-- The pipe a client makes. -/
def ownPipe : Process W → Option CString
  | .publisher args _ | .subscriber args _ | .manager args _ => some args.ownPipe
  | .broker _ => none

/-- A client has opened its pipe, or a worker is in a session. -/
def Served : Process W → Prop
  | .publisher _ place => place.Served
  | .subscriber _ place => place.Served
  | .manager _ place => place.Served
  | .broker b => ∃ w, (b.crew.place w).session.isSome

/-! ## Steps -/

variable [DecidableEq W] {R : CString → Prop} {p q : Process W} {a : Choice W}
  {event : Event CString}

/-- Not served, and as it was given its names: `R` are the names of register pipes. -/
structure Outside (R : CString → Prop) (p : Process W) : Prop where
  notServed : ¬ p.Served
  register : R p.registerPipe
  own : ∀ name, p.ownPipe = some name → ¬ R name
  unnamed : ∀ b, p = .broker b → b.Unnamed

/-- What an unserved process does, and that it keeps its names. -/
theorem Outside.next (ho : p.Outside R) (h : p.next a = some (event, q)) :
    Shy p.registerPipe p.ownPipe q.Served event ∧ q.registerPipe = p.registerPipe ∧
      q.ownPipe = p.ownPipe ∧ ∀ b, q = .broker b → b.Unnamed := by
  unfold Process.next at h
  split at h
  · obtain ⟨⟨_, place⟩, hnext, heq⟩ := Option.map_eq_some_iff.mp h
    cases heq
    exact ⟨Publisher.shy hnext ho.notServed, rfl, rfl, nofun⟩
  · obtain ⟨⟨_, place⟩, hnext, heq⟩ := Option.map_eq_some_iff.mp h
    cases heq
    exact ⟨Subscriber.shy hnext ho.notServed, rfl, rfl, nofun⟩
  · obtain ⟨⟨_, place⟩, hnext, heq⟩ := Option.map_eq_some_iff.mp h
    cases heq
    exact ⟨Manager.shy hnext ho.notServed, rfl, rfl, nofun⟩
  · next b a =>
    obtain ⟨⟨_, b'⟩, hnext, heq⟩ := Option.map_eq_some_iff.mp h
    cases heq
    obtain ⟨hunnamed, hname, hshy⟩ := (ho.unnamed b rfl).next hnext
    refine ⟨hshy, hname, rfl, fun b hb => ?_⟩
    cases hb
    exact hunnamed
  · cases h

theorem Outside.step (ho : p.Outside R) (h : p.next a = some (event, q)) (hs : ¬ q.Served) :
    q.Outside R := by
  obtain ⟨-, hregister, hown, hunnamed⟩ := ho.next h
  exact ⟨hs, hregister ▸ ho.register, hown ▸ ho.own, hunnamed⟩

/-- The pipes that are no register's are first opened by those who made them, to read. -/
theorem unmet (R : CString → Prop) :
    Unmet (next (W := W)) (fun name => name.bytes ≠ [] ∧ ¬ R name) .reading (Outside R) where
  inner := by
    intro p a q ho h
    cases (ho.next h).1 with
    | inner hs => exact ho.step h hs
  asks := by
    intro p a q name side ho h
    cases (ho.next h).1 with
    | asksRegister hs => exact ⟨fun hK => absurd ho.register hK.2, ho.step h hs⟩
    | asksOwn hown hs => exact ⟨fun _ => rfl, ho.step h hs⟩
    | asksNowhere hname hs => exact ⟨fun hK => absurd hname hK.1, ho.step h hs⟩
  gets := by
    intro p a q name side ho h
    cases (ho.next h).1 with
    | getsRegister hname hs => exact ⟨fun hK => absurd ho.register hK.2, fun _ => ho.step h hs⟩
    | getsOwn hown hname => exact ⟨fun _ => rfl, fun hno => absurd ⟨hname, ho.own _ hown⟩ hno⟩

omit [DecidableEq W] in
theorem Starts.outside (h : p.Starts) (hregister : R p.registerPipe)
    (hown : ∀ name, p.ownPipe = some name → ¬ R name) : p.Outside R := by
  cases p with
  | publisher args place =>
    refine ⟨?_, hregister, hown, nofun⟩
    show ¬ place.Served
    rw [show place = Publisher.start args from h]
    unfold Publisher.start
    split <;> exact id
  | subscriber args place =>
    refine ⟨?_, hregister, hown, nofun⟩
    show ¬ place.Served
    rw [show place = .making from h]
    exact id
  | manager args place =>
    refine ⟨?_, hregister, hown, nofun⟩
    show ¬ place.Served
    rw [show place = .making from h]
    exact id
  | broker b =>
    obtain ⟨-, hinit, hhandling⟩ := h
    have hunnamed : b.Unnamed := by
      refine ⟨fun w => ?_, fun builder hmem => ?_, fun w builder hat => ?_, fun w hd hw => ?_⟩
      · rw [hinit.place w]
        rfl
      · rw [hinit.queue] at hmem
        cases hmem
      · rw [hinit.place w] at hat
        cases hat
      · rw [hhandling w] at hw
        cases hw
    refine ⟨hunnamed.not_served, hregister, hown, fun b' hb => ?_⟩
    cases hb
    exact hunnamed

end Process

/-! ## Any number of processes -/

section Net

variable {W T : Type} [DecidableEq W] [DecidableEq T] {n : Net T (Process W) CString}
  {ρ : List ((T × Choice W) × Net T (Process W) CString)}

/-- Every process is at its start, and no client has made its pipe at the name of a
register. -/
structure Fresh (n : Net T (Process W) CString) : Prop where
  starts : ∀ t, (n.place t).Starts
  asked : n.asked = []
  apart : ∀ t u name, (n.place t).ownPipe = some name → name ≠ (n.place u).registerPipe

/-- In whatever order any number of brokers and clients take their steps, no client opens
the pipe it has made, no broker begins a session, and the only pipes that are ever opened
are the registers. -/
theorem none_is_served (hf : Fresh n) (hr : Run (Net.Steps Process.next) n ρ) :
    EveryState (fun m => ∀ t, ¬ (m.place t).Served) n ρ ∧
      EveryStep (fun m x => ∀ name side q, (m.place x.1).next x.2 = some (.gets name side, q) →
        ∃ t, name = (n.place t).registerPipe) n ρ := by
  have hw : Unmet.Waiting (fun name => name.bytes ≠ [] ∧
      ¬ ∃ t, name = (n.place t).registerPipe) .reading
      (Process.Outside fun name => ∃ t, name = (n.place t).registerPipe) n := by
    refine ⟨fun t => ?_, fun name _ => ?_⟩
    · apply (hf.starts t).outside ⟨t, rfl⟩
      rintro name hown ⟨u, hu⟩
      exact hf.apart t u name hown hu
    · rw [hf.asked]
      exact List.not_mem_nil
  obtain ⟨hstates, hsteps⟩ := (Process.unmet _).stuck hw hr
  refine ⟨hstates.mono fun m hm t => (hm t).notServed, ?_⟩
  have hboth := hstates.everyStep.and hsteps
  refine hboth.mono fun m x hx name side q hgets => ?_
  have hopens := hx.2 name side q hgets
  -- and the name is one
  have hname : name.bytes ≠ [] := by
    cases ((hx.1 x.1).next hgets).1 with
    | getsRegister hname => exact hname
    | getsOwn hown hname => exact hname
  by_contra hno
  exact hopens ⟨hname, hno⟩

end Net

/-! ## A publisher and a broker -/

def loginArgs : Args := ⟨pathA, pathB, pathA, [], fun _ => 0, none⟩

def brokerAndPublisher : Net Bool (Process Unit) CString where
  place t :=
    if t then .broker ⟨pathA, .openingServer, Crew.rested, fun _ => none⟩
    else .publisher loginArgs (Publisher.start loginArgs)
  asked := []

theorem brokerAndPublisher_fresh : Fresh brokerAndPublisher where
  starts t := by
    cases t
    · exact rfl
    · exact ⟨rfl, Crew.rested_initial, fun _ => rfl⟩
  asked := rfl
  apart t u name h := by
    have hname : name = pathB := by
      cases t <;> cases h
      rfl
    have hregister : (brokerAndPublisher.place u).registerPipe = pathA := by cases u <;> rfl
    rw [hname, hregister]
    decide

/-- Both open the register, and the publisher logs in and comes to its own pipe. -/
def loggingIn : List ((Bool × Choice Unit) × Net Bool (Process Unit) CString) :=
  along (Net.next Process.next) brokerAndPublisher
    [(true, .broker .comes), (false, .client .succeeds), (false, .client .comes),
      (false, .client .opens), (true, .broker .opens), (false, .client .succeeds),
      (false, .client .comes)]

theorem none_is_served_loggingIn :
    EveryState (fun m => ∀ t, ¬ (m.place t).Served) brokerAndPublisher loggingIn ∧
      EveryStep (fun m x => ∀ name side q, (m.place x.1).next x.2 = some (.gets name side, q) →
        ∃ t, name = (brokerAndPublisher.place t).registerPipe) brokerAndPublisher loggingIn :=
  none_is_served brokerAndPublisher_fresh (run_along _ _ _)

/-- It gets that far. -/
example : (lastState brokerAndPublisher loggingIn).asked =
    [(pathB, .reading), (pathA, .writing), (pathA, .reading)] := by decide +kernel

end MBroker.Broker
