import MBroker.Broker.Framing
import MBroker.Clients.Login
import MBroker.Clients.Request
import MBroker.Clients.SendLoop
import MBroker.Lib.Pipes

/- The clients from the start of their `main` to the end: publisher/pub.c, subscriber/sub.c
   and manager/manager.c, with each one's `start_server_connection`. A client is in a system
   call, and goes on as that comes back. It may come back in any way at any time, but for
   an `open` of a pipe, and whatever is read is read.

   A publisher and a subscriber log in first and then open the pipe they have made, to read
   the answer. A manager opens its own before it asks for anything. -/
namespace MBroker.Clients
open MBroker.Lib MBroker.Wire
open MBroker.Fs (CString)
open MBroker.Broker (Receiver messageSize)

/-- How the system call that a client is in comes back. -/
inductive Return where
  /-- With -1. -/
  | fails
  | succeeds
  /-- A `read`, with what it got; `buffer` and `stack` are what stood from the buffer on and
  what the decoder's local held. -/
  | reads (bytes : List UInt8) (buffer stack : Mem)
  /-- The client has only just come to an `open`. -/
  | comes
  /-- An `open` with a descriptor. -/
  | opens
  /-- The next step of the publisher's loop, with its locals. -/
  | sends (stack : SendLocals)
  /-- Not at all: a signal comes. -/
  | signal

variable {P : Type}

/-- A call that comes back well or not. -/
def calling (succeeded failed : P) : Return → Option (Event CString × P)
  | .succeeds => some (.inner, succeeded)
  | .fails => some (.inner, failed)
  | _ => none

/-- An `open`, which there is no file of the empty name for. -/
def opening (path : CString) (side : PipeEnd) (here opened failed : P) :
    Return → Option (Event CString × P)
  | .comes => some (.asks path side, here)
  | .opens => if path.bytes = [] then none else some (.gets path side, opened)
  | .fails => some (.inner, failed)
  | _ => none

/-- What stands in a buffer after a `read` into it. -/
def readOver (buffer : Mem) (bytes : List UInt8) : Mem :=
  buffer.write 0 bytes.length (Mem.padded bytes)

/-- The arguments of a client. -/
structure Args where
  registerPipe : CString
  ownPipe : CString
  boxName : CString
  /-- What comes from the standard input. -/
  stdin : List (List UInt8)
  /-- What the stack of a subscriber held from `sub_res` on. -/
  subRes : Mem
  /-- What a manager is asked for; none where it does not know the word. -/
  typeRequest : Option Command

/-- What comes of the answer to a login, an `int` over what `server_return` held. -/
def answer (ended opening : P) (bytes : List UInt8) (buffer : Mem) : Option (Event CString × P) :=
  if 4 < bytes.length then none
  else if (readOver buffer bytes).loadInt 0 = -1 then some (.inner, ended)
  else some (.inner, opening)

/-! ## Publisher -/

inductive PublisherPlace where
  | making
  | openingServer
  | loggingIn
  | openingForAnswer
  | readingAnswer
  | openingForMessages
  | sending (sender : Sender)
  | ended

/-- Past the `open` of the pipe it made. -/
def PublisherPlace.Served : PublisherPlace → Prop
  | .readingAnswer | .openingForMessages | .sending _ => True
  | .making | .openingServer | .loggingIn | .openingForAnswer | .ended => False

namespace Publisher

instance (pipeName boxName : CString) : Decidable (Accepted pipeName boxName) :=
  inferInstanceAs (Decidable (¬ _))

def start (args : Args) : PublisherPlace :=
  if Accepted args.ownPipe args.boxName then .making else .ended

def next (args : Args) : PublisherPlace → Return → Option (Event CString × PublisherPlace)
  | .making, r => calling .openingServer .ended r
  | .openingServer, r => opening args.registerPipe .writing .openingServer .loggingIn .ended r
  | .loggingIn, r => calling .openingForAnswer .ended r
  | .openingForAnswer, r => opening args.ownPipe .reading .openingForAnswer .readingAnswer .ended r
  | .readingAnswer, .reads bytes buffer _ => answer .ended .openingForMessages bytes buffer
  | .readingAnswer, .fails => some (.inner, .ended)
  | .openingForMessages, r =>
    opening args.ownPipe .writing .openingForMessages (.sending (.start args.stdin)) .ended r
  | .sending sender, .sends stack =>
    match sender.next args.ownPipe stack with
    | none => some (.inner, .ended)
    | some sender => some (.inner, .sending sender)
  | .sending _, .fails => some (.inner, .ended)
  | .sending sender, .signal =>
    -- the handler is set before the first message
    some (.inner,
      if sender.sent = [] then .ended else .sending { sender with sessionActive := false })
  | _, _ => none

end Publisher

/-! ## Subscriber -/

inductive SubscriberPlace where
  | making
  | openingServer
  | loggingIn
  | openingForAnswer
  | readingAnswer
  | openingForMessages
  | receiving (receiver : Receiver) (sessionActive : Bool)
  | ended

def SubscriberPlace.Served : SubscriberPlace → Prop
  | .readingAnswer | .openingForMessages | .receiving _ _ => True
  | .making | .openingServer | .loggingIn | .openingForAnswer | .ended => False

namespace Subscriber

/-- A turn of the loop, with what its `read` got. -/
def receive (receiver : Receiver) (sessionActive : Bool) (bytes : List UInt8) (stack : Mem) :
    SubscriberPlace :=
  if bytes = [] then
    -- the guard of the outer loop
    if sessionActive then .receiving receiver sessionActive else .ended
  else
    let receiver := Receiver.turn { receiver with pipe := bytes } stack
    if receiver.halt.isSome then .ended else .receiving receiver sessionActive

def next (args : Args) : SubscriberPlace → Return → Option (Event CString × SubscriberPlace)
  | .making, r => calling .openingServer .ended r
  | .openingServer, r => opening args.registerPipe .writing .openingServer .loggingIn .ended r
  | .loggingIn, r => calling .openingForAnswer .ended r
  | .openingForAnswer, r => opening args.ownPipe .reading .openingForAnswer .readingAnswer .ended r
  | .readingAnswer, .reads bytes buffer _ => answer .ended .openingForMessages bytes buffer
  | .readingAnswer, .fails => some (.inner, .ended)
  | .openingForMessages, r =>
    opening args.ownPipe .reading .openingForMessages
      (.receiving ⟨[], args.subRes, 0, none, [], []⟩ true) .ended r
  | .receiving receiver sessionActive, .reads bytes _ stack =>
    if bytes.length ≤ messageSize then some (.inner, receive receiver sessionActive bytes stack)
    else none
  | .receiving receiver sessionActive, .fails =>
    some (.inner, if sessionActive then .receiving receiver sessionActive else .ended)
  | .receiving receiver _, .signal =>
    -- the handler is set after the first message
    some (.inner, if receiver.numMessages = 0 then .ended else .receiving receiver false)
  | _, _ => none

end Subscriber

/-! ## Manager -/

/-- What a manager prints. -/
inductive Told where
  | nothing
  | ok
  | error (text : CString)
  | noBoxes

inductive ManagerPlace where
  | making
  | openingOwn
  | remaking (command : Command)
  | openingServer (command : Command)
  | requesting (command : Command)
  | readingAnswer (command : Command)
  | readingNumBoxes (told : Told)
  | readingBoxNames (told : Told)
  | ended (told : Told)

def ManagerPlace.Served : ManagerPlace → Prop
  | .making | .openingOwn | .ended .nothing => False
  | _ => True

namespace Manager

/-- `sizeof` the buffer an answer is read into. -/
def responseSize : Command → Nat
  | .create | .remove => 1031
  | .list => 63

def tell (answer : Task) : Command → Told
  | .create | .remove => if answer.returnValue = 0 then .ok else .error answer.error
  | .list => if answer.returnValue = 0 then .nothing else .noBoxes

/-- What follows the answer: the end, or for a list the reads of `main`. -/
def after (told : Told) : Command → ManagerPlace
  | .create | .remove => .ended told
  | .list => .readingNumBoxes told

def answered (command : Command) (response stack : Mem) : ManagerPlace :=
  match bufferString response (responseSize command) with
  | none => .ended .nothing
  | some building =>
    match stringToTask stack building with
    | .error _ => .ended .nothing
    | .ok answer => after (tell answer command) command

def next (args : Args) : ManagerPlace → Return → Option (Event CString × ManagerPlace)
  | .making, r => calling .openingOwn (.ended .nothing) r
  | .openingOwn, r =>
    let opened :=
      match args.typeRequest with
      | none => .ended .nothing
      | some command => .remaking command
    opening args.ownPipe .reading .openingOwn opened (.ended .nothing) r
  | .remaking command, r => calling (.openingServer command) (.ended .nothing) r
  | .openingServer command, r =>
    opening args.registerPipe .writing (.openingServer command) (.requesting command)
      (.ended .nothing) r
  | .requesting command, r => calling (.readingAnswer command) (.ended .nothing) r
  | .readingAnswer command, .reads bytes buffer stack =>
    if bytes.length ≤ responseSize command then
      some (.inner, answered command (readOver buffer bytes) stack)
    else none
  | .readingAnswer _, .fails => some (.inner, .ended .nothing)
  | .readingNumBoxes told, .reads _ _ _ => some (.inner, .readingBoxNames told)
  | .readingNumBoxes told, .fails => some (.inner, .ended told)
  | .readingBoxNames told, .reads _ _ _ => some (.inner, .ended told)
  | .readingBoxNames told, .fails => some (.inner, .ended told)
  | _, _ => none

end Manager

/-! ## Before a client has opened its pipe -/

/-- What a process can do that has not been served; `served` is whether it has been then. -/
inductive Shy (register : CString) (own : Option CString) (served : Prop) : Event CString → Prop
  | inner (h : ¬ served) : Shy register own served .inner
  | asksRegister {side : PipeEnd} (h : ¬ served) : Shy register own served (.asks register side)
  | asksOwn {name : CString} (hown : own = some name) (h : ¬ served) :
      Shy register own served (.asks name .reading)
  | asksNowhere {name : CString} {side : PipeEnd} (hname : name.bytes = []) (h : ¬ served) :
      Shy register own served (.asks name side)
  | getsRegister {side : PipeEnd} (hname : register.bytes ≠ []) (h : ¬ served) :
      Shy register own served (.gets register side)
  | getsOwn {name : CString} (hown : own = some name) (hname : name.bytes ≠ []) :
      Shy register own served (.gets name .reading)

section Shy

variable {P : Type} {Served : P → Prop} {register : CString} {own : Option CString}
  {here succeeded failed p : P} {r : Return} {event : Event CString} {args : Args}

theorem Shy.calling (h : calling succeeded failed r = some (event, p)) (hs : ¬ Served succeeded)
    (hf : ¬ Served failed) : Shy register own (Served p) event := by
  cases r <;> cases h
  · exact .inner hf
  · exact .inner hs

theorem Shy.openingRegister {side : PipeEnd}
    (h : opening register side here succeeded failed r = some (event, p)) (hh : ¬ Served here)
    (hs : ¬ Served succeeded) (hf : ¬ Served failed) : Shy register own (Served p) event := by
  cases r with
  | fails =>
    cases h
    exact .inner hf
  | comes =>
    cases h
    exact .asksRegister hh
  | opens =>
    simp only [opening] at h
    split at h
    · cases h
    · next hname =>
      cases h
      exact .getsRegister hname hs
  | succeeds | reads | sends | signal => cases h

theorem Shy.openingOwn {path : CString}
    (h : opening path .reading here succeeded failed r = some (event, p)) (hh : ¬ Served here)
    (hf : ¬ Served failed) : Shy register (some path) (Served p) event := by
  cases r with
  | fails =>
    cases h
    exact .inner hf
  | comes =>
    cases h
    exact .asksOwn rfl hh
  | opens =>
    simp only [opening] at h
    split at h
    · cases h
    · next hname =>
      cases h
      exact .getsOwn rfl hname
  | succeeds | reads | sends | signal => cases h

theorem Publisher.shy {place q : PublisherPlace}
    (h : Publisher.next args place r = some (event, q)) (hs : ¬ place.Served) :
    Shy args.registerPipe (some args.ownPipe) q.Served event := by
  cases place with
  | making => exact .calling h id id
  | openingServer => exact .openingRegister h id id id
  | loggingIn => exact .calling h id id
  | openingForAnswer => exact .openingOwn h id id
  | readingAnswer | openingForMessages | sending => exact absurd trivial hs
  | ended => cases h

theorem Subscriber.shy {place q : SubscriberPlace}
    (h : Subscriber.next args place r = some (event, q)) (hs : ¬ place.Served) :
    Shy args.registerPipe (some args.ownPipe) q.Served event := by
  cases place with
  | making => exact .calling h id id
  | openingServer => exact .openingRegister h id id id
  | loggingIn => exact .calling h id id
  | openingForAnswer => exact .openingOwn h id id
  | readingAnswer | openingForMessages | receiving => exact absurd trivial hs
  | ended => cases h

theorem Manager.shy {place q : ManagerPlace}
    (h : Manager.next args place r = some (event, q)) (hs : ¬ place.Served) :
    Shy args.registerPipe (some args.ownPipe) q.Served event := by
  cases place with
  | making => exact .calling h id id
  | openingOwn => exact .openingOwn h id id
  | ended => cases h
  | _ => exact absurd trivial hs

end Shy

end MBroker.Clients
