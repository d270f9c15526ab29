import DatagramTransport.Listener.Admission
import DatagramTransport.Listener.Dispatch
import DatagramTransport.Listener.Worker

/-!
# A listener, its application and its peers

A session runs a listener under an application with a fixed policy, and
records what the application was told and what the peers received. All
datagrams of a burst are sorted before anything that they set in motion
runs; then each task runs to its end, in the order in which it came up.

An action that refers to something that does not exist is answered so, and
nothing else about it is looked at; only then is its reason code read.
-/

set_option autoImplicit false

namespace DatagramTransport

inductive Policy where
  | accept
  | reject (reason : DisconnectReason)
  | keep
  deriving DecidableEq, Repr

inductive Note where
  | requested (address : String) (packet : Connect) (handled : Bool)
  | accepted (member : Option Nat) (handled : Bool)
  | rejected (handled : Bool)
  | connected (member : Nat)
  | received (member : Nat) (message : Message)
  | disconnected (member : Nat) (reason : DisconnectReason)
  | echoFailed (error : Error)
  deriving DecidableEq, Repr

structure Session where
  /-- The session id that every draw of a random one comes to. -/
  sessionId : UInt16
  policy : Policy
  echo : Bool
  listener : Listener
  /-- Whether the application still has the listener. -/
  attached : Bool
  kept : List Nat
  /-- Microseconds since the listener was bound. -/
  clock : Nat
  notes : List Note
  sent : List (String × Bytes)
  deriving DecidableEq

/-- What happens in a session from outside. Reasons are given by their code. -/
inductive Action where
  | burst (datagrams : List (String × Bytes))
  | sendTo (address : String) (channel : UInt8) (message : Bytes)
  | send (member : Nat) (channel : UInt8) (message : Bytes)
  | disconnect (member : Nat) (reason : UInt8)
  | accept (kept : Nat)
  | reject (kept : Nat) (reason : UInt8)
  | lookup (address : String)
  | advance (microseconds : Nat)
  | stop
  | abandon
  deriving DecidableEq, Repr

inductive Reply where
  | done
  | absent
  | sent (result : Except Error Unit)
  | accepted (before : Bool) (member : Option Nat) (after : Bool)
  | rejected (before after : Bool)
  | found (member : Option Nat)
  | released

namespace Session

def start (sessionId : UInt16) (policy : Policy) (echo : Bool) (config : Config) :
    Except Error Session := do
  return { sessionId, policy, echo, listener := ← Listener.bind config, attached := true, kept := []
           clock := 0, notes := [], sent := [] }

def now (s : Session) : UInt32 := pingTime s.clock

def note (s : Session) (n : Note) : Session :=
  { s with notes := s.notes ++ [n] }

def absorb {α : Type} (s : Session) (e : Effect α) : Session :=
  { s with listener := e.listener, sent := s.sent ++ e.sent }

def decide (s : Session) (request : Nat) : Except Fault Session := do
  let some r := s.listener.requests[request]? | return s
  let s := s.note (.requested r.address r.packet r.handled)
  match s.policy with
  | .accept =>
    let e ← s.listener.accept request s.sessionId s.now
    let s := s.absorb e
    return s.note (.accepted e.answer (s.listener.isHandled request))
  | .reject reason =>
    let s := s.absorb (s.listener.reject request reason)
    return s.note (.rejected (s.listener.isHandled request))
  | .keep => return { s with kept := s.kept ++ [request] }

def react (s : Session) : Event → Except Fault Session
  | .requested request => s.decide request
  | .connected member => .ok (s.note (.connected member))
  | .disconnected member reason => .ok (s.note (.disconnected member reason))
  | .received member message =>
    let s := s.note (.received member message)
    if s.echo then
      let e := s.listener.send member message.channel message.payload
      let s := s.absorb e
      match e.answer with
      | .ok () => .ok s
      | .error error => .ok (s.note (.echoFailed error))
    else .ok s

def workThrough (s : Session) (member : Nat) : Nat → Except Fault Session
  | 0 => .ok s
  | n + 1 => do
    let e ← s.listener.work member s.now
    let s ← e.events.foldlM react (s.absorb e)
    s.workThrough member n

def queueLength (s : Session) (member : Nat) : Nat :=
  match s.listener.members[member]? with
  | some m => m.queue.length
  | none => 0

def runTask (s : Session) : Task → Except Fault Session
  | .decide request => s.react (.requested request)
  | .work member => s.workThrough member (s.queueLength member)

/-- Sorts datagrams. Gives the tasks they set in motion, each where it first came up. -/
def dispatchAll (s : Session) : List (String × Bytes) → List Task → Session × List Task
  | [], tasks => (s, tasks)
  | (address, datagram) :: rest, tasks =>
    let (listener, task) := s.listener.dispatch address datagram
    let tasks := match task with
      | some task => if task ∈ tasks then tasks else tasks ++ [task]
      | none => tasks
    { s with listener }.dispatchAll rest tasks

def reasonOf (code : UInt8) : Except Error DisconnectReason :=
  match DisconnectReason.ofCode? code with
  | some reason => .ok reason
  | none => .error (.unknownCode .disconnectReason code)

def act (s : Session) (action : Action) : Except Error (Session × Reply) := do
  match action with
  | .burst datagrams =>
    let (s, tasks) := s.dispatchAll datagrams []
    return (← orFault (tasks.foldlM runTask s), .done)
  | .send member channel message =>
    if s.listener.members.length ≤ member then return (s, .absent)
    let e := s.listener.send member channel message
    return (s.absorb e, .sent e.answer)
  | .accept kept =>
    let some request := s.kept[kept]? | return (s, .absent)
    let before := s.listener.isHandled request
    let e ← orFault (s.listener.accept request s.sessionId s.now)
    let s := s.absorb e
    return (s, .accepted before e.answer (s.listener.isHandled request))
  | .reject kept code =>
    let some request := s.kept[kept]? | return (s, .absent)
    let reason ← reasonOf code
    let before := s.listener.isHandled request
    let s := s.absorb (s.listener.reject request reason)
    return (s, .rejected before (s.listener.isHandled request))
  | .advance microseconds => return ({ s with clock := s.clock + microseconds }, .done)
  | .abandon =>
    return ({ s with listener := s.listener.abandon, attached := false }, .released)
  | .sendTo address channel message =>
    unless s.attached do return (s, .absent)
    let e := s.listener.sendTo address channel message
    return (s.absorb e, .sent e.answer)
  | .disconnect member code =>
    unless s.attached do return (s, .absent)
    if s.listener.members.length ≤ member then return (s, .absent)
    let reason ← reasonOf code
    let e ← orFault (s.listener.disconnect member reason true)
    return (← orFault (e.events.foldlM react (s.absorb e)), .done)
  | .lookup address =>
    unless s.attached do return (s, .absent)
    return (s, .found (s.listener.lookup address))
  | .stop =>
    unless s.attached do return (s, .absent)
    return ({ s with listener := s.listener.stop }, .released)

/-- One step: an action, and all that it causes. Notes and datagrams of the
session after it are those of this step. -/
def step (s : Session) (action : Action) : Except Error (Session × Reply) :=
  { s with notes := [], sent := [] }.act action

end Session

end DatagramTransport
