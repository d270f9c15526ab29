import DatagramTransport.Connection.Lifecycle
import DatagramTransport.Connection.Receive
import DatagramTransport.Connection.Send
import DatagramTransport.IdPool
import DatagramTransport.Registry

/-!
# Listeners

A listener keeps one connection per remote address. It remembers every
connection that it ever accepted and every request that it ever handed to
the application, since the application may come back to them at any time;
both are named by their place in the order in which they came up.
-/

set_option autoImplicit false

namespace DatagramTransport

inductive Inbound where
  | data (datagram : Bytes)
  | ping (ping : Ping)
  | disconnect (reason : DisconnectReason)
  deriving DecidableEq, Repr

structure Member where
  connection : Connection
  queue : List Inbound
  deriving DecidableEq

structure Request where
  address : String
  packet : Connect
  handled : Bool
  deriving DecidableEq, Repr

inductive Event where
  | requested (request : Nat)
  | connected (member : Nat)
  | received (member : Nat) (message : Message)
  | disconnected (member : Nat) (reason : DisconnectReason)
  deriving DecidableEq, Repr

structure Listener where
  config : Config
  members : List Member
  requests : List Request
  table : Registry String Nat
  ids : IdPool
  running : Bool
  /-- Without its socket the listener discards what is sent. -/
  socketOpen : Bool
  deriving DecidableEq

structure Effect (α : Type) where
  listener : Listener
  sent : List (String × Bytes)
  events : List Event
  answer : α

namespace Listener

def maxCarried : Nat := 65507

def bind (config : Config) : Except Error Listener := do
  config.validate
  return { config, members := [], requests := [], table := ∅, ids := .full
           running := true, socketOpen := true }

def unchanged {α : Type} (l : Listener) (answer : α) : Effect α where
  listener := l
  sent := []
  events := []
  answer := answer

def lookup (l : Listener) (address : String) : Option Nat :=
  l.table[address]?

/-- The datagrams that go out: none without a socket, and none that is too long. -/
def post (l : Listener) (address : String) (datagrams : List Bytes) : List (String × Bytes) :=
  if l.socketOpen then
    (datagrams.filter (·.length ≤ maxCarried)).map ((address, ·))
  else []

def setConnection (l : Listener) (member : Nat) (c : Connection) : Listener :=
  { l with members := l.members.modify member ({ · with connection := c }) }

def settle {α : Type} (l : Listener) (member : Nat) (step : Step α) : Effect α where
  listener := l.setConnection member step.connection
  sent := l.post step.connection.endpoint.address step.emitted
  events := []
  answer := step.answer

def send (l : Listener) (member : Nat) (channel : UInt8) (message : Bytes) :
    Effect (Except Error Unit) :=
  match l.members[member]? with
  | none => l.unchanged (.ok ())
  | some m => l.settle member (m.connection.send channel message)

def sendTo (l : Listener) (address : String) (channel : UInt8) (message : Bytes) :
    Effect (Except Error Unit) :=
  match l.lookup address with
  | none => l.unchanged (.error (.noConnection address))
  | some member => l.send member channel message

end Listener

end DatagramTransport
