import DatagramTransport.Listener.Basic

/-!
# Sorting incoming datagrams

Connect requests of addresses without a connection are handed to the
application. All else needs the connection of its address, and waits there
until its turn if there is room. Datagrams that fit nowhere are dropped.
-/

set_option autoImplicit false

namespace DatagramTransport

inductive Task where
  | decide (request : Nat)
  | work (member : Nat)
  deriving DecidableEq, Repr

namespace Listener

def enqueue (l : Listener) (member : Nat) (item : Inbound) : Listener × Option Task :=
  match l.members[member]? with
  | none => (l, none)
  | some m =>
    if m.queue.length < l.config.maxQueued then
      ({ l with members := l.members.set member { m with queue := m.queue ++ [item] } },
        some (.work member))
    else (l, none)

def handOut (l : Listener) (address : String) (packet : Connect) : Listener × Option Task :=
  ({ l with requests := l.requests ++ [{ address, packet, handled := false }] },
    some (.decide l.requests.length))

def dispatchSystem (l : Listener) (address : String) (datagram : Bytes) :
    Listener × Option Task :=
  match datagram[2]?.bind RequestType.ofCode?, l.lookup address with
  | none, _ => (l, none)
  | some .connectRequest, some _ => (l, none)
  | some .connectRequest, none =>
    match Connect.decode datagram with
    | .ok (packet, _) => l.handOut address packet
    | .error _ => (l, none)
  | some _, none => (l, none)
  | some .disconnect, some member =>
    match Disconnect.decode datagram with
    | .ok (packet, _) => l.enqueue member (.disconnect packet.reason)
    | .error _ => (l, none)
  | some .ping, some member =>
    match Ping.decode datagram with
    | .ok (packet, _) => l.enqueue member (.ping packet)
    | .error _ => (l, none)

def dispatchData (l : Listener) (address : String) (id : UInt16) (datagram : Bytes) :
    Listener × Option Task :=
  match l.lookup address with
  | none => (l, none)
  | some member =>
    if (l.members[member]?.map (·.connection.endpoint.id)) = some id then
      l.enqueue member (.data datagram)
    else (l, none)

/-- Takes a datagram from the network. A listener that is not running takes none. -/
def dispatch (l : Listener) (address : String) (datagram : Bytes) : Listener × Option Task :=
  if l.running then
    match peekConnection datagram with
    | .error _ => (l, none)
    | .ok id =>
      if id = systemConnection then l.dispatchSystem address datagram
      else l.dispatchData address id datagram
  else (l, none)

end Listener

end DatagramTransport
