import DatagramTransport.Listener.Basic

/-!
# Working through a connection's queue, and taking connections down

Items are taken one at a time and in order, also after the connection has
ended, when they do nothing any more. An ended connection leaves the table
before its id is free again.
-/

set_option autoImplicit false

namespace DatagramTransport.Listener

def disconnect (l : Listener) (member : Nat) (reason : DisconnectReason) (notify : Bool) :
    Except Fault (Effect Unit) :=
  match l.members[member]? with
  | none => .ok (l.unchanged ())
  | some m =>
    match m.connection.markDisconnected with
    | (_, false) => .ok (l.unchanged ())
    | (c, true) => do
      let address := c.endpoint.address
      let ids ← l.ids.release c.endpoint.id
      let table := if l.table[address]? = some member then l.table.erase address else l.table
      return {
        listener := { l.setConnection member c with ids, table }
        sent := if notify then l.post address [c.disconnectPacket reason] else []
        events := [.disconnected member reason]
        answer := () }

def handle (l : Listener) (member : Nat) (m : Member) (now : UInt32) :
    Inbound → Except Fault (Effect Unit)
  | .data datagram => do
    let step ← m.connection.receive datagram
    return { l.settle member { step with answer := () } with
      events := step.answer.map (.received member) }
  | .ping ping =>
    let step := m.connection.receivePing now ping
    .ok { l.settle member { step with answer := () } with
      events := if step.answer then [.connected member] else [] }
  | .disconnect reason => l.disconnect member reason false

def work (l : Listener) (member : Nat) (now : UInt32) : Except Fault (Effect Unit) :=
  match l.members[member]? with
  | none => .ok (l.unchanged ())
  | some m =>
    match m.queue with
    | [] => .ok (l.unchanged ())
    | item :: queue =>
      let m := { m with queue }
      { l with members := l.members.set member m }.handle member m now item

/-- Ends every connection of the table, without telling anybody. -/
def endAll (l : Listener) : Listener :=
  { l with
    members := l.table.toList.foldl
      (fun ms e => ms.modify e.2 fun m => { m with connection := m.connection.markDisconnected.1 })
      l.members
    table := ∅ }

def stop (l : Listener) : Listener :=
  { l.endAll with running := false, socketOpen := false }

/-- What is left when the listener is given up without being stopped: its
connections stay as they are, but nothing reaches them or leaves them. -/
def abandon (l : Listener) : Listener :=
  { l with running := false, table := ∅, socketOpen := false }

end DatagramTransport.Listener
