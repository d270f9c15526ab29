import DatagramTransport.Listener.Basic

/-!
# Deciding on connection requests

Only the first decision on a request has an effect. An accepted peer gets an
id, a place in the table and a ping, unless the listener has stopped, the
ids are used up or the address has got a connection in the meantime; a
rejected peer gets a disconnect and leaves nothing behind.
-/

set_option autoImplicit false

namespace DatagramTransport.Listener

def isHandled (l : Listener) (request : Nat) : Bool :=
  match l.requests[request]? with
  | some r => r.handled
  | none => true

def markHandled (l : Listener) (request : Nat) : Listener :=
  { l with requests := l.requests.modify request ({ · with handled := true }) }

/-- The disconnect that turns a peer away. It carries the peer's own session. -/
def rejection (packet : Connect) (reason : DisconnectReason) : Bytes :=
  Disconnect.encode {
    header := {
      type := .disconnect
      packet := 0
      session := packet.header.session
      senderId := 0
      receiverId := packet.header.senderId }
    version := protocolVersion
    reason }

def turnAway {α : Type} (l : Listener) (r : Request) (reason : DisconnectReason) (answer : α) :
    Effect α :=
  { l.unchanged answer with sent := l.post r.address [rejection r.packet reason] }

def enroll (l : Listener) (r : Request) (session : UInt16) (now : UInt32) :
    Except Fault (Effect (Option Nat)) :=
  match l.ids.allocate with
  | (_, none) => .ok (l.turnAway r .noResources none)
  | (ids, some id) =>
    match l.table.putIfAbsent r.address l.members.length with
    | (_, false) => do
      let ids ← ids.release id
      return ({ l with ids } : Listener).unchanged none
    | (table, true) =>
      let started := (Connection.start {
        config := l.config
        id
        address := r.address
        remoteId := r.packet.header.senderId
        session
        peerSession := r.packet.header.session }).initialPing now
      let member : Member := { connection := started.connection, queue := [] }
      .ok {
        listener := { l with ids, table, members := l.members ++ [member] }
        sent := l.post r.address started.emitted
        events := []
        answer := some l.members.length }

def accept (l : Listener) (request : Nat) (session : UInt16) (now : UInt32) :
    Except Fault (Effect (Option Nat)) :=
  match l.requests[request]? with
  | none => .ok (l.unchanged none)
  | some r =>
    if r.handled then .ok (l.unchanged none)
    else
      let l := l.markHandled request
      if l.running then l.enroll r session now else .ok (l.unchanged none)

def reject (l : Listener) (request : Nat) (reason : DisconnectReason) : Effect Unit :=
  match l.requests[request]? with
  | none => l.unchanged ()
  | some r =>
    if r.handled then l.unchanged ()
    else (l.markHandled request).turnAway r reason ()

end DatagramTransport.Listener
