import DatagramTransport.Connection.Basic

/-!
# Receiving

A data packet is dropped if it is not for this connection. Otherwise its
report is read first: acknowledged frames are forgotten, and missing ones
are sent again as they were, in a new packet. Then its frames are taken in
order, up to the first that cannot be. New reliable messages are answered
with pure acknowledgements.
-/

set_option autoImplicit false

namespace DatagramTransport

structure Intake where
  channels : List Channel
  window : AckWindow
  messages : List Message
  accepted : Bool
  deriving DecidableEq

/-- Takes frames, each behind its channel id, until the datagram ends or its
rest cannot be read. -/
def takeFrames (channels : List Channel) (window : AckWindow) : Bytes → Except Fault Intake
  | [] => .ok { channels, window, messages := [], accepted := false }
  | id :: bytes =>
    match channels[id.toNat]? with
    | none => .ok { channels, window, messages := [], accepted := false }
    | some channel =>
      let taken := channel.process window bytes
      match taken.2 with
      | .error (.fault f) => .error f
      | .error _ => .ok { channels, window, messages := [], accepted := false }
      | .ok p => do
        let later ← takeFrames (channels.set id.toNat p.channel) p.window taken.1
        return { later with
          messages := p.delivered.map (Message.mk id) ++ later.messages
          accepted := p.accepted || later.accepted }
termination_by bytes => bytes.length
decreasing_by
  have := channel.length_process_le window bytes
  simp only [List.length_cons]
  omega

namespace Connection

def accepts (c : Connection) (h : DataHeader) : Bool :=
  h.connection == c.endpoint.id &&
    (!c.endpoint.config.checkSession || h.session == c.endpoint.peerSession) &&
    c.phase != .disconnected

def confirm (c : Connection) (ids : List UInt16) : Connection :=
  { c with pending := ids.foldl Std.ExtTreeMap.erase c.pending }

def sendAgain : Connection → List UInt16 → Step (Except Error Unit)
  | c, [] => { connection := c, emitted := [], answer := .ok () }
  | c, id :: ids =>
    match c.pending[id]? with
    | none => sendAgain c ids
    | some t =>
      match c.packet (some t) with
      | .error e => { connection := c, emitted := [], answer := .error e }
      | .ok (c, datagram) =>
        let rest := sendAgain c ids
        { rest with emitted := datagram :: rest.emitted }

/-- Acts on the peer's report. -/
def acknowledge (c : Connection) (latest : UInt16) (mask : UInt32) : Step (Except Error Unit) :=
  match c.window.read latest mask with
  | .error e => { connection := c, emitted := [], answer := .error e }
  | .ok r => (c.confirm r.received).sendAgain r.missing

def echo : Nat → Connection → Except Fault (Step Unit)
  | 0, c => .ok { connection := c, emitted := [], answer := () }
  | n + 1, c =>
    match c.packet none with
    | .error (.fault f) => .error f
    | .error _ => echo n c
    | .ok (c, datagram) => do
      let rest ← echo n c
      return { rest with emitted := datagram :: rest.emitted }

def receive (c : Connection) (datagram : Bytes) : Except Fault (Step (List Message)) := do
  let .ok (header, body) := DataHeader.decode c.endpoint.config.ackMode datagram
    | return { connection := c, emitted := [], answer := [] }
  unless c.accepts header do
    return { connection := c, emitted := [], answer := [] }
  let acked := c.acknowledge header.ackLatest header.ackMask
  match acked.answer with
  | .error (.fault f) => throw f
  | .error _ => return { acked with answer := [] }
  | .ok () =>
    let intake ← takeFrames acked.connection.channels acked.connection.window body
    let c := { acked.connection with channels := intake.channels, window := intake.window }
    let echoed ← echo (if intake.accepted then c.endpoint.config.ackEchoes else 0) c
    return { connection := echoed.connection
             emitted := acked.emitted ++ echoed.emitted
             answer := intake.messages }

end Connection

end DatagramTransport
