import DatagramTransport.Channel.Prepare
import DatagramTransport.Channel.Process
import DatagramTransport.Packet.Control

/-!
# Connections

One end of a connection as a value. Time is an input and datagrams are an
output: an operation gives the connection after it, the datagrams that it
emitted in order, and its answer. All datagrams with a number draw it from
one counter, and all reliable channels draw message ids from another.
-/

set_option autoImplicit false

namespace DatagramTransport

inductive Phase where
  | handshake
  | connected
  | disconnected
  deriving DecidableEq, Repr

def Phase.name : Phase → String
  | handshake => "Handshake"
  | connected => "Connected"
  | disconnected => "Disconnected"

structure Message where
  channel : UInt8
  payload : Bytes
  deriving DecidableEq, Repr

structure Transfer where
  channel : UInt8
  frame : Bytes
  deriving DecidableEq, Repr

structure Endpoint where
  config : Config
  id : UInt16
  address : String
  /-- The id that the peer has for the connection in system packets. -/
  remoteId : UInt16
  session : UInt16
  peerSession : UInt16
  deriving DecidableEq, Repr

structure Connection where
  endpoint : Endpoint
  phase : Phase
  nextPacket : UInt16
  nextMessage : UInt16
  window : AckWindow
  pending : Std.ExtTreeMap UInt16 Transfer
  channels : List Channel
  deriving DecidableEq

/-- No buffer is longer than half of what 64 bit addresses can tell apart. -/
def maxBufferLength : Nat := 9223372036854775807

structure Step (α : Type) where
  connection : Connection
  emitted : List Bytes
  answer : α

namespace Connection

def start (endpoint : Endpoint) : Connection where
  endpoint := endpoint
  phase := .handshake
  nextPacket := 0
  nextMessage := 1
  window := .fresh endpoint.config.ackMode
  pending := ∅
  channels := endpoint.config.channels.map .ofQos

def channelAt (c : Connection) (channel : UInt8) : Channel :=
  c.channels[channel.toNat]?.getD .unreliable

/-- A header with the current report, and a frame unless it is a pure acknowledgement, in a buffer
of the largest datagram that the configuration allows. -/
def packet (c : Connection) (body : Option Transfer) : Except Error (Connection × Bytes) := do
  let (ackLatest, ackMask) ← c.window.report
  if maxBufferLength < c.endpoint.config.maxDatagramLength then
    throw (.fault .capacityOverflow)
  let header : DataHeader := {
    connection := c.endpoint.id
    packet := c.nextPacket
    session := c.endpoint.session
    ackLatest, ackMask }
  let encoded ← header.encode c.endpoint.config.ackMode
  let frame := match body with
    | some t => t.channel :: t.frame
    | none => []
  return ({ c with nextPacket := c.nextPacket + 1 }, encoded ++ frame)

end Connection

end DatagramTransport
