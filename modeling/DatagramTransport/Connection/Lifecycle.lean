import DatagramTransport.Connection.Basic

/-!
# Pings and disconnects

The peer's first ping completes the handshake. Pings are answered for as
long as the connection lives; a disconnect is not answered, and may be sent
by a connection that has ended.
-/

set_option autoImplicit false

namespace DatagramTransport

def pingTime (microseconds : Nat) : UInt32 :=
  .ofNat (microseconds / 1000)

namespace Connection

def systemHeader (c : Connection) (type : RequestType) (packet : UInt16) : SystemHeader where
  type := type
  packet := packet
  session := c.endpoint.session
  senderId := c.endpoint.id
  receiverId := c.endpoint.remoteId

def sendPing (c : Connection) (now ackedTime : UInt32) : Step Unit :=
  let ping : Ping := {
    header := c.systemHeader .ping c.nextPacket
    sentTime := now
    ackedTime
    timeCorrection := 0
    internalDropRate := 0
    externalDropRate := 0
    swappedSession := swapSession c.endpoint.peerSession }
  { connection := { c with nextPacket := c.nextPacket + 1 }
    emitted := [ping.encode]
    answer := () }

def initialPing (c : Connection) (now : UInt32) : Step Unit :=
  c.sendPing now 0

/-- Answers a ping. The flag says whether it completed the handshake. -/
def receivePing (c : Connection) (now : UInt32) (ping : Ping) : Step Bool :=
  match c.phase with
  | .disconnected => { connection := c, emitted := [], answer := false }
  | .handshake =>
    { { c with phase := .connected }.sendPing now ping.sentTime with answer := true }
  | .connected => { c.sendPing now ping.sentTime with answer := false }

def disconnectPacket (c : Connection) (reason : DisconnectReason) : Bytes :=
  Disconnect.encode {
    header := c.systemHeader .disconnect 0
    version := protocolVersion
    reason }

/-- Ends the connection. The flag is `false` if it had ended before. -/
def markDisconnected (c : Connection) : Connection × Bool :=
  if c.phase = .disconnected then (c, false)
  else ({ c with phase := .disconnected, pending := ∅ }, true)

end Connection

end DatagramTransport
