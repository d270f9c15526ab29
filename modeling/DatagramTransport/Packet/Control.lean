import DatagramTransport.Packet.DisconnectReason
import DatagramTransport.Packet.SystemHeader

/-!
# Connect requests, disconnects and pings

The three packets that open, end and keep up a connection. Writing does not
look at the type in the header; reading refuses a packet of another type as
soon as its header is known.
-/

set_option autoImplicit false

namespace DatagramTransport

def protocolVersion : UInt32 := 16777472

/-- A session id as the other side writes it: its two bytes exchanged. -/
def swapSession (session : UInt16) : UInt16 :=
  joinUInt16 session.toUInt8 (.ofNat (session.toNat / 256))

structure Connect where
  header : SystemHeader
  version : UInt32
  crc : UInt32
  deriving DecidableEq, Repr

namespace Connect

def encode (p : Connect) : Bytes :=
  p.header.encode ++ writeUInt32 p.version ++ writeUInt32 p.crc

def decode : Reader Connect := fun bytes => do
  let (header, rest) ← SystemHeader.decodeAs .connectRequest bytes
  let (version, rest) ← readUInt32 rest
  let (crc, rest) ← readUInt32 rest
  return ({ header, version, crc }, rest)

end Connect

structure Disconnect where
  header : SystemHeader
  version : UInt32
  reason : DisconnectReason
  deriving DecidableEq, Repr

namespace Disconnect

def encode (p : Disconnect) : Bytes :=
  p.header.encode ++ writeUInt32 p.version ++ [p.reason.code]

def decode : Reader Disconnect := fun bytes => do
  let (header, rest) ← SystemHeader.decodeAs .disconnect bytes
  let (version, rest) ← readUInt32 rest
  let (code, rest) ← readUInt8 rest
  let some reason := DisconnectReason.ofCode? code | throw (.unknownReason code)
  return ({ header, version, reason }, rest)

end Disconnect

structure Ping where
  header : SystemHeader
  /-- Milliseconds since the sender started, modulo 2 ^ 32. -/
  sentTime : UInt32
  /-- The sent time of the ping that this one answers, or zero. -/
  ackedTime : UInt32
  timeCorrection : UInt32
  internalDropRate : UInt8
  externalDropRate : UInt8
  /-- The receiver's session id with its bytes exchanged. -/
  swappedSession : UInt16
  deriving DecidableEq, Repr

namespace Ping

def encode (p : Ping) : Bytes :=
  p.header.encode ++ writeUInt32 p.sentTime ++ writeUInt32 p.ackedTime ++
    writeUInt32 p.timeCorrection ++
    p.internalDropRate :: p.externalDropRate :: writeUInt16 p.swappedSession

def decode : Reader Ping := fun bytes => do
  let (header, rest) ← SystemHeader.decodeAs .ping bytes
  let (sentTime, rest) ← readUInt32 rest
  let (ackedTime, rest) ← readUInt32 rest
  let (timeCorrection, rest) ← readUInt32 rest
  let (internalDropRate, rest) ← readUInt8 rest
  let (externalDropRate, rest) ← readUInt8 rest
  let (swappedSession, rest) ← readUInt16 rest
  return ({ header, sentTime, ackedTime, timeCorrection, internalDropRate,
            externalDropRate, swappedSession }, rest)

end Ping

end DatagramTransport
