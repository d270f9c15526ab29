import DatagramTransport.Bytes

/-!
# Headers of data packets

Five words in front of a data packet's frames: the connection, the packet's
number, the sender's session, and the sender's report on the reliable
messages it has received. In the long mode the report would have 64 bits;
that mode is reserved and has no layout.
-/

set_option autoImplicit false

namespace DatagramTransport

inductive AckMode where
  | short
  | long
  deriving DecidableEq, Repr

structure DataHeader where
  connection : UInt16
  packet : UInt16
  session : UInt16
  /-- The highest reliable message id that the sender has received. -/
  ackLatest : UInt16
  /-- Bit `i` is clear if the sender misses the message `ackLatest - i`. -/
  ackMask : UInt32
  deriving DecidableEq, Repr

namespace DataHeader

def encodedLength : Nat := 12

def encode (mode : AckMode) (h : DataHeader) : Except Error Bytes :=
  match mode with
  | .long => .error .longAckHeaderWritten
  | .short =>
    .ok (writeUInt16 h.connection ++ writeUInt16 h.packet ++ writeUInt16 h.session ++
      writeUInt16 h.ackLatest ++ writeUInt32 h.ackMask)

def decode (mode : AckMode) : Reader DataHeader := fun bytes =>
  match mode with
  | .long => .error .longAckHeaderRead
  | .short => do
    let (connection, rest) ← readUInt16 bytes
    let (packet, rest) ← readUInt16 rest
    let (session, rest) ← readUInt16 rest
    let (ackLatest, rest) ← readUInt16 rest
    let (ackMask, rest) ← readUInt32 rest
    return ({ connection, packet, session, ackLatest, ackMask }, rest)

end DataHeader

def peekConnection (datagram : Bytes) : Except Error UInt16 :=
  (readUInt16 datagram).map Prod.fst

end DatagramTransport
