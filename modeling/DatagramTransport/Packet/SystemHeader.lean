import DatagramTransport.Bytes

/-!
# Headers of system packets

A system packet starts with connection id zero, which no connection has,
and its type. The ids of the connection follow as its two ends know them;
the receiver's is zero while it is not known.
-/

set_option autoImplicit false

namespace DatagramTransport

/-- The connection id that marks a system packet. -/
def systemConnection : UInt16 := 0

structure SystemHeader where
  type : RequestType
  packet : UInt16
  session : UInt16
  senderId : UInt16
  receiverId : UInt16
  deriving DecidableEq, Repr

namespace SystemHeader

def encodedLength : Nat := 11

def encode (h : SystemHeader) : Bytes :=
  writeUInt16 systemConnection ++ h.type.code :: (writeUInt16 h.packet ++
    writeUInt16 h.session ++ writeUInt16 h.senderId ++ writeUInt16 h.receiverId)

def decode : Reader SystemHeader := fun bytes => do
  let (connection, rest) ← readUInt16 bytes
  unless connection = systemConnection do throw (.notSystemPacket connection)
  let (code, rest) ← readUInt8 rest
  let some type := RequestType.ofCode? code | throw (.unknownRequestType code)
  let (packet, rest) ← readUInt16 rest
  let (session, rest) ← readUInt16 rest
  let (senderId, rest) ← readUInt16 rest
  let (receiverId, rest) ← readUInt16 rest
  return ({ type, packet, session, senderId, receiverId }, rest)

/-- Reads the header of a packet that has to be of the given type. -/
def decodeAs (expected : RequestType) : Reader SystemHeader := fun bytes => do
  let (header, rest) ← decode bytes
  unless header.type = expected do throw (.unexpectedRequest expected header.type)
  return (header, rest)

end SystemHeader

end DatagramTransport
