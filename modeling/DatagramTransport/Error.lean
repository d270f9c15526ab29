import DatagramTransport.Packet.RequestType

/-!
# What can go wrong

An `Error` is a refusal with a cause: the input or the request is at fault,
and the operation that gives it says what it has changed. A `Fault` is the
breach of an assumption that an operation makes about its own state or its
caller; nothing recovers from it. The wording of both is here alone.
-/

set_option autoImplicit false

namespace DatagramTransport

inductive Fault where
  | castOutOfRange
  | readPastFrame
  | incompleteMessage
  | reservedIdReleased
  | releasedTwice (id : UInt16)
  | capacityOverflow
  deriving DecidableEq, Repr

def Fault.message : Fault → String
  | castOutOfRange =>
    "this is a bug: application logic should have ensured the value range"
  | readPastFrame => "frame header exceeds the frame"
  | incompleteMessage => "reassembling an incomplete fragmented message"
  | reservedIdReleased => "assertion failed: connection_id != 0"
  | releasedTwice id => s!"connection id {id} released twice"
  | capacityOverflow => "capacity overflow"

inductive CodeFamily where
  | qos
  | requestType
  | disconnectReason
  deriving DecidableEq, Repr

def CodeFamily.name : CodeFamily → String
  | qos => "QosType"
  | requestType => "RequestType"
  | disconnectReason => "DisconnectReason"

inductive Error where
  | fault (fault : Fault)
  | truncated (requested available : Nat)
  | unknownCode (family : CodeFamily) (code : UInt8)
  | notSystemPacket (connection : UInt16)
  | unknownRequestType (code : UInt8)
  | unexpectedRequest (expected found : RequestType)
  | unknownReason (code : UInt8)
  | longAcksConfigured
  | longAckReport
  | longAckHeaderWritten
  | longAckHeaderRead
  | tooManyChannels (channels : Nat)
  | datagramLimitTooLow (limit : Nat)
  | datagramLimitTooHigh (limit : Nat)
  | messageLimitTooHigh (limit : Nat)
  | noDatagramQueue
  | frameShorterThanHeader (length header : Nat)
  | frameExceedsDatagram (length available : Nat)
  | fragmentOutOfRange (index count : UInt8)
  | tooManyFragments (length count : Nat)
  | frameTooLong (length : Nat)
  | messageTooLong (length limit : Nat)
  | disconnected (connection : UInt16) (address : String)
  | datagramTooLong (length limit : Nat)
  | noConnection (address : String)
  deriving DecidableEq, Repr

namespace Error

def message : Error → String
  | fault f => f.message
  | truncated requested available =>
    "Not enough bytes remaining in buffer to read value " ++
      s!"(requested {requested} but only {available} available)"
  | unknownCode family code =>
    s!"No discriminant in enum `{family.name}` matches the value `{code}`"
  | notSystemPacket connection => s!"connection id {connection} is not a system packet"
  | unknownRequestType code => s!"unknown system request type {code}"
  | unexpectedRequest expected found => s!"expected {expected.phrase}, was {found.name}"
  | unknownReason code => s!"unknown disconnect reason {code}"
  | longAcksConfigured => "long (64 bit) ack mode is not implemented"
  | longAckReport => "long ack mode is not implemented"
  | longAckHeaderWritten =>
    "long ack mode is not implemented - cannot write a data packet header"
  | longAckHeaderRead =>
    "long ack mode is not implemented - cannot parse a data packet header"
  | tooManyChannels channels =>
    s!"at most 255 channels are supported, configured {channels}"
  | datagramLimitTooLow limit =>
    s!"max datagram size {limit} is below the minimum of 532"
  | datagramLimitTooHigh limit => s!"max datagram size {limit} exceeds the UDP limit"
  | messageLimitTooHigh limit =>
    s!"max message length {limit} exceeds the maximum size of a fragmented message"
  | noDatagramQueue => "max queued datagrams must be at least 1"
  | frameShorterThanHeader length header =>
    s!"frame length {length} is shorter than the frame header of {header} bytes"
  | frameExceedsDatagram length available =>
    s!"frame length {length} exceeds the remaining {available} bytes of the datagram"
  | fragmentOutOfRange index count =>
    s!"fragment index {index} is out of range for {count} fragments"
  | tooManyFragments length count =>
    s!"message of length {length} needs {count} fragments, the maximum is 255"
  | frameTooLong length => s!"message of length {length} does not fit into a single frame"
  | messageTooLong length limit =>
    s!"message of length {length} exceeds the maximum message length of {limit}"
  | disconnected connection address =>
    s!"connection #{connection} to {address} is disconnected"
  | datagramTooLong length limit =>
    s!"message of length {length} does not fit into a datagram of {limit} bytes" ++
      " - use a fragmenting channel"
  | noConnection address => s!"no connection to {address}"

end Error

def orFault {α : Type} (result : Except Fault α) : Except Error α :=
  result.mapError .fault

@[simp] theorem orFault_ok {α : Type} (a : α) : orFault (.ok a) = .ok a := rfl

@[simp] theorem orFault_error {α : Type} (f : Fault) :
    orFault (.error f : Except Fault α) = .error (.fault f) := rfl

end DatagramTransport
