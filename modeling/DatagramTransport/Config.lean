import DatagramTransport.Qos
import DatagramTransport.Packet.DataHeader

/-!
# Configuration of a connection

Both ends have to agree on the channels; the rest is each end's own. The
limits leave room for a header and a whole fragment in every datagram, and
keep every length within its field on the wire.
-/

set_option autoImplicit false

namespace DatagramTransport

def fragmentLength : Nat := 512

def maxFragments : Nat := 255

def minDatagramLength : Nat := DataHeader.encodedLength + 8 + fragmentLength

structure Config where
  channels : List Qos
  ackMode : AckMode
  maxDatagramLength : Nat
  maxMessageLength : Nat
  /-- How many pure acknowledgements answer a datagram with new reliable messages. -/
  ackEchoes : Nat
  /-- Whether data packets with another session than the peer's are dropped. -/
  checkSession : Bool
  maxQueued : Nat
  deriving DecidableEq, Repr

namespace Config

def standard : Config where
  channels := [.reliable, .unreliable]
  ackMode := .short
  maxDatagramLength := 1472
  maxMessageLength := maxFragments * fragmentLength
  ackEchoes := 3
  checkSession := false
  maxQueued := 1024

def validate (c : Config) : Except Error Unit := do
  if 255 < c.channels.length then throw (.tooManyChannels c.channels.length)
  if c.ackMode = .long then throw .longAcksConfigured
  if c.maxDatagramLength < minDatagramLength then
    throw (.datagramLimitTooLow c.maxDatagramLength)
  if 65535 < c.maxDatagramLength then throw (.datagramLimitTooHigh c.maxDatagramLength)
  if maxFragments * fragmentLength < c.maxMessageLength then
    throw (.messageLimitTooHigh c.maxMessageLength)
  if c.maxQueued = 0 then throw .noDatagramQueue

/-- Channels beyond the configured ones are unreliable. -/
def channelQos (c : Config) (channel : UInt8) : Qos :=
  c.channels[channel.toNat]?.getD .unreliable

end Config

end DatagramTransport
