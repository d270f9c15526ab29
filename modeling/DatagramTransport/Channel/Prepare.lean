import DatagramTransport.Channel.Basic

/-!
# Frames for outgoing messages

A message becomes one frame, or as many as it has fragments. Reliable frames
draw their ids from the counter that all channels of a connection share. A
message that is refused takes no position and no id.
-/

set_option autoImplicit false

namespace DatagramTransport

structure Prepared where
  channel : Channel
  nextMessage : UInt16
  frames : List Frame
  deriving DecidableEq

namespace Channel

def wholeFrame (messageId : Option UInt16) (header message : Bytes) :
    Except Error (List Frame) := do
  if 65535 < framePrefixLength + header.length + message.length then
    throw (.frameTooLong message.length)
  return [{ messageId, bytes := ← orFault (encodeFrame header message) }]

def fragmentFrames (group : UInt8) (count : Nat) :
    Nat → UInt16 → List Bytes → Except Fault (List Frame)
  | _, _, [] => .ok []
  | index, id, part :: parts => do
    let header := writeUInt16 id ++ [group, ← narrowUInt8 index, ← narrowUInt8 count]
    let bytes ← encodeFrame header part
    let frames ← fragmentFrames group count (index + 1) (id + 1) parts
    return { messageId := some id, bytes } :: frames

def prepare (c : Channel) (message : Bytes) (nextMessage : UInt16) :
    Except Error Prepared :=
  match c with
  | unreliable => do
    return { channel := c, nextMessage, frames := ← wholeFrame none [] message }
  | unreliableSequenced lastIn nextOut => do
    return { channel := unreliableSequenced lastIn (nextOut + 1), nextMessage
             frames := ← wholeFrame none [nextOut] message }
  | reliable => do
    return { channel := c, nextMessage := nextMessage + 1
             frames := ← wholeFrame (some nextMessage) (writeUInt16 nextMessage) message }
  | reliableSequenced inbound nextOut => do
    let header := writeUInt16 nextMessage ++ [nextOut]
    return { channel := reliableSequenced inbound (nextOut + 1)
             nextMessage := nextMessage + 1
             frames := ← wholeFrame (some nextMessage) header message }
  | reliableFragmented inbound nextGroup => do
    let count := fragmentCount message.length
    if maxFragments < count then throw (.tooManyFragments message.length count)
    let parts := fragments count message
    return { channel := reliableFragmented inbound (nextGroup + 1)
             nextMessage := nextMessage + .ofNat count
             frames := ← orFault (fragmentFrames nextGroup count 0 nextMessage parts) }

end Channel

end DatagramTransport
