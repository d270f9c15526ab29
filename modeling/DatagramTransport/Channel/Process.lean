import DatagramTransport.AckWindow
import DatagramTransport.Channel.Basic

/-!
# Incoming frames

A frame is taken whole from the front of a datagram, whether its payload is
delivered or not, so that the frames behind it can be read. A frame that is
refused changes neither the channel nor the window.
-/

set_option autoImplicit false

namespace DatagramTransport

structure Processed where
  channel : Channel
  window : AckWindow
  delivered : List Bytes
  accepted : Bool
  deriving DecidableEq

namespace Channel

/-- Takes a frame without its length field. -/
def accept (c : Channel) (w : AckWindow) (body : Bytes) : Except Error Processed :=
  match c with
  | unreliable => .ok { channel := c, window := w, delivered := [body], accepted := false }
  | unreliableSequenced lastIn nextOut => do
    let (position, payload) ← orFault (readInFrame readUInt8 body)
    if position ≤ lastIn ∧ lastIn ≠ 255 then
      return { channel := c, window := w, delivered := [], accepted := false }
    return { channel := unreliableSequenced position nextOut, window := w
             delivered := [payload], accepted := false }
  | reliable => do
    let (id, payload) ← orFault (readInFrame readUInt16 body)
    match w.record id with
    | (w, false) => return { channel := c, window := w, delivered := [], accepted := false }
    | (w, true) =>
      return { channel := c, window := w, delivered := [payload], accepted := true }
  | reliableSequenced inbound nextOut => do
    let (id, rest) ← orFault (readInFrame readUInt16 body)
    let (position, payload) ← orFault (readInFrame readUInt8 rest)
    match w.record id with
    | (w, false) => return { channel := c, window := w, delivered := [], accepted := false }
    | (w, true) =>
      let (inbound, delivered) := inbound.accept position payload
      return { channel := reliableSequenced inbound nextOut, window := w
               delivered, accepted := true }
  | reliableFragmented inbound nextGroup => do
    let (id, rest) ← orFault (readInFrame readUInt16 body)
    let (group, rest) ← orFault (readInFrame readUInt8 rest)
    let (index, rest) ← orFault (readInFrame readUInt8 rest)
    let (count, part) ← orFault (readInFrame readUInt8 rest)
    if count ≤ index then throw (.fragmentOutOfRange index count)
    match w.record id with
    | (w, false) => return { channel := c, window := w, delivered := [], accepted := false }
    | (w, true) =>
      let base := id - index.toUInt16
      let (inbound, delivered) ← orFault (inbound.accept group base index count part)
      return { channel := reliableFragmented inbound nextGroup, window := w
               delivered, accepted := true }

/-- Takes the frame at the front of a datagram, and gives what is left of it. -/
def process (c : Channel) (w : AckWindow) (bytes : Bytes) : Bytes × Except Error Processed :=
  let (rest, body) := takeFrame c.headerLength bytes
  (rest, body.bind (c.accept w))

theorem length_process_le (c : Channel) (w : AckWindow) (bytes : Bytes) :
    (c.process w bytes).1.length ≤ bytes.length :=
  length_takeFrame_le c.headerLength bytes

end Channel

end DatagramTransport
