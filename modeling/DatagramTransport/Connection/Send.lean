import DatagramTransport.Connection.Basic

/-!
# Sending

A message is refused before anything changes, or all its frames go out, each
in a datagram of its own. Reliable frames are kept as they were sent until
the peer has acknowledged them.
-/

set_option autoImplicit false

namespace DatagramTransport.Connection

/-- What speaks against sending a message on a channel, if anything does. -/
def checkSend (c : Connection) (channel : Channel) (message : Bytes) : Except Error Unit := do
  let config := c.endpoint.config
  if config.maxMessageLength < message.length then
    throw (.messageTooLong message.length config.maxMessageLength)
  if c.phase = .disconnected then
    throw (.disconnected c.endpoint.id c.endpoint.address)
  if !channel.isFragmenting && config.maxDatagramLength <
      DataHeader.encodedLength + channel.headerLength + message.length then
    throw (.datagramTooLong message.length config.maxDatagramLength)

def retain (c : Connection) (channel : UInt8) (f : Frame) : Connection :=
  match f.messageId with
  | some id => { c with pending := c.pending.insert id { channel, frame := f.bytes } }
  | none => c

/-- Sends frames over a channel, up to the first that cannot be packed. -/
def transmit (channel : UInt8) : Connection → List Frame → Step (Except Error Unit)
  | c, [] => { connection := c, emitted := [], answer := .ok () }
  | c, f :: fs =>
    let c := c.retain channel f
    match c.packet (some { channel, frame := f.bytes }) with
    | .error e => { connection := c, emitted := [], answer := .error e }
    | .ok (c, datagram) =>
      let rest := transmit channel c fs
      { rest with emitted := datagram :: rest.emitted }

def send (c : Connection) (channel : UInt8) (message : Bytes) : Step (Except Error Unit) :=
  let framing := c.channelAt channel
  match c.checkSend framing message, framing.prepare message c.nextMessage with
  | .error e, _ | .ok (), .error e => { connection := c, emitted := [], answer := .error e }
  | .ok (), .ok p =>
    transmit channel
      { c with channels := c.channels.set channel.toNat p.channel, nextMessage := p.nextMessage }
      p.frames

end DatagramTransport.Connection
