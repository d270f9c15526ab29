import DatagramTransport.Channel.FragmentInbox
import DatagramTransport.Channel.Frame
import DatagramTransport.Channel.Reorder

/-!
# Channels

What each end keeps for one channel. Both ends start from the same value:
the incoming part is the receiver's, the outgoing one the sender's.
-/

set_option autoImplicit false

namespace DatagramTransport

inductive Channel where
  | unreliable
  /-- The position delivered last, and the next one to send. -/
  | unreliableSequenced (lastIn nextOut : UInt8)
  | reliable
  | reliableSequenced (inbound : Reorder) (nextOut : UInt8)
  | reliableFragmented (inbound : FragmentInbox) (nextGroup : UInt8)
  deriving DecidableEq

namespace Channel

def ofQos : Qos → Channel
  | .unreliable => unreliable
  | .unreliableSequenced => unreliableSequenced 0 1
  | .reliable | .allCostDelivery => reliable
  | .reliableSequenced => reliableSequenced .fresh 1
  | .reliableFragmented => reliableFragmented .fresh 0

def headerLength : Channel → Nat
  | unreliable => 3
  | unreliableSequenced .. => 4
  | reliable => 5
  | reliableSequenced .. => 6
  | reliableFragmented .. => 8

def isFragmenting : Channel → Bool
  | reliableFragmented .. => true
  | _ => false

theorem framePrefixLength_le_headerLength (c : Channel) :
    framePrefixLength ≤ c.headerLength := by
  cases c <;> simp [framePrefixLength, headerLength]

end Channel

end DatagramTransport
