import Std.Data.ExtTreeMap
import DatagramTransport.Reassembly

/-!
# Messages that arrive in fragments

The fragments of a message share a group id of one byte, which is used again
after 256 messages. The message itself is known by its base: fragments with
another base or count than the group's open message start a new one in its
place, and those of the message delivered last under the group id are spent.
-/

set_option autoImplicit false

namespace DatagramTransport

structure FragmentInbox where
  partials : Std.ExtTreeMap UInt8 Reassembly
  /-- The base of the message delivered last under each group id. -/
  delivered : Std.ExtTreeMap UInt8 UInt16
  deriving DecidableEq

namespace FragmentInbox

def fresh : FragmentInbox where
  partials := ∅
  delivered := ∅

def message (b : FragmentInbox) (group : UInt8) (base : UInt16) (count : UInt8) :
    Reassembly :=
  match b.partials[group]? with
  | some r => if r.belongs base count then r else .start base count
  | none => .start base count

/-- Takes a fragment, and delivers its message if that is complete now. -/
def accept (b : FragmentInbox) (group : UInt8) (base : UInt16) (index count : UInt8)
    (part : Bytes) : Except Fault (FragmentInbox × List Bytes) := do
  if b.delivered[group]? = some base then
    return (b, [])
  let r := (b.message group base count).add index part
  if r.isComplete then
    return ({ partials := b.partials.erase group
              delivered := b.delivered.insert group base }, [← r.assemble])
  return ({ b with partials := b.partials.insert group r }, [])

end FragmentInbox

end DatagramTransport
