import Std.Data.ExtTreeMap
import DatagramTransport.Bytes

/-!
# Holding messages until their predecessors arrive

Positions are bytes and wrap. They are compared as plain numbers, except
that every position counts as a later one while 255 is awaited. A payload
that closes a gap is released together with all that wait right behind it.
-/

set_option autoImplicit false

namespace DatagramTransport

structure Reorder where
  /-- The position that is to be delivered next. -/
  next : UInt8
  held : Std.ExtTreeMap UInt8 Bytes
  deriving DecidableEq

namespace Reorder

def fresh : Reorder where
  next := 1
  held := ∅

def release (r : Reorder) : Reorder × List Bytes :=
  match _h : r.held[r.next]? with
  | none => (r, [])
  | some payload =>
    let (after, payloads) := release { next := r.next + 1, held := r.held.erase r.next }
    (after, payload :: payloads)
termination_by r.held.size
decreasing_by
  have hm : r.next ∈ r.held := by
    rw [Std.ExtTreeMap.mem_iff_isSome_getElem?, _h]
    rfl
  have hs : r.held.size ≠ 0 := by
    intro h0
    simp_all [← Std.ExtTreeMap.eq_empty_iff_size_eq_zero]
  simp only [Std.ExtTreeMap.size_erase, Std.ExtTreeMap.contains_iff_mem, if_pos hm]
  omega

theorem release_of_none {r : Reorder} (h : r.held[r.next]? = none) : r.release = (r, []) := by
  rw [release.eq_def, h]

theorem release_of_some {r : Reorder} {payload : Bytes} (h : r.held[r.next]? = some payload) :
    r.release =
      let after := release { next := r.next + 1, held := r.held.erase r.next }
      (after.1, payload :: after.2) := by
  rw [release.eq_def, h]

/-- Takes a payload for a position. A payload whose position has passed is
dropped, and one whose position is taken leaves the first in place. -/
def accept (r : Reorder) (position : UInt8) (payload : Bytes) : Reorder × List Bytes :=
  if position = r.next then
    let (after, payloads) := release { r with next := r.next + 1 }
    (after, payload :: payloads)
  else if r.next < position ∨ r.next = 255 then
    ({ r with held := r.held.insertIfNew position payload }, [])
  else (r, [])

end Reorder

end DatagramTransport
