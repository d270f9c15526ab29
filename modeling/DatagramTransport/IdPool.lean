import DatagramTransport.Error

/-!
# Connection ids

Ids that were given back are used again, the last one first, before a fresh
one is issued. The reserved id zero is never issued. Giving back an id that
is free, or the reserved one, is a fault of the caller.
-/

set_option autoImplicit false

namespace DatagramTransport

structure IdPool where
  /-- The smallest id never issued, unless all were. -/
  fresh : Option UInt16
  /-- Released ids, the most recent first. -/
  free : List UInt16
  deriving DecidableEq, Repr

namespace IdPool

def full : IdPool where
  fresh := some 1
  free := []

def successor? (id : UInt16) : Option UInt16 :=
  if id = 65535 then none else some (id + 1)

def allocate (p : IdPool) : IdPool × Option UInt16 :=
  match p.free, p.fresh with
  | id :: free, _ => ({ p with free }, some id)
  | [], some id => ({ p with fresh := successor? id }, some id)
  | [], none => (p, none)

def release (p : IdPool) (id : UInt16) : Except Fault IdPool :=
  if id = 0 then .error .reservedIdReleased
  else if id ∈ p.free then .error (.releasedTwice id)
  else .ok { p with free := id :: p.free }

theorem allocate_release {p q : IdPool} {id : UInt16} (h : p.release id = .ok q) :
    q.allocate = (p, some id) := by
  unfold release at h
  split at h
  · simp at h
  · split at h
    · simp at h
    · obtain rfl := by simpa using h
      rfl

end IdPool

end DatagramTransport
