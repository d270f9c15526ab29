import DatagramTransport.Bytes

/-!
# Putting a fragmented message together

A message in parts is known by the message id of its first part and the
number of parts, since the shorter id on its fragments is used again and
again. A part that is there already stays, and one beyond the count is
ignored, so neither order nor repetition of the fragments matters.
-/

set_option autoImplicit false

namespace DatagramTransport

structure Reassembly where
  /-- The message id of the fragment with index zero. -/
  base : UInt16
  parts : List (Option Bytes)
  deriving DecidableEq, Repr

namespace Reassembly

def start (base : UInt16) (count : UInt8) : Reassembly where
  base := base
  parts := List.replicate count.toNat none

def belongs (r : Reassembly) (base : UInt16) (count : UInt8) : Bool :=
  r.base == base && r.parts.length == count.toNat

def isComplete (r : Reassembly) : Bool :=
  r.parts.all Option.isSome

def add (r : Reassembly) (index : UInt8) (part : Bytes) : Reassembly :=
  { r with parts := r.parts.modify index.toNat (·.or (some part)) }

def assemble (r : Reassembly) : Except Fault Bytes :=
  if r.isComplete then .ok (r.parts.filterMap id).flatten else .error .incompleteMessage

@[simp] theorem base_add (r : Reassembly) (index : UInt8) (part : Bytes) :
    (r.add index part).base = r.base := rfl

@[simp] theorem length_parts_add (r : Reassembly) (index : UInt8) (part : Bytes) :
    (r.add index part).parts.length = r.parts.length := by
  simp [add]

@[simp] theorem length_parts_start (base : UInt16) (count : UInt8) :
    (start base count).parts.length = count.toNat := by
  simp [start]

theorem belongs_start (base : UInt16) (count : UInt8) :
    (start base count).belongs base count = true := by
  simp [belongs, start]

theorem getElem?_parts_add (r : Reassembly) (index : UInt8) (part : Bytes) (i : Nat) :
    (r.add index part).parts[i]? =
      if index.toNat = i then r.parts[i]?.map (·.or (some part)) else r.parts[i]? := by
  simp only [add, List.getElem?_modify]
  split <;> cases r.parts[i]? <;> rfl

theorem assemble_of_isComplete {r : Reassembly} (h : r.isComplete = true) :
    r.assemble = .ok (r.parts.filterMap id).flatten :=
  if_pos h

end Reassembly

end DatagramTransport
