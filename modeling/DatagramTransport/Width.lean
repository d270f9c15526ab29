import DatagramTransport.Error

/-!
# Numbers that must fit a word

Lengths and counts are natural numbers. Where one goes into a field of the
wire format it has to fit; a number that does not is a fault, never cut off.
-/

set_option autoImplicit false

namespace DatagramTransport

def narrowUInt8 (n : Nat) : Except Fault UInt8 :=
  if n < 256 then .ok (.ofNat n) else .error .castOutOfRange

def narrowUInt16 (n : Nat) : Except Fault UInt16 :=
  if n < 65536 then .ok (.ofNat n) else .error .castOutOfRange

theorem narrowUInt8_of_lt {n : Nat} (h : n < 256) : narrowUInt8 n = .ok (.ofNat n) :=
  if_pos h

theorem narrowUInt16_of_lt {n : Nat} (h : n < 65536) : narrowUInt16 n = .ok (.ofNat n) :=
  if_pos h

theorem narrowUInt8_toNat (n : UInt8) : narrowUInt8 n.toNat = .ok n := by
  simp [narrowUInt8_of_lt n.toNat_lt]

theorem narrowUInt16_toNat (n : UInt16) : narrowUInt16 n.toNat = .ok n := by
  simp [narrowUInt16_of_lt n.toNat_lt]

end DatagramTransport
