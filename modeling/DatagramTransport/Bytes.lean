import DatagramTransport.Error

/-!
# Bytes and words

Words are written with their high byte first. A reader gives a value and
the unread rest, or says how many bytes its field needed and how many were
left. Reading a written word gives the word back and leaves what follows
it; whatever reading gives, writing it restores the input.
-/

set_option autoImplicit false

namespace DatagramTransport

abbrev Bytes := List UInt8

abbrev Reader (α : Type) := Bytes → Except Error (α × Bytes)

def writeUInt16 (n : UInt16) : Bytes :=
  [.ofNat (n.toNat / 256), n.toUInt8]

def writeUInt32 (n : UInt32) : Bytes :=
  [.ofNat (n.toNat / 16777216), .ofNat (n.toNat / 65536), .ofNat (n.toNat / 256),
    n.toUInt8]

def joinUInt16 (high low : UInt8) : UInt16 :=
  .ofNat (high.toNat * 256 + low.toNat)

def joinUInt32 (a b c d : UInt8) : UInt32 :=
  .ofNat (a.toNat * 16777216 + b.toNat * 65536 + c.toNat * 256 + d.toNat)

def readUInt8 : Reader UInt8
  | byte :: rest => .ok (byte, rest)
  | [] => .error (.truncated 1 0)

def readUInt16 : Reader UInt16
  | high :: low :: rest => .ok (joinUInt16 high low, rest)
  | short => .error (.truncated 2 short.length)

def readUInt32 : Reader UInt32
  | a :: b :: c :: d :: rest => .ok (joinUInt32 a b c d, rest)
  | short => .error (.truncated 4 short.length)

@[simp] theorem length_writeUInt16 (n : UInt16) : (writeUInt16 n).length = 2 := rfl

@[simp] theorem length_writeUInt32 (n : UInt32) : (writeUInt32 n).length = 4 := rfl

@[simp] theorem readUInt8_cons (byte : UInt8) (rest : Bytes) :
    readUInt8 (byte :: rest) = .ok (byte, rest) := rfl

@[simp] theorem readUInt16_writeUInt16 (n : UInt16) (rest : Bytes) :
    readUInt16 (writeUInt16 n ++ rest) = .ok (n, rest) := by
  have h : joinUInt16 (.ofNat (n.toNat / 256)) n.toUInt8 = n := by
    apply UInt16.toNat.inj
    have := n.toNat_lt
    simp [joinUInt16]
    omega
  simp [writeUInt16, readUInt16, h]

@[simp] theorem readUInt32_writeUInt32 (n : UInt32) (rest : Bytes) :
    readUInt32 (writeUInt32 n ++ rest) = .ok (n, rest) := by
  have h : joinUInt32 (.ofNat (n.toNat / 16777216)) (.ofNat (n.toNat / 65536))
      (.ofNat (n.toNat / 256)) n.toUInt8 = n := by
    apply UInt32.toNat.inj
    have := n.toNat_lt
    simp [joinUInt32]
    omega
  simp [writeUInt32, readUInt32, h]

theorem writeUInt16_join (high low : UInt8) :
    writeUInt16 (joinUInt16 high low) = [high, low] := by
  have := high.toNat_lt
  have := low.toNat_lt
  simp only [writeUInt16, joinUInt16, List.cons.injEq, and_true]
  constructor
  · apply UInt8.toNat.inj
    simp
    omega
  · apply UInt8.toNat.inj
    simp

theorem writeUInt32_join (a b c d : UInt8) :
    writeUInt32 (joinUInt32 a b c d) = [a, b, c, d] := by
  have := a.toNat_lt
  have := b.toNat_lt
  have := c.toNat_lt
  have := d.toNat_lt
  simp only [writeUInt32, joinUInt32, List.cons.injEq, and_true]
  refine ⟨?_, ?_, ?_, ?_⟩ <;> apply UInt8.toNat.inj <;> simp <;> omega

theorem eq_of_readUInt8 {bytes rest : Bytes} {n : UInt8}
    (h : readUInt8 bytes = .ok (n, rest)) : bytes = n :: rest := by
  unfold readUInt8 at h
  split at h <;> simp_all

theorem eq_of_readUInt16 {bytes rest : Bytes} {n : UInt16}
    (h : readUInt16 bytes = .ok (n, rest)) : bytes = writeUInt16 n ++ rest := by
  unfold readUInt16 at h
  split at h
  · obtain ⟨rfl, rfl⟩ := by simpa using h
    simp [writeUInt16_join]
  · simp at h

theorem eq_of_readUInt32 {bytes rest : Bytes} {n : UInt32}
    (h : readUInt32 bytes = .ok (n, rest)) : bytes = writeUInt32 n ++ rest := by
  unfold readUInt32 at h
  split at h
  · obtain ⟨rfl, rfl⟩ := by simpa using h
    simp [writeUInt32_join]
  · simp at h

end DatagramTransport
