import DatagramTransport.Config
import DatagramTransport.Width

/-!
# Frames

A frame is a length, a header that depends on the channel, and the payload.
The length also counts itself and the channel id, which stands in front of
the frame in a datagram but is not part of it.
-/

set_option autoImplicit false

namespace DatagramTransport

/-- Channel id and length field, both counted in a frame's length. -/
def framePrefixLength : Nat := 3

structure Frame where
  messageId : Option UInt16
  bytes : Bytes
  deriving DecidableEq, Repr

def encodeFrame (header payload : Bytes) : Except Fault Bytes := do
  let length ← narrowUInt16 (framePrefixLength + header.length + payload.length)
  return writeUInt16 length ++ header ++ payload

/-- Gives what is left of the datagram, and the frame's own header and payload. A frame that is
refused leaves all but its length field. -/
def takeFrame (headerLength : Nat) (bytes : Bytes) : Bytes × Except Error Bytes :=
  match readUInt16 bytes with
  | .error e => (bytes, .error e)
  | .ok (length, rest) =>
    let length := length.toNat
    if length < headerLength then
      (rest, .error (.frameShorterThanHeader length headerLength))
    else
      let body := rest.take (length - framePrefixLength)
      if body.length < length - framePrefixLength then
        (rest, .error (.frameExceedsDatagram length (rest.length + framePrefixLength)))
      else (rest.drop (length - framePrefixLength), .ok body)

def readInFrame {α : Type} (read : Reader α) (body : Bytes) : Except Fault (α × Bytes) :=
  (read body).mapError fun _ => .readPastFrame

/-- How many fragments a message has: at least one, whatever its length. -/
def fragmentCount (length : Nat) : Nat :=
  max 1 ((length + (fragmentLength - 1)) / fragmentLength)

/-- The first parts of a message, each as long as a fragment can be. -/
def fragments : Nat → Bytes → List Bytes
  | 0, _ => []
  | n + 1, message =>
    message.take fragmentLength :: fragments n (message.drop fragmentLength)

theorem length_takeFrame_le (headerLength : Nat) (bytes : Bytes) :
    (takeFrame headerLength bytes).1.length ≤ bytes.length := by
  unfold takeFrame
  split
  · exact Nat.le_refl _
  · rename_i h
    have := congrArg List.length (eq_of_readUInt16 h)
    simp only [List.length_append, length_writeUInt16] at this
    dsimp only
    split
    · dsimp only
      omega
    · split
      · dsimp only
        omega
      · simp only [List.length_drop]
        omega

theorem length_fragments (n : Nat) (message : Bytes) : (fragments n message).length = n := by
  induction n generalizing message with
  | zero => rfl
  | succ n ih => simp [fragments, ih]

theorem flatten_fragments (n : Nat) (message : Bytes) :
    (fragments n message).flatten = message.take (n * fragmentLength) := by
  induction n generalizing message with
  | zero => simp [fragments]
  | succ n ih =>
    rw [fragments, List.flatten_cons, ih, Nat.succ_mul, Nat.add_comm, List.take_add]

theorem flatten_fragments_fragmentCount (message : Bytes) :
    (fragments (fragmentCount message.length) message).flatten = message := by
  rw [flatten_fragments]
  apply List.take_of_length_le
  simp only [fragmentCount, fragmentLength]
  omega

end DatagramTransport
