import DatagramTransport.Packet.DataHeader

/-!
# Selective acknowledgement

The receiving side keeps the highest reliable message id it has seen and a
mask over the 32 ids that end there: bit `i` is clear if the id `i` places
below was skipped. Ids are compared as plain numbers, also where they wrap,
and an id below the highest one is taken as new whether it was seen or not.

The sending side reads a peer's report as two lists of ids, the received
and the missing ones, counted down from the reported id modulo 2 ^ 16.
-/

set_option autoImplicit false

namespace DatagramTransport

def ackSpan : Nat := 32

structure AckWindow where
  mode : AckMode
  latest : UInt16
  mask : BitVec ackSpan
  deriving DecidableEq, Repr

structure AckReading where
  missing : List UInt16
  received : List UInt16
  deriving DecidableEq, Repr

namespace AckWindow

def fresh (mode : AckMode) : AckWindow where
  mode := mode
  latest := 0
  mask := BitVec.allOnes ackSpan

/-- The flag is `false` for a repetition of the highest id, whose payload is to be skipped. -/
def record (w : AckWindow) (id : UInt16) : AckWindow × Bool :=
  if id = w.latest then (w, false)
  else if w.latest < id then
    ({ w with latest := id, mask := w.mask <<< (id - w.latest).toNat ||| .twoPow ackSpan 0 }, true)
  else ({ w with mask := w.mask ||| .twoPow ackSpan (w.latest - id).toNat }, true)

def recordAll (w : AckWindow) : List UInt16 → AckWindow × List Bool
  | [] => (w, [])
  | id :: ids =>
    let (next, isNew) := w.record id
    let (last, flags) := next.recordAll ids
    (last, isNew :: flags)

def report (w : AckWindow) : Except Error (UInt16 × UInt32) :=
  match w.mode with
  | .long => .error .longAckReport
  | .short => .ok (w.latest, .ofBitVec w.mask)

/-- Reads a peer's report. The receiving side of the window has no part in it. -/
def read (w : AckWindow) (latest : UInt16) (mask : UInt32) : Except Error AckReading :=
  match w.mode with
  | .long => .error .longAckReport
  | .short =>
    let (received, missing) := (List.range ackSpan).partition mask.toBitVec.getLsbD
    let id (i : Nat) : UInt16 := latest - .ofNat i
    .ok { missing := missing.map id, received := received.map id }

@[simp] theorem record_mode (w : AckWindow) (id : UInt16) :
    (w.record id).1.mode = w.mode := by
  unfold record
  split
  · rfl
  · split <;> rfl

theorem record_latest (w : AckWindow) (id : UInt16) :
    (w.record id).1.latest.toNat = max w.latest.toNat id.toNat := by
  unfold record
  split
  · simp_all
  · split
    · simp_all [UInt16.lt_iff_toNat_lt]
      omega
    · simp_all [UInt16.lt_iff_toNat_lt]

theorem record_accepted (w : AckWindow) (id : UInt16) :
    (w.record id).2 = true ↔ id ≠ w.latest := by
  unfold record
  split
  · simp_all
  · split <;> simp_all

theorem recordAll_append (w : AckWindow) (ids later : List UInt16) :
    (w.recordAll (ids ++ later)).1 = ((w.recordAll ids).1.recordAll later).1 := by
  induction ids generalizing w with
  | nil => rfl
  | cons id ids ih => exact ih _

theorem length_recordAll (w : AckWindow) (ids : List UInt16) :
    (w.recordAll ids).2.length = ids.length := by
  induction ids generalizing w with
  | nil => rfl
  | cons id ids ih => exact congrArg Nat.succ (ih _)

end AckWindow

end DatagramTransport
