import DatagramTransport.Connection.Receive
import DatagramTransport.Connection.Send
import DatagramTransport.Proofs.Codec

/-!
# What a connection emits

In the short mode, first transmissions, repetitions and pure
acknowledgements differ only in their bodies. A list of bodies goes out as
one datagram each, in order, under consecutive packet numbers and with the
same report; nothing else about the connection has a part in it.
-/

set_option autoImplicit false

namespace DatagramTransport

/-- What stands behind the header of a packet. -/
def bodyBytes : Option Transfer → Bytes
  | none => []
  | some t => t.channel :: t.frame

def Transfer.ofDatagram? (datagram : Bytes) : Option Transfer :=
  match datagram.drop DataHeader.encodedLength with
  | [] => none
  | channel :: frame => some { channel, frame }

@[simp] theorem Transfer.ofDatagram?_bytes (h : DataHeader) (body : Option Transfer) :
    ofDatagram? (h.bytes ++ bodyBytes body) = body := by
  rw [ofDatagram?, DataHeader.drop_bytes]
  cases body <;> rfl

namespace Connection

structure Short (c : Connection) : Prop where
  window : c.window.mode = .short
  config : c.endpoint.config.ackMode = .short

def header (c : Connection) : DataHeader where
  connection := c.endpoint.id
  packet := c.nextPacket
  session := c.endpoint.session
  ackLatest := c.window.latest
  ackMask := .ofBitVec c.window.mask

def advance (c : Connection) (n : Nat) : Connection :=
  { c with nextPacket := c.nextPacket + .ofNat n }

@[simp] theorem advance_zero (c : Connection) : c.advance 0 = c := by
  simp [advance]

theorem advance_advance (c : Connection) (m n : Nat) :
    (c.advance m).advance n = c.advance (m + n) := by
  simp [advance, UInt16.add_assoc]

def datagrams (c : Connection) : List (Option Transfer) → List Bytes
  | [] => []
  | body :: bodies => (c.header.bytes ++ bodyBytes body) :: (c.advance 1).datagrams bodies

theorem length_datagrams (c : Connection) (bodies : List (Option Transfer)) :
    (c.datagrams bodies).length = bodies.length := by
  induction bodies generalizing c with
  | nil => rfl
  | cons body bodies ih => exact congrArg Nat.succ (ih _)

theorem map_ofDatagram?_datagrams (c : Connection) (bodies : List (Option Transfer)) :
    (c.datagrams bodies).map Transfer.ofDatagram? = bodies := by
  induction bodies generalizing c with
  | nil => rfl
  | cons body bodies ih =>
    rw [datagrams, List.map_cons, Transfer.ofDatagram?_bytes, ih]

theorem datagrams_eq_mapIdx (c : Connection) (bodies : List (Option Transfer)) :
    c.datagrams bodies =
      bodies.mapIdx fun i body => (c.advance i).header.bytes ++ bodyBytes body := by
  induction bodies generalizing c with
  | nil => rfl
  | cons body bodies ih =>
    rw [datagrams, ih, List.mapIdx_cons, advance_zero]
    simp only [advance_advance, Nat.add_comm 1]

theorem mem_datagrams {c : Connection} {bodies : List (Option Transfer)} {datagram : Bytes}
    (h : datagram ∈ c.datagrams bodies) :
    ∃ n, ∃ body ∈ bodies, datagram = (c.advance n).header.bytes ++ bodyBytes body := by
  rw [datagrams_eq_mapIdx, List.mem_mapIdx] at h
  obtain ⟨n, hn, rfl⟩ := h
  exact ⟨n, bodies[n], List.getElem_mem hn, rfl⟩

/-- Emission looks at the endpoint, the packet counter and the window only. -/
theorem datagrams_congr {c d : Connection} (he : c.endpoint = d.endpoint)
    (hp : c.nextPacket = d.nextPacket) (hw : c.window = d.window)
    (bodies : List (Option Transfer)) : c.datagrams bodies = d.datagrams bodies := by
  induction bodies generalizing c d with
  | nil => rfl
  | cons body bodies ih =>
    have hh : c.header = d.header := by simp [header, he, hp, hw]
    have ht := ih (c := c.advance 1) (d := d.advance 1) he
      (by simp [advance, hp]) hw
    rw [datagrams, datagrams, hh, ht]

theorem packet_eq {c : Connection} (h : c.Short) (body : Option Transfer) :
    c.packet body = if maxBufferLength < c.endpoint.config.maxDatagramLength then
      .error (.fault .capacityOverflow)
    else .ok (c.advance 1, c.header.bytes ++ bodyBytes body) := by
  have hr : c.window.report = .ok (c.window.latest, .ofBitVec c.window.mask) := by
    simp [AckWindow.report, h.window]
  unfold packet
  rw [hr, h.config]
  by_cases hm : maxBufferLength < c.endpoint.config.maxDatagramLength
  · rw [if_pos hm]
    simp only [bind, Except.bind, if_pos hm]
    rfl
  · rw [if_neg hm]
    simp only [bind, Except.bind, if_neg hm]
    cases body <;> rfl

theorem packet_ok {c d : Connection} (h : c.Short) {body : Option Transfer} {datagram : Bytes}
    (hp : c.packet body = .ok (d, datagram)) :
    d = c.advance 1 ∧ datagram = c.header.bytes ++ bodyBytes body := by
  rw [packet_eq h] at hp
  split at hp <;> cases hp
  exact ⟨rfl, rfl⟩

theorem packet_error {c : Connection} (h : c.Short) {body : Option Transfer} {e : Error}
    (hp : c.packet body = .error e) : e = .fault .capacityOverflow := by
  rw [packet_eq h] at hp
  split at hp <;> cases hp
  rfl

theorem Short.advance {c : Connection} (h : c.Short) (n : Nat) : (c.advance n).Short :=
  ⟨h.window, h.config⟩

def kept (c : Connection) (ids : List UInt16) : List (Option Transfer) :=
  (ids.filterMap fun id => c.pending[id]?).map some

theorem kept_of_empty {c : Connection} (h : ∀ id : UInt16, c.pending[id]? = none)
    (ids : List UInt16) : c.kept ids = [] := by
  simp [kept, h]

theorem sendAgain_eq {c : Connection} (h : c.Short) {ids : List UInt16}
    (hok : (c.sendAgain ids).answer = .ok ()) :
    c.sendAgain ids = { connection := c.advance (c.kept ids).length
                        emitted := c.datagrams (c.kept ids), answer := .ok () } := by
  induction ids generalizing c with
  | nil => simp [sendAgain, kept, datagrams]
  | cons id ids ih =>
    rw [sendAgain] at hok ⊢
    cases hp : c.pending[id]? with
    | none =>
      have hk : c.kept (id :: ids) = c.kept ids := by simp [kept, hp]
      simp only [hp] at hok ⊢
      rw [hk]
      exact ih h hok
    | some t =>
      have hk : c.kept (id :: ids) = some t :: (c.advance 1).kept ids := by
        simp [kept, hp, Connection.advance]
      simp only [hp] at hok ⊢
      split at hok
      · cases hok
      · rename_i d datagram hd
        obtain ⟨rfl, rfl⟩ := packet_ok h hd
        rw [hk, ih (h.advance 1) hok]
        simp only [datagrams, List.length_cons, advance_advance, Nat.add_comm 1]

theorem sendAgain_answer {c : Connection} (h : c.Short) (ids : List UInt16) :
    (c.sendAgain ids).answer = .ok () ∨
      (c.sendAgain ids).answer = .error (.fault .capacityOverflow) := by
  induction ids generalizing c with
  | nil => exact .inl rfl
  | cons id ids ih =>
    rw [sendAgain]
    split
    · exact ih h
    · split
      · rename_i e he
        exact .inr (congrArg Except.error (packet_error h he))
      · rename_i d datagram hd
        obtain ⟨rfl, -⟩ := packet_ok h hd
        exact ih (h.advance 1)

theorem echo_eq {c : Connection} (h : c.Short) {n : Nat} {step : Step Unit}
    (hs : echo n c = .ok step) :
    step = { connection := c.advance n, emitted := c.datagrams (List.replicate n none)
             answer := () } := by
  induction n generalizing c step with
  | zero =>
    cases hs
    simp [datagrams]
  | succ n ih =>
    rw [echo] at hs
    split at hs
    · cases hs
    · rename_i e hne he
      exact absurd (packet_error h he) (hne _)
    · rename_i d datagram hd
      obtain ⟨rfl, rfl⟩ := packet_ok h hd
      obtain ⟨rest, hr, hs⟩ := bind_eq_ok.mp hs
      cases hs
      rw [ih (h.advance 1) hr]
      simp only [advance_advance, datagrams, List.replicate_succ, Nat.add_comm 1]

end Connection

end DatagramTransport
