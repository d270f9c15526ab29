import DatagramTransport.Packet.Control
import DatagramTransport.Proofs.Codec

/-!
# Packets on the wire

Every packet of a kind has the same length, and is read back in front of
whatever follows. Nothing else is read: what can be read is the written form
of the value that was read, and it can be read if it is long enough and its
first bytes, and the reason of a disconnect, are those of its kind.
-/

set_option autoImplicit false

namespace DatagramTransport

/-- A layout in which every value of its own has one written form. The form is read back in
front of anything, and whatever is read is the form of its value and what follows. -/
structure Exact {α : Type} (write : α → Except Error Bytes) (read : Reader α) (Own : α → Prop)
    (Readable : Bytes → Prop) : Prop where
  read_written : ∀ value, Own value →
    ∃ written, write value = .ok written ∧ ∀ rest, read (written ++ rest) = .ok (value, rest)
  written_of_read : ∀ bytes value rest, read bytes = .ok (value, rest) →
    Own value ∧ ∃ written, write value = .ok written ∧ bytes = written ++ rest
  read_iff : ∀ bytes, (∃ value rest, read bytes = .ok (value, rest)) ↔ Readable bytes

theorem exact_of_decode {α : Type} {encode : α → Bytes} {read : Reader α} {Own : α → Prop}
    {Readable : Bytes → Prop}
    (hread : ∀ value, Own value → ∀ rest, read (encode value ++ rest) = .ok (value, rest))
    (hwritten : ∀ bytes value rest, read bytes = .ok (value, rest) →
      Own value ∧ bytes = encode value ++ rest)
    (hform : ∀ value, Own value → ∀ rest, Readable (encode value ++ rest))
    (htotal : ∀ bytes, Readable bytes → ∃ value rest, read bytes = .ok (value, rest)) :
    Exact (fun value => .ok (encode value)) read Own Readable where
  read_written value hown := ⟨encode value, rfl, hread value hown⟩
  written_of_read bytes value rest h := by
    obtain ⟨hown, hbytes⟩ := hwritten bytes value rest h
    exact ⟨hown, encode value, rfl, hbytes⟩
  read_iff bytes := by
    constructor
    · rintro ⟨value, rest, h⟩
      obtain ⟨hown, rfl⟩ := hwritten bytes value rest h
      exact hform value hown rest
    · exact htotal bytes

namespace SystemHeader

@[simp] theorem length_encode (h : SystemHeader) : h.encode.length = encodedLength := rfl

theorem decode_encode (h : SystemHeader) (rest : Bytes) :
    decode (h.encode ++ rest) = .ok (h, rest) := by
  simp only [decode, encode, List.append_assoc, List.cons_append, readUInt16_writeUInt16,
    readUInt8_cons, RequestType.ofCode?_code, bind, Except.bind]
  rfl

theorem decodeAs_encode (h : SystemHeader) (rest : Bytes) :
    decodeAs h.type (h.encode ++ rest) = .ok (h, rest) := by
  unfold decodeAs
  rw [decode_encode]
  exact if_pos rfl

theorem eq_of_decode {bytes rest : Bytes} {h : SystemHeader} (hd : decode bytes = .ok (h, rest)) :
    bytes = h.encode ++ rest := by
  obtain ⟨⟨connection, r1⟩, h1, hd⟩ := bind_eq_ok.mp hd
  by_cases hsystem : connection = systemConnection
  case neg =>
    simp only [if_neg hsystem] at hd
    cases hd
  simp only [if_pos hsystem] at hd
  obtain ⟨⟨code, r2⟩, h2, hd⟩ := bind_eq_ok.mp hd
  cases htype : RequestType.ofCode? code with
  | none =>
    simp only [htype] at hd
    cases hd
  | some type =>
    simp only [htype] at hd
    obtain ⟨⟨packet, r3⟩, h3, hd⟩ := bind_eq_ok.mp hd
    obtain ⟨⟨session, r4⟩, h4, hd⟩ := bind_eq_ok.mp hd
    obtain ⟨⟨senderId, r5⟩, h5, hd⟩ := bind_eq_ok.mp hd
    obtain ⟨⟨receiverId, r6⟩, h6, hd⟩ := bind_eq_ok.mp hd
    dsimp only at h4 h5 h6
    cases hd
    rw [eq_of_readUInt16 h1, eq_of_readUInt8 h2, eq_of_readUInt16 h3, eq_of_readUInt16 h4,
      eq_of_readUInt16 h5, eq_of_readUInt16 h6, hsystem, ← RequestType.code_of_ofCode? htype]
    simp only [encode, List.append_assoc, List.cons_append]

theorem eq_of_decodeAs {expected : RequestType} {bytes rest : Bytes} {h : SystemHeader}
    (hd : decodeAs expected bytes = .ok (h, rest)) :
    h.type = expected ∧ bytes = h.encode ++ rest := by
  obtain ⟨⟨header, r1⟩, hheader, hd⟩ := bind_eq_ok.mp hd
  by_cases htype : header.type = expected
  · simp only [if_pos htype] at hd
    cases hd
    exact ⟨htype, eq_of_decode hheader⟩
  · simp only [if_neg htype] at hd
    cases hd

def decodeFields (type : RequestType) : Reader SystemHeader := fun bytes => do
  let (packet, rest) ← readUInt16 bytes
  let (session, rest) ← readUInt16 rest
  let (senderId, rest) ← readUInt16 rest
  let (receiverId, rest) ← readUInt16 rest
  return ({ type, packet, session, senderId, receiverId }, rest)

theorem hasWidth_decodeFields (type : RequestType) : (decodeFields type).HasWidth 8 := by
  apply hasWidth_uint16.bind
  intro packet
  apply hasWidth_uint16.bind
  intro session
  apply hasWidth_uint16.bind
  intro senderId
  apply hasWidth_uint16.bind
  intro receiverId
  apply hasWidth_pure

theorem decode_of_type (type : RequestType) (rest : Bytes) :
    decode (writeUInt16 systemConnection ++ type.code :: rest) = decodeFields type rest := by
  simp only [decode, readUInt16_writeUInt16, readUInt8_cons, RequestType.ofCode?_code, bind,
    Except.bind]
  rfl

/-- The bytes are as many as a packet of this type has, and the first of them are its own. -/
structure Starts (type : RequestType) (length : Nat) (bytes : Bytes) : Prop where
  room : length ≤ bytes.length
  system : bytes.take 2 = [0, 0]
  type : bytes[2]? = some type.code

theorem starts_append (h : SystemHeader) {length : Nat} {fields : Bytes}
    (hroom : length ≤ encodedLength + fields.length) :
    Starts h.type length (h.encode ++ fields) where
  room := by rwa [List.length_append, length_encode]
  system := rfl
  type := rfl

section
variable {type : RequestType} {length : Nat} {bytes : Bytes}

theorem Starts.decode (h : Starts type length bytes) (hlength : encodedLength ≤ length) :
    ∃ header : SystemHeader, header.type = type ∧
      SystemHeader.decode bytes = .ok (header, bytes.drop encodedLength) := by
  have hwidth : encodedLength = 3 + 8 := rfl
  obtain ⟨rest, rfl⟩ : ∃ rest, bytes = writeUInt16 systemConnection ++ type.code :: rest := by
    have hroom := h.room
    match bytes, hroom with
    | [], hroom | [_], hroom | [_, _], hroom => simp at hroom; omega
    | a :: b :: code :: rest, _ =>
      have hab := h.system
      have hcode := h.type
      simp only [List.take_succ_cons, List.take_zero, List.cons.injEq, and_true] at hab
      obtain ⟨rfl, rfl⟩ := hab
      cases hcode
      exact ⟨rest, rfl⟩
  have hroom := h.room
  simp only [List.length_append, length_writeUInt16, List.length_cons] at hroom
  obtain ⟨header, hfields⟩ := hasWidth_decodeFields type rest (by omega)
  refine ⟨header, ?_, ?_⟩
  · obtain ⟨⟨packet, r1⟩, -, hfields⟩ := bind_eq_ok.mp hfields
    obtain ⟨⟨session, r2⟩, -, hfields⟩ := bind_eq_ok.mp hfields
    obtain ⟨⟨senderId, r3⟩, -, hfields⟩ := bind_eq_ok.mp hfields
    obtain ⟨⟨receiverId, r4⟩, -, hfields⟩ := bind_eq_ok.mp hfields
    cases hfields
    rfl
  · rw [decode_of_type, hfields]
    rfl

theorem Starts.decodeAs (h : Starts type length bytes) (hlength : encodedLength ≤ length) :
    ∃ header : SystemHeader,
      SystemHeader.decodeAs type bytes = .ok (header, bytes.drop encodedLength) := by
  obtain ⟨header, rfl, hdecode⟩ := h.decode hlength
  exact ⟨header, (bind_of_ok hdecode).trans (if_pos rfl)⟩

theorem Starts.read {α : Type} {width : Nat} (h : Starts type (encodedLength + width) bytes)
    {next : SystemHeader × Bytes → Except Error (α × Bytes)}
    (hnext : ∀ header, Reader.HasWidth (fun rest => next (header, rest)) width) :
    ∃ value rest, (SystemHeader.decodeAs type bytes >>= next) = .ok (value, rest) := by
  obtain ⟨header, hheader⟩ := h.decodeAs (Nat.le_add_right _ _)
  have hbehind : width ≤ (bytes.drop encodedLength).length := by
    rw [List.length_drop]
    exact Nat.le_sub_of_add_le' h.room
  obtain ⟨value, hvalue⟩ := hnext header _ hbehind
  exact ⟨value, _, (bind_of_ok hheader).trans hvalue⟩

end

@[simp] theorem peekConnection_encode (h : SystemHeader) (rest : Bytes) :
    peekConnection (h.encode ++ rest) = .ok systemConnection := rfl

@[simp] theorem getElem?_encode (h : SystemHeader) (rest : Bytes) :
    (h.encode ++ rest)[2]? = some h.type.code := rfl

end SystemHeader

namespace Connect

def encodedLength : Nat := SystemHeader.encodedLength + 8

theorem decode_encode {p : Connect} (h : p.header.type = .connectRequest) (rest : Bytes) :
    decode (p.encode ++ rest) = .ok (p, rest) := by
  have hheader := p.header.decodeAs_encode
  rw [h] at hheader
  simp only [decode, encode, List.append_assoc, hheader, readUInt32_writeUInt32, bind,
    Except.bind]
  rfl

theorem eq_of_decode {bytes rest : Bytes} {p : Connect} (hd : decode bytes = .ok (p, rest)) :
    p.header.type = .connectRequest ∧ bytes = p.encode ++ rest := by
  obtain ⟨⟨header, r1⟩, hheader, hd⟩ := bind_eq_ok.mp hd
  obtain ⟨⟨version, r2⟩, h2, hd⟩ := bind_eq_ok.mp hd
  obtain ⟨⟨crc, r3⟩, h3, hd⟩ := bind_eq_ok.mp hd
  cases hd
  obtain ⟨htype, rfl⟩ := SystemHeader.eq_of_decodeAs hheader
  refine ⟨htype, ?_⟩
  rw [eq_of_readUInt32 h2, eq_of_readUInt32 h3]
  simp only [encode, List.append_assoc]

theorem starts_encode {p : Connect} (h : p.header.type = .connectRequest) (rest : Bytes) :
    SystemHeader.Starts .connectRequest encodedLength (p.encode ++ rest) := by
  rw [← h, encode, List.append_assoc, List.append_assoc]
  apply SystemHeader.starts_append
  simp only [encodedLength, List.length_append, length_writeUInt32]
  omega

theorem decode_of_starts {bytes : Bytes}
    (h : SystemHeader.Starts .connectRequest encodedLength bytes) :
    ∃ p rest, decode bytes = .ok (p, rest) := by
  apply SystemHeader.Starts.read h
  intro header
  apply hasWidth_uint32.bind
  intro version
  apply hasWidth_uint32.bind
  intro crc
  apply hasWidth_pure

theorem peek_of_decode {bytes rest : Bytes} {p : Connect} (hd : decode bytes = .ok (p, rest)) :
    peekConnection bytes = .ok systemConnection ∧
      bytes[2]? = some RequestType.connectRequest.code := by
  obtain ⟨⟨header, r1⟩, hheader, -⟩ := bind_eq_ok.mp hd
  obtain ⟨htype, rfl⟩ := SystemHeader.eq_of_decodeAs hheader
  rw [SystemHeader.getElem?_encode, htype]
  exact ⟨SystemHeader.peekConnection_encode header r1, rfl⟩

end Connect

namespace Ping

def encodedLength : Nat := SystemHeader.encodedLength + 16

theorem length_encode (p : Ping) : p.encode.length = encodedLength := rfl

theorem decode_encode {p : Ping} (h : p.header.type = .ping) (rest : Bytes) :
    decode (p.encode ++ rest) = .ok (p, rest) := by
  have hheader := p.header.decodeAs_encode
  rw [h] at hheader
  simp only [decode, encode, List.append_assoc, List.cons_append, hheader,
    readUInt16_writeUInt16, readUInt32_writeUInt32, readUInt8_cons, bind, Except.bind]
  rfl

theorem eq_of_decode {bytes rest : Bytes} {p : Ping} (hd : decode bytes = .ok (p, rest)) :
    p.header.type = .ping ∧ bytes = p.encode ++ rest := by
  obtain ⟨⟨header, r1⟩, hheader, hd⟩ := bind_eq_ok.mp hd
  obtain ⟨⟨sentTime, r2⟩, h2, hd⟩ := bind_eq_ok.mp hd
  obtain ⟨⟨ackedTime, r3⟩, h3, hd⟩ := bind_eq_ok.mp hd
  obtain ⟨⟨timeCorrection, r4⟩, h4, hd⟩ := bind_eq_ok.mp hd
  obtain ⟨⟨internalDropRate, r5⟩, h5, hd⟩ := bind_eq_ok.mp hd
  obtain ⟨⟨externalDropRate, r6⟩, h6, hd⟩ := bind_eq_ok.mp hd
  obtain ⟨⟨swappedSession, r7⟩, h7, hd⟩ := bind_eq_ok.mp hd
  cases hd
  obtain ⟨htype, rfl⟩ := SystemHeader.eq_of_decodeAs hheader
  refine ⟨htype, ?_⟩
  rw [eq_of_readUInt32 h2, eq_of_readUInt32 h3, eq_of_readUInt32 h4, eq_of_readUInt8 h5,
    eq_of_readUInt8 h6, eq_of_readUInt16 h7]
  simp only [encode, List.append_assoc, List.cons_append]

theorem starts_encode {p : Ping} (h : p.header.type = .ping) (rest : Bytes) :
    SystemHeader.Starts .ping encodedLength (p.encode ++ rest) := by
  rw [← h, encode, List.append_assoc, List.append_assoc, List.append_assoc, List.append_assoc]
  apply SystemHeader.starts_append
  simp only [encodedLength, List.length_append, List.length_cons, length_writeUInt32,
    length_writeUInt16]
  omega

theorem decode_of_starts {bytes : Bytes} (h : SystemHeader.Starts .ping encodedLength bytes) :
    ∃ p rest, decode bytes = .ok (p, rest) := by
  apply SystemHeader.Starts.read h
  intro header
  apply hasWidth_uint32.bind
  intro sentTime
  apply hasWidth_uint32.bind
  intro ackedTime
  apply hasWidth_uint32.bind
  intro timeCorrection
  apply hasWidth_uint8.bind
  intro internalDropRate
  apply hasWidth_uint8.bind
  intro externalDropRate
  apply hasWidth_uint16.bind
  intro swappedSession
  apply hasWidth_pure

end Ping

theorem DisconnectReason.ofCode?_eq_some {code : UInt8} :
    (∃ reason, ofCode? code = some reason) ↔ code ≤ 11 := by
  constructor
  · rintro ⟨reason, h⟩
    rw [← code_of_ofCode? h]
    cases reason <;> decide
  · intro h
    have hall : ∀ n < 12, (ofCode? (.ofNat n)).isSome = true := by decide
    have hsome := hall code.toNat (Nat.lt_succ_of_le (UInt8.le_iff_toNat_le.mp h))
    rw [UInt8.ofNat_toNat] at hsome
    exact Option.isSome_iff_exists.mp hsome

namespace Disconnect

def encodedLength : Nat := SystemHeader.encodedLength + 5

theorem length_encode (p : Disconnect) : p.encode.length = encodedLength := rfl

theorem decode_encode {p : Disconnect} (h : p.header.type = .disconnect) (rest : Bytes) :
    decode (p.encode ++ rest) = .ok (p, rest) := by
  have hheader := p.header.decodeAs_encode
  rw [h] at hheader
  simp only [decode, encode, List.append_assoc, List.cons_append, List.nil_append, hheader,
    readUInt32_writeUInt32, readUInt8_cons, DisconnectReason.ofCode?_code, bind, Except.bind]
  rfl

theorem eq_of_decode {bytes rest : Bytes} {p : Disconnect} (hd : decode bytes = .ok (p, rest)) :
    p.header.type = .disconnect ∧ bytes = p.encode ++ rest := by
  obtain ⟨⟨header, r1⟩, hheader, hd⟩ := bind_eq_ok.mp hd
  obtain ⟨⟨version, r2⟩, h2, hd⟩ := bind_eq_ok.mp hd
  obtain ⟨⟨code, r3⟩, h3, hd⟩ := bind_eq_ok.mp hd
  cases hreason : DisconnectReason.ofCode? code with
  | none =>
    simp only [hreason] at hd
    cases hd
  | some reason =>
    simp only [hreason] at hd
    cases hd
    obtain ⟨htype, rfl⟩ := SystemHeader.eq_of_decodeAs hheader
    refine ⟨htype, ?_⟩
    rw [eq_of_readUInt32 h2, eq_of_readUInt8 h3, ← DisconnectReason.code_of_ofCode? hreason]
    simp only [encode, List.append_assoc, List.cons_append, List.nil_append]

def Reasoned (bytes : Bytes) : Prop :=
  ∃ code : UInt8, bytes[15]? = some code ∧ code ≤ 11

theorem starts_encode {p : Disconnect} (h : p.header.type = .disconnect) (rest : Bytes) :
    SystemHeader.Starts .disconnect encodedLength (p.encode ++ rest) := by
  rw [← h, encode, List.append_assoc, List.append_assoc]
  apply SystemHeader.starts_append
  simp only [encodedLength, List.length_append, List.length_singleton, length_writeUInt32]
  omega

theorem reasoned_encode (p : Disconnect) (rest : Bytes) : Reasoned (p.encode ++ rest) :=
  ⟨p.reason.code, rfl,
    DisconnectReason.ofCode?_eq_some.mp ⟨p.reason, DisconnectReason.ofCode?_code p.reason⟩⟩

theorem decode_of_starts {bytes : Bytes}
    (h : SystemHeader.Starts .disconnect encodedLength bytes) (hreasoned : Reasoned bytes) :
    ∃ p rest, decode bytes = .ok (p, rest) := by
  obtain ⟨code, hcode, hlimit⟩ := hreasoned
  obtain ⟨reason, hreason⟩ := DisconnectReason.ofCode?_eq_some.mpr hlimit
  obtain ⟨header, hheader⟩ := h.decodeAs (Nat.le_add_right _ _)
  have hroom : 15 < bytes.length := h.room
  obtain ⟨version, hversion⟩ := hasWidth_uint32 (bytes.drop 11) (by rw [List.length_drop]; omega)
  have hlast : readUInt8 (bytes.drop 15) = .ok (code, bytes.drop 16) := by
    rw [List.drop_eq_getElem_cons hroom, readUInt8_cons]
    rw [List.getElem?_eq_getElem hroom] at hcode
    rw [Option.some.inj hcode]
  rw [List.drop_drop] at hversion
  refine ⟨{ header, version, reason }, bytes.drop 16, ?_⟩
  apply (bind_of_ok hheader).trans
  apply (bind_of_ok hversion).trans
  apply (bind_of_ok hlast).trans
  simp only [hreason]
  rfl

end Disconnect

/-- What is written is read back, what is read was written, and the length, the zero connection, the
type and the reason alone decide what can be read. -/
theorem packet_layouts_exact :
    Exact (DataHeader.encode .short) (DataHeader.decode .short) (fun _ => True)
        (fun bytes => 12 ≤ bytes.length) ∧
      Exact (fun h => .ok (SystemHeader.encode h)) SystemHeader.decode (fun _ => True)
        (fun bytes => ∃ type, SystemHeader.Starts type 11 bytes) ∧
      Exact (fun p => .ok (Connect.encode p)) Connect.decode
        (fun p => p.header.type = .connectRequest) (SystemHeader.Starts .connectRequest 19) ∧
      Exact (fun p => .ok (Disconnect.encode p)) Disconnect.decode
        (fun p => p.header.type = .disconnect)
        (fun bytes => SystemHeader.Starts .disconnect 16 bytes ∧ Disconnect.Reasoned bytes) ∧
      Exact (fun p => .ok (Ping.encode p)) Ping.decode (fun p => p.header.type = .ping)
        (SystemHeader.Starts .ping 27) := by
  refine ⟨?_, ?_, ?_, ?_, ?_⟩
  · apply exact_of_decode
    · exact fun h _ => h.decode_bytes
    · exact fun _ _ _ hd => ⟨trivial, DataHeader.eq_of_decode hd⟩
    · intro h _ rest
      rw [List.length_append]
      exact Nat.le_add_right h.bytes.length _
    · intro bytes hlength
      obtain ⟨h, hd⟩ := DataHeader.hasWidth_decode bytes hlength
      exact ⟨h, _, hd⟩
  · apply exact_of_decode
    · exact fun h _ => h.decode_encode
    · exact fun _ _ _ hd => ⟨trivial, SystemHeader.eq_of_decode hd⟩
    · exact fun h _ rest => ⟨h.type, h.starts_append (Nat.le_add_right _ _)⟩
    · rintro bytes ⟨type, hstarts⟩
      obtain ⟨h, -, hd⟩ := hstarts.decode (Nat.le_refl _)
      exact ⟨h, _, hd⟩
  · apply exact_of_decode
    · exact fun _ hown => Connect.decode_encode hown
    · exact fun _ _ _ => Connect.eq_of_decode
    · exact fun _ hown => Connect.starts_encode hown
    · exact fun _ => Connect.decode_of_starts
  · apply exact_of_decode
    · exact fun _ hown => Disconnect.decode_encode hown
    · exact fun _ _ _ => Disconnect.eq_of_decode
    · exact fun p hown rest => ⟨Disconnect.starts_encode hown rest, p.reasoned_encode rest⟩
    · exact fun _ hread => Disconnect.decode_of_starts hread.1 hread.2
  · apply exact_of_decode
    · exact fun _ hown => Ping.decode_encode hown
    · exact fun _ _ _ => Ping.eq_of_decode
    · exact fun _ hown => Ping.starts_encode hown
    · exact fun _ => Ping.decode_of_starts

end DatagramTransport
