import DatagramTransport.Packet.DataHeader

/-!
# Reading what was written

Results that may fail are taken apart at their first step. In the short
mode every header of a data packet has one written form, which is read back
in front of any body.
-/

set_option autoImplicit false

namespace DatagramTransport

section
variable {ε α β : Type}

theorem bind_eq_ok {x : Except ε α} {f : α → Except ε β} {b : β} :
    (x >>= f) = .ok b ↔ ∃ a, x = .ok a ∧ f a = .ok b := by
  cases x with
  | error e => simp [bind, Except.bind]
  | ok a => simp [bind, Except.bind]

theorem bind_eq_error {x : Except ε α} {f : α → Except ε β} {e : ε} :
    (x >>= f) = .error e ↔ x = .error e ∨ ∃ a, x = .ok a ∧ f a = .error e := by
  cases x with
  | error e' => simp [bind, Except.bind]
  | ok a => simp [bind, Except.bind]

theorem bind_of_ok {x : Except ε α} {f : α → Except ε β} {a : α} (h : x = .ok a) :
    x >>= f = f a := by
  rw [h]
  rfl

theorem bind_of_error {x : Except ε α} {f : α → Except ε β} {e : ε} (h : x = .error e) :
    x >>= f = .error e := by
  rw [h]
  rfl

/-- A result that something can be computed from is not an error. -/
theorem eq_ok_of_eval {x : Except ε α} {f : α → β} {b : β} (h : x.toOption.map f = some b) :
    ∃ a, x = .ok a ∧ f a = b := by
  cases x with
  | error e => cases h
  | ok a => exact ⟨a, rfl, Option.some.inj h⟩

@[simp] theorem mapError_ok {φ : Type} (f : ε → φ) (a : α) :
    Except.mapError f (.ok a) = .ok a := rfl

@[simp] theorem mapError_error {φ : Type} (f : ε → φ) (e : ε) :
    Except.mapError f (.error e : Except ε α) = .error (f e) := rfl

theorem mapError_eq_ok {φ : Type} {x : Except ε α} {f : ε → φ} {a : α} :
    x.mapError f = .ok a ↔ x = .ok a := by
  cases x with
  | error e => simp
  | ok b => simp

theorem refuse_eq_ok {p : Prop} [Decidable p] {e : ε} {x : Except ε α} {a : α} :
    (if p then (throw e : Except ε PUnit) >>= fun _ => x else x) = .ok a ↔ ¬ p ∧ x = .ok a := by
  by_cases hp : p
  · rw [if_pos hp]
    simp [hp, throw, throwThe, MonadExceptOf.throw, bind, Except.bind]
  · simp [hp]

theorem refuse_last_eq_ok {p : Prop} [Decidable p] {e : ε} :
    (if p then throw e else pure () : Except ε Unit) = .ok () ↔ ¬ p := by
  by_cases hp : p
  · simp [hp, throw, throwThe, MonadExceptOf.throw]
  · simp [hp, pure, Except.pure]

theorem orFault_eq_ok {x : Except Fault α} {a : α} : orFault x = .ok a ↔ x = .ok a :=
  mapError_eq_ok

end

/-- The reader takes this many bytes, wherever there are as many. -/
def Reader.HasWidth {α : Type} (read : Reader α) (width : Nat) : Prop :=
  ∀ bytes : Bytes, width ≤ bytes.length → ∃ value, read bytes = .ok (value, bytes.drop width)

section
variable {α β : Type}

theorem hasWidth_uint8 : readUInt8.HasWidth 1 := by
  intro bytes hlength
  match bytes, hlength with
  | byte :: rest, _ => exact ⟨byte, rfl⟩

theorem hasWidth_uint16 : readUInt16.HasWidth 2 := by
  intro bytes hlength
  match bytes, hlength with
  | high :: low :: rest, _ => exact ⟨joinUInt16 high low, rfl⟩

theorem hasWidth_uint32 : readUInt32.HasWidth 4 := by
  intro bytes hlength
  match bytes, hlength with
  | a :: b :: c :: d :: rest, _ => exact ⟨joinUInt32 a b c d, rfl⟩

theorem hasWidth_pure (value : α) : Reader.HasWidth (fun bytes => pure (value, bytes)) 0 :=
  fun _ _ => ⟨value, rfl⟩

theorem Reader.HasWidth.bind {read : Reader α} {m n : Nat} (h : read.HasWidth m)
    {next : α × Bytes → Except Error (β × Bytes)}
    (hnext : ∀ value, Reader.HasWidth (fun bytes => next (value, bytes)) n) :
    Reader.HasWidth (fun bytes => read bytes >>= next) (n + m) := by
  intro bytes hlength
  have hbehind : n ≤ (bytes.drop m).length := by
    rw [List.length_drop]
    omega
  obtain ⟨value, hvalue⟩ := h bytes (by omega)
  obtain ⟨later, hlater⟩ := hnext value (bytes.drop m) hbehind
  rw [List.drop_drop, Nat.add_comm m] at hlater
  exact ⟨later, (bind_of_ok hvalue).trans hlater⟩

end

@[simp] theorem drop_two_writeUInt16 (n : UInt16) (rest : Bytes) :
    (writeUInt16 n ++ rest).drop 2 = rest := rfl

namespace DataHeader

def bytes (h : DataHeader) : Bytes :=
  writeUInt16 h.connection ++ writeUInt16 h.packet ++ writeUInt16 h.session ++
    writeUInt16 h.ackLatest ++ writeUInt32 h.ackMask

@[simp] theorem length_bytes (h : DataHeader) : h.bytes.length = encodedLength := rfl

@[simp] theorem decode_bytes (h : DataHeader) (body : Bytes) :
    decode .short (h.bytes ++ body) = .ok (h, body) := by
  simp only [decode, bytes, List.append_assoc, readUInt16_writeUInt16,
    readUInt32_writeUInt32, bind, Except.bind]
  rfl

theorem eq_of_decode {datagram body : Bytes} {h : DataHeader}
    (hd : decode .short datagram = .ok (h, body)) : datagram = h.bytes ++ body := by
  obtain ⟨⟨connection, r1⟩, h1, hd⟩ := bind_eq_ok.mp hd
  obtain ⟨⟨packet, r2⟩, h2, hd⟩ := bind_eq_ok.mp hd
  obtain ⟨⟨session, r3⟩, h3, hd⟩ := bind_eq_ok.mp hd
  obtain ⟨⟨ackLatest, r4⟩, h4, hd⟩ := bind_eq_ok.mp hd
  obtain ⟨⟨ackMask, r5⟩, h5, hd⟩ := bind_eq_ok.mp hd
  cases hd
  rw [eq_of_readUInt16 h1, eq_of_readUInt16 h2, eq_of_readUInt16 h3, eq_of_readUInt16 h4,
    eq_of_readUInt32 h5]
  simp only [bytes, List.append_assoc]

theorem hasWidth_decode : (decode .short).HasWidth encodedLength := by
  apply hasWidth_uint16.bind
  intro connection
  apply hasWidth_uint16.bind
  intro packet
  apply hasWidth_uint16.bind
  intro session
  apply hasWidth_uint16.bind
  intro ackLatest
  apply hasWidth_uint32.bind
  intro ackMask
  apply hasWidth_pure

@[simp] theorem drop_bytes (h : DataHeader) (body : Bytes) :
    (h.bytes ++ body).drop encodedLength = body :=
  List.drop_left' h.length_bytes

end DataHeader

end DatagramTransport
