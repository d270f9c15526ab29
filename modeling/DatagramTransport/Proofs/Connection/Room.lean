import DatagramTransport.Proofs.Connection.Receiving
import DatagramTransport.Proofs.Connection.Sending

/-!
# Operations that cannot fail

A configuration that passes its check leaves room for every datagram. Then
what fits is sent, and what is taken is answered: neither causes a fault. A
message may be refused, but no channel faults over it either.
-/

set_option autoImplicit false

namespace DatagramTransport

theorem Config.validate_eq_ok {config : Config} : config.validate = .ok () ↔
    config.channels.length ≤ 255 ∧ config.ackMode ≠ .long ∧
      minDatagramLength ≤ config.maxDatagramLength ∧ config.maxDatagramLength ≤ 65535 ∧
      config.maxMessageLength ≤ maxFragments * fragmentLength ∧ config.maxQueued ≠ 0 := by
  simp only [validate, refuse_eq_ok, refuse_last_eq_ok, Nat.not_lt, ne_eq]

def Faultless {α : Type} (r : Except Error α) : Prop :=
  ∀ f, r ≠ .error (.fault f)

section
variable {α β : Type}

theorem faultless_ok (a : α) : Faultless (.ok a : Except Error α) := by
  intro f hf
  cases hf

theorem Faultless.bind {x : Except Error α} {f : α → Except Error β} (hx : Faultless x)
    (hf : ∀ a, Faultless (f a)) : Faultless (x >>= f) := by
  cases x with
  | error e =>
    intro fault h
    exact hx fault (congrArg Except.error (Except.error.inj h))
  | ok a => exact hf a

end

namespace Channel

theorem wholeFrame_faultless (messageId : Option UInt16) (header message : Bytes) :
    Faultless (wholeFrame messageId header message) := by
  unfold wholeFrame
  by_cases hlong : 65535 < framePrefixLength + header.length + message.length
  · rw [if_pos hlong]
    intro f hf
    cases hf
  · rw [if_neg hlong, encodeFrame_eq_ok.mpr ⟨by omega, rfl⟩]
    exact faultless_ok _

theorem length_of_mem_fragments {n : Nat} {message part : Bytes} (h : part ∈ fragments n message) :
    part.length ≤ fragmentLength := by
  induction n generalizing message with
  | zero => cases h
  | succ n ih =>
    rcases List.mem_cons.mp h with rfl | h
    · exact List.length_take_le _ _
    · exact ih h

theorem fragmentFrames_ok {group : UInt8} {count index : Nat} {id : UInt16} {parts : List Bytes}
    (hcount : count < 256) (hindex : index + parts.length ≤ count)
    (hparts : ∀ part ∈ parts, part.length ≤ fragmentLength) :
    ∃ frames, fragmentFrames group count index id parts = .ok frames := by
  induction parts generalizing index id with
  | nil => exact ⟨[], rfl⟩
  | cons part parts ih =>
    rw [List.length_cons] at hindex
    have hlength := hparts part List.mem_cons_self
    have hlimit : fragmentLength = 512 := rfl
    obtain ⟨frames, hframes⟩ : ∃ frames,
        fragmentFrames group count (index + 1) (id + 1) parts = .ok frames :=
      ih (by omega) fun p hp => hparts p (List.mem_cons_of_mem _ hp)
    have hfits : framePrefixLength +
        (writeUInt16 id ++ [group, .ofNat index, .ofNat count]).length + part.length < 65536 := by
      simp only [framePrefixLength, List.length_append, length_writeUInt16, List.length_cons,
        List.length_nil]
      omega
    have hencode := encodeFrame_eq_ok.mpr ⟨hfits, rfl⟩
    rw [fragmentFrames, narrowUInt8_of_lt (by omega), narrowUInt8_of_lt hcount]
    simp only [bind, Except.bind, hencode, hframes]
    exact ⟨_, rfl⟩

theorem messageFrames_ok {message : Bytes} (group : UInt8) (next : UInt16)
    (hcount : fragmentCount message.length ≤ maxFragments) :
    ∃ frames, fragmentFrames group (fragmentCount message.length) 0 next
      (fragments (fragmentCount message.length) message) = .ok frames := by
  have hlimit : maxFragments = 255 := rfl
  have hsize := length_fragments (fragmentCount message.length) message
  exact fragmentFrames_ok (by omega) (Nat.le_of_eq ((Nat.zero_add _).trans hsize))
    fun _ => length_of_mem_fragments

theorem prepare_faultless (c : Channel) (message : Bytes) (next : UInt16) :
    Faultless (c.prepare message next) := by
  cases c with
  | unreliable => exact (wholeFrame_faultless _ _ _).bind fun _ => faultless_ok _
  | unreliableSequenced lastIn nextOut =>
    exact (wholeFrame_faultless _ _ _).bind fun _ => faultless_ok _
  | reliable => exact (wholeFrame_faultless _ _ _).bind fun _ => faultless_ok _
  | reliableSequenced inbound nextOut =>
    exact (wholeFrame_faultless _ _ _).bind fun _ => faultless_ok _
  | reliableFragmented inbound nextGroup =>
    simp only [prepare]
    split
    · intro f hf
      cases hf
    · rename_i hcount
      obtain ⟨frames, hframes⟩ := messageFrames_ok nextGroup next (Nat.le_of_not_lt hcount)
      rw [hframes]
      exact faultless_ok _

end Channel

namespace Connection

theorem checkSend_faultless (c : Connection) (channel : Channel) (message : Bytes) :
    Faultless (c.checkSend channel message) := by
  intro f hf
  unfold checkSend at hf
  dsimp only at hf
  split at hf
  · cases hf
  · split at hf
    · cases hf
    · split at hf <;> cases hf

theorem checkSend_eq_ok {c : Connection} {channel : Channel} {message : Bytes} :
    c.checkSend channel message = .ok () ↔
      message.length ≤ c.endpoint.config.maxMessageLength ∧ c.phase ≠ .disconnected ∧
        (channel.isFragmenting = true ∨ DataHeader.encodedLength + channel.headerLength +
          message.length ≤ c.endpoint.config.maxDatagramLength) := by
  simp only [checkSend, refuse_eq_ok, refuse_last_eq_ok, Nat.not_lt, ne_eq]
  cases channel.isFragmenting <;> simp

/-- No buffer is too short for the datagrams of the connection. -/
structure Roomy (c : Connection) : Prop extends c.Short where
  room : c.endpoint.config.maxDatagramLength ≤ maxBufferLength

section
variable {c : Connection}

theorem Roomy.advance (h : c.Roomy) (n : Nat) : (c.advance n).Roomy :=
  ⟨h.toShort.advance n, h.room⟩

theorem Roomy.packet (h : c.Roomy) (body : Option Transfer) :
    c.packet body = .ok (c.advance 1, c.header.bytes ++ bodyBytes body) := by
  rw [packet_eq h.toShort, if_neg (Nat.not_lt.mpr h.room)]

theorem Roomy.transmit_answer (h : c.Roomy) (channel : UInt8) (frames : List Frame) :
    (transmit channel c frames).answer = .ok () := by
  induction frames generalizing c with
  | nil => rfl
  | cons f fs ih =>
    have hr : (c.retain channel f).Roomy := by
      rw [retain_eq]
      exact ⟨⟨h.window, h.config⟩, h.room⟩
    rw [transmit]
    simp only [hr.packet]
    exact ih (hr.advance 1)

theorem Roomy.sendAgain_answer (h : c.Roomy) (ids : List UInt16) :
    (c.sendAgain ids).answer = .ok () := by
  induction ids generalizing c with
  | nil => rfl
  | cons id ids ih =>
    rw [sendAgain]
    split
    · exact ih h
    · simp only [h.packet]
      exact ih (h.advance 1)

theorem Roomy.echo (h : c.Roomy) (n : Nat) :
    Connection.echo n c = .ok { connection := c.advance n
                                emitted := c.datagrams (List.replicate n none), answer := () } := by
  induction n generalizing c with
  | zero => simp [Connection.echo, datagrams]
  | succ n ih =>
    rw [Connection.echo, h.packet]
    simp only [ih (h.advance 1), advance_advance, Nat.add_comm 1]
    rfl

theorem Roomy.send (h : c.Roomy) {channel : UInt8} {message : Bytes} {p : Prepared}
    (hcheck : c.checkSend (c.channelAt channel) message = .ok ())
    (hp : (c.channelAt channel).prepare message c.nextMessage = .ok p) :
    c.send channel message = c.sent channel p := by
  have hr : Roomy { c with
      channels := c.channels.set channel.toNat p.channel, nextMessage := p.nextMessage } :=
    ⟨⟨h.window, h.config⟩, h.room⟩
  unfold Connection.send
  simp only [hcheck, hp]
  rw [transmit_eq hr.toShort (hr.transmit_answer channel p.frames)]
  simp only [sent, Step.mk.injEq, and_true, true_and]
  apply datagrams_congr <;> rfl

theorem Roomy.send_faultless (h : c.Roomy) (channel : UInt8) (message : Bytes) :
    Faultless (c.send channel message).answer := by
  have hcheck := c.checkSend_faultless (c.channelAt channel) message
  have hprepare := (c.channelAt channel).prepare_faultless message c.nextMessage
  cases hc : c.checkSend (c.channelAt channel) message with
  | error e =>
    rw [hc] at hcheck
    simp only [Connection.send, hc]
    exact hcheck
  | ok =>
    cases hp : (c.channelAt channel).prepare message c.nextMessage with
    | error e =>
      rw [hp] at hprepare
      simp only [Connection.send, hc, hp]
      exact fun f hf => hprepare f (congrArg Except.error (Except.error.inj hf))
    | ok p =>
      rw [h.send hc hp]
      exact faultless_ok _

theorem Roomy.receive (h : c.Roomy) {header : DataHeader} {body : Bytes} {intake : Intake}
    (ha : c.accepts header = true)
    (ht : takeFrames c.channels c.window body = .ok intake) :
    c.receive (header.bytes ++ body) = .ok (c.received header intake) := by
  have hr : (c.confirm (AckWindow.reading header.ackLatest header.ackMask).received).Roomy :=
    ⟨h.toShort.confirm _, h.room⟩
  have hanswer := hr.sendAgain_answer (AckWindow.reading header.ackLatest header.ackMask).missing
  have hmode : intake.window.mode = .short := (takeFrames_mode ht).trans h.window
  unfold Connection.receive
  simp only [h.config, DataHeader.decode_bytes, ha, if_true]
  rw [acknowledge_eq h.toShort, sendAgain_eq hr.toShort hanswer]
  refine bind_eq_ok.mpr ⟨intake, ht, bind_eq_ok.mpr ⟨_, Roomy.echo ?_ _, rfl⟩⟩
  exact ⟨⟨hmode, h.config⟩, h.room⟩

end

end Connection

end DatagramTransport
