import DatagramTransport.Proofs.Connection.Calls

/-!
# Connections that have ended

A connection ends once. What is asked of it afterwards is refused, what comes
for it is dropped, and neither changes it. Nothing but pings and the end
changes the phase of a connection.
-/

set_option autoImplicit false

namespace DatagramTransport

namespace Connection

section
variable {c : Connection} (h : c.phase = .disconnected)
include h

theorem receive_ended (datagram : Bytes) :
    c.receive datagram = .ok { connection := c, emitted := [], answer := [] } := by
  have haccepts (header : DataHeader) : c.accepts header = false := by simp [accepts, h]
  unfold receive
  cases DataHeader.decode c.endpoint.config.ackMode datagram with
  | error e => rfl
  | ok r =>
    simp only [haccepts]
    rfl

theorem send_ended (channel : UInt8) (message : Bytes) :
    ∃ e, (∀ f, e ≠ .fault f) ∧
      c.send channel message = { connection := c, emitted := [], answer := .error e } := by
  have hfaultless := c.checkSend_faultless (c.channelAt channel) message
  cases hcheck : c.checkSend (c.channelAt channel) message with
  | ok => exact absurd h (checkSend_eq_ok.mp hcheck).2.1
  | error e =>
    refine ⟨e, fun f hf => hfaultless f (hf ▸ hcheck), ?_⟩
    simp only [send, hcheck]

theorem receivePing_ended (now : UInt32) (ping : Ping) :
    c.receivePing now ping = { connection := c, emitted := [], answer := false } := by
  simp only [receivePing, h]

theorem markDisconnected_ended : c.markDisconnected = (c, false) := by
  simp only [markDisconnected, if_pos h]

end

theorem phase_markDisconnected (c : Connection) : c.markDisconnected.1.phase = .disconnected := by
  unfold markDisconnected
  split
  · assumption
  · rfl

theorem markDisconnected_twice (c : Connection) :
    c.markDisconnected.1.markDisconnected.1 = c.markDisconnected.1 := by
  rw [markDisconnected_ended c.phase_markDisconnected]

theorem receive_phase {c : Connection} (h : c.Short) {datagram : Bytes} {step : Step (List Message)}
    (hstep : c.receive datagram = .ok step) : step.connection.phase = c.phase := by
  rcases receive_cases h hstep with ⟨rfl, -⟩ | ⟨header, body, intake, -, -, -, -, rfl⟩ <;> rfl

theorem send_phase {c : Connection} (h : c.Short) {channel : UInt8} {message : Bytes}
    (hfaultless : Faultless (c.send channel message).answer) :
    (c.send channel message).connection.phase = c.phase := by
  rcases send_cases h hfaultless with ⟨e, hrefused⟩ | ⟨p, -, -, hsent⟩
  · rw [hrefused]
  · rw [hsent]
    rfl

theorem endpoint_markDisconnected (c : Connection) :
    c.markDisconnected.1.endpoint = c.endpoint := by
  unfold markDisconnected
  split <;> rfl

theorem receivePing_endpoint (c : Connection) (now : UInt32) (ping : Ping) :
    (c.receivePing now ping).connection.endpoint = c.endpoint := by
  unfold receivePing
  cases c.phase <;> rfl

section
variable {c : Connection} (h : c.phase ≠ .disconnected → c.Short)
include h

theorem receive_endpoint {datagram : Bytes} {step : Step (List Message)}
    (hstep : c.receive datagram = .ok step) : step.connection.endpoint = c.endpoint := by
  by_cases hended : c.phase = .disconnected
  · cases (receive_ended hended datagram).symm.trans hstep
    rfl
  · rcases receive_cases (h hended) hstep with
      ⟨rfl, -⟩ | ⟨header, body, intake, -, -, -, -, rfl⟩ <;> rfl

theorem send_endpoint {channel : UInt8} {message : Bytes}
    (hfaultless : Faultless (c.send channel message).answer) :
    (c.send channel message).connection.endpoint = c.endpoint := by
  by_cases hended : c.phase = .disconnected
  · obtain ⟨e, -, hrefused⟩ := send_ended hended channel message
    rw [hrefused]
  · rcases send_cases (h hended) hfaultless with ⟨e, hrefused⟩ | ⟨p, -, -, hsent⟩
    · rw [hrefused]
    · rw [hsent]
      rfl

end

end Connection

end DatagramTransport
