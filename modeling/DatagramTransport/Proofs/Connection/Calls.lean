import DatagramTransport.Connection.Lifecycle
import DatagramTransport.Proofs.Channel.Total
import DatagramTransport.Proofs.Runs
import DatagramTransport.Proofs.SkippedIds

/-!
# Runs of one connection

A connection is driven by its owner and by whatever its peer sends, in any
order and with any arguments. With a configuration that passes its check
none of the calls has a fault, and neither has one if the ids that did not
come are kept in a set, and the parts of messages in maps.
-/

set_option autoImplicit false

namespace DatagramTransport

inductive Call where
  | send (channel : UInt8) (message : Bytes)
  | receive (datagram : Bytes)
  | ping (now : UInt32) (ping : Ping)
  | greet (now : UInt32)
  | disconnect (reason : DisconnectReason)
  | markDisconnected
  deriving DecidableEq, Repr

structure Called where
  emitted : List Bytes
  noted : List UInt16
  deriving DecidableEq, Repr

namespace Connection

def call (c : Connection) : Call → Except Fault (Connection × Called)
  | .send channel message =>
    let step := c.send channel message
    match step.answer with
    | .error (.fault f) => .error f
    | _ => .ok (step.connection, { emitted := step.emitted, noted := [] })
  | .receive datagram => do
    let step ← c.receive datagram
    return (step.connection, { emitted := step.emitted, noted := c.noted datagram })
  | .ping now ping =>
    let step := c.receivePing now ping
    .ok (step.connection, { emitted := step.emitted, noted := [] })
  | .greet now =>
    let step := c.initialPing now
    .ok (step.connection, { emitted := step.emitted, noted := [] })
  | .disconnect reason => .ok (c, { emitted := [c.disconnectPacket reason], noted := [] })
  | .markDisconnected => .ok (c.markDisconnected.1, { emitted := [], noted := [] })

def callAll (c : Connection) (calls : List Call) : Except Fault (Connection × List Called) :=
  runAll call c calls

def notedIn (log : List Called) : List UInt16 :=
  log.flatMap Called.noted

/-- The buffers are large enough, the window is that of the noted ids, and messages in parts could
be kept in maps. -/
structure Sturdy (c : Connection) (ids : List UInt16) : Prop extends c.Roomy where
  tracked : c.window = ((AckWindow.fresh .short).recordAll ids).1
  keyed : ∀ channel ∈ c.channels, channel.Keyed

theorem roomy_start {endpoint : Endpoint} (h : endpoint.config.validate = .ok ()) :
    (start endpoint).Roomy := by
  obtain ⟨-, hmode, -, hroom, -, -⟩ := Config.validate_eq_ok.mp h
  have hshort : endpoint.config.ackMode = .short := by
    cases hm : endpoint.config.ackMode with
    | short => rfl
    | long => exact absurd hm hmode
  exact ⟨⟨hshort, hshort⟩, Nat.le_trans hroom (by decide)⟩

theorem keyed_start (endpoint : Endpoint) :
    ∀ channel ∈ (start endpoint).channels, channel.Keyed := by
  intro channel hchannel
  obtain ⟨q, -, rfl⟩ := List.mem_map.mp hchannel
  exact Channel.keyed_ofQos q

theorem Roomy.sturdy_start {endpoint : Endpoint} (h : (start endpoint).Roomy) :
    (start endpoint).Sturdy [] where
  toRoomy := h
  tracked := congrArg AckWindow.fresh h.config
  keyed := keyed_start endpoint

section
variable {c : Connection} {ids : List UInt16}

theorem keyed_channelAt (h : ∀ channel ∈ c.channels, channel.Keyed) (id : UInt8) :
    (c.channelAt id).Keyed := by
  unfold channelAt
  cases hc : c.channels[id.toNat]? with
  | none => trivial
  | some channel => exact h channel (List.mem_of_getElem? hc)

theorem Roomy.receive_total (h : c.Roomy) (hkeyed : ∀ channel ∈ c.channels, channel.Keyed)
    (datagram : Bytes) : ∃ step, c.receive datagram = .ok step := by
  cases hd : DataHeader.decode .short datagram with
  | error e =>
    refine ⟨{ connection := c, emitted := [], answer := [] }, ?_⟩
    simp only [Connection.receive, h.config, hd]
    rfl
  | ok r =>
    obtain ⟨header, body⟩ := r
    obtain rfl := DataHeader.eq_of_decode hd
    by_cases ha : c.accepts header = true
    · obtain ⟨intake, htake, -⟩ := takeFrames_total c.window body hkeyed
      exact ⟨_, h.receive ha htake⟩
    · refine ⟨{ connection := c, emitted := [], answer := [] }, ?_⟩
      simp only [Connection.receive, h.config, DataHeader.decode_bytes, ha]
      rfl

theorem Sturdy.received (h : c.Sturdy ids) {header : DataHeader} {body : Bytes} {intake : Intake}
    (htake : takeFrames c.channels c.window body = .ok intake) :
    (c.received header intake).connection.Sturdy (ids ++ notedIds c.channels c.window body) := by
  obtain ⟨taken, htaken, hkeyed⟩ := takeFrames_total c.window body h.keyed
  cases htake.symm.trans htaken
  refine ⟨⟨⟨(takeFrames_mode htake).trans h.window, h.config⟩, h.room⟩, ?_, hkeyed⟩
  rw [AckWindow.recordAll_append, ← h.tracked]
  exact (takeFrames_spec htake).2

theorem Sturdy.receive (h : c.Sturdy ids) (datagram : Bytes) :
    ∃ step, c.receive datagram = .ok step ∧
      step.connection.Sturdy (ids ++ c.noted datagram) := by
  obtain ⟨step, hstep⟩ := h.receive_total h.keyed datagram
  refine ⟨step, hstep, ?_⟩
  rcases receive_cases h.toShort hstep with
    ⟨rfl, hnone⟩ | ⟨header, body, intake, -, -, htake, hnoted, rfl⟩
  · rw [hnone, List.append_nil]
    exact h
  · rw [hnoted]
    exact h.received htake

theorem Sturdy.send (h : c.Sturdy ids) (channel : UInt8) (message : Bytes) :
    (c.send channel message).connection.Sturdy ids := by
  rcases send_cases h.toShort (h.send_faultless channel message) with
    ⟨e, hrefused⟩ | ⟨p, -, hp, hsent⟩
  · rw [hrefused]
    exact h
  · rw [hsent]
    exact ⟨⟨⟨h.window, h.config⟩, h.room⟩, h.tracked,
      forall_mem_set h.keyed _ (Channel.keyed_prepare hp (keyed_channelAt h.keyed channel))⟩

theorem call_keeps (h : c.Short) {call : Call} {next : Connection} {called : Called}
    (hcall : c.call call = .ok (next, called)) (halive : call ≠ .markDisconnected) :
    next.endpoint = c.endpoint ∧ (next.phase = .disconnected ↔ c.phase = .disconnected) := by
  cases call with
  | send channel message =>
    simp only [Connection.call] at hcall
    split at hcall
    · cases hcall
    · rename_i hanswer
      cases hcall
      rcases send_cases h (fun f hf => hanswer f hf) with ⟨e, hrefused⟩ | ⟨p, -, -, hsent⟩
      · rw [hrefused]
        exact ⟨rfl, Iff.rfl⟩
      · rw [hsent]
        exact ⟨rfl, Iff.rfl⟩
  | receive datagram =>
    obtain ⟨step, hstep, hcall⟩ := bind_eq_ok.mp hcall
    cases hcall
    rcases receive_cases h hstep with ⟨rfl, -⟩ | ⟨header, body, intake, -, -, -, -, rfl⟩ <;>
      exact ⟨rfl, Iff.rfl⟩
  | ping now ping =>
    cases hcall
    unfold receivePing
    cases hphase : c.phase <;> simp [sendPing, hphase]
  | greet now =>
    cases hcall
    exact ⟨rfl, Iff.rfl⟩
  | disconnect reason =>
    cases hcall
    exact ⟨rfl, Iff.rfl⟩
  | markDisconnected => exact absurd rfl halive

theorem Sturdy.call (h : c.Sturdy ids) (call : Call) :
    ∃ next called, c.call call = .ok (next, called) ∧ next.Sturdy (ids ++ called.noted) := by
  cases call with
  | send channel message =>
    have hanswer := h.send_faultless channel message
    have hafter := h.send channel message
    simp only [Connection.call]
    cases ha : (c.send channel message).answer with
    | ok => exact ⟨_, _, rfl, by rwa [List.append_nil]⟩
    | error e =>
      cases e
      case fault f => exact absurd ha (hanswer f)
      all_goals exact ⟨_, _, rfl, by rwa [List.append_nil]⟩
  | receive datagram =>
    obtain ⟨step, hstep, hafter⟩ := h.receive datagram
    exact ⟨_, _, bind_eq_ok.mpr ⟨step, hstep, rfl⟩, hafter⟩
  | ping now ping =>
    refine ⟨_, _, rfl, ?_⟩
    rw [List.append_nil]
    unfold receivePing
    cases c.phase <;> exact ⟨⟨⟨h.window, h.config⟩, h.room⟩, h.tracked, h.keyed⟩
  | greet now =>
    refine ⟨_, _, rfl, ?_⟩
    rw [List.append_nil]
    exact ⟨⟨⟨h.window, h.config⟩, h.room⟩, h.tracked, h.keyed⟩
  | disconnect reason => exact ⟨_, _, rfl, by rwa [List.append_nil]⟩
  | markDisconnected =>
    refine ⟨_, _, rfl, ?_⟩
    rw [List.append_nil]
    unfold markDisconnected
    split <;> exact ⟨⟨⟨h.window, h.config⟩, h.room⟩, h.tracked, h.keyed⟩

end

theorem Roomy.callAll {endpoint : Endpoint} (h : (start endpoint).Roomy) (calls : List Call) :
    ∃ c log, (start endpoint).callAll calls = .ok (c, log) ∧ c.Sturdy (notedIn log) := by
  refine runAll_induction (P := fun (c : Connection) log => c.Sturdy (notedIn log)) ?_
    h.sturdy_start
  intro c log h call _
  obtain ⟨next, called, hcall, hnext⟩ := h.call call
  refine ⟨next, called, hcall, ?_⟩
  rwa [notedIn, List.flatMap_append, List.flatMap_singleton]

/-- Nothing that comes next has a fault, and no check fails on the way that the
operations do not have to make. -/
structure Guarded (c : Connection) (ids : List UInt16) : Prop where
  receives : ∀ datagram, ∃ step, c.receive datagram = .ok step
  sends : ∀ channel message, Faultless (c.send channel message).answer
  frames : ∀ (channel : Channel) (bytes : Bytes), takeFrame? channel.headerLength bytes =
    some (takeFrame channel.headerLength bytes)
  /-- The ids that were noted could have been kept as a set: the next id after the highest
  one exists where it is called for, and no skipped id is above the highest one. -/
  window : c.window = ((AckWindow.fresh .short).recordAll ids).1 ∧ ∃ s,
    SkippedIds.fresh.recordAll ids = some (s, ((AckWindow.fresh .short).recordAll ids).2) ∧
      ∃ report, s.report = some report ∧ c.window.report = .ok report
  fragments : ∀ inbound nextGroup, .reliableFragmented inbound nextGroup ∈ c.channels →
    ∃ b : KeyedInbox, b.view = inbound ∧ ∀ fragments, ∃ after delivered,
      b.acceptAll fragments = some (after, delivered) ∧
        inbound.acceptAll fragments = .ok (after.view, delivered)

theorem Sturdy.guarded {c : Connection} {ids : List UInt16} (h : c.Sturdy ids) : c.Guarded ids where
  receives := h.receive_total h.keyed
  sends := h.send_faultless
  frames := fun channel => takeFrame?_eq channel.framePrefixLength_le_headerLength
  window := by
    obtain ⟨s, hs, hmirrors⟩ := SkippedIds.recordAll_fresh ids
    refine ⟨h.tracked, s, hs, _, hmirrors.report, ?_⟩
    rw [h.tracked, AckWindow.report, hmirrors.tracks.short]
  fragments := by
    intro inbound nextGroup hmem
    obtain ⟨b, hwithin, rfl⟩ := h.keyed _ hmem
    exact ⟨b, rfl, hwithin.acceptAll⟩

/-- With a configuration that passes its check, a connection has an outcome for
every sequence of calls, whatever the arguments and the datagrams are. -/
theorem calls_never_fault {endpoint : Endpoint} (hvalid : endpoint.config.validate = .ok ())
    (calls : List Call) :
    ∃ c log, (start endpoint).callAll calls = .ok (c, log) ∧ c.Guarded (notedIn log) := by
  obtain ⟨c, log, hrun, hsturdy⟩ := (roomy_start hvalid).callAll calls
  exact ⟨c, log, hrun, hsturdy.guarded⟩

theorem calls_never_fault_standard :
    ∃ endpoint : Endpoint, endpoint.config = .standard ∧
      endpoint.config.validate = .ok () ∧
      ∃ c log, (start endpoint).callAll
          [.send 0 [7], .receive [0, 1, 0, 0, 0, 9, 0, 0, 0, 0, 0, 0, 0, 0, 2],
            .markDisconnected] = .ok (c, log) ∧
        c.Guarded (notedIn log) := by
  let endpoint : Endpoint :=
    { config := .standard, id := 1, address := "10.0.0.2:7000", remoteId := 5, session := 3
      peerSession := 9 }
  have hvalid : endpoint.config.validate = .ok () := rfl
  exact ⟨endpoint, rfl, hvalid, calls_never_fault hvalid _⟩

end Connection

end DatagramTransport
