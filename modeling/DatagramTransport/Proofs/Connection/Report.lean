import DatagramTransport.Proofs.AckHistory
import DatagramTransport.Proofs.Connection.Course
import DatagramTransport.Proofs.Connection.Frames

/-!
# The effect of a report

A report covers 32 ids, the reported one and those below it, also where these
wrap. What is pending under the ids that it has is forgotten, and of the others
what is pending goes out again, the highest first. Nothing else happens to the
connection, and the second time nothing is left to forget.
-/

set_option autoImplicit false

namespace DatagramTransport

namespace Connection

/-- The frames that a report asks for: of the ids it covers, the reported one first, those
whose bit is clear and under which a frame is pending. -/
def askedFor (c : Connection) (latest : UInt16) (mask : UInt32) : List Transfer :=
  (List.range ackSpan).filterMap fun i =>
    if mask.toBitVec.getLsbD i then none else c.pending[latest - .ofNat i]?

def repetition (c : Connection) (latest : UInt16) (mask : UInt32) (place : Nat) (t : Transfer) :
    Bytes :=
  DataHeader.bytes
    { connection := c.endpoint.id
      packet := c.nextPacket + .ofNat place
      session := c.endpoint.session
      ackLatest := latest
      ackMask := mask } ++ t.channel :: t.frame

def unmoved (c : Connection) : Intake where
  channels := c.channels
  window := c.window
  messages := []
  accepted := false

structure Supplied (c : Connection) : Prop extends c.Short where
  supplied : (∀ id : UInt16, c.pending[id]? = none) ∨
    c.endpoint.config.maxDatagramLength ≤ maxBufferLength

section
variable {c : Connection}

theorem supplied_start {endpoint : Endpoint} (h : endpoint.config.ackMode = .short) :
    (start endpoint).Supplied :=
  ⟨⟨h, h⟩, .inl (by simp [start])⟩

theorem transmit_without_room (h : c.Short)
    (hroom : ¬ c.endpoint.config.maxDatagramLength ≤ maxBufferLength) (channel : UInt8)
    (f : Frame) (fs : List Frame) :
    (transmit channel c (f :: fs)).answer = .error (.fault .capacityOverflow) := by
  have hs : (c.retain channel f).Short := by
    rw [retain_eq]
    exact ⟨h.window, h.config⟩
  have hover : maxBufferLength < (c.retain channel f).endpoint.config.maxDatagramLength := by
    rw [retain_eq]
    exact Nat.lt_of_not_le hroom
  simp only [transmit, packet_eq hs, if_pos hover]

theorem send_without_room (h : c.Short)
    (hroom : ¬ c.endpoint.config.maxDatagramLength ≤ maxBufferLength) {channel : UInt8}
    {message : Bytes} (hfaultless : Faultless (c.send channel message).answer) :
    (c.send channel message).connection = c := by
  rcases send_cases h hfaultless with ⟨e, hrefused⟩ | ⟨p, hcheck, hp, -⟩
  · rw [hrefused]
  · exfalso
    have hcount : 0 < p.frames.length := by
      rw [Channel.length_frames hp]
      split
      · exact fragmentCount_pos _
      · exact Nat.one_pos
    obtain ⟨f, fs, hframes⟩ := List.exists_cons_of_length_pos hcount
    have hs : Short { c with
        channels := c.channels.set channel.toNat p.channel, nextMessage := p.nextMessage } :=
      ⟨h.window, h.config⟩
    have hfault := transmit_without_room hs hroom channel f fs
    rw [← hframes] at hfault
    unfold send at hfaultless
    simp only [hcheck, hp] at hfaultless
    exact hfaultless _ hfault

theorem Supplied.call (h : c.Supplied) {call : Call} {next : Connection} {called : Called}
    (hcall : c.call call = .ok (next, called)) : next.Supplied := by
  obtain ⟨hleads, -⟩ := call_leads h.toShort hcall
  refine ⟨hleads.short h.toShort, ?_⟩
  rw [hleads.endpoint]
  rcases h.supplied with hempty | hroom
  case inr => exact .inr hroom
  by_cases hroom : c.endpoint.config.maxDatagramLength ≤ maxBufferLength
  · exact .inr hroom
  left
  cases call with
  | send channel message =>
    simp only [Connection.call] at hcall
    split at hcall
    · cases hcall
    · rename_i hanswer
      cases hcall
      rw [send_without_room h.toShort hroom fun f hf => hanswer f hf]
      exact hempty
  | receive datagram =>
    obtain ⟨step, hstep, hcall⟩ := bind_eq_ok.mp hcall
    cases hcall
    rcases receive_cases h.toShort hstep with ⟨rfl, -⟩ | ⟨header, body, intake, -, -, -, -, rfl⟩
    · exact hempty
    · exact getElem?_confirm_of_empty hempty _
  | ping now ping =>
    cases hcall
    unfold receivePing
    cases c.phase <;> exact hempty
  | greet now =>
    cases hcall
    exact hempty
  | disconnect reason =>
    cases hcall
    exact hempty
  | markDisconnected =>
    cases hcall
    unfold markDisconnected
    split
    · exact hempty
    · exact fun id => by simp

theorem supplied_callAll {endpoint : Endpoint} (h : endpoint.config.ackMode = .short)
    {calls : List Call} {log : List Called}
    (hrun : (start endpoint).callAll calls = .ok (c, log)) : c.Supplied :=
  runAll_keeps (fun _ _ _ _ hs hcall => hs.call hcall) (supplied_start h) hrun

theorem Supplied.answerable (h : c.Supplied) (header : DataHeader) :
    c.Answerable (c.answers header false) := by
  rcases h.supplied with hempty | hroom
  · left
    rw [answers, kept_of_empty (getElem?_confirm_of_empty hempty _)]
    rfl
  · exact .inr hroom

theorem Supplied.receive (h : c.Supplied) {header : DataHeader} (ha : c.accepts header = true) :
    c.receive header.bytes = .ok (c.received header c.unmoved) := by
  have hreceive := receive_short h.toShort ha (takeFrames_nil c.channels c.window)
  rw [List.append_nil] at hreceive
  exact hreceive.trans (if_pos (h.answerable header))

theorem Supplied.received (h : c.Supplied) (header : DataHeader) :
    (c.received header c.unmoved).connection.Supplied where
  toShort := ⟨h.window, h.config⟩
  supplied := h.supplied.imp_left fun hempty => getElem?_confirm_of_empty hempty _

theorem datagrams_map_some (c : Connection) (transfers : List Transfer) :
    c.datagrams (transfers.map some) = transfers.mapIdx fun place t =>
      (c.advance place).header.bytes ++ t.channel :: t.frame := by
  rw [datagrams_eq_mapIdx]
  apply List.ext_getElem?
  intro i
  rw [List.getElem?_mapIdx, List.getElem?_mapIdx, List.getElem?_map, Option.map_map]
  rfl

theorem kept_missing (c : Connection) (latest : UInt16) (mask : UInt32) :
    (c.confirm (AckWindow.reading latest mask).received).kept
      (AckWindow.reading latest mask).missing = (c.askedFor latest mask).map some := by
  have hstill : ∀ id ∈ (AckWindow.reading latest mask).missing,
      (c.confirm (AckWindow.reading latest mask).received).pending[id]? = c.pending[id]? := by
    intro id hid
    rw [getElem?_confirm, if_neg (AckWindow.not_received_of_missing hid)]
  rw [kept, List.filterMap_congr hstill]
  simp only [AckWindow.reading, List.partition_eq_filter_filter, askedFor, List.filterMap_map,
    List.filterMap_filter]
  congr 2
  funext i
  cases hbit : mask.toBitVec.getLsbD i <;> simp [hbit]

section
variable (c : Connection) (header : DataHeader)

theorem emitted_report : (c.received header c.unmoved).emitted =
    (c.askedFor header.ackLatest header.ackMask).mapIdx
      (c.repetition c.window.latest (.ofBitVec c.window.mask)) := by
  rw [emitted_received_of_not_accepted rfl, kept_missing, datagrams_map_some]
  rfl

theorem connection_report : (c.received header c.unmoved).connection = { c with
    pending := (c.received header c.unmoved).connection.pending
    nextPacket := c.nextPacket + .ofNat (c.received header c.unmoved).emitted.length } := by
  rw [emitted_received_of_not_accepted rfl, length_datagrams]
  exact advance_zero _

theorem pending_report_of_received {i : Nat} (hi : i < ackSpan)
    (hbit : header.ackMask.toBitVec.getLsbD i = true) :
    (c.received header c.unmoved).connection.pending[header.ackLatest - .ofNat i]? = none :=
  (getElem?_confirm c _ _).trans
    (if_pos (AckWindow.mem_received.mpr ⟨i, hi, hbit, rfl⟩))

theorem pending_report_of_other {id : UInt16} (hother : ∀ i < ackSpan,
    header.ackMask.toBitVec.getLsbD i = true → id ≠ header.ackLatest - .ofNat i) :
    (c.received header c.unmoved).connection.pending[id]? = c.pending[id]? := by
  refine (getElem?_confirm c _ _).trans (if_neg fun hid => ?_)
  obtain ⟨i, hi, hbit, rfl⟩ := AckWindow.mem_received.mp hid
  exact hother i hi hbit rfl

theorem pending_report_twice :
    (((c.received header c.unmoved).connection.received header
      (c.received header c.unmoved).connection.unmoved).connection).pending =
      (c.received header c.unmoved).connection.pending :=
  pending_confirm_twice c _

end

/-- What a report has is forgotten, and what else is pending in its span goes out again, the
reported id first. Nothing else changes. -/
theorem report_effect {endpoint : Endpoint} (hshort : endpoint.config.ackMode = .short)
    {calls : List Call} {c : Connection} {log : List Called}
    (hrun : (start endpoint).callAll calls = .ok (c, log)) (halive : c.phase ≠ .disconnected)
    {datagram : Bytes} {header : DataHeader}
    (hread : DataHeader.decode .short datagram = .ok (header, []))
    (hconnection : header.connection = endpoint.id)
    (hsession : endpoint.config.checkSession = true → header.session = endpoint.peerSession) :
    ∃ step latest mask, c.receive datagram = .ok step ∧ c.window.report = .ok (latest, mask) ∧
      (∀ i < 32, header.ackMask.toBitVec.getLsbD i = true →
        step.connection.pending[header.ackLatest - .ofNat i]? = none) ∧
      (∀ id, (∀ i < 32, header.ackMask.toBitVec.getLsbD i = true →
          id ≠ header.ackLatest - .ofNat i) →
        step.connection.pending[id]? = c.pending[id]?) ∧
      step.emitted = (c.askedFor header.ackLatest header.ackMask).mapIdx
        (c.repetition latest mask) ∧
      step.answer = [] ∧
      step.connection = { c with
        pending := step.connection.pending
        nextPacket := c.nextPacket + .ofNat step.emitted.length } ∧
      ∃ again, step.connection.receive datagram = .ok again ∧
        again.connection.pending = step.connection.pending := by
  have hsupplied := supplied_callAll hshort hrun
  obtain ⟨-, hendpoint, -⟩ := callAll_fits ⟨hshort, hshort⟩ hrun
  have hopen :
      (!endpoint.config.checkSession || header.session == endpoint.peerSession) = true := by
    cases hcheck : endpoint.config.checkSession with
    | false => rfl
    | true =>
      rw [hsession hcheck]
      exact beq_self_eq_true _
  have hmine : c.accepts header = true := by
    rw [accepts, hendpoint, hconnection, beq_self_eq_true, hopen]
    exact bne_iff_ne.mpr halive
  obtain rfl : datagram = header.bytes := by
    rw [DataHeader.eq_of_decode hread, List.append_nil]
  have hreport : c.window.report = .ok (c.window.latest, .ofBitVec c.window.mask) := by
    rw [AckWindow.report, hsupplied.window]
  have hstill : (c.received header c.unmoved).connection.accepts header = true := hmine
  have hagain := (hsupplied.received header).receive hstill
  exact ⟨_, _, _, hsupplied.receive hmine, hreport,
    fun i hi => pending_report_of_received c header hi,
    fun id => pending_report_of_other c header, emitted_report c header, rfl,
    connection_report c header, _, hagain, pending_report_twice c header⟩

end

theorem report_effect_gap :
    ∃ endpoint : Endpoint, endpoint.config = .standard ∧
      ∃ c log step, (start endpoint).callAll [.send 0 [7], .send 0 [8], .send 0 [9]] =
          .ok (c, log) ∧
        c.receive [0, 1, 0, 0, 0, 9, 0, 2, 0, 0, 0, 1] = .ok step ∧
        step.connection.pending[(2 : UInt16)]? = none ∧
        step.connection.pending[(3 : UInt16)]? = c.pending[(3 : UInt16)]? ∧
        step.emitted = [[0, 1, 0, 3, 0, 3, 0, 0, 255, 255, 255, 255, 0, 0, 6, 0, 1, 7]] ∧
        step.answer = [] := by
  let endpoint : Endpoint :=
    { config := .standard, id := 1, address := "10.0.0.2:7000", remoteId := 5, session := 3
      peerSession := 9 }
  let header : DataHeader :=
    { connection := 1, packet := 0, session := 9, ackLatest := 2, ackMask := 1 }
  have hshort : endpoint.config.ackMode = .short := rfl
  have hread : DataHeader.decode .short [0, 1, 0, 0, 0, 9, 0, 2, 0, 0, 0, 1] = .ok (header, []) :=
    rfl
  have hvalid : endpoint.config.validate = .ok () := rfl
  obtain ⟨c, log, hrun, -⟩ := (roomy_start hvalid).callAll
    [.send 0 [7], .send 0 [8], .send 0 [9]]
  have heval : ((start endpoint).callAll [.send 0 [7], .send 0 [8], .send 0 [9]]).toOption.map
      (fun r => (r.1.phase,
        (r.1.receive [0, 1, 0, 0, 0, 9, 0, 2, 0, 0, 0, 1]).toOption.map Step.emitted)) =
      some (.handshake,
        some [[0, 1, 0, 3, 0, 3, 0, 0, 255, 255, 255, 255, 0, 0, 6, 0, 1, 7]]) := by
    decide +kernel
  rw [hrun] at heval
  obtain ⟨hphase, heval⟩ := Prod.mk.inj (Option.some.inj heval)
  have halive : c.phase ≠ .disconnected := by
    rw [hphase]
    decide
  obtain ⟨step, latest, mask, hstep, -, hgone, hother, -, hanswer, -⟩ :=
    report_effect hshort hrun halive hread rfl (fun _ => rfl)
  rw [hstep] at heval
  have hthree : ∀ i < 32, header.ackMask.toBitVec.getLsbD i = true →
      (3 : UInt16) ≠ header.ackLatest - .ofNat i := by decide
  have htwo : header.ackLatest - .ofNat 0 = 2 := by decide
  have hsecond := hgone 0 (by decide) (by decide)
  rw [htwo] at hsecond
  exact ⟨endpoint, rfl, c, log, step, hrun, hstep, hsecond, hother 3 hthree,
    Option.some.inj heval, hanswer⟩

end Connection

end DatagramTransport
