import DatagramTransport.Proofs.Connection.Calls

/-!
# What a call does, in order

A call may emit datagrams for several reasons, and take note of message ids in
between: a datagram that comes has the frames sent again that its report asks
for, then its own frames are taken, and then these are acknowledged. The course
of a call is what it does in this order. Without a fault there are six ways for
a call to end, and each has a course in closed form.
-/

set_option autoImplicit false

namespace DatagramTransport

inductive Cause where
  | first
  | again
  | acknowledgement
  deriving DecidableEq, Repr

inductive Happening where
  | data (cause : Cause) (datagram : Bytes)
  | ping (datagram : Bytes)
  | disconnect (datagram : Bytes)
  | noted (id : UInt16)
  deriving DecidableEq, Repr

namespace Happening

def datagram? : Happening → Option Bytes
  | data _ datagram | ping datagram | disconnect datagram => some datagram
  | noted _ => none

def noted? : Happening → Option UInt16
  | noted id => some id
  | _ => none

end Happening

def Called.ofCourse (course : List Happening) : Called where
  emitted := course.filterMap Happening.datagram?
  noted := course.filterMap Happening.noted?

namespace Happening

section
variable (cause : Cause) (datagrams : List Bytes) (ids : List UInt16)

theorem datagrams_data : (datagrams.map (data cause)).filterMap datagram? = datagrams := by
  simp [List.filterMap_map, Function.comp_def, datagram?]

theorem datagrams_ping : (datagrams.map ping).filterMap datagram? = datagrams := by
  simp [List.filterMap_map, Function.comp_def, datagram?]

theorem datagrams_noted : (ids.map noted).filterMap datagram? = [] := by
  simp [List.filterMap_map, Function.comp_def, datagram?]

theorem ids_data : (datagrams.map (data cause)).filterMap noted? = [] := by
  simp [List.filterMap_map, Function.comp_def, noted?]

theorem ids_ping : (datagrams.map ping).filterMap noted? = [] := by
  simp [List.filterMap_map, Function.comp_def, noted?]

theorem ids_noted : (ids.map noted).filterMap noted? = ids := by
  simp [List.filterMap_map, Function.comp_def, noted?]

end

end Happening

namespace Connection

/-- The datagrams before the frames are taken are those that acting on the report
emits, and the others come behind. -/
def receiptCourse (c : Connection) (datagram : Bytes) : List Happening :=
  match DataHeader.decode c.endpoint.config.ackMode datagram, c.receive datagram with
  | .ok (header, _), .ok step =>
    if c.accepts header then
      let repeated := (c.acknowledge header.ackLatest header.ackMask).emitted.length
      (step.emitted.take repeated).map (.data .again) ++ (c.noted datagram).map .noted ++
        (step.emitted.drop repeated).map (.data .acknowledgement)
    else []
  | _, _ => []

def course (c : Connection) : Call → List Happening
  | .send channel message => (c.send channel message).emitted.map (.data .first)
  | .receive datagram => c.receiptCourse datagram
  | .ping now ping => (c.receivePing now ping).emitted.map .ping
  | .greet now => (c.initialPing now).emitted.map .ping
  | .disconnect reason => [.disconnect (c.disconnectPacket reason)]
  | .markDisconnected => []

section
variable (c : Connection) (header : DataHeader) (intake : Intake)

def repeated : List Bytes :=
  let acked := c.confirm (AckWindow.reading header.ackLatest header.ackMask).received
  acked.datagrams (acked.kept (AckWindow.reading header.ackLatest header.ackMask).missing)

def taken : Connection :=
  let acked := c.confirm (AckWindow.reading header.ackLatest header.ackMask).received
  { acked with
    channels := intake.channels
    window := intake.window
    nextPacket := c.nextPacket + .ofNat (c.repeated header).length }

def acknowledgements : List Bytes :=
  (c.taken header intake).datagrams
    (List.replicate (if intake.accepted then c.endpoint.config.ackEchoes else 0) none)

theorem received_eq : c.received header intake =
    { connection := (c.taken header intake).advance
        (if intake.accepted then c.endpoint.config.ackEchoes else 0)
      emitted := c.repeated header ++ c.acknowledgements header intake
      answer := intake.messages } := by
  simp only [received, taken, acknowledgements, repeated, length_datagrams]

end

inductive Leads (c : Connection) : Connection → List Happening → Prop
  | idle : Leads c c []
  | sent (channel : UInt8) (message : Bytes) (p : Prepared)
      (fits : c.checkSend (c.channelAt channel) message = .ok ())
      (prepared : (c.channelAt channel).prepare message c.nextMessage = .ok p) :
      Leads c (c.sent channel p).connection ((c.sent channel p).emitted.map (.data .first))
  | received (header : DataHeader) (body : Bytes) (intake : Intake)
      (accepted : c.accepts header = true)
      (took : takeFrames c.channels c.window body = .ok intake)
      (came : c.receive (header.bytes ++ body) = .ok (c.received header intake)) :
      Leads c (c.received header intake).connection
        ((c.repeated header).map (.data .again) ++
          (notedIds c.channels c.window body).map .noted ++
          (c.acknowledgements header intake).map (.data .acknowledgement))
  | pinged (phase : Phase) (now ackedTime : UInt32)
      (alive : phase = .disconnected ↔ c.phase = .disconnected) :
      Leads c ({ c with phase }.sendPing now ackedTime).connection
        (({ c with phase }.sendPing now ackedTime).emitted.map .ping)
  | parted (reason : DisconnectReason) :
      Leads c c [.disconnect (c.disconnectPacket reason)]
  | ended : Leads c { c with phase := .disconnected, pending := ∅ } []

section
variable {c : Connection}

theorem emitted_acknowledge (h : c.Short) {header : DataHeader} {body : Bytes}
    (ha : c.accepts header = true) {step : Step (List Message)}
    (hr : c.receive (header.bytes ++ body) = .ok step) :
    (c.acknowledge header.ackLatest header.ackMask).emitted = c.repeated header := by
  have hack := acknowledge_eq h header.ackLatest header.ackMask
  have hconf := h.confirm (AckWindow.reading header.ackLatest header.ackMask).received
  rcases sendAgain_answer hconf (AckWindow.reading header.ackLatest header.ackMask).missing with
    hok | hfault
  · rw [hack, sendAgain_eq hconf hok]
    rfl
  · unfold receive at hr
    simp only [h.config, DataHeader.decode_bytes, ha, if_true] at hr
    rw [hack, hfault] at hr
    cases hr

theorem receiptCourse_dropped (h : c.Short) {datagram : Bytes}
    (hnot : ∀ header body, datagram = header.bytes ++ body → c.accepts header ≠ true) :
    c.receiptCourse datagram = [] := by
  unfold receiptCourse
  rw [h.config]
  cases hd : DataHeader.decode .short datagram with
  | error e => rfl
  | ok r =>
    obtain ⟨header, body⟩ := r
    have hrefused := hnot header body (DataHeader.eq_of_decode hd)
    cases c.receive datagram with
    | error f => rfl
    | ok step => exact if_neg hrefused

theorem receiptCourse_accepted (h : c.Short) {header : DataHeader} {body : Bytes}
    (ha : c.accepts header = true) {step : Step (List Message)}
    (hr : c.receive (header.bytes ++ body) = .ok step) {intake : Intake}
    (hstep : step = c.received header intake) :
    c.receiptCourse (header.bytes ++ body) =
      (c.repeated header).map (.data .again) ++
        (notedIds c.channels c.window body).map .noted ++
        (c.acknowledgements header intake).map (.data .acknowledgement) := by
  have hnoted : c.noted (header.bytes ++ body) = notedIds c.channels c.window body := by
    simp only [noted, h.config, DataHeader.decode_bytes, ha, if_true]
  unfold receiptCourse
  simp only [h.config, DataHeader.decode_bytes, hr, ha, if_true, emitted_acknowledge h ha hr]
  rw [hstep, received_eq, hnoted, List.take_left, List.drop_left]

theorem call_leads (h : c.Short) {call : Call} {next : Connection} {called : Called}
    (hcall : c.call call = .ok (next, called)) :
    c.Leads next (c.course call) ∧ called = .ofCourse (c.course call) := by
  cases call with
  | send channel message =>
    simp only [Connection.call] at hcall
    split at hcall
    · cases hcall
    · rename_i hanswer
      cases hcall
      simp only [course, Called.ofCourse, Happening.datagrams_data, Happening.ids_data, and_true]
      rcases send_cases h (fun f hf => hanswer f hf) with
        ⟨e, hrefused⟩ | ⟨p, hcheck, hp, hsent⟩
      · rw [hrefused]
        exact .idle
      · rw [hsent]
        exact .sent channel message p hcheck hp
  | receive datagram =>
    obtain ⟨step, hstep, hcall⟩ := bind_eq_ok.mp hcall
    cases hcall
    rw [course]
    by_cases hmine : ∃ header body, datagram = header.bytes ++ body ∧ c.accepts header = true
    · obtain ⟨header, body, rfl, ha⟩ := hmine
      obtain ⟨intake, took, rfl⟩ := receive_accepted h ha hstep
      have hnoted : c.noted (header.bytes ++ body) = notedIds c.channels c.window body := by
        simp only [noted, h.config, DataHeader.decode_bytes, ha, if_true]
      rw [receiptCourse_accepted h ha hstep rfl]
      refine ⟨.received header body intake ha took hstep, ?_⟩
      simp only [Called.ofCourse, hnoted, received_eq, List.filterMap_append,
        Happening.datagrams_data, Happening.datagrams_noted, Happening.ids_data,
        Happening.ids_noted, List.append_nil, List.nil_append]
    · rw [receiptCourse_dropped h fun header body heq ha => hmine ⟨header, body, heq, ha⟩]
      rcases receive_cases h hstep with ⟨rfl, hnone⟩ | ⟨header, body, intake, heq, ha, -, -, -⟩
      · rw [hnone]
        exact ⟨.idle, rfl⟩
      · exact absurd ⟨header, body, heq, ha⟩ hmine
  | ping now ping =>
    cases hcall
    simp only [course, Called.ofCourse, Happening.datagrams_ping, Happening.ids_ping, and_true]
    unfold receivePing
    cases hphase : c.phase with
    | disconnected => exact .idle
    | handshake => exact .pinged .connected now ping.sentTime (by simp [hphase])
    | connected => exact .pinged c.phase now ping.sentTime Iff.rfl
  | greet now =>
    cases hcall
    simp only [course, Called.ofCourse, Happening.datagrams_ping, Happening.ids_ping, and_true]
    exact .pinged c.phase now 0 Iff.rfl
  | disconnect reason =>
    cases hcall
    exact ⟨.parted reason, rfl⟩
  | markDisconnected =>
    cases hcall
    refine ⟨?_, rfl⟩
    unfold markDisconnected
    split
    · exact .idle
    · exact .ended

theorem Leads.short {next : Connection} {course : List Happening} (h : c.Short)
    (hleads : c.Leads next course) : next.Short := by
  cases hleads with
  | received header body intake accepted took came =>
    exact ⟨(takeFrames_mode took).trans h.window, h.config⟩
  | _ => exact ⟨h.window, h.config⟩

theorem Leads.keyed {next : Connection} {course : List Happening}
    (h : ∀ channel ∈ c.channels, channel.Keyed) (hleads : c.Leads next course) :
    ∀ channel ∈ next.channels, channel.Keyed := by
  cases hleads with
  | sent channel message p fits prepared =>
    exact forall_mem_set h _ (Channel.keyed_prepare prepared (keyed_channelAt h channel))
  | received header body intake accepted took came =>
    obtain ⟨taken, htaken, hkeyed⟩ := takeFrames_total c.window body h
    cases took.symm.trans htaken
    exact hkeyed
  | _ => exact h

theorem Leads.endpoint {next : Connection} {course : List Happening}
    (hleads : c.Leads next course) : next.endpoint = c.endpoint := by
  cases hleads <;> rfl

theorem Leads.fits {config : Config} {next : Connection} {course : List Happening}
    (h : config.Fits c.channels) (hleads : c.Leads next course) : config.Fits next.channels := by
  cases hleads with
  | sent channel message p fits prepared => exact h.set (Channel.prepare_spec prepared).1
  | received header body intake accepted took came => exact (takeFrames_spec took).1.trans h
  | _ => exact h

theorem callAll_fits {endpoint : Endpoint} (hshort : (start endpoint).Short) {calls : List Call}
    {log : List Called} (hrun : (start endpoint).callAll calls = .ok (c, log)) :
    c.Short ∧ c.endpoint = endpoint ∧ endpoint.config.Fits c.channels := by
  refine runAll_keeps (P := fun (c : Connection) => c.Short ∧ c.endpoint = endpoint ∧
    endpoint.config.Fits c.channels) ?_ ⟨hshort, rfl, Config.fits_ofQos _⟩ hrun
  rintro c call next called ⟨hs, hendpoint, hfit⟩ hcall
  obtain ⟨hleads, -⟩ := call_leads hs hcall
  exact ⟨hleads.short hs, hleads.endpoint.trans hendpoint, hleads.fits hfit⟩

def observe (c : Connection) (call : Call) : Except Fault (Connection × List Happening) :=
  (c.call call).map fun r => (r.1, c.course call)

theorem observe_eq_ok {call : Call} {next : Connection} {course : List Happening}
    (h : c.Short) (hobserve : c.observe call = .ok (next, course)) :
    c.Leads next course ∧ c.call call = .ok (next, .ofCourse course) := by
  cases hcall : c.call call with
  | error f =>
    rw [observe, hcall] at hobserve
    cases hobserve
  | ok r =>
    obtain ⟨last, called⟩ := r
    rw [observe, hcall] at hobserve
    cases hobserve
    obtain ⟨hleads, rfl⟩ := call_leads h hcall
    exact ⟨hleads, rfl⟩

theorem callAll_of_observed {calls : List Call} {last : Connection}
    {courses : List (List Happening)} (h : c.Short)
    (hrun : runAll observe c calls = .ok (last, courses)) :
    c.callAll calls = .ok (last, courses.map .ofCourse) := by
  induction calls generalizing c courses with
  | nil =>
    cases hrun
    rfl
  | cons call calls ih =>
    obtain ⟨next, course, later, hobserve, hlater, rfl⟩ := runAll_cons_eq_ok.mp hrun
    obtain ⟨hleads, hcall⟩ := observe_eq_ok h hobserve
    exact runAll_cons_eq_ok.mpr
      ⟨next, _, _, hcall, ih (hleads.short h) hlater, rfl⟩

theorem observe_fault {call : Call} {f : Fault} (hobserve : c.observe call = .error f) :
    c.call call = .error f := by
  cases hcall : c.call call with
  | error g =>
    rw [observe, hcall] at hobserve
    cases hobserve
    rfl
  | ok r =>
    rw [observe, hcall] at hobserve
    cases hobserve

theorem echo_fault (h : c.Short) {n : Nat} {f : Fault} (he : echo n c = .error f) :
    f = .capacityOverflow := by
  induction n generalizing c with
  | zero => cases he
  | succ n ih =>
    rw [echo] at he
    split at he
    · rename_i hp
      cases he
      exact Error.fault.inj (packet_error h hp)
    · rename_i e hne hp
      exact absurd (packet_error h hp) (hne _)
    · rename_i d datagram hd
      obtain ⟨rfl, -⟩ := packet_ok h hd
      cases hrest : echo n (c.advance 1) with
      | error g =>
        rw [hrest] at he
        cases he
        exact ih (h.advance 1) hrest
      | ok rest =>
        rw [hrest] at he
        cases he

theorem send_fault (h : c.Short) {channel : UInt8} {message : Bytes} {f : Fault}
    (hf : (c.send channel message).answer = .error (.fault f)) : f = .capacityOverflow := by
  unfold send at hf
  dsimp only at hf
  split at hf
  · rename_i hcheck
    exact absurd (hcheck.trans hf) (checkSend_faultless c _ message f)
  · rename_i hp
    exact absurd (hp.trans (congrArg Except.error (Except.error.inj hf)))
      (Channel.prepare_faultless _ message c.nextMessage f)
  · rename_i p hcheck hp
    have hs : Short { c with
        channels := c.channels.set channel.toNat p.channel, nextMessage := p.nextMessage } :=
      ⟨h.window, h.config⟩
    rcases transmit_answer hs p.frames with hok | hover
    · cases hok.symm.trans hf
    · cases hover.symm.trans hf
      rfl

theorem receive_fault (h : c.Short) (hkeyed : ∀ channel ∈ c.channels, channel.Keyed)
    {datagram : Bytes} {f : Fault} (hr : c.receive datagram = .error f) :
    f = .capacityOverflow := by
  unfold receive at hr
  rw [h.config] at hr
  cases hd : DataHeader.decode .short datagram with
  | error e =>
    rw [hd] at hr
    cases hr
  | ok r =>
    obtain ⟨header, body⟩ := r
    simp only [hd] at hr
    by_cases ha : c.accepts header = true
    case neg =>
      simp only [ha] at hr
      cases hr
    have hconf := h.confirm (AckWindow.reading header.ackLatest header.ackMask).received
    simp only [ha, if_true, acknowledge_eq h] at hr
    rcases sendAgain_answer hconf (AckWindow.reading header.ackLatest header.ackMask).missing with
      hok | hover
    · obtain ⟨intake, took, -⟩ := takeFrames_total c.window body hkeyed
      have hmode : intake.window.mode = .short := (takeFrames_mode took).trans h.window
      rw [hok, sendAgain_eq hconf hok] at hr
      rcases bind_eq_error.mp hr with hfault | ⟨other, htaken, hr⟩
      · cases (show takeFrames c.channels c.window body = .error f from hfault).symm.trans took
      · cases (show takeFrames c.channels c.window body = .ok other from htaken).symm.trans took
        rcases bind_eq_error.mp hr with hover | ⟨echoed, -, hr⟩
        · exact echo_fault (by exact ⟨hmode, h.config⟩) hover
        · cases hr
    · rw [hover] at hr
      cases hr
      rfl

/-- The only fault that a call can have is that a buffer would be too long. -/
theorem call_fault (h : c.Short) (hkeyed : ∀ channel ∈ c.channels, channel.Keyed) {call : Call}
    {f : Fault} (hcall : c.call call = .error f) :
    f = .capacityOverflow ∧ maxBufferLength < c.endpoint.config.maxDatagramLength := by
  cases call with
  | send channel message =>
    simp only [Connection.call] at hcall
    split at hcall
    · rename_i hanswer
      cases hcall
      refine ⟨send_fault h hanswer, Nat.lt_of_not_le fun hroom => ?_⟩
      exact Roomy.send_faultless ⟨h, hroom⟩ channel message f hanswer
    · cases hcall
  | receive datagram =>
    cases hr : c.receive datagram with
    | ok step =>
      simp only [Connection.call, hr] at hcall
      cases hcall
    | error g =>
      simp only [Connection.call, hr] at hcall
      cases hcall
      refine ⟨receive_fault h hkeyed hr, Nat.lt_of_not_le fun hroom => ?_⟩
      obtain ⟨step, hstep⟩ := Roomy.receive_total ⟨h, hroom⟩ hkeyed datagram
      cases hstep.symm.trans hr
  | ping now ping => cases hcall
  | greet now => cases hcall
  | disconnect reason => cases hcall
  | markDisconnected => cases hcall

end

end Connection

end DatagramTransport
