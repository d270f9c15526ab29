import DatagramTransport.Proofs.AckHistory
import DatagramTransport.Proofs.Connection.Course
import DatagramTransport.Proofs.Link.Waiting
import DatagramTransport.Proofs.Packets

/-!
# The trace of a connection

All that a connection emits and all ids that it notes, in the order of its
calls. However first transmissions, repetitions, acknowledgements and pings
follow one another, their packet numbers count up from zero, every data packet
reports what was noted before it, and until the message ids wrap a frame under
an id is always the same one. A disconnect has no number of its own.
-/

set_option autoImplicit false

namespace DatagramTransport

namespace Happening

def packet : Happening → List (Option UInt16)
  | data _ datagram => [(DataHeader.decode .short datagram).toOption.map fun r => r.1.packet]
  | ping datagram => [(Ping.decode datagram).toOption.map fun r => r.1.header.packet]
  | disconnect _ | noted _ => []

def first? : Happening → Option Bytes
  | data .first datagram => some datagram
  | _ => none

theorem firsts_first (datagrams : List Bytes) :
    (datagrams.map (data .first)).filterMap first? = datagrams := by
  simp [List.filterMap_map, Function.comp_def, first?]

end Happening

def drawnIds (config : Config) (trace : List Happening) : List UInt16 :=
  Link.waiting config (trace.filterMap Happening.first?)

/-- The packet comes from this end and reports these ids: the highest one, and with a
clear bit each id from one on in the span below it that is not among them. -/
def Reported (own : Endpoint) (ids : List UInt16) (datagram : Bytes) : Prop :=
  ∃ header body, DataHeader.decode .short datagram = .ok (header, body) ∧
    header.connection = own.id ∧ header.session = own.session ∧
    header.ackLatest = AckWindow.highest ids ∧
    ∀ i < ackSpan, header.ackMask.toBitVec.getLsbD i = false ↔
      1 ≤ (AckWindow.highest ids).toNat - i ∧ AckWindow.highest ids - .ofNat i ∉ ids

/-- Every data packet reports what was noted up to its emission. -/
def AllReported (own : Endpoint) : List UInt16 → List Happening → Prop
  | _, [] => True
  | ids, .data _ datagram :: trace => Reported own ids datagram ∧ AllReported own ids trace
  | ids, .noted id :: trace => AllReported own (ids ++ [id]) trace
  | ids, _ :: trace => AllReported own ids trace

theorem allReported_append (own : Endpoint) (ids : List UInt16) (before after : List Happening) :
    AllReported own ids (before ++ after) ↔ AllReported own ids before ∧
      AllReported own (ids ++ before.filterMap Happening.noted?) after := by
  induction before generalizing ids with
  | nil => simp [AllReported]
  | cons happening before ih =>
    cases happening <;>
      simp [AllReported, ih, List.filterMap_cons, Happening.noted?, and_assoc]

section
variable {own : Endpoint} {ids : List UInt16}

theorem allReported_data {cause : Cause} {datagrams : List Bytes}
    (h : ∀ datagram ∈ datagrams, Reported own ids datagram) :
    AllReported own ids (datagrams.map (.data cause)) := by
  induction datagrams with
  | nil => trivial
  | cons datagram datagrams ih =>
    obtain ⟨hfirst, hrest⟩ := List.forall_mem_cons.mp h
    exact ⟨hfirst, ih hrest⟩

theorem allReported_noted (noted : List UInt16) : AllReported own ids (noted.map .noted) := by
  induction noted generalizing ids with
  | nil => trivial
  | cons id noted ih => exact ih

theorem allReported_ping (datagrams : List Bytes) :
    AllReported own ids (datagrams.map .ping) := by
  induction datagrams with
  | nil => trivial
  | cons datagram datagrams ih => exact ih

end

def numbersFrom (start : UInt16) (n : Nat) : List (Option UInt16) :=
  (List.range n).map fun k => some (start + .ofNat k)

theorem numbersFrom_add (start : UInt16) (m n : Nat) :
    numbersFrom start (m + n) = numbersFrom start m ++ numbersFrom (start + .ofNat m) n := by
  simp only [numbersFrom, List.range_add, List.map_append, List.map_map, Function.comp_def,
    UInt16.ofNat_add, UInt16.add_assoc]

namespace Connection

theorem packets_datagrams (c : Connection) (cause : Cause) (bodies : List (Option Transfer)) :
    ((c.datagrams bodies).map (Happening.data cause)).flatMap Happening.packet =
      numbersFrom c.nextPacket bodies.length := by
  induction bodies generalizing c with
  | nil => rfl
  | cons body bodies ih =>
    have hone : Happening.packet (.data cause (c.header.bytes ++ bodyBytes body)) =
        numbersFrom c.nextPacket 1 := by
      simp [Happening.packet, numbersFrom, header, Except.toOption]
    rw [datagrams, List.map_cons, List.flatMap_cons, ih, hone, List.length_cons,
      Nat.add_comm bodies.length, numbersFrom_add]
    rfl

theorem packets_sendPing (c : Connection) (now ackedTime : UInt32) :
    ((c.sendPing now ackedTime).emitted.map Happening.ping).flatMap Happening.packet =
      numbersFrom c.nextPacket 1 := by
  have hread := Ping.decode_encode (p := {
    header := c.systemHeader .ping c.nextPacket, sentTime := now, ackedTime
    timeCorrection := 0, internalDropRate := 0, externalDropRate := 0
    swappedSession := swapSession c.endpoint.peerSession }) rfl []
  rw [List.append_nil] at hread
  simp only [Connection.sendPing, List.map_cons, List.map_nil, List.flatMap_singleton,
    Happening.packet, hread]
  simp [numbersFrom, Except.toOption, systemHeader]

theorem reported_of_mem_datagrams {c : Connection} {ids : List UInt16}
    (hwindow : c.window = ((AckWindow.fresh .short).recordAll ids).1)
    {bodies : List (Option Transfer)} {datagram : Bytes} (h : datagram ∈ c.datagrams bodies) :
    Reported c.endpoint ids datagram := by
  obtain ⟨n, body, -, rfl⟩ := mem_datagrams h
  have htracks := AckWindow.tracks_recordAll AckWindow.tracks_fresh ids
  rw [List.nil_append, ← hwindow] at htracks
  have hlatest : c.window.latest = AckWindow.highest ids := by
    rw [hwindow, AckWindow.latest_eq_highest]
  refine ⟨_, _, DataHeader.decode_bytes _ _, rfl, rfl, hlatest, fun i hi => ?_⟩
  have hbit := htracks.bit i hi
  have hbelow : 1 ≤ (AckWindow.highest ids).toNat - i ↔ i < (AckWindow.highest ids).toNat := by
    omega
  rwa [hlatest, ← hbelow] at hbit

structure Wired (own : Endpoint) (trace : List Happening) (c : Connection) : Prop where
  endpoint : c.endpoint = own
  window : c.window = ((AckWindow.fresh .short).recordAll (trace.filterMap Happening.noted?)).1
  numbered : ∃ n, trace.flatMap Happening.packet = numbersFrom 0 n ∧ c.nextPacket = .ofNat n
  reported : AllReported own [] trace

section
variable {own : Endpoint} {trace : List Happening} {c : Connection}

theorem wired_start {endpoint : Endpoint} (h : endpoint.config.ackMode = .short) :
    (start endpoint).Wired endpoint [] where
  endpoint := rfl
  window := congrArg AckWindow.fresh h
  numbered := ⟨0, rfl, rfl⟩
  reported := trivial

theorem Wired.congr (h : c.Wired own trace) {d : Connection} (he : d.endpoint = c.endpoint)
    (hp : d.nextPacket = c.nextPacket) (hw : d.window = c.window) : d.Wired own trace where
  endpoint := he.trans h.endpoint
  window := hw.trans h.window
  numbered := by
    obtain ⟨n, hn, hnext⟩ := h.numbered
    exact ⟨n, hn, hp.trans hnext⟩
  reported := h.reported

theorem Wired.datagrams (h : c.Wired own trace) (cause : Cause)
    (bodies : List (Option Transfer)) :
    (c.advance bodies.length).Wired own
      (trace ++ (c.datagrams bodies).map (.data cause)) where
  endpoint := h.endpoint
  window := by
    rw [List.filterMap_append, Happening.ids_data, List.append_nil]
    exact h.window
  numbered := by
    obtain ⟨n, hn, hnext⟩ := h.numbered
    refine ⟨n + bodies.length, ?_, ?_⟩
    · rw [List.flatMap_append, packets_datagrams, hn, hnext, numbersFrom_add, UInt16.zero_add]
    · rw [advance, hnext, UInt16.ofNat_add]
  reported := by
    rw [allReported_append, List.nil_append]
    refine ⟨h.reported, allReported_data fun datagram hdatagram => ?_⟩
    rw [← h.endpoint]
    exact reported_of_mem_datagrams h.window hdatagram

theorem Wired.noted (h : c.Wired own trace) {d : Connection} (ids : List UInt16)
    (he : d.endpoint = c.endpoint) (hp : d.nextPacket = c.nextPacket)
    (hw : d.window = (c.window.recordAll ids).1) :
    d.Wired own (trace ++ ids.map .noted) where
  endpoint := he.trans h.endpoint
  window := by
    rw [List.filterMap_append, Happening.ids_noted, AckWindow.recordAll_append, ← h.window]
    exact hw
  numbered := by
    obtain ⟨n, hn, hnext⟩ := h.numbered
    refine ⟨n, ?_, hp.trans hnext⟩
    rw [List.flatMap_append, hn, List.flatMap_map]
    simp [Happening.packet]
  reported := by
    rw [allReported_append]
    exact ⟨h.reported, allReported_noted ids⟩

theorem Wired.sendPing (h : c.Wired own trace) (now ackedTime : UInt32) :
    (c.sendPing now ackedTime).connection.Wired own
      (trace ++ (c.sendPing now ackedTime).emitted.map .ping) where
  endpoint := h.endpoint
  window := by
    rw [List.filterMap_append, Happening.ids_ping, List.append_nil]
    exact h.window
  numbered := by
    obtain ⟨n, hn, hnext⟩ := h.numbered
    refine ⟨n + 1, ?_, ?_⟩
    · rw [List.flatMap_append, packets_sendPing, hn, hnext, numbersFrom_add, UInt16.zero_add]
    · rw [Connection.sendPing, hnext, UInt16.ofNat_add]
      rfl
  reported := by
    rw [allReported_append]
    exact ⟨h.reported, allReported_ping _⟩

theorem Wired.parted (h : c.Wired own trace) (reason : DisconnectReason) :
    c.Wired own (trace ++ [.disconnect (c.disconnectPacket reason)]) where
  endpoint := h.endpoint
  window := by
    have hnone : [Happening.disconnect (c.disconnectPacket reason)].filterMap
        Happening.noted? = [] := rfl
    rw [List.filterMap_append, hnone, List.append_nil]
    exact h.window
  numbered := by
    have hnone : [Happening.disconnect (c.disconnectPacket reason)].flatMap
        Happening.packet = [] := rfl
    rw [List.flatMap_append, hnone, List.append_nil]
    exact h.numbered
  reported := by
    rw [allReported_append]
    exact ⟨h.reported, trivial⟩

theorem Wired.received (h : c.Wired own trace) {header : DataHeader} {body : Bytes}
    {intake : Intake} (took : takeFrames c.channels c.window body = .ok intake) :
    (c.received header intake).connection.Wired own
      (trace ++ ((c.repeated header).map (.data .again) ++
        (notedIds c.channels c.window body).map .noted ++
        (c.acknowledgements header intake).map (.data .acknowledgement))) := by
  have hacked : (c.confirm (AckWindow.reading header.ackLatest header.ackMask).received).Wired
      own trace := h.congr rfl rfl rfl
  have hagain := hacked.datagrams .again
    ((c.confirm (AckWindow.reading header.ackLatest header.ackMask).received).kept
      (AckWindow.reading header.ackLatest header.ackMask).missing)
  have htaken := hagain.noted (d := c.taken header intake) (notedIds c.channels c.window body)
    rfl (by rw [taken, repeated, length_datagrams]; rfl) (takeFrames_spec took).2
  have hlast := htaken.datagrams .acknowledgement
    (List.replicate (if intake.accepted then c.endpoint.config.ackEchoes else 0) none)
  rw [List.length_replicate, List.append_assoc, List.append_assoc, ← List.append_assoc] at hlast
  rw [received_eq, List.append_assoc]
  simpa only [repeated, acknowledgements, List.append_assoc] using hlast

theorem Wired.leads (h : c.Wired own trace) {next : Connection} {course : List Happening}
    (hleads : c.Leads next course) : next.Wired own (trace ++ course) := by
  cases hleads with
  | idle => rwa [List.append_nil]
  | sent channel message p fits prepared =>
    have hsent := h.datagrams .first (p.frames.map fun f => some { channel, frame := f.bytes })
    rw [List.length_map] at hsent
    exact hsent.congr rfl rfl rfl
  | received header body intake accepted took came => exact h.received took
  | pinged phase now ackedTime alive =>
    have hphase : Wired own trace { c with phase } := h.congr rfl rfl rfl
    exact hphase.sendPing now ackedTime
  | parted reason => exact h.parted reason
  | ended =>
    rw [List.append_nil]
    exact h.congr rfl rfl rfl

end

/-- What a connection has of the frames in its trace: they are those that were
posted on it, of which there are as many as ids were drawn. -/
def Posted (own : Endpoint) (trace : List Happening) (c : Connection) : Prop :=
  ∃ (posted : List Posting) (queue : Backlog Bytes),
    (∀ cause datagram, .data cause datagram ∈ trace → datagram ∈ queue.toList) ∧
    posted.length = (drawnIds own.config trace).length ∧
    Link.Speaks own posted { connection := c, queue }

section
variable {own : Endpoint} {trace : List Happening} {c : Connection}

theorem posted_start {endpoint : Endpoint} (h : endpoint.config.ackMode = .short) :
    (start endpoint).Posted endpoint [] := by
  refine ⟨[], .ofList [], by simp, rfl, ?_⟩
  constructor
  case endpoint => rfl
  case short => exact ⟨h, h⟩
  case fits => exact Config.fits_ofQos _
  case counter => rfl
  case wellPosted => simp [Link.WellPosted]
  case kept => simp [start]
  case queued => simp

theorem Posted.append (h : c.Posted own trace) {next : Connection} {course : List Happening}
    (hfirst : course.filterMap Happening.first? = [])
    (hnext : ∀ posted queue, Link.Speaks own posted { connection := c, queue } →
      ∃ later, (∀ cause datagram, .data cause datagram ∈ course → datagram ∈ later) ∧
        Link.Speaks own posted { connection := next, queue := queue.push later }) :
    next.Posted own (trace ++ course) := by
  obtain ⟨posted, queue, hqueue, hlength, hspeaks⟩ := h
  obtain ⟨later, hlater, hafter⟩ := hnext posted queue hspeaks
  refine ⟨posted, queue.push later, fun cause datagram hmem => ?_, ?_, hafter⟩
  · rw [Backlog.toList_push, List.mem_append]
    rcases List.mem_append.mp hmem with hold | hnew
    · exact .inl (hqueue cause datagram hold)
    · exact .inr (hlater cause datagram hnew)
  · rw [drawnIds, List.filterMap_append, hfirst, List.append_nil]
    exact hlength

theorem Posted.sent (h : c.Posted own trace) {channel : UInt8} {message : Bytes} {p : Prepared}
    (hp : (c.channelAt channel).prepare message c.nextMessage = .ok p) :
    (c.sent channel p).connection.Posted own
      (trace ++ (c.sent channel p).emitted.map (.data .first)) := by
  obtain ⟨posted, queue, hqueue, hlength, hspeaks⟩ := h
  refine ⟨posted ++ Link.postingsOf own.config channel message p,
    queue.push (c.sent channel p).emitted, fun cause datagram hmem => ?_, ?_, hspeaks.sent hp⟩
  · rw [Backlog.toList_push, List.mem_append]
    rcases List.mem_append.mp hmem with hold | hnew
    · exact .inl (hqueue cause datagram hold)
    · obtain ⟨other, hother, heq⟩ := List.mem_map.mp hnew
      cases heq
      exact .inr hother
  · rw [List.length_append, drawnIds, List.filterMap_append, Happening.firsts_first,
      Link.waiting_append, List.length_append, hspeaks.waiting_sent hp, List.length_map,
      List.length_range]
    exact congrArg (· + _) hlength

theorem Posted.leads (h : c.Posted own trace) {next : Connection} {course : List Happening}
    (hleads : c.Leads next course) : next.Posted own (trace ++ course) := by
  have hnothing : ∀ queue : Backlog Bytes, queue.push [] = queue := fun queue => rfl
  cases hleads with
  | idle => rwa [List.append_nil]
  | sent channel message p fits prepared => exact h.sent prepared
  | received header body intake accepted took came =>
    refine h.append ?_ fun posted queue hspeaks => ?_
    · simp [List.filterMap_append, List.filterMap_map, Function.comp_def, Happening.first?]
    · refine ⟨(c.received header intake).emitted, ?_, hspeaks.received came⟩
      intro cause datagram hmem
      rw [received_eq, List.mem_append]
      simp only [List.mem_append, List.mem_map, reduceCtorEq, and_false, exists_false, or_false,
        Happening.data.injEq] at hmem
      rcases hmem with ⟨again, hmem, -, rfl⟩ | ⟨again, hmem, -, rfl⟩
      · exact .inl hmem
      · exact .inr hmem
  | pinged phase now ackedTime alive =>
    refine h.append ?_ fun posted queue hspeaks => ?_
    · simp [List.filterMap_map, Function.comp_def, Happening.first?]
    · have hafter := hspeaks.act (s := .left) (.pinged phase (c.nextPacket + 1) alive)
      rw [Link.minted_nil, List.append_nil] at hafter
      exact ⟨[], by simp, hafter⟩
  | parted reason =>
    exact h.append rfl fun posted queue hspeaks => ⟨[], by simp, hspeaks⟩
  | ended =>
    refine h.append rfl fun posted queue hspeaks => ?_
    have hafter := hspeaks.act (s := .left) .ended
    rw [Link.minted_nil, List.append_nil] at hafter
    exact ⟨[], by simp, hafter⟩

/-- A frame under a message id is that of the posting that drew the id. -/
theorem posting_of_carried {posted : List Posting} {e : LinkEnd}
    (h : Link.Speaks own posted e) {datagram : Bytes} (hmem : datagram ∈ e.queue.toList)
    {id : UInt16} (hid : Link.carried own.config datagram = some id) :
    ∃ k p, posted[k]? = some p ∧ Transfer.ofDatagram? datagram = some p.transfer ∧
      id = idAt k := by
  obtain ⟨header, body, rfl, -, -, hknown⟩ := h.queued datagram hmem
  rw [Link.carried_bytes] at hid
  obtain ⟨t, rfl, ht⟩ := Option.bind_eq_some_iff.mp hid
  obtain ⟨layout, payload, hcarries, hplace⟩ := hknown t rfl
  rw [hcarries.messageId] at ht
  obtain ⟨k, p, hk, hp, heq⟩ := hplace id ht
  exact ⟨k, p, hk, by rw [Transfer.ofDatagram?_bytes, hp], heq⟩

/-- As long as the ids have not wrapped, a frame under an id is always the same. -/
theorem Posted.same_frame (h : c.Posted own trace)
    (hids : (drawnIds own.config trace).length ≤ 65535) {cause other : Cause}
    {datagram repetition : Bytes} (hmem : .data cause datagram ∈ trace)
    (hother : .data other repetition ∈ trace) {id : UInt16}
    (hid : Link.carried own.config datagram = some id)
    (hsame : Link.carried own.config repetition = some id) :
    Transfer.ofDatagram? repetition = Transfer.ofDatagram? datagram := by
  obtain ⟨posted, queue, hqueue, hlength, hspeaks⟩ := h
  obtain ⟨i, p, hi, hp, rfl⟩ := posting_of_carried hspeaks (hqueue _ _ hmem) hid
  obtain ⟨j, q, hj, hq, heq⟩ := posting_of_carried hspeaks (hqueue _ _ hother) hsame
  obtain ⟨hilt, -⟩ := List.getElem?_eq_some_iff.mp hi
  obtain ⟨hjlt, -⟩ := List.getElem?_eq_some_iff.mp hj
  obtain rfl := idAt_inj (by omega) (by omega) heq
  cases hi.symm.trans hj
  rw [hp, hq]

theorem Posted.counter (h : c.Posted own trace) :
    c.nextMessage = idAt (drawnIds own.config trace).length := by
  obtain ⟨posted, queue, -, hlength, hspeaks⟩ := h
  rw [← hlength]
  exact hspeaks.counter

end

structure Observed (own : Endpoint) (trace : List Happening) (c : Connection) : Prop where
  short : c.Short
  keyed : ∀ channel ∈ c.channels, channel.Keyed
  wired : c.Wired own trace
  posted : c.Posted own trace

theorem observed_start {endpoint : Endpoint} (h : endpoint.config.ackMode = .short) :
    (start endpoint).Observed endpoint [] where
  short := ⟨h, h⟩
  keyed := keyed_start endpoint
  wired := wired_start h
  posted := posted_start h

theorem Observed.leads {own : Endpoint} {trace : List Happening} {c next : Connection}
    (h : c.Observed own trace) {course : List Happening} (hleads : c.Leads next course) :
    next.Observed own (trace ++ course) where
  short := hleads.short h.short
  keyed := hleads.keyed h.keyed
  wired := h.wired.leads hleads
  posted := h.posted.leads hleads

/-- Packet numbers count up from zero, every data packet reports the ids that were noted before it,
and until the message ids wrap there is one frame under each. -/
theorem trace_consistent {endpoint : Endpoint} (hshort : endpoint.config.ackMode = .short)
    (calls : List Call) :
    ∃ done rest c courses, calls = done ++ rest ∧
      runAll observe (start endpoint) done = .ok (c, courses) ∧
      (start endpoint).callAll done = .ok (c, courses.map .ofCourse) ∧
      (rest = [] ∨ maxBufferLength < endpoint.config.maxDatagramLength ∧
        ∃ call later, rest = call :: later ∧ c.call call = .error .capacityOverflow) ∧
      (∃ n, courses.flatten.flatMap Happening.packet =
        (List.range n).map fun k => some (.ofNat k)) ∧
      (∀ before cause datagram after,
        courses.flatten = before ++ .data cause datagram :: after →
        Reported endpoint (before.filterMap Happening.noted?) datagram) ∧
      c.nextMessage = idAt (drawnIds endpoint.config courses.flatten).length ∧
      ((drawnIds endpoint.config courses.flatten).length ≤ 65535 →
        ∀ cause datagram other repetition, .data cause datagram ∈ courses.flatten →
        .data other repetition ∈ courses.flatten →
        ∀ id, Link.carried endpoint.config datagram = some id →
          Link.carried endpoint.config repetition = some id →
          Transfer.ofDatagram? repetition = Transfer.ofDatagram? datagram) := by
  have hobserved : ∃ done rest c courses, calls = done ++ rest ∧
      runAll observe (start endpoint) done = .ok (c, courses) ∧
      c.Observed endpoint courses.flatten ∧ (rest = [] ∨ ∃ call later f, rest = call :: later ∧
        c.observe call = .error f) := by
    refine runAll_until_fault (P := fun (c : Connection) courses =>
      c.Observed endpoint courses.flatten) ?_ (observed_start hshort) calls
    intro c courses call next course h hobserve
    obtain ⟨hleads, -⟩ := observe_eq_ok h.short hobserve
    rw [List.flatten_append, List.flatten_singleton]
    exact h.leads hleads
  obtain ⟨done, rest, c, courses, hcalls, hrun, ⟨hs, hkeyed, hwired, hposted⟩, hrest⟩ := hobserved
  refine ⟨done, rest, c, courses, hcalls, hrun, callAll_of_observed ⟨hshort, hshort⟩ hrun, ?_, ?_,
    ?_, hposted.counter, ?_⟩
  · refine hrest.imp_right ?_
    rintro ⟨call, later, f, rfl, hobserve⟩
    obtain ⟨rfl, hroom⟩ := call_fault hs hkeyed (observe_fault hobserve)
    rw [hwired.endpoint] at hroom
    exact ⟨hroom, call, later, rfl, observe_fault hobserve⟩
  · obtain ⟨n, hn, -⟩ := hwired.numbered
    refine ⟨n, ?_⟩
    simpa only [numbersFrom, UInt16.zero_add] using hn
  · intro before cause datagram after htrace
    have hreported := hwired.reported
    rw [htrace, allReported_append, List.nil_append] at hreported
    exact hreported.2.1
  · intro hids cause datagram other repetition hmem hother id hid hsame
    exact hposted.same_frame hids hmem hother hid hsame

theorem trace_consistent_standard :
    ∃ endpoint : Endpoint, endpoint.config.ackMode = .short ∧
      ∃ c courses, runAll observe (start endpoint)
          [.greet 0, .send 0 [7],
            .receive [0, 1, 0, 0, 0, 9, 0, 1, 0, 0, 0, 0, 0, 0, 6, 0, 2, 42],
            .ping 5 { header := { type := .ping, packet := 0, session := 9, senderId := 1
                                  receiverId := 1 }
                      sentTime := 4, ackedTime := 0, timeCorrection := 0, internalDropRate := 0
                      externalDropRate := 0, swappedSession := 768 },
            .disconnect .ok, .send 0 [8]] = .ok (c, courses) ∧
        courses.map List.length = [1, 1, 5, 1, 1, 1] ∧
        courses.flatten.flatMap Happening.packet =
          [some 0, some 1, some 2, some 3, some 4, some 5, some 6, some 7] ∧
        drawnIds endpoint.config courses.flatten = [1, 2] ∧
        ∀ before cause datagram after,
          courses.flatten = before ++ .data cause datagram :: after →
          Reported endpoint (before.filterMap Happening.noted?) datagram := by
  let endpoint : Endpoint :=
    { config := .standard, id := 1, address := "10.0.0.2:7000", remoteId := 5, session := 3
      peerSession := 9 }
  let calls : List Call :=
    [.greet 0, .send 0 [7], .receive [0, 1, 0, 0, 0, 9, 0, 1, 0, 0, 0, 0, 0, 0, 6, 0, 2, 42],
      .ping 5 { header := { type := .ping, packet := 0, session := 9, senderId := 1
                            receiverId := 1 }
                sentTime := 4, ackedTime := 0, timeCorrection := 0, internalDropRate := 0
                externalDropRate := 0, swappedSession := 768 },
      .disconnect .ok, .send 0 [8]]
  have hshort : endpoint.config.ackMode = .short := rfl
  obtain ⟨done, rest, c, courses, hcalls, hrun, -, hrest, -, hreported, -, -⟩ :=
    trace_consistent hshort calls
  have hroom : ¬ maxBufferLength < endpoint.config.maxDatagramLength := by decide
  obtain rfl := hrest.resolve_right fun h => hroom h.1
  rw [List.append_nil] at hcalls
  subst hcalls
  have heval : (runAll observe (start endpoint) calls).toOption.map (fun r =>
      (r.2.map List.length, r.2.flatten.flatMap Happening.packet,
        drawnIds endpoint.config r.2.flatten)) =
      some ([1, 1, 5, 1, 1, 1],
        [some 0, some 1, some 2, some 3, some 4, some 5, some 6, some 7], [1, 2]) := by
    decide +kernel
  rw [hrun] at heval
  obtain ⟨hlengths, heval⟩ := Prod.mk.inj (Option.some.inj heval)
  obtain ⟨hpackets, hdrawn⟩ := Prod.mk.inj heval
  exact ⟨endpoint, hshort, c, courses, hrun, hlengths, hpackets, hdrawn, hreported⟩

end Connection

end DatagramTransport
