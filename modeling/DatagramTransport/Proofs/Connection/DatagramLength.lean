import DatagramTransport.Proofs.Connection.Course
import DatagramTransport.Proofs.Packets

/-!
# How long datagrams are

The length of a message is checked before its frame is made, and fragments,
repetitions and packets without a frame are not checked at all. The limit
holds for them nevertheless: it leaves room for a whole fragment, and what is
kept for repetition fitted when it was sent.
-/

set_option autoImplicit false

namespace DatagramTransport

theorem Layout.length_frame_succ {h : Layout} {c : Channel} (hf : h.framing = c.framing)
    (payload : Bytes) : (h.frame payload).length + 1 = c.headerLength + payload.length := by
  have hprefix : framePrefixLength + h.header.length = c.headerLength := prefix_add_header hf
  have hthree : framePrefixLength = 3 := rfl
  rw [length_frame]
  omega

namespace Channel

section
variable {c : Channel} {message : Bytes} {next : UInt16} {p : Prepared}

theorem length_whole (hwhole : c.isFragmenting = false) (hp : c.prepare message next = .ok p)
    {f : Frame} (hf : f ∈ p.frames) : f.bytes.length + 1 = c.headerLength + message.length := by
  obtain ⟨-, hparts, -⟩ := prepare_spec hp
  obtain ⟨h, payload, hframing, -, -, hbytes, hpayload⟩ := hparts f hf
  have hnot : c.framing ≠ .reliableFragmented := by
    cases c <;> simp [isFragmenting, framing] at hwhole ⊢
  rw [hbytes, hpayload hnot]
  exact Layout.length_frame_succ hframing message

theorem length_fragment (hcut : c.isFragmenting = true) (hp : c.prepare message next = .ok p)
    {f : Frame} (hf : f ∈ p.frames) : f.bytes.length + 1 ≤ c.headerLength + fragmentLength := by
  cases c <;> simp only [isFragmenting, Bool.false_eq_true] at hcut
  case reliableFragmented inbound group =>
  obtain ⟨-, -, -, hframes, -⟩ := prepare_reliableFragmented hp
  rw [hframes, List.mem_mapIdx] at hf
  obtain ⟨i, hi, rfl⟩ := hf
  have hpart := length_of_mem_fragments (List.getElem_mem hi)
  exact Nat.le_trans (Nat.le_of_eq (Layout.length_frame_succ rfl _))
    (Nat.add_le_add_left hpart _)

end

end Channel

namespace Connection

theorem length_of_mem_datagrams {c : Connection} {bodies : List (Option Transfer)}
    {datagram : Bytes} (h : datagram ∈ c.datagrams bodies) :
    ∃ body ∈ bodies, datagram.length = DataHeader.encodedLength + (bodyBytes body).length := by
  obtain ⟨n, body, hbody, rfl⟩ := mem_datagrams h
  exact ⟨body, hbody, by rw [List.length_append, DataHeader.length_bytes]⟩

structure Within (limit : Nat) (c : Connection) : Prop where
  configured : c.endpoint.config.maxDatagramLength = limit
  room : minDatagramLength ≤ limit
  kept : ∀ (id : UInt16) (t : Transfer), c.pending[id]? = some t →
    DataHeader.encodedLength + (bodyBytes (some t)).length ≤ limit

section
variable {limit : Nat} {c : Connection}

theorem within_start {endpoint : Endpoint} (h : endpoint.config.validate = .ok ()) :
    (start endpoint).Within endpoint.config.maxDatagramLength where
  configured := rfl
  room := (Config.validate_eq_ok.mp h).2.2.1
  kept := by simp [start]

theorem Within.frame_fits (h : c.Within limit) {channel : UInt8} {message : Bytes} {p : Prepared}
    (hcheck : c.checkSend (c.channelAt channel) message = .ok ())
    (hp : (c.channelAt channel).prepare message c.nextMessage = .ok p) {f : Frame}
    (hf : f ∈ p.frames) :
    DataHeader.encodedLength + (bodyBytes (some { channel, frame := f.bytes })).length ≤
      limit := by
  obtain ⟨-, -, hfits⟩ := checkSend_eq_ok.mp hcheck
  rw [h.configured] at hfits
  have hbody : (bodyBytes (some { channel, frame := f.bytes })).length = f.bytes.length + 1 := rfl
  rw [hbody]
  by_cases hcut : (c.channelAt channel).isFragmenting = true
  · have hlength := Channel.length_fragment hcut hp hf
    have hheader : (c.channelAt channel).headerLength = 8 := by
      revert hcut
      cases c.channelAt channel <;> simp [Channel.isFragmenting, Channel.headerLength]
    have hroom : DataHeader.encodedLength + 8 + fragmentLength ≤ limit := h.room
    omega
  · have hlength := Channel.length_whole (by simpa using hcut) hp hf
    have := hfits.resolve_left hcut
    omega

theorem Within.sent (h : c.Within limit) {channel : UInt8} {message : Bytes} {p : Prepared}
    (hcheck : c.checkSend (c.channelAt channel) message = .ok ())
    (hp : (c.channelAt channel).prepare message c.nextMessage = .ok p) :
    (c.sent channel p).connection.Within limit ∧
      ∀ datagram ∈ (c.sent channel p).emitted, datagram.length ≤ limit := by
  constructor
  · refine ⟨h.configured, h.room, fun id t ht => ?_⟩
    rcases eq_of_getElem?_keepFrames ht with ⟨f, hf, -, rfl⟩ | hold
    · exact h.frame_fits hcheck hp hf
    · exact h.kept id t hold
  · intro datagram hdatagram
    obtain ⟨body, hbody, hlength⟩ := length_of_mem_datagrams hdatagram
    obtain ⟨f, hf, rfl⟩ := List.mem_map.mp hbody
    rw [hlength]
    exact h.frame_fits hcheck hp hf

theorem Within.empty_fits (h : c.Within limit) :
    DataHeader.encodedLength + (bodyBytes none).length ≤ limit :=
  Nat.le_trans (by decide) h.room

theorem Within.received (h : c.Within limit) (header : DataHeader) (intake : Intake) :
    (c.received header intake).connection.Within limit ∧
      ∀ datagram ∈ (c.received header intake).emitted, datagram.length ≤ limit := by
  have hkept : ∀ (id : UInt16) (t : Transfer), (c.confirm
      (AckWindow.reading header.ackLatest header.ackMask).received).pending[id]? = some t →
      DataHeader.encodedLength + (bodyBytes (some t)).length ≤ limit := by
    intro id t ht
    rw [getElem?_confirm] at ht
    split at ht
    · cases ht
    · exact h.kept id t ht
  constructor
  · exact ⟨h.configured, h.room, hkept⟩
  · intro datagram hdatagram
    rcases List.mem_append.mp hdatagram with hagain | hecho
    · obtain ⟨body, hbody, hlength⟩ := length_of_mem_datagrams hagain
      obtain ⟨t, ht, rfl⟩ := List.mem_map.mp hbody
      obtain ⟨id, -, hid⟩ := List.mem_filterMap.mp ht
      rw [hlength]
      exact hkept id t hid
    · obtain ⟨body, hbody, hlength⟩ := length_of_mem_datagrams hecho
      rw [hlength, (List.mem_replicate.mp hbody).2]
      exact h.empty_fits

theorem Within.sendPing (h : c.Within limit) (now ackedTime : UInt32) :
    (c.sendPing now ackedTime).connection.Within limit ∧
      ∀ datagram ∈ (c.sendPing now ackedTime).emitted, datagram.length ≤ limit := by
  refine ⟨⟨h.configured, h.room, h.kept⟩, fun datagram hdatagram => ?_⟩
  rw [List.mem_singleton.mp hdatagram, Ping.length_encode]
  exact Nat.le_trans (by decide) h.room

theorem Within.leads (h : c.Within limit) {next : Connection} {course : List Happening}
    (hleads : c.Leads next course) :
    next.Within limit ∧ ∀ datagram ∈ (Called.ofCourse course).emitted,
      datagram.length ≤ limit := by
  cases hleads with
  | idle => exact ⟨h, by simp [Called.ofCourse]⟩
  | sent channel message p fits prepared =>
    rw [Called.ofCourse, Happening.datagrams_data]
    exact h.sent fits prepared
  | received header body intake accepted took came =>
    have hemitted := h.received header intake
    simpa only [received_eq, Called.ofCourse, List.filterMap_append, Happening.datagrams_data,
      Happening.datagrams_noted, List.append_nil] using hemitted
  | pinged phase now ackedTime alive =>
    rw [Called.ofCourse, Happening.datagrams_ping]
    have hphase : Within limit { c with phase } := ⟨h.configured, h.room, h.kept⟩
    exact hphase.sendPing now ackedTime
  | parted reason =>
    refine ⟨h, fun datagram hdatagram => ?_⟩
    rw [List.mem_singleton.mp hdatagram, disconnectPacket, Disconnect.length_encode]
    exact Nat.le_trans (by decide) h.room
  | ended => exact ⟨⟨h.configured, h.room, by simp⟩, by simp [Called.ofCourse]⟩

theorem Roomy.send_whole (h : c.Roomy) {channel : UInt8} {message : Bytes}
    (hwhole : (c.channelAt channel).isFragmenting = false)
    (hanswer : (c.send channel message).answer = .ok ()) :
    ∃ datagram, (c.send channel message).emitted = [datagram] ∧ datagram.length =
      DataHeader.encodedLength + (c.channelAt channel).headerLength + message.length := by
  rcases send_cases h.toShort (h.send_faultless channel message) with
    ⟨e, hrefused⟩ | ⟨p, -, hp, hsent⟩
  · rw [hrefused] at hanswer
    cases hanswer
  · obtain ⟨f, hframes⟩ := Channel.prepare_singleton hwhole hp
    have hlength := Channel.length_whole hwhole hp (f := f) (by rw [hframes]; simp)
    refine ⟨c.header.bytes ++ bodyBytes (some { channel, frame := f.bytes }), ?_, ?_⟩
    · rw [hsent, Connection.sent, hframes]
      rfl
    · rw [List.length_append, DataHeader.length_bytes, bodyBytes, List.length_cons, hlength,
        Nat.add_assoc]

end

/-- With a configuration that passes its check, no call emits a datagram beyond the
limit, and a message that is not cut goes out in one of exactly the expected length. -/
theorem emitted_within_limit {endpoint : Endpoint} (hvalid : endpoint.config.validate = .ok ())
    (calls : List Call) :
    ∃ c log, (start endpoint).callAll calls = .ok (c, log) ∧
      (∀ called ∈ log, ∀ datagram ∈ called.emitted,
        datagram.length ≤ endpoint.config.maxDatagramLength) ∧
      ∀ channel message, (c.channelAt channel).isFragmenting = false →
        (c.send channel message).answer = .ok () →
        ∃ datagram, (c.send channel message).emitted = [datagram] ∧ datagram.length =
          DataHeader.encodedLength + (c.channelAt channel).headerLength + message.length := by
  have hall : ∃ c log, (start endpoint).callAll calls = .ok (c, log) ∧
      c.Sturdy (notedIn log) ∧ c.Within endpoint.config.maxDatagramLength ∧
      ∀ called ∈ log, ∀ datagram ∈ called.emitted,
        datagram.length ≤ endpoint.config.maxDatagramLength := by
    refine runAll_induction (P := fun (c : Connection) log => c.Sturdy (notedIn log) ∧
      c.Within endpoint.config.maxDatagramLength ∧ ∀ called ∈ log, ∀ datagram ∈ called.emitted,
        datagram.length ≤ endpoint.config.maxDatagramLength) ?_
      ⟨(roomy_start hvalid).sturdy_start, within_start hvalid, by simp⟩
    rintro c log ⟨hsturdy, hwithin, hlog⟩ call -
    obtain ⟨next, called, hcall, hnext⟩ := hsturdy.call call
    obtain ⟨hleads, rfl⟩ := call_leads hsturdy.toShort hcall
    obtain ⟨hafter, hemitted⟩ := hwithin.leads hleads
    refine ⟨next, _, hcall, ?_, hafter, fun entry hentry => ?_⟩
    · rwa [notedIn, List.flatMap_append, List.flatMap_singleton]
    · rcases List.mem_append.mp hentry with hold | hlast
      · exact hlog entry hold
      · rw [List.mem_singleton.mp hlast]
        exact hemitted
  obtain ⟨c, log, hrun, hsturdy, -, hlog⟩ := hall
  exact ⟨c, log, hrun, hlog, fun channel message => hsturdy.toRoomy.send_whole⟩

theorem emitted_within_limit_standard :
    ∃ endpoint : Endpoint,
      endpoint.config = { Config.standard with
        channels := [.reliable, .reliableFragmented], maxDatagramLength := 532 } ∧
      endpoint.config.validate = .ok () ∧
      ∃ c log, (start endpoint).callAll
          [.send 0 [7], .send 1 (List.replicate 600 1), .send 0 (List.replicate 600 1),
            .receive [0, 1, 0, 0, 0, 9, 0, 3, 0, 0, 0, 0]] = .ok (c, log) ∧
        (∀ called ∈ log, ∀ datagram ∈ called.emitted, datagram.length ≤ 532) ∧
        log.map (fun called => called.emitted.map List.length) =
          [[18], [532, 108], [], [108, 532, 18]] := by
  let endpoint : Endpoint :=
    { config := { Config.standard with
        channels := [.reliable, .reliableFragmented], maxDatagramLength := 532 }
      id := 1, address := "10.0.0.2:7000", remoteId := 5, session := 3, peerSession := 9 }
  have hvalid : endpoint.config.validate = .ok () := rfl
  obtain ⟨c, log, hrun, hlog, -⟩ := emitted_within_limit hvalid
    [.send 0 [7], .send 1 (List.replicate 600 1), .send 0 (List.replicate 600 1),
      .receive [0, 1, 0, 0, 0, 9, 0, 3, 0, 0, 0, 0]]
  have hlengths : ((start endpoint).callAll
      [.send 0 [7], .send 1 (List.replicate 600 1), .send 0 (List.replicate 600 1),
        .receive [0, 1, 0, 0, 0, 9, 0, 3, 0, 0, 0, 0]]).toOption.map (fun r =>
          r.2.map fun called => called.emitted.map List.length) =
      some [[18], [532, 108], [], [108, 532, 18]] := by decide +kernel
  rw [hrun] at hlengths
  exact ⟨endpoint, rfl, hvalid, c, log, hrun, hlog, Option.some.inj hlengths⟩

end Connection

end DatagramTransport
