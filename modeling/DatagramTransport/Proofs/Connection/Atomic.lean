import DatagramTransport.Proofs.Connection.Course
import DatagramTransport.Proofs.InPlace

/-!
# All of a message or nothing

Sending checks a message in several places, and changes channel, counters and
pending frames in between. A message that is refused has changed none of them,
also where they are changed in place; one that is not refused goes out as a
whole, and exactly its frames are pending in addition.
-/

set_option autoImplicit false

namespace DatagramTransport

/-- A connection and what it has emitted, which sending changes in place. -/
structure Outlet where
  connection : Connection
  emitted : List Bytes

namespace Outlet

def put (channel : UInt8) (framing : Channel) : InPlace Outlet Unit :=
  modify fun s => { s with
    connection.channels := s.connection.channels.set channel.toNat framing }

def draw : InPlace Outlet UInt16 :=
  modifyGet fun s => (s.connection.nextMessage,
    { s with connection.nextMessage := s.connection.nextMessage + 1 })

def number : InPlace Outlet UInt16 :=
  modifyGet fun s => (s.connection.nextPacket,
    { s with connection.nextPacket := s.connection.nextPacket + 1 })

def fit (framing : Channel) (message : Bytes) : InPlace Outlet Unit :=
  if 65535 < framing.headerLength + message.length then throw (.frameTooLong message.length)
  else return

def whole (messageId : Option UInt16) (header message : Bytes) : InPlace Outlet (List Frame) := do
  return [{ messageId, bytes := ← ofExcept (orFault (encodeFrame header message)) }]

def cut (group : UInt8) (count : Nat) : Nat → List Bytes → InPlace Outlet (List Frame)
  | _, [] => return []
  | index, part :: parts => do
    let id ← draw
    let header := writeUInt16 id ++ [group, ← ofExcept (orFault (narrowUInt8 index)),
      ← ofExcept (orFault (narrowUInt8 count))]
    let bytes ← ofExcept (orFault (encodeFrame header part))
    let frames ← cut group count (index + 1) parts
    return { messageId := some id, bytes } :: frames

def prepare (channel : UInt8) (message : Bytes) (framing : Channel) : InPlace Outlet (List Frame) :=
  match framing with
  | .unreliable => do
    fit framing message
    whole none [] message
  | .unreliableSequenced lastIn nextOut => do
    fit framing message
    put channel (.unreliableSequenced lastIn (nextOut + 1))
    whole none [nextOut] message
  | .reliable => do
    fit framing message
    let id ← draw
    whole (some id) (writeUInt16 id) message
  | .reliableSequenced inbound nextOut => do
    fit framing message
    let id ← draw
    put channel (.reliableSequenced inbound (nextOut + 1))
    whole (some id) (writeUInt16 id ++ [nextOut]) message
  | .reliableFragmented inbound nextGroup => do
    let count := fragmentCount message.length
    if maxFragments < count then throw (.tooManyFragments message.length count)
    put channel (.reliableFragmented inbound (nextGroup + 1))
    cut nextGroup count 0 (fragments count message)

def emit (t : Transfer) : InPlace Outlet Unit := do
  let (ackLatest, ackMask) ← ofExcept (← get).connection.window.report
  let packet ← number
  let endpoint := (← get).connection.endpoint
  if maxBufferLength < endpoint.config.maxDatagramLength then
    throw (.fault .capacityOverflow)
  let header : DataHeader :=
    { connection := endpoint.id, packet, session := endpoint.session, ackLatest, ackMask }
  let encoded ← ofExcept (header.encode endpoint.config.ackMode)
  modify fun s => { s with emitted := s.emitted ++ [encoded ++ t.channel :: t.frame] }

def transmit (channel : UInt8) : List Frame → InPlace Outlet Unit
  | [] => return
  | f :: fs => do
    modify fun s => { s with connection := s.connection.retain channel f }
    emit { channel, frame := f.bytes }
    transmit channel fs

def send (channel : UInt8) (message : Bytes) : InPlace Outlet Unit := do
  let c := (← get).connection
  ofExcept (c.checkSend (c.channelAt channel) message)
  let frames ← prepare channel message (c.channelAt channel)
  transmit channel frames

section
variable (s : Outlet) (channel : UInt8)

def counted (framing : Channel) (nextMessage : UInt16) : Outlet :=
  { s with
    connection.channels := s.connection.channels.set channel.toNat framing
    connection.nextMessage := nextMessage }

theorem set_channelAt (c : Connection) :
    c.channels.set channel.toNat (c.channelAt channel) = c.channels := by
  apply List.ext_getElem?
  intro i
  rw [List.getElem?_set]
  split
  · rename_i h
    subst h
    unfold Connection.channelAt
    split
    · rename_i hlt
      rw [List.getElem?_eq_getElem hlt]
      rfl
    · rename_i hge
      rw [List.getElem?_eq_none (Nat.le_of_not_lt hge)]
  · rfl

theorem counted_channelAt (nextMessage : UInt16) :
    s.counted channel (s.connection.channelAt channel) nextMessage =
      { s with connection.nextMessage := nextMessage } := by
  unfold counted
  rw [set_channelAt]

theorem fit_whole {framing : Channel} {header message : Bytes} (messageId : Option UInt16)
    {next : Unit → InPlace Outlet (List Frame)} {rest : List Frame → Prepared}
    {finish : Prepared → List Frame × Outlet} (after : Outlet)
    (hheader : framing.headerLength = framePrefixLength + header.length)
    (hnext : next () s = whole messageId header message after)
    (hfinish : ∀ frames, finish (rest frames) = (frames, after)) :
    (fit framing message >>= next) s = InPlace.settle s finish
      (Channel.wholeFrame messageId header message >>= fun frames => pure (rest frames)) := by
  unfold fit Channel.wholeFrame
  rw [hheader]
  by_cases hlong : 65535 < framePrefixLength + header.length + message.length
  · rw [if_pos hlong, if_pos hlong]
    rfl
  · have hencode : encodeFrame header message = .ok _ := encodeFrame_eq_ok.mpr ⟨by omega, rfl⟩
    rw [if_neg hlong, if_neg hlong, hencode]
    refine hnext.trans ?_
    unfold whole
    rw [hencode]
    exact (congrArg (fun r : List Frame × Outlet => EStateM.Result.ok r.1 r.2) (hfinish _)).symm

theorem cut_eq {group : UInt8} {count index : Nat} {parts : List Bytes} {frames : List Frame}
    (h : Channel.fragmentFrames group count index s.connection.nextMessage parts = .ok frames) :
    cut group count index parts s = .ok frames
      { s with connection.nextMessage := s.connection.nextMessage + .ofNat parts.length } := by
  induction parts generalizing index s frames with
  | nil =>
    cases h
    exact congrArg (fun next => EStateM.Result.ok [] { s with connection.nextMessage := next })
      (UInt16.add_zero _).symm
  | cons part parts ih =>
    obtain ⟨i, hi, h⟩ := bind_eq_ok.mp h
    obtain ⟨n, hn, h⟩ := bind_eq_ok.mp h
    obtain ⟨bytes, hbytes, h⟩ := bind_eq_ok.mp h
    obtain ⟨rest, hrest, h⟩ := bind_eq_ok.mp h
    cases h
    have hlater := ih { s with connection.nextMessage := s.connection.nextMessage + 1 } hrest
    have hsum : s.connection.nextMessage + 1 + .ofNat parts.length =
        s.connection.nextMessage + .ofNat (part :: parts).length := by
      rw [List.length_cons, UInt16.ofNat_add, UInt16.add_assoc, UInt16.add_comm 1]
      rfl
    rw [cut, draw, InPlace.modifyGet_bind, InPlace.ofExcept_bind (orFault_eq_ok.mpr hi),
      InPlace.ofExcept_bind (orFault_eq_ok.mpr hn),
      InPlace.ofExcept_bind (orFault_eq_ok.mpr hbytes), InPlace.bind_done hlater, ← hsum]
    rfl

theorem prepare_eq (message : Bytes) :
    prepare channel message (s.connection.channelAt channel) s = InPlace.settle s
      (fun p => (p.frames, s.counted channel p.channel p.nextMessage))
      ((s.connection.channelAt channel).prepare message s.connection.nextMessage) := by
  have hsame := s.counted_channelAt channel
  cases hc : s.connection.channelAt channel with
  | unreliable =>
    rw [hc] at hsame
    exact s.fit_whole none _ rfl rfl fun frames => congrArg _ (hsame _)
  | unreliableSequenced lastIn nextOut =>
    exact s.fit_whole none (s.counted channel (.unreliableSequenced lastIn (nextOut + 1)) _) rfl rfl
      fun frames => rfl
  | reliable =>
    rw [hc] at hsame
    exact s.fit_whole (some s.connection.nextMessage) _ rfl rfl fun frames => congrArg _ (hsame _)
  | reliableSequenced inbound nextOut =>
    exact s.fit_whole (some s.connection.nextMessage)
      (s.counted channel (.reliableSequenced inbound (nextOut + 1)) _) rfl rfl fun frames => rfl
  | reliableFragmented inbound nextGroup =>
    unfold prepare Channel.prepare
    by_cases hcount : maxFragments < fragmentCount message.length
    · dsimp only
      rw [if_pos hcount, if_pos hcount]
      rfl
    · obtain ⟨frames, hframes⟩ := Channel.messageFrames_ok nextGroup s.connection.nextMessage
        (Nat.le_of_not_lt hcount)
      dsimp only
      rw [if_neg hcount, if_neg hcount, hframes]
      have hcut := cut_eq (s.counted channel (.reliableFragmented inbound (nextGroup + 1))
        s.connection.nextMessage) hframes
      rw [length_fragments] at hcut
      exact hcut

theorem emit_eq (h : s.connection.Roomy) (t : Transfer) :
    emit t s = .ok () {
      connection := s.connection.advance 1
      emitted := s.emitted ++ [s.connection.header.bytes ++ bodyBytes (some t)] } := by
  have hreport : s.connection.window.report =
      .ok (s.connection.window.latest, .ofBitVec s.connection.window.mask) := by
    rw [AckWindow.report, h.window]
  have hroom : ¬ maxBufferLength < s.connection.endpoint.config.maxDatagramLength :=
    Nat.not_lt.mpr h.room
  have hencode : s.connection.header.encode s.connection.endpoint.config.ackMode =
      .ok s.connection.header.bytes := by
    rw [h.config]
    rfl
  unfold emit
  rw [InPlace.get_bind, InPlace.ofExcept_bind hreport]
  dsimp only [number]
  rw [InPlace.modifyGet_bind, InPlace.get_bind]
  refine (congrFun (if_neg hroom) _).trans ?_
  exact (InPlace.ofExcept_bind hencode _).trans rfl

theorem transmit_eq (h : s.connection.Roomy) (frames : List Frame) :
    transmit channel frames s = .ok () {
      connection := (Connection.transmit channel s.connection frames).connection
      emitted := s.emitted ++ (Connection.transmit channel s.connection frames).emitted } := by
  induction frames generalizing s with
  | nil =>
    rw [Connection.transmit, List.append_nil]
    rfl
  | cons f fs ih =>
    have hkept : (s.connection.retain channel f).Roomy := by
      rw [Connection.retain_eq]
      exact ⟨⟨h.window, h.config⟩, h.room⟩
    have hfirst := emit_eq { s with connection := s.connection.retain channel f } hkept
      { channel, frame := f.bytes }
    have hrest := ih ⟨(s.connection.retain channel f).advance 1, s.emitted ++
      [(s.connection.retain channel f).header.bytes ++
        bodyBytes (some { channel, frame := f.bytes })]⟩ (hkept.advance 1)
    rw [transmit, Connection.transmit, hkept.packet, InPlace.modify_bind,
      InPlace.bind_done hfirst, hrest, List.append_assoc]
    rfl

/-- Sending in place comes to the same as sending at once. -/
theorem send_eq (h : s.connection.Roomy) (message : Bytes) :
    send channel message s = InPlace.settle s
      (fun _ => ((), { connection := (s.connection.send channel message).connection
                       emitted := s.emitted ++ (s.connection.send channel message).emitted }))
      (s.connection.send channel message).answer := by
  have hprepare := s.prepare_eq channel message
  unfold send
  rw [InPlace.get_bind]
  cases hcheck : s.connection.checkSend (s.connection.channelAt channel) message with
  | error e =>
    have hrefused : s.connection.send channel message =
        { connection := s.connection, emitted := [], answer := .error e } := by
      simp only [Connection.send, hcheck]
    rw [hrefused]
    rfl
  | ok checked =>
    rw [InPlace.ofExcept_bind rfl]
    cases hp : (s.connection.channelAt channel).prepare message s.connection.nextMessage with
    | error e =>
      have hrefused : s.connection.send channel message =
          { connection := s.connection, emitted := [], answer := .error e } := by
        simp only [Connection.send, hcheck, hp]
      rw [hp] at hprepare
      rw [hrefused]
      exact InPlace.bind_refused hprepare _
    | ok p =>
      have hcounted : (s.counted channel p.channel p.nextMessage).connection.Roomy :=
        ⟨⟨h.window, h.config⟩, h.room⟩
      have hsent : s.connection.send channel message = Connection.transmit channel
          (s.counted channel p.channel p.nextMessage).connection p.frames := by
        simp only [Connection.send, hcheck, hp]
        rfl
      rw [hp] at hprepare
      rw [hsent, hcounted.transmit_answer, InPlace.bind_done hprepare]
      exact transmit_eq _ channel hcounted p.frames

end

end Outlet

namespace Connection

/-- A message went out as a whole. Its frames, if they are reliable ones, are pending under the ids
from the counter on, and nothing else about what is pending changed. -/
structure Conveyed (c : Connection) (quality : Qos) (channel : UInt8) (message : Bytes)
    (step : Step (Except Error Unit)) : Prop where
  count : step.emitted.length =
    if quality = .reliableFragmented then max 1 ((message.length + 511) / 512) else 1
  frames : ∀ (i : Nat) (datagram : Bytes), step.emitted[i]? = some datagram →
    ∃ (h : Layout) (payload : Bytes), h.framing = quality.framing ∧ h.Valid payload ∧
      h.messageId = (if quality.isReliable then some (c.nextMessage + .ofNat i) else none) ∧
      datagram = (c.advance i).header.bytes ++ channel :: h.frame payload
  payloads : (step.emitted.map fun datagram =>
    datagram.drop (DataHeader.encodedLength + (c.channelAt channel).headerLength)).flatten = message
  counter : step.connection.nextMessage =
    if quality.isReliable then c.nextMessage + .ofNat step.emitted.length else c.nextMessage
  kept : quality.isReliable = true → ∀ (i : Nat) (datagram : Bytes),
    step.emitted[i]? = some datagram → ∃ t, Transfer.ofDatagram? datagram = some t ∧
      t.channel = channel ∧ step.connection.pending[c.nextMessage + .ofNat i]? = some t
  others : ∀ id : UInt16, (quality.isReliable = true → ∀ i < step.emitted.length,
    id ≠ c.nextMessage + .ofNat i) → step.connection.pending[id]? = c.pending[id]?
  gained : (∀ i < step.emitted.length, c.pending[c.nextMessage + .ofNat i]? = none) →
    step.connection.pending.size =
      c.pending.size + if quality.isReliable then step.emitted.length else 0
  rest : step.connection = { c with
    channels := step.connection.channels
    nextMessage := step.connection.nextMessage
    pending := step.connection.pending
    nextPacket := c.nextPacket + .ofNat step.emitted.length }
  channels : ∀ other ≠ channel, step.connection.channelAt other = c.channelAt other

section
variable {c : Connection} {quality : Qos} {channel : UInt8} {message : Bytes} {p : Prepared}

theorem length_emitted_sent : (c.sent channel p).emitted.length = p.frames.length := by
  rw [sent, length_datagrams, List.length_map]

theorem getElem?_emitted_sent (i : Nat) : (c.sent channel p).emitted[i]? =
    p.frames[i]?.map fun f => (c.advance i).header.bytes ++ channel :: f.bytes := by
  rw [sent, datagrams_eq_mapIdx, List.getElem?_mapIdx, List.getElem?_map, Option.map_map]
  rfl

theorem payloads_emitted_sent : ((c.sent channel p).emitted.map fun datagram =>
      datagram.drop (DataHeader.encodedLength + (c.channelAt channel).headerLength)) =
    p.frames.map fun f => f.bytes.drop ((c.channelAt channel).headerLength - 1) := by
  apply List.ext_getElem?
  intro i
  rw [List.getElem?_map, getElem?_emitted_sent, Option.map_map, List.getElem?_map]
  congr 1
  funext f
  have hprefix := (c.channelAt channel).framePrefixLength_le_headerLength
  have hthree : framePrefixLength = 3 := rfl
  obtain ⟨n, hn⟩ : ∃ n, (c.channelAt channel).headerLength = n + 1 :=
    ⟨(c.channelAt channel).headerLength - 1, by omega⟩
  rw [Function.comp_apply, ← List.drop_drop, DataHeader.drop_bytes, hn, List.drop_succ_cons,
    Nat.add_sub_cancel]

section
variable (hq : quality.framing = (c.channelAt channel).framing)
  (hp : (c.channelAt channel).prepare message c.nextMessage = .ok p)
include hq hp

theorem draws_sent : Channel.Draws quality.framing c.nextMessage p := by
  rw [hq]
  exact (Channel.prepare_spec hp).2.2

theorem messageId_sent {i : Nat} {f : Frame} (hf : p.frames[i]? = some f) :
    f.messageId = if quality.isReliable then some (c.nextMessage + .ofNat i) else none := by
  rw [(draws_sent hq hp).messageId hf, Qos.isReliable_framing]

theorem pending_sent_of_frame (hreliable : quality.isReliable = true) {i : Nat} {f : Frame}
    (hf : p.frames[i]? = some f) :
    (c.sent channel p).connection.pending[c.nextMessage + .ofNat i]? =
      some { channel, frame := f.bytes } := by
  have hid := messageId_sent hq hp hf
  rw [if_pos hreliable] at hid
  exact getElem?_keepFrames_of_mem (List.mem_of_getElem? hf) hid
    ((draws_sent hq hp).nodup (Channel.length_frames_le hp))

theorem pending_sent_of_other {id : UInt16} (hother : quality.isReliable = true →
    ∀ i < p.frames.length, id ≠ c.nextMessage + .ofNat i) :
    (c.sent channel p).connection.pending[id]? = c.pending[id]? := by
  apply getElem?_keepFrames_of_not_mem
  intro f hf hid
  obtain ⟨i, hi⟩ := List.getElem?_of_mem hf
  obtain ⟨hlt, -⟩ := List.getElem?_eq_some_iff.mp hi
  rw [messageId_sent hq hp hi] at hid
  split at hid
  · rename_i hreliable
    exact hother hreliable i hlt (Option.some.inj hid).symm
  · cases hid

theorem size_pending_sent
    (hnew : ∀ i < p.frames.length, c.pending[c.nextMessage + .ofNat i]? = none) :
    (c.sent channel p).connection.pending.size =
      c.pending.size + if quality.isReliable then p.frames.length else 0 := by
  have hdraws := draws_sent hq hp
  have hfresh : ∀ f ∈ p.frames, ∀ id, f.messageId = some id → c.pending[id]? = none := by
    intro f hf id hid
    obtain ⟨i, hi⟩ := List.getElem?_of_mem hf
    obtain ⟨hlt, -⟩ := List.getElem?_eq_some_iff.mp hi
    rw [messageId_sent hq hp hi] at hid
    split at hid
    · rw [← Option.some.inj hid]
      exact hnew i hlt
    · cases hid
  refine (size_keepFrames (hdraws.nodup (Channel.length_frames_le hp)) hfresh).trans ?_
  rw [hdraws.messageIds, Qos.isReliable_framing]
  split
  · rw [List.length_map, List.length_range]
  · rfl

theorem conveyed_sent : c.Conveyed quality channel message (c.sent channel p) where
  count := by
    rw [length_emitted_sent, Channel.length_frames hp, ← hq]
    simp only [Qos.framing_eq_reliableFragmented]
    rfl
  frames := by
    intro i datagram hdatagram
    rw [getElem?_emitted_sent] at hdatagram
    obtain ⟨f, hf, rfl⟩ := Option.map_eq_some_iff.mp hdatagram
    obtain ⟨h, payload, hframing, hvalid, hid, hbytes, -⟩ :=
      (Channel.prepare_spec hp).2.1 f (List.mem_of_getElem? hf)
    refine ⟨h, payload, hframing.trans hq.symm, hvalid, ?_, by rw [hbytes]⟩
    rw [← hid, messageId_sent hq hp hf]
  payloads := by
    rw [payloads_emitted_sent]
    exact Channel.flatten_payloads hp
  counter := by
    rw [length_emitted_sent]
    have hnext := (draws_sent hq hp).nextMessage
    rwa [Qos.isReliable_framing] at hnext
  kept := by
    intro hreliable i datagram hdatagram
    rw [getElem?_emitted_sent] at hdatagram
    obtain ⟨f, hf, rfl⟩ := Option.map_eq_some_iff.mp hdatagram
    have hread := Transfer.ofDatagram?_bytes (c.advance i).header
      (some { channel, frame := f.bytes })
    exact ⟨_, hread, rfl, pending_sent_of_frame hq hp hreliable hf⟩
  others := by
    intro id hother
    rw [length_emitted_sent] at hother
    exact pending_sent_of_other hq hp hother
  gained := by
    intro hnew
    rw [length_emitted_sent] at hnew ⊢
    exact size_pending_sent hq hp hnew
  rest := by
    rw [length_emitted_sent]
    rfl
  channels := by
    intro other hother
    have hplace : channel.toNat ≠ other.toNat := fun h => hother (UInt8.toNat_inj.mp h.symm)
    rw [sent, channelAt, channelAt, List.getElem?_set_ne hplace]

end

end

/-- A connection refuses a message and is as it was before, or sends all of it; also where all is
changed in place, in between the checks. -/
theorem send_all_or_nothing {endpoint : Endpoint} (hshort : endpoint.config.ackMode = .short)
    (hroom : endpoint.config.maxDatagramLength ≤ maxBufferLength) (calls : List Call) :
    ∃ c log, (start endpoint).callAll calls = .ok (c, log) ∧
      ∀ (channel : UInt8) (message : Bytes) (sofar : List Bytes),
        (∃ e, (∀ f, e ≠ .fault f) ∧
          c.send channel message = { connection := c, emitted := [], answer := .error e } ∧
          Outlet.send channel message ⟨c, sofar⟩ = .error e ⟨c, sofar⟩) ∨
        ∃ step, c.send channel message = step ∧ step.answer = .ok () ∧
          c.Conveyed (endpoint.config.channelQos channel) channel message step ∧
          Outlet.send channel message ⟨c, sofar⟩ =
            .ok () ⟨step.connection, sofar ++ step.emitted⟩ := by
  have hstart : (start endpoint).Roomy := ⟨⟨hshort, hshort⟩, hroom⟩
  obtain ⟨c, log, hrun, hsturdy⟩ := hstart.callAll calls
  obtain ⟨-, -, hfit⟩ := callAll_fits hstart.toShort hrun
  refine ⟨c, log, hrun, fun channel message sofar => ?_⟩
  have hfaultless := hsturdy.send_faultless channel message
  have hplace := Outlet.send_eq ⟨c, sofar⟩ channel hsturdy.toRoomy message
  rcases send_cases hsturdy.toShort hfaultless with ⟨e, hrefused⟩ | ⟨p, -, hp, hsent⟩
  · left
    rw [hrefused] at hfaultless hplace
    exact ⟨e, fun f hf => hfaultless f (congrArg Except.error hf), hrefused, hplace⟩
  · right
    rw [hsent] at hplace
    exact ⟨_, hsent, rfl, conveyed_sent (framing_channelAt hfit channel).symm hp, hplace⟩

theorem send_all_or_nothing_cramped :
    ∃ endpoint : Endpoint, endpoint.config = { Config.standard with
        channels := [.reliable, .reliableFragmented], maxDatagramLength := 64 } ∧
      ∃ c log, (start endpoint).callAll [.send 0 [7]] = .ok (c, log) ∧
        (∃ e, c.send 0 (List.replicate 100 1) =
          { connection := c, emitted := [], answer := .error e }) ∧
        ∃ step, c.send 1 (List.replicate 600 1) = step ∧
          c.Conveyed .reliableFragmented 1 (List.replicate 600 1) step ∧
          step.emitted.length = 2 ∧ c.nextMessage = 2 ∧ step.connection.nextMessage = 4 := by
  let endpoint : Endpoint :=
    { config := { Config.standard with
        channels := [.reliable, .reliableFragmented], maxDatagramLength := 64 }
      id := 1, address := "10.0.0.2:7000", remoteId := 5, session := 3, peerSession := 9 }
  have hshort : endpoint.config.ackMode = .short := rfl
  have hroom : endpoint.config.maxDatagramLength ≤ maxBufferLength := by decide
  obtain ⟨c, log, hrun, hall⟩ := send_all_or_nothing hshort hroom [.send 0 [7]]
  have heval : ((start endpoint).callAll [.send 0 [7]]).toOption.map (fun r =>
      ((r.1.send 0 (List.replicate 100 1)).answer.toOption,
        (r.1.send 1 (List.replicate 600 1)).answer.toOption, r.1.nextMessage)) =
      some (none, some (), 2) := by decide +kernel
  rw [hrun] at heval
  obtain ⟨hlong, heval⟩ := Prod.mk.inj (Option.some.inj heval)
  obtain ⟨hparts, hnext⟩ := Prod.mk.inj heval
  refine ⟨endpoint, rfl, c, log, hrun, ?_, ?_⟩
  · rcases hall 0 (List.replicate 100 1) [] with ⟨e, -, hrefused, -⟩ | ⟨step, hstep, hok, -, -⟩
    · exact ⟨e, hrefused⟩
    · rw [hstep, hok] at hlong
      cases hlong
  · rcases hall 1 (List.replicate 600 1) [] with
      ⟨e, -, hrefused, -⟩ | ⟨step, hstep, -, hconveyed, -⟩
    · rw [hrefused] at hparts
      cases hparts
    · have hcount : step.emitted.length = 2 := by
        rw [hconveyed.count, List.length_replicate]
        rfl
      have hcounter : step.connection.nextMessage = 4 := by
        rw [hconveyed.counter, hcount, hnext]
        rfl
      exact ⟨step, hstep, hconveyed, hcount, hnext, hcounter⟩

end Connection

end DatagramTransport
