import DatagramTransport.Proofs.Link.Sound

/-!
# The ids on their way

Of the datagrams that wait at an end, only the message ids of their frames
matter to the window of the other end. New messages bring the next ids,
repetitions those that a report asked for, and pure acknowledgements none.
-/

set_option autoImplicit false

namespace DatagramTransport

def Transfer.messageId (config : Config) (t : Transfer) : Option UInt16 :=
  if (config.channelQos t.channel).isReliable then
    (readUInt16 (t.frame.drop 2)).toOption.map Prod.fst
  else none

theorem Transfer.Carries.messageId {config : Config} {t : Transfer} {h : Layout}
    {payload : Bytes} (hc : t.Carries config h payload) : t.messageId config = h.messageId := by
  rw [Transfer.messageId, ← Qos.isReliable_framing, ← hc.framing, ← h.messageId_isSome, hc.frame]
  cases hid : h.messageId with
  | none => rfl
  | some id => simpa using Layout.readUInt16_frame hid payload

namespace Link

def carried (config : Config) (datagram : Bytes) : Option UInt16 :=
  (Transfer.ofDatagram? datagram).bind (Transfer.messageId config)

def waiting (config : Config) (queue : List Bytes) : List UInt16 :=
  queue.filterMap (carried config)

section
variable {config : Config}

theorem carried_bytes (h : DataHeader) (body : Option Transfer) :
    carried config (h.bytes ++ bodyBytes body) = body.bind (Transfer.messageId config) := by
  rw [carried, Transfer.ofDatagram?_bytes]

theorem waiting_append (queue later : List Bytes) :
    waiting config (queue ++ later) = waiting config queue ++ waiting config later :=
  List.filterMap_append

theorem waiting_datagrams (c : Connection) (bodies : List (Option Transfer)) :
    waiting config (c.datagrams bodies) =
      bodies.filterMap fun body => body.bind (Transfer.messageId config) := by
  calc waiting config (c.datagrams bodies)
    _ = ((c.datagrams bodies).map Transfer.ofDatagram?).filterMap
        fun body => body.bind (Transfer.messageId config) := by
      rw [List.filterMap_map]
      rfl
    _ = bodies.filterMap fun body => body.bind (Transfer.messageId config) := by
      rw [Connection.map_ofDatagram?_datagrams]

theorem waiting_echoes (c : Connection) (n : Nat) :
    waiting config (c.datagrams (List.replicate n none)) = [] := by
  rw [waiting_datagrams]
  simp

end

section
variable {own : Endpoint} {posted : List Posting} {e : LinkEnd} {c : Connection}

theorem Speaks.accepts (h : Speaks own posted e) (hid : c.endpoint.id = own.id)
    (hsession : c.endpoint.peerSession = own.session) (halive : c.phase ≠ .disconnected)
    {header : DataHeader} {body : Bytes} (hd : header.bytes ++ body ∈ e.queue.toList) :
    c.accepts header = true := by
  obtain ⟨other, rest, hd, hc, hs, -⟩ := h.queued _ hd
  have hread := congrArg (DataHeader.decode .short) hd
  rw [DataHeader.decode_bytes, DataHeader.decode_bytes] at hread
  cases hread
  simp [Connection.accepts, hc, hs, hid, hsession, halive]

theorem WellPosted.carried {config : Config} (h : WellPosted config posted) {k : Nat}
    {p : Posting} (hk : posted[k]? = some p) (header : DataHeader) :
    carried config (header.bytes ++ bodyBytes (some p.transfer)) = some (idAt k) := by
  obtain ⟨layout, payload, hcarries, hid, -⟩ := h k p hk
  rw [carried_bytes, Option.bind_some, hcarries.messageId, hid]

theorem Speaks.waiting_minted (h : Speaks own posted e) :
    ∀ id ∈ waiting own.config e.queue.toList, ∃ k < posted.length, id = idAt k := by
  intro id hid
  obtain ⟨d, hd, hc⟩ := List.mem_filterMap.mp hid
  obtain ⟨header, body, rfl, -, -, hknown⟩ := h.queued d hd
  rw [carried_bytes] at hc
  obtain ⟨t, rfl, ht⟩ := Option.bind_eq_some_iff.mp hc
  obtain ⟨layout, payload, hcarries, hplace⟩ := hknown t rfl
  rw [hcarries.messageId] at ht
  obtain ⟨k, p, hk, -, heq⟩ := hplace id ht
  obtain ⟨hlt, -⟩ := List.getElem?_eq_some_iff.mp hk
  exact ⟨k, hlt, heq⟩

/-- What an end sends again has those of the ids asked for that it keeps. -/
theorem Speaks.waiting_kept (h : Speaks own posted e) (received missing : List UInt16) :
    waiting own.config ((e.connection.confirm received).datagrams
        ((e.connection.confirm received).kept missing)) =
      missing.filter fun id => ((e.connection.confirm received).pending[id]?).isSome := by
  have hid : ∀ (id : UInt16) (t : Transfer),
      (e.connection.confirm received).pending[id]? = some t →
        t.messageId own.config = some id := by
    intro id t ht
    rw [Connection.getElem?_confirm] at ht
    split at ht
    · cases ht
    · obtain ⟨k, p, hk, rfl, rfl⟩ := h.kept id t ht
      obtain ⟨layout, payload, hcarries, hm, -⟩ := h.wellPosted k p hk
      rw [hcarries.messageId, hm]
  rw [waiting_datagrams, Connection.kept]
  induction missing with
  | nil => rfl
  | cons id missing ih =>
    cases ht : (e.connection.confirm received).pending[id]? with
    | none =>
      rw [List.filterMap_cons_none ht, List.filter_cons_of_neg (by simp [ht]), ih]
    | some t =>
      rw [List.filterMap_cons_some ht, List.filter_cons_of_pos (by simp [ht])]
      simp only [List.map_cons, List.filterMap_cons, Option.bind_some, hid id t ht]
      exact congrArg _ ih

theorem Speaks.waiting_again (h : Speaks own posted e) (received missing : List UInt16) :
    ∀ id ∈ waiting own.config ((e.connection.confirm received).datagrams
      ((e.connection.confirm received).kept missing)), id ∈ missing := by
  rw [h.waiting_kept]
  exact fun id hid => (List.mem_filter.mp hid).1

theorem Speaks.waiting_sent (h : Speaks own posted e) {channel : UInt8} {message : Bytes}
    {p : Prepared}
    (hp : (e.connection.channelAt channel).prepare message e.connection.nextMessage = .ok p) :
    waiting own.config (e.connection.sent channel p).emitted =
      (List.range (postingsOf own.config channel message p).length).map
        fun i => idAt (posted.length + i) := by
  obtain ⟨-, hparts, hdraws⟩ := Channel.prepare_spec hp
  rw [framing_channelAt h.fits] at hparts
  have hids : ∀ f ∈ p.frames,
      Transfer.messageId own.config { channel, frame := f.bytes } = f.messageId := by
    intro f hf
    obtain ⟨layout, payload, hl, hv, hid, hb, -⟩ := hparts f hf
    rw [hid]
    exact Transfer.Carries.messageId ⟨hl, hv, hb⟩
  have hframes : waiting own.config (e.connection.sent channel p).emitted =
      p.frames.filterMap Frame.messageId := by
    have hmapped : p.frames.filterMap Frame.messageId =
        (p.frames.map Frame.messageId).filterMap id := by
      rw [List.filterMap_map, Function.id_comp]
    rw [hmapped, ← List.map_congr_left hids, Connection.sent, waiting_datagrams,
      List.filterMap_map, List.filterMap_map]
    rfl
  rw [framing_channelAt h.fits, h.counter] at hdraws
  rw [hframes, hdraws.messageIds, Qos.isReliable_framing]
  unfold postingsOf
  split
  · simp only [idAt_add, List.length_map]
  · rfl

end

end Link

end DatagramTransport
