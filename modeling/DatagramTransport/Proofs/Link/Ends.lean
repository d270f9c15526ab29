import DatagramTransport.Proofs.Link.Run

/-!
# What holds of an end of a link

An end that sends has posted frames whose ids count up from one. What it
keeps, and what is on its way from it, are these frames as they were first
transmitted. An end that receives has a window that took note of the ids in
its log, and every datagram on its way from it reports what the window knew
at some time in the past. Neither depends on what the network or the other
end does.
-/

set_option autoImplicit false

namespace DatagramTransport.Link

section
variable (config : Config) (posted : List Posting)

def WellPosted : Prop :=
  ∀ k p, posted[k]? = some p → ∃ h payload, p.transfer.Carries config h payload ∧
    h.messageId = some (idAt k) ∧ (h.framing ≠ .reliableFragmented → payload = p.message)

def Known (t : Transfer) : Prop :=
  ∃ h payload, t.Carries config h payload ∧ ∀ id, h.messageId = some id →
    ∃ k p, posted[k]? = some p ∧ p.transfer = t ∧ id = idAt k

end

structure Speaks (own : Endpoint) (posted : List Posting) (e : LinkEnd) : Prop where
  endpoint : e.connection.endpoint = own
  short : e.connection.Short
  fits : own.config.Fits e.connection.channels
  counter : e.connection.nextMessage = idAt posted.length
  wellPosted : WellPosted own.config posted
  kept : ∀ id t, e.connection.pending[id]? = some t →
    ∃ k p, posted[k]? = some p ∧ p.transfer = t ∧ id = idAt k
  queued : ∀ d ∈ e.queue.toList, ∃ (h : DataHeader) (body : Option Transfer),
    d = h.bytes ++ bodyBytes body ∧ h.connection = own.id ∧ h.session = own.session ∧
      ∀ t, body = some t → Known own.config posted t

structure Hears (noted : List UInt16) (e : LinkEnd) : Prop where
  short : e.connection.Short
  window : e.connection.window = ((AckWindow.fresh .short).recordAll noted).1
  reports : ∀ d ∈ e.queue.toList, ∃ (h : DataHeader) (body : Bytes), d = h.bytes ++ body ∧
    ∃ past, past <+: noted ∧ AckWindow.Reports past h.ackLatest h.ackMask

section
variable {config : Config} {posted : List Posting} {t : Transfer}

theorem getElem?_append_some {α : Type} {l later : List α} {k : Nat} {a : α}
    (h : l[k]? = some a) : (l ++ later)[k]? = some a := by
  obtain ⟨hlt, -⟩ := List.getElem?_eq_some_iff.mp h
  rw [List.getElem?_append_left hlt, h]

theorem Known.append (h : Known config posted t) (later : List Posting) :
    Known config (posted ++ later) t := by
  obtain ⟨layout, payload, hc, hid⟩ := h
  refine ⟨layout, payload, hc, fun id hm => ?_⟩
  obtain ⟨k, p, hk, hp⟩ := hid id hm
  exact ⟨k, p, getElem?_append_some hk, hp⟩

theorem WellPosted.known (h : WellPosted config posted) {k : Nat} {p : Posting}
    (hk : posted[k]? = some p) : Known config posted p.transfer := by
  obtain ⟨layout, payload, hc, hid, -⟩ := h k p hk
  refine ⟨layout, payload, hc, fun id hm => ⟨k, p, hk, rfl, ?_⟩⟩
  rw [hid] at hm
  exact (Option.some.inj hm).symm

end

section
variable {own : Endpoint} {posted : List Posting} {e : LinkEnd} {s : Side}
  {channel : UInt8} {message : Bytes} {p : Prepared}

theorem Speaks.header (h : Speaks own posted e) (n : Nat) :
    (e.connection.advance n).header.connection = own.id ∧
      (e.connection.advance n).header.session = own.session := by
  have he := h.endpoint
  exact ⟨congrArg Endpoint.id he, congrArg Endpoint.session he⟩

def postingsOf (config : Config) (channel : UInt8) (message : Bytes) (p : Prepared) :
    List Posting :=
  if (config.channelQos channel).isReliable then
    p.frames.map fun f => { transfer := { channel, frame := f.bytes }, message }
  else []

theorem minted_nil (config : Config) (s : Side) : minted config s [] = [] := rfl

theorem minted_sent (config : Config) (c : Connection) :
    minted config s [.sent s channel message (c.sent channel p).emitted] =
      postingsOf config channel message p := by
  rw [minted, List.flatMap_singleton, Entry.postings, Connection.filterMap_emitted_sent,
    postingsOf]
  simp [List.map_map, Function.comp_def]

theorem Speaks.numbered (h : Speaks own posted e)
    (hp : (e.connection.channelAt channel).prepare message e.connection.nextMessage = .ok p) :
    p.nextMessage = idAt (posted.length + (postingsOf own.config channel message p).length) ∧
      if (own.config.channelQos channel).isReliable then
        ∀ i f, p.frames[i]? = some f → f.messageId = some (idAt (posted.length + i))
      else ∀ f ∈ p.frames, f.messageId = none := by
  obtain ⟨-, -, hdraws⟩ := Channel.prepare_spec hp
  rw [framing_channelAt h.fits, h.counter] at hdraws
  unfold postingsOf
  by_cases hr : (own.config.channelQos channel).isReliable = true
  · rw [if_pos hr, if_pos hr]
    constructor
    · rw [hdraws.nextMessage, if_pos (by rwa [Qos.isReliable_framing]), idAt_add, List.length_map]
    · intro i f hf
      rw [hdraws.messageId hf, if_pos (by rwa [Qos.isReliable_framing]), idAt_add]
  · rw [if_neg hr, if_neg hr]
    constructor
    · rw [hdraws.nextMessage, if_neg (by rwa [Qos.isReliable_framing])]
      rfl
    · intro f hf
      obtain ⟨i, hi⟩ := List.getElem?_of_mem hf
      rw [hdraws.messageId hi, if_neg (by rwa [Qos.isReliable_framing])]

theorem Speaks.place (h : Speaks own posted e)
    (hp : (e.connection.channelAt channel).prepare message e.connection.nextMessage = .ok p)
    {f : Frame} (hf : f ∈ p.frames) {id : UInt16} (hid : f.messageId = some id) :
    ∃ k q, (posted ++ postingsOf own.config channel message p)[k]? = some q ∧
      q.transfer = { channel, frame := f.bytes } ∧ id = idAt k := by
  obtain ⟨-, hnum⟩ := h.numbered hp
  unfold postingsOf
  by_cases hr : (own.config.channelQos channel).isReliable = true
  · rw [if_pos hr] at hnum ⊢
    obtain ⟨i, hi⟩ := List.mem_iff_getElem?.mp hf
    refine ⟨posted.length + i, { transfer := { channel, frame := f.bytes }, message }, ?_, rfl, ?_⟩
    · rw [List.getElem?_append_right (by omega), Nat.add_sub_cancel_left, List.getElem?_map, hi]
      rfl
    · rw [hnum i f hi] at hid
      exact (Option.some.inj hid).symm
  · rw [if_neg hr] at hnum
    rw [hnum f hf] at hid
    cases hid

theorem Speaks.wellPosted_sent (h : Speaks own posted e)
    (hp : (e.connection.channelAt channel).prepare message e.connection.nextMessage = .ok p) :
    WellPosted own.config (posted ++ postingsOf own.config channel message p) := by
  obtain ⟨-, hnum⟩ := h.numbered hp
  obtain ⟨-, hparts, -⟩ := Channel.prepare_spec hp
  rw [framing_channelAt h.fits] at hparts
  intro k q hq
  by_cases hk : k < posted.length
  · rw [List.getElem?_append_left hk] at hq
    exact h.wellPosted k q hq
  · rw [List.getElem?_append_right (by omega)] at hq
    unfold postingsOf at hq
    by_cases hr : (own.config.channelQos channel).isReliable = true
    · rw [if_pos hr] at hq hnum
      rw [List.getElem?_map] at hq
      obtain ⟨f, hf, rfl⟩ := Option.map_eq_some_iff.mp hq
      obtain ⟨layout, payload, hl, hv, hid, hb, hwhole⟩ := hparts f (List.mem_of_getElem? hf)
      refine ⟨layout, payload, ⟨hl, hv, hb⟩, ?_, fun hne => hwhole (hl ▸ hne)⟩
      rw [← hid, hnum _ f hf]
      congr 2
      omega
    · rw [if_neg hr] at hq
      cases hq

theorem Speaks.sent (h : Speaks own posted e)
    (hp : (e.connection.channelAt channel).prepare message e.connection.nextMessage = .ok p) :
    Speaks own (posted ++ postingsOf own.config channel message p)
      { connection := (e.connection.sent channel p).connection
        queue := e.queue.push (e.connection.sent channel p).emitted } where
  endpoint := h.endpoint
  short := ⟨h.short.window, h.short.config⟩
  fits := h.fits.set (Channel.prepare_spec hp).1
  counter := by
    rw [List.length_append]
    exact (h.numbered hp).1
  wellPosted := h.wellPosted_sent hp
  kept := by
    intro id t ht
    rcases eq_of_getElem?_keepFrames ht with ⟨f, hf, hid, rfl⟩ | hold
    · exact h.place hp hf hid
    · obtain ⟨k, q, hk, hq⟩ := h.kept id t hold
      exact ⟨k, q, getElem?_append_some hk, hq⟩
  queued := by
    intro d hd
    rw [Backlog.toList_push, List.mem_append] at hd
    rcases hd with hd | hd
    · obtain ⟨header, body, hd, hc, hs, hk⟩ := h.queued d hd
      exact ⟨header, body, hd, hc, hs, fun t ht => (hk t ht).append _⟩
    · obtain ⟨n, body, hbody, rfl⟩ := Connection.mem_datagrams hd
      obtain ⟨f, hf, rfl⟩ := List.mem_map.mp hbody
      refine ⟨_, _, rfl, (h.header n).1, (h.header n).2, fun t ht => ?_⟩
      cases ht
      obtain ⟨-, hparts, -⟩ := Channel.prepare_spec hp
      obtain ⟨layout, payload, hl, hv, hid, hb, -⟩ := hparts f hf
      rw [framing_channelAt h.fits] at hl
      exact ⟨layout, payload, ⟨hl, hv, hb⟩, fun id hm => h.place hp hf (hid.trans hm)⟩

theorem Speaks.act (h : Speaks own posted e) {e' : LinkEnd} {entries : List Entry}
    (ha : Act s e e' entries) : Speaks own (posted ++ minted own.config s entries) e' := by
  cases ha with
  | rest =>
    rw [minted_nil, List.append_nil]
    exact h
  | sent channel message p fits prepared =>
    rw [minted_sent]
    exact h.sent prepared
  | lost queue sub =>
    rw [minted_nil, List.append_nil]
    exact { h with queued := fun d hd => h.queued d (sub.subset hd) }
  | pinged phase packet alive =>
    rw [minted_nil, List.append_nil]
    exact { h with short := ⟨h.short.window, h.short.config⟩ }
  | ended =>
    rw [minted_nil, List.append_nil]
    exact { h with short := ⟨h.short.window, h.short.config⟩, kept := by simp }

theorem Speaks.received (h : Speaks own posted e) {datagram : Bytes} {step : Step (List Message)}
    (hr : e.connection.receive datagram = .ok step) :
    Speaks own posted
      { connection := step.connection, queue := e.queue.push step.emitted } := by
  rcases Connection.receive_cases h.short hr with
    ⟨rfl, -⟩ | ⟨header, body, intake, -, -, ht, -, rfl⟩
  · exact h
  obtain ⟨hframing, -⟩ := takeFrames_spec ht
  have hkept : ∀ ids id t, (e.connection.confirm ids).pending[id]? = some t →
      ∃ k p, posted[k]? = some p ∧ p.transfer = t ∧ id = idAt k := by
    intro ids id t hid
    rw [Connection.getElem?_confirm] at hid
    split at hid
    · cases hid
    · exact h.kept id t hid
  constructor
  case endpoint => exact h.endpoint
  case short => exact ⟨(takeFrames_mode ht).trans h.short.window, h.short.config⟩
  case fits => exact hframing.trans h.fits
  case counter => exact h.counter
  case wellPosted => exact h.wellPosted
  case kept => exact hkept _
  case queued =>
    intro d hd
    rw [Backlog.toList_push, List.mem_append] at hd
    rcases hd with hd | hd
    · exact h.queued d hd
    rcases List.mem_append.mp hd with hd | hd
    · obtain ⟨n, body, hbody, rfl⟩ := Connection.mem_datagrams hd
      obtain ⟨t, ht, rfl⟩ := List.mem_map.mp hbody
      obtain ⟨id, -, hid⟩ := List.mem_filterMap.mp ht
      refine ⟨_, _, rfl, (h.header n).1, (h.header n).2, fun t' ht' => ?_⟩
      cases ht'
      obtain ⟨k, p, hk, rfl, -⟩ := hkept _ id t hid
      exact h.wellPosted.known hk
    · obtain ⟨n, body, hbody, rfl⟩ := Connection.mem_datagrams hd
      obtain ⟨-, rfl⟩ := List.mem_replicate.mp hbody
      exact ⟨_, none, rfl, (h.header n).1, (h.header n).2, fun t ht => by cases ht⟩

end

section
variable {own : Endpoint} {posted : List Posting} {noted : List UInt16} {e e' : LinkEnd}
  {s : Side} {entries : List Entry}

theorem Speaks.lost (h : Speaks own posted e) {queue : Backlog Bytes}
    (hq : ∀ d ∈ queue.toList, d ∈ e.queue.toList) : Speaks own posted { e with queue } :=
  { h with queued := fun d hd => h.queued d (hq d hd) }

theorem Hears.tracks (h : Hears noted e) : e.connection.window.Tracks noted := by
  rw [h.window]
  exact AckWindow.tracks_recordAll AckWindow.tracks_fresh noted

theorem Hears.lost (h : Hears noted e) {queue : Backlog Bytes}
    (hq : ∀ d ∈ queue.toList, d ∈ e.queue.toList) : Hears noted { e with queue } :=
  { h with reports := fun d hd => h.reports d (hq d hd) }

theorem reports_datagrams {c : Connection} (h : c.window.Tracks noted)
    {bodies : List (Option Transfer)} {d : Bytes} (hd : d ∈ c.datagrams bodies) :
    ∃ (h : DataHeader) (body : Bytes), d = h.bytes ++ body ∧
      AckWindow.Reports noted h.ackLatest h.ackMask := by
  obtain ⟨n, body, -, rfl⟩ := Connection.mem_datagrams hd
  exact ⟨_, _, rfl, h.reports⟩

theorem Hears.act (h : Hears noted e) (ha : Act s e e' entries) : Hears noted e' := by
  cases ha with
  | rest => exact h
  | sent channel message p fits prepared =>
    constructor
    case short => exact ⟨h.short.window, h.short.config⟩
    case window => exact h.window
    case reports =>
      intro d hd
      rw [Backlog.toList_push, List.mem_append] at hd
      rcases hd with hd | hd
      · exact h.reports d hd
      · obtain ⟨header, body, hd, hr⟩ := reports_datagrams h.tracks hd
        exact ⟨header, body, hd, noted, List.prefix_refl _, hr⟩
  | lost queue sub => exact h.lost fun d hd => sub.subset hd
  | pinged phase packet alive => exact ⟨⟨h.short.window, h.short.config⟩, h.window, h.reports⟩
  | ended => exact ⟨⟨h.short.window, h.short.config⟩, h.window, h.reports⟩

theorem Hears.received (h : Hears noted e) {datagram : Bytes} {step : Step (List Message)}
    (hr : e.connection.receive datagram = .ok step) :
    Hears (noted ++ e.connection.noted datagram)
      { connection := step.connection, queue := e.queue.push step.emitted } := by
  rcases Connection.receive_cases h.short hr with
    ⟨rfl, hn⟩ | ⟨header, body, intake, -, -, ht, hn, rfl⟩
  · rw [hn, List.append_nil]
    exact h
  obtain ⟨-, hwindow⟩ := takeFrames_spec ht
  have hnow : intake.window =
      ((AckWindow.fresh .short).recordAll (noted ++ e.connection.noted datagram)).1 := by
    rw [AckWindow.recordAll_append, ← h.window, hn]
    exact hwindow
  have htracks : intake.window.Tracks (noted ++ e.connection.noted datagram) := by
    rw [hnow]
    exact AckWindow.tracks_recordAll AckWindow.tracks_fresh _
  constructor
  case short => exact ⟨htracks.short, h.short.config⟩
  case window => exact hnow
  case reports =>
    intro d hd
    rw [Backlog.toList_push, List.mem_append] at hd
    rcases hd with hd | hd
    · obtain ⟨header, body, hd, past, hpast, hr⟩ := h.reports d hd
      exact ⟨header, body, hd, past, hpast.trans (List.prefix_append _ _), hr⟩
    rcases List.mem_append.mp hd with hd | hd
    · obtain ⟨header, body, hd, hr⟩ := reports_datagrams
        (c := e.connection.confirm _) h.tracks hd
      exact ⟨header, body, hd, noted, List.prefix_append _ _, hr⟩
    · obtain ⟨header, body, hd, hr⟩ := reports_datagrams htracks hd
      exact ⟨header, body, hd, _, List.prefix_refl _, hr⟩

end

section
variable {own : Endpoint} {config : Config} {posted : List Posting} {e : LinkEnd}
  {c : Connection} {header : DataHeader} {step : Step (List Message)}

theorem Hears.report {ids : List UInt16} (h : Hears ids e) {body : Bytes}
    (hd : header.bytes ++ body ∈ e.queue.toList) :
    ∃ past, past <+: ids ∧ AckWindow.Reports past header.ackLatest header.ackMask := by
  obtain ⟨other, rest, hd, hpast⟩ := h.reports _ hd
  have hread := congrArg (DataHeader.decode .short) hd
  rw [DataHeader.decode_bytes, DataHeader.decode_bytes] at hread
  cases hread
  exact hpast

theorem noted_carried {t : Transfer} {layout : Layout} {payload : Bytes}
    (h : t.Carries config layout payload) (hs : c.Short) (hfit : config.Fits c.channels) :
    c.noted (header.bytes ++ bodyBytes (some t)) =
      if c.accepts header then layout.messageId.toList else [] := by
  obtain ⟨-, -, hn, -, -⟩ := takeFrames_transfer hfit h c.window
  simp only [Connection.noted, hs.config, DataHeader.decode_bytes, hn]

/-- A posted frame is noted under its id by a connection that takes the
packet. If it is a whole message, it is returned when its id is new. -/
theorem WellPosted.receive (h : WellPosted config posted) (hs : c.Short)
    (hfit : config.Fits c.channels) {k : Nat} {p : Posting} (hk : posted[k]? = some p)
    (hr : c.receive (header.bytes ++ bodyBytes (some p.transfer)) = .ok step) :
    c.noted (header.bytes ++ bodyBytes (some p.transfer)) =
        (if c.accepts header then [idAt k] else []) ∧
      ((config.channelQos p.transfer.channel).framing = .reliable → step.answer =
        if c.accepts header ∧ (c.window.record (idAt k)).2
        then [⟨p.transfer.channel, p.message⟩] else []) := by
  obtain ⟨layout, payload, hcarries, hid, hwhole⟩ := h k p hk
  constructor
  · rw [noted_carried hcarries hs hfit, hid, Option.toList_some]
  intro hq
  obtain ⟨intake, ht, -, -, hanswer⟩ := takeFrames_transfer hfit hcarries c.window
  by_cases ha : c.accepts header = true
  · obtain ⟨intake', ht', rfl⟩ := Connection.receive_accepted hs ha hr
    cases ht.symm.trans ht'
    have hq' : layout.framing = .reliable := hcarries.framing.trans hq
    have hm := hwhole (by rw [hq']; exact Qos.noConfusion)
    subst hm
    simp only [ha, true_and]
    rw [hid, AckWindow.note_some] at hanswer
    exact hanswer hq'
  · unfold Connection.receive at hr
    simp only [hs.config, DataHeader.decode_bytes, ha] at hr
    cases hr
    simp only [ha]
    rfl

theorem Known.noted {t : Transfer} (h : Known config posted t) (hs : c.Short)
    (hfit : config.Fits c.channels) :
    c.noted (header.bytes ++ bodyBytes (some t)) = [] ∨
      ∃ (k : Nat) (p : Posting), posted[k]? = some p ∧ p.transfer = t := by
  obtain ⟨layout, payload, hcarries, hid⟩ := h
  rw [noted_carried hcarries hs hfit]
  cases hm : layout.messageId with
  | none => exact .inl (ite_self [])
  | some id =>
    obtain ⟨k, p, hk, hp, -⟩ := hid id hm
    exact .inr ⟨k, p, hk, hp⟩

theorem noted_none (hs : c.Short) : c.noted (header.bytes ++ bodyBytes none) = [] := by
  simp only [Connection.noted, hs.config, DataHeader.decode_bytes, bodyBytes, notedIds_nil,
    ite_self]

/-- A datagram on its way has no effect on the window that receives it, or
it is one of the posted frames. -/
theorem Speaks.arrival (h : Speaks own posted e) (hs : c.Short)
    (hfit : own.config.Fits c.channels) {d : Bytes} (hd : d ∈ e.queue.toList) :
    c.noted d = [] ∨ ∃ (header : DataHeader) (k : Nat) (p : Posting), posted[k]? = some p ∧
      d = header.bytes ++ bodyBytes (some p.transfer) := by
  obtain ⟨header, body, rfl, -, -, hknown⟩ := h.queued d hd
  cases body with
  | none => exact .inl (noted_none hs)
  | some t =>
    rcases (hknown t rfl).noted hs hfit with hn | ⟨k, p, hk, rfl⟩
    · exact .inl hn
    · exact .inr ⟨header, k, p, hk, rfl⟩

end

end DatagramTransport.Link
