import DatagramTransport.Proofs.AckWindow
import DatagramTransport.Proofs.Channel.Layout
import DatagramTransport.Proofs.Connection.Emission

/-!
# The effect of receiving

Which message ids the frames of a datagram make the window take note of is
written down beside the frame loop; the window after the loop is the one
that took note of exactly these. A datagram is dropped without a trace, or
its report and its frames have their effects, neither of which depends on
the other's.
-/

set_option autoImplicit false

namespace DatagramTransport

def Channel.noted (c : Channel) (body : Bytes) : Option UInt16 :=
  if c.framing.isReliable then (readUInt16 body).toOption.map Prod.fst else none

def notedIds (channels : List Channel) (window : AckWindow) : Bytes → List UInt16
  | [] => []
  | id :: bytes =>
    match channels[id.toNat]? with
    | none => []
    | some channel =>
      let taken := channel.process window bytes
      match taken.2 with
      | .error _ => []
      | .ok p =>
        ((takeFrame channel.headerLength bytes).2.toOption.bind channel.noted).toList ++
          notedIds (channels.set id.toNat p.channel) p.window taken.1
termination_by bytes => bytes.length
decreasing_by
  have := channel.length_process_le window bytes
  simp only [List.length_cons]
  omega

theorem Channel.noted_header {c : Channel} {h : Layout} (hf : h.framing = c.framing)
    (payload : Bytes) : c.noted (h.header ++ payload) = h.messageId := by
  unfold noted
  rw [← hf]
  cases h <;> simp [Layout.framing, Qos.isReliable, Layout.header, Layout.messageId,
    Except.toOption]

/-- A frame that is taken is noted under its id, if it has one. -/
theorem Channel.window_accept {c : Channel} {w : AckWindow} {body : Bytes} {p : Processed}
    (h : c.accept w body = .ok p) : (p.window, p.accepted) = w.note (c.noted body) := by
  have hread {α : Type} {read : Reader α} {r : α × Bytes}
      (hr : orFault (readInFrame read body) = .ok r) : read body = .ok r :=
    mapError_eq_ok.mp (orFault_eq_ok.mp hr)
  cases c with
  | unreliable =>
    cases h
    rfl
  | unreliableSequenced lastIn nextOut =>
    obtain ⟨⟨position, payload⟩, -, h⟩ := bind_eq_ok.mp h
    dsimp only at h
    split at h <;> cases h <;> rfl
  | reliable =>
    obtain ⟨⟨id, payload⟩, hid, h⟩ := bind_eq_ok.mp h
    simp only [noted, framing, Qos.isReliable, if_true, hread hid, Except.toOption,
      Option.map_some, AckWindow.note_some]
    dsimp only at h
    split at h <;> rename_i hw <;> cases h <;> exact hw.symm
  | reliableSequenced inbound nextOut =>
    obtain ⟨⟨id, rest⟩, hid, h⟩ := bind_eq_ok.mp h
    obtain ⟨⟨position, payload⟩, -, h⟩ := bind_eq_ok.mp h
    simp only [noted, framing, Qos.isReliable, if_true, hread hid, Except.toOption,
      Option.map_some, AckWindow.note_some]
    dsimp only at h
    split at h <;> rename_i hw <;> cases h <;> exact hw.symm
  | reliableFragmented inbound nextGroup =>
    obtain ⟨⟨id, rest⟩, hid, h⟩ := bind_eq_ok.mp h
    obtain ⟨⟨group, rest⟩, -, h⟩ := bind_eq_ok.mp h
    obtain ⟨⟨index, rest⟩, -, h⟩ := bind_eq_ok.mp h
    obtain ⟨⟨count, part⟩, -, h⟩ := bind_eq_ok.mp h
    simp only [noted, framing, Qos.isReliable, if_true, hread hid, Except.toOption,
      Option.map_some, AckWindow.note_some]
    dsimp only at h
    split at h
    · cases h
    · split at h <;> rename_i hw
      · cases h
        exact hw.symm
      · obtain ⟨r, -, h⟩ := bind_eq_ok.mp h
        cases h
        exact hw.symm

theorem AckWindow.recordAll_mode (w : AckWindow) (ids : List UInt16) :
    (w.recordAll ids).1.mode = w.mode := by
  induction ids generalizing w with
  | nil => rfl
  | cons id ids ih => exact (ih _).trans (w.record_mode id)

theorem AckWindow.recordAll_note (w : AckWindow) (id : Option UInt16) (ids : List UInt16) :
    (w.recordAll (id.toList ++ ids)).1 = ((w.note id).1.recordAll ids).1 := by
  cases id <;> rfl

theorem takeFrames_spec {channels : List Channel} {window : AckWindow} {bytes : Bytes}
    {intake : Intake} (h : takeFrames channels window bytes = .ok intake) :
    intake.channels.map Channel.framing = channels.map Channel.framing ∧
      intake.window = (window.recordAll (notedIds channels window bytes)).1 := by
  fun_induction takeFrames channels window bytes generalizing intake with
  | case1 =>
    cases h
    exact ⟨rfl, by rw [notedIds]; rfl⟩
  | case2 channels window id bytes hn =>
    cases h
    constructor
    · rfl
    · rw [notedIds, hn]
      rfl
  | case3 => cases h
  | case4 channels window id bytes channel hc taken e hne =>
    rename_i hp
    cases h
    constructor
    · rfl
    · rw [notedIds, hc]
      simp only [show (channel.process window bytes).2 = .error e from hp]
      rfl
  | case5 channels window id bytes channel hc taken p hp =>
    rename_i ih
    obtain ⟨later, hl, h⟩ := bind_eq_ok.mp h
    cases h
    obtain ⟨hframing, hwindow⟩ := ih hl
    have hp' : (channel.process window bytes).2 = .ok p := hp
    constructor
    · exact hframing.trans (Channel.map_framing_set hc (Channel.framing_process hp'))
    obtain ⟨body, hbody, ha⟩ := bind_eq_ok.mp
      (show ((takeFrame channel.headerLength bytes).2 >>= channel.accept window) = .ok p from hp')
    have hw : p.window = (window.note (channel.noted body)).1 :=
      congrArg Prod.fst (Channel.window_accept ha)
    rw [notedIds, hc]
    simp only [hp', hbody, Except.toOption, Option.bind_some]
    rw [AckWindow.recordAll_note, ← hw]
    exact hwindow

theorem takeFrames_mode {channels : List Channel} {window : AckWindow} {bytes : Bytes}
    {intake : Intake} (h : takeFrames channels window bytes = .ok intake) :
    intake.window.mode = window.mode := by
  rw [(takeFrames_spec h).2, AckWindow.recordAll_mode]

theorem takeFrames_nil (channels : List Channel) (window : AckWindow) :
    takeFrames channels window [] =
      .ok { channels, window, messages := [], accepted := false } := by
  rw [takeFrames]

theorem notedIds_nil (channels : List Channel) (window : AckWindow) :
    notedIds channels window [] = [] := by
  rw [notedIds]

section
variable {channels : List Channel} {window : AckWindow} {id : UInt8} {c : Channel} {h : Layout}
  {payload : Bytes}

theorem takeFrames_frame (hc : channels[id.toNat]? = some c) (hf : h.framing = c.framing)
    (hv : h.Valid payload) {p : Processed}
    (hp : c.accept window (h.header ++ payload) = .ok p) :
    takeFrames channels window (id :: h.frame payload) =
      .ok { channels := channels.set id.toNat p.channel, window := p.window
            messages := p.delivered.map (Message.mk id), accepted := p.accepted } := by
  have hproc := Channel.process_frame (w := window) hf hv []
  rw [List.append_nil, hp] at hproc
  rw [takeFrames, hc]
  simp only [hproc, takeFrames_nil]
  simp [bind, Except.bind, pure, Except.pure]

theorem notedIds_frame (hc : channels[id.toNat]? = some c) (hf : h.framing = c.framing)
    (hv : h.Valid payload) : notedIds channels window (id :: h.frame payload) =
      h.messageId.toList := by
  obtain ⟨p, hp, -, -⟩ := Channel.accept_layout hf hv.inRange window payload
  have hproc := Channel.process_frame (w := window) hf hv []
  rw [List.append_nil, hp] at hproc
  have htake := Channel.takeFrame_frame hf hv []
  rw [List.append_nil] at htake
  rw [notedIds, hc]
  simp only [hproc, htake, notedIds_nil, Except.toOption, Option.bind_some, List.append_nil,
    Channel.noted_header hf]

end

/-- The frame is one that the configuration's channel with this id would make. -/
structure Transfer.Carries (config : Config) (t : Transfer) (h : Layout) (payload : Bytes) :
    Prop where
  framing : h.framing = (config.channelQos t.channel).framing
  valid : h.Valid payload
  frame : t.frame = h.frame payload

def Config.Fits (config : Config) (channels : List Channel) : Prop :=
  channels.map Channel.framing = config.channels.map Qos.framing

theorem Config.Fits.framing {config : Config} {channels : List Channel} (h : config.Fits channels)
    (id : UInt8) :
    (channels[id.toNat]?).map Channel.framing =
      (config.channels[id.toNat]?).map Qos.framing := by
  have hi := congrArg (fun l => l[id.toNat]?) h
  simpa only [List.getElem?_map] using hi

theorem Config.fits_ofQos (config : Config) :
    config.Fits (config.channels.map Channel.ofQos) := by
  simp [Fits, List.map_map, Function.comp_def]

theorem framing_channelAt {config : Config} {c : Connection} (h : config.Fits c.channels)
    (id : UInt8) : (c.channelAt id).framing = (config.channelQos id).framing := by
  have hi := h.framing id
  unfold Connection.channelAt Config.channelQos
  cases hc : c.channels[id.toNat]? <;> cases hq : config.channels[id.toNat]? <;>
    simp [hc, hq] at hi ⊢
  · rfl
  · exact hi

theorem Config.Fits.set {config : Config} {c : Connection} (h : config.Fits c.channels)
    {id : UInt8} {channel : Channel} (hframing : channel.framing = (c.channelAt id).framing) :
    config.Fits (c.channels.set id.toNat channel) := by
  cases hc : c.channels[id.toNat]? with
  | none =>
    rw [List.set_eq_of_length_le (List.getElem?_eq_none_iff.mp hc)]
    exact h
  | some old =>
    rw [Connection.channelAt, hc] at hframing
    exact (Channel.map_framing_set hc hframing).trans h

theorem takeFrames_transfer {config : Config} {channels : List Channel} {t : Transfer}
    {h : Layout} {payload : Bytes} (hfit : config.Fits channels)
    (ht : t.Carries config h payload) (window : AckWindow) :
    ∃ intake, takeFrames channels window (bodyBytes (some t)) = .ok intake ∧
      notedIds channels window (bodyBytes (some t)) = h.messageId.toList ∧
      (intake.window, intake.accepted) = window.note h.messageId ∧
      (h.framing = .reliable → intake.messages =
        if (window.note h.messageId).2 then [⟨t.channel, payload⟩] else []) := by
  have hq := hfit.framing t.channel
  have hframing := ht.framing
  simp only [bodyBytes, ht.frame]
  cases hc : channels[t.channel.toNat]? with
  | none =>
    have hu : h = .unreliable := by
      rw [hc] at hq
      have hn : config.channels[t.channel.toNat]? = none := by simpa using hq.symm
      rw [Config.channelQos, hn] at hframing
      cases h <;> simp_all [Layout.framing, Qos.framing]
    subst hu
    refine ⟨_, by rw [takeFrames, hc], by rw [notedIds, hc]; rfl, rfl, ?_⟩
    intro hr
    cases hr
  | some c =>
    have hf : h.framing = c.framing := by
      rw [hc] at hq
      obtain ⟨q, hq', hqc⟩ := Option.map_eq_some_iff.mp hq.symm
      rw [Config.channelQos, hq'] at hframing
      exact hframing.trans hqc
    obtain ⟨p, hp, -, hw⟩ := Channel.accept_layout hf ht.valid.inRange window payload
    refine ⟨_, takeFrames_frame hc hf ht.valid hp, notedIds_frame hc hf ht.valid, hw, ?_⟩
    intro hr
    obtain ⟨id, rfl⟩ : ∃ id, h = .reliable id := by
      cases h <;> simp_all [Layout.framing]
    obtain rfl := Channel.eq_reliable (hf.symm.trans hr)
    rw [Channel.accept_reliable] at hp
    cases hp
    by_cases hn : (window.record id).2 = true <;> simp [Layout.messageId, hn]

namespace Connection

def noted (c : Connection) (datagram : Bytes) : List UInt16 :=
  match DataHeader.decode c.endpoint.config.ackMode datagram with
  | .ok (header, body) => if c.accepts header then notedIds c.channels c.window body else []
  | .error _ => []

/-- What a datagram that is not dropped does to a connection: the report
takes effect before the frames, and the echoes carry the report after them. -/
def received (c : Connection) (header : DataHeader) (intake : Intake) : Step (List Message) :=
  let reading := AckWindow.reading header.ackLatest header.ackMask
  let acked := c.confirm reading.received
  let again := acked.kept reading.missing
  let echoes := if intake.accepted then c.endpoint.config.ackEchoes else 0
  let after : Connection :=
    { acked with
      channels := intake.channels
      window := intake.window
      nextPacket := c.nextPacket + .ofNat again.length }
  { connection := after.advance echoes
    emitted := acked.datagrams again ++ after.datagrams (List.replicate echoes none)
    answer := intake.messages }

theorem getElem?_confirm (c : Connection) (ids : List UInt16) (id : UInt16) :
    (c.confirm ids).pending[id]? = if id ∈ ids then none else c.pending[id]? := by
  suffices h : ∀ pending : Std.ExtTreeMap UInt16 Transfer,
      (ids.foldl Std.ExtTreeMap.erase pending)[id]? =
        if id ∈ ids then none else pending[id]? from h c.pending
  induction ids with
  | nil => simp
  | cons other ids ih =>
    intro pending
    rw [List.foldl_cons, ih]
    by_cases hm : id ∈ ids
    · simp [hm]
    · by_cases he : other = id
      · simp [he]
      · simp [Std.ExtTreeMap.getElem?_erase, hm, he, Ne.symm he]

theorem getElem?_confirm_of_empty {c : Connection} (h : ∀ id : UInt16, c.pending[id]? = none)
    (ids : List UInt16) (id : UInt16) : (c.confirm ids).pending[id]? = none := by
  rw [getElem?_confirm, h, ite_self]

theorem emitted_received_of_not_accepted {c : Connection} {intake : Intake}
    (h : intake.accepted = false) (header : DataHeader) :
    (c.received header intake).emitted =
      (c.confirm (AckWindow.reading header.ackLatest header.ackMask).received).datagrams
        ((c.confirm (AckWindow.reading header.ackLatest header.ackMask).received).kept
          (AckWindow.reading header.ackLatest header.ackMask).missing) := by
  simp only [received, h]
  exact List.append_nil _

theorem emitted_received_of_empty {c : Connection} (h : ∀ id : UInt16, c.pending[id]? = none)
    (header : DataHeader) (intake : Intake) :
    (c.received header intake).emitted =
      Connection.datagrams
        { c.confirm (AckWindow.reading header.ackLatest header.ackMask).received with
          channels := intake.channels, window := intake.window }
        (List.replicate (if intake.accepted then c.endpoint.config.ackEchoes else 0) none) := by
  have hkept := kept_of_empty (getElem?_confirm_of_empty h
    (AckWindow.reading header.ackLatest header.ackMask).received)
    (AckWindow.reading header.ackLatest header.ackMask).missing
  have hzero : c.nextPacket + .ofNat 0 = c.nextPacket := UInt16.add_zero _
  simp only [received, hkept, datagrams, List.nil_append, List.length_nil, hzero]
  rfl

theorem acknowledge_eq {c : Connection} (h : c.Short) (latest : UInt16) (mask : UInt32) :
    c.acknowledge latest mask = (c.confirm (AckWindow.reading latest mask).received).sendAgain
      (AckWindow.reading latest mask).missing := by
  rw [acknowledge, AckWindow.read_short h.window]

theorem Short.confirm {c : Connection} (h : c.Short) (ids : List UInt16) :
    (c.confirm ids).Short :=
  ⟨h.window, h.config⟩

theorem receive_accepted {c : Connection} (h : c.Short) {header : DataHeader} {body : Bytes}
    (ha : c.accepts header = true) {step : Step (List Message)}
    (hr : c.receive (header.bytes ++ body) = .ok step) :
    ∃ intake, takeFrames c.channels c.window body = .ok intake ∧
      step = c.received header intake := by
  have hack := acknowledge_eq h header.ackLatest header.ackMask
  have hconf := h.confirm (AckWindow.reading header.ackLatest header.ackMask).received
  unfold receive at hr
  simp only [h.config, DataHeader.decode_bytes, ha, if_true] at hr
  rcases sendAgain_answer hconf (AckWindow.reading header.ackLatest header.ackMask).missing with
    hok | hfault
  · rw [hack, hok] at hr
    obtain ⟨intake, ht, hr⟩ := bind_eq_ok.mp hr
    obtain ⟨echoed, he, hr⟩ := bind_eq_ok.mp hr
    rw [sendAgain_eq hconf hok] at ht he hr
    refine ⟨intake, ht, ?_⟩
    have hmode : intake.window.mode = .short := (takeFrames_mode ht).trans h.window
    obtain rfl := echo_eq (by exact ⟨hmode, h.config⟩) he
    cases hr
    rfl
  · rw [hack, hfault] at hr
    cases hr

/-- A datagram that causes no fault is dropped without a trace or taken. -/
theorem receive_cases {c : Connection} (h : c.Short) {datagram : Bytes}
    {step : Step (List Message)} (hr : c.receive datagram = .ok step) :
    (step = { connection := c, emitted := [], answer := [] } ∧ c.noted datagram = []) ∨
      ∃ header body intake, datagram = header.bytes ++ body ∧ c.accepts header = true ∧
        takeFrames c.channels c.window body = .ok intake ∧
        c.noted datagram = notedIds c.channels c.window body ∧
        step = c.received header intake := by
  cases hd : DataHeader.decode .short datagram with
  | error e =>
    unfold receive at hr
    simp only [h.config, hd] at hr
    cases hr
    exact .inl ⟨rfl, by simp only [noted, h.config, hd]⟩
  | ok r =>
    obtain ⟨header, body⟩ := r
    obtain rfl := DataHeader.eq_of_decode hd
    by_cases ha : c.accepts header = true
    · obtain ⟨intake, ht, hstep⟩ := receive_accepted h ha hr
      refine .inr ⟨header, body, intake, rfl, ha, ht, ?_, hstep⟩
      simp only [noted, h.config, DataHeader.decode_bytes, ha, if_true]
    · unfold receive at hr
      simp only [h.config, DataHeader.decode_bytes, ha] at hr
      cases hr
      left
      constructor
      · rfl
      · simp only [noted, h.config, DataHeader.decode_bytes, ha]
        rfl

end Connection

end DatagramTransport
