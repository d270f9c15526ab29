import DatagramTransport.Proofs.Channel.InStep
import DatagramTransport.Proofs.Link.Steady
import DatagramTransport.Proofs.Link.Total

/-!
# A stream of messages

One side sends on channels of any quality, and its datagrams arrive once and
in order. Those of the other side, which are pure acknowledgements, arrive in
order or are lost. If the receiving side took all that is on its way to it, it
would have returned what was sent, and its channels would be in step with the
sending ones. No report ever misses an id, so nothing is sent again.
-/

set_option autoImplicit false

namespace DatagramTransport.Link

def Event.Streaming (config : Config) (s : Side) : Event → Prop
  | send t channel _ => t = s ∧ channel.toNat < config.channels.length
  | deliver _ index keep => index = 0 ∧ keep = false
  | lose t _ => t = s.other
  | greet .. | ping .. => True
  | disconnect _ => False

instance (config : Config) (s : Side) : DecidablePred (Event.Streaming config s)
  | .send t channel _ =>
    inferInstanceAs (Decidable (t = s ∧ channel.toNat < config.channels.length))
  | .deliver _ index keep => inferInstanceAs (Decidable (index = 0 ∧ keep = false))
  | .lose t _ => inferInstanceAs (Decidable (t = s.other))
  | .greet .. | .ping .. => .isTrue trivial
  | .disconnect _ => .isFalse id

theorem Event.Streaming.orderly {config : Config} {s : Side} {e : Event}
    (h : e.Streaming config s) : e.Orderly := by
  cases e with
  | deliver => exact h
  | disconnect => exact h
  | send => trivial
  | lose => trivial
  | greet => trivial
  | ping => trivial

def bodies (queue : List Bytes) : List Bytes :=
  queue.map (List.drop DataHeader.encodedLength)

theorem bodies_datagrams (c : Connection) (frames : List (Option Transfer)) :
    bodies (c.datagrams frames) = frames.map bodyBytes := by
  induction frames generalizing c with
  | nil => rfl
  | cons frame frames ih =>
    rw [Connection.datagrams, bodies, List.map_cons, DataHeader.drop_bytes, List.map_cons]
    exact congrArg _ (ih _)

/-- What is on its way brings the receiving side in step with the sending one,
which posted this many frames, and makes up for what it has not returned. -/
structure Transit (n : Nat) (sender receiver : LinkEnd) (returned sent : List Message) : Prop where
  taken : ∃ intake, takeBodies receiver.connection.channels receiver.connection.window
      (bodies sender.queue.toList) = .ok intake ∧
    intake.window.Tracks (firstIds n) ∧
    (∀ (i : Nat) (c : Channel), sender.connection.channels[i]? = some c →
      ∃ d, intake.channels[i]? = some d ∧ c.InStep n d) ∧
    returned ++ intake.messages = sent

structure Streams (config : Config) (s : Side) (l : Link) (log : List Entry) : Prop where
  ids : notedBy s.other log ++ waiting config (l.side s).queue.toList =
    firstIds (minted config s log).length
  quiet : ∀ d ∈ (l.side s.other).queue.toList, Transfer.ofDatagram? d = none
  transit : Transit (minted config s log).length (l.side s) (l.side s.other)
    (returnedBy s.other log) (sentBy s log)

section
variable {n : Nat} {sender receiver : LinkEnd} {returned sent : List Message}

theorem Transit.send {own : Endpoint} {posted : List Posting}
    (h : Transit posted.length sender receiver returned sent) (hspeaks : Speaks own posted sender)
    {channel : UInt8} (hchannel : channel.toNat < own.config.channels.length) {message : Bytes}
    {p : Prepared}
    (hp : (sender.connection.channelAt channel).prepare message sender.connection.nextMessage =
      .ok p)
    (hbound : (posted ++ postingsOf own.config channel message p).length ≤ 65535) :
    Transit (posted ++ postingsOf own.config channel message p).length
      { connection := (sender.connection.sent channel p).connection
        queue := sender.queue.push (sender.connection.sent channel p).emitted }
      receiver returned (sent ++ [⟨channel, message⟩]) := by
  obtain ⟨intake, htake, htracks, hstep, rfl⟩ := h.taken
  have hlength := congrArg List.length hspeaks.fits
  rw [List.length_map, List.length_map] at hlength
  obtain ⟨c, hc⟩ : ∃ c, sender.connection.channels[channel.toNat]? = some c :=
    ⟨_, List.getElem?_eq_getElem (by omega)⟩
  have hat : sender.connection.channelAt channel = c := by
    rw [Connection.channelAt, hc]
    rfl
  have hdrawn : (posted ++ postingsOf own.config channel message p).length =
      posted.length + if c.framing.isReliable then p.frames.length else 0 := by
    rw [List.length_append, ← hat, framing_channelAt hspeaks.fits, Qos.isReliable_framing,
      postingsOf]
    split <;> simp
  rw [hspeaks.counter, hat] at hp
  obtain ⟨d, hd, hinStep⟩ := hstep channel.toNat c hc
  obtain ⟨d', window', accepted, hmessage, hinStep', htracks'⟩ :=
    hinStep.message hd htracks hp hdrawn hbound
  have hbodies : bodies (sender.queue.push (sender.connection.sent channel p).emitted).toList =
      bodies sender.queue.toList ++ p.frames.map fun f => channel :: f.bytes := by
    have hemitted := bodies_datagrams sender.connection
      (p.frames.map fun f => some { channel, frame := f.bytes })
    rw [Backlog.toList_push, bodies, List.map_append]
    congr 1
    exact hemitted.trans (by rw [List.map_map]; rfl)
  refine ⟨⟨_, by rw [hbodies, takeBodies_append htake hmessage], htracks', ?_, ?_⟩⟩
  · intro i other hi
    obtain ⟨hlt, -⟩ := List.getElem?_eq_some_iff.mp hd
    obtain ⟨hltc, -⟩ := List.getElem?_eq_some_iff.mp hc
    simp only [Connection.sent] at hi
    by_cases hi' : channel.toNat = i
    · subst hi'
      rw [List.getElem?_set_self hltc] at hi
      cases hi
      exact ⟨d', List.getElem?_set_self hlt, hinStep'⟩
    · rw [List.getElem?_set_ne hi'] at hi ⊢
      obtain ⟨e, he, hstays⟩ := hstep i other hi
      exact ⟨e, he, hstays.mono (by omega)⟩
  · exact (List.append_assoc _ _ _).symm

theorem Transit.receive (h : Transit n sender receiver returned sent) {header : DataHeader}
    {body : Bytes} {queue : Backlog Bytes}
    (hqueue : sender.queue.toList = (header.bytes ++ body) :: queue.toList) {intake : Intake}
    (htake : takeFrames receiver.connection.channels receiver.connection.window body =
      .ok intake) :
    Transit n { sender with queue }
      { connection := (receiver.connection.received header intake).connection
        queue := receiver.queue.push (receiver.connection.received header intake).emitted }
      (returned ++ intake.messages) sent := by
  obtain ⟨all, hall, htracks, hstep, rfl⟩ := h.taken
  rw [hqueue, bodies, List.map_cons, DataHeader.drop_bytes] at hall
  obtain ⟨first, hfirst, hall⟩ := bind_eq_ok.mp hall
  obtain ⟨last, hlast, hall⟩ := bind_eq_ok.mp hall
  cases htake.symm.trans hfirst
  cases hall
  exact ⟨⟨last, hlast, htracks, hstep, List.append_assoc _ _ _⟩⟩

end

theorem eq_firstIds_of_prefix {n : Nat} {past : List UInt16} (h : past <+: firstIds n) :
    past = firstIds past.length ∧ past.length ≤ n := by
  have hlength := h.length_le
  rw [firstIds, List.length_map, List.length_range] at hlength
  have htake := List.prefix_iff_eq_take.mp h
  rw [firstIds, ← List.map_take, List.take_range, Nat.min_eq_left hlength] at htake
  exact ⟨htake, hlength⟩

theorem missing_of_prefix {n : Nat} (hn : n ≤ 65535) {past : List UInt16}
    (hpast : past <+: firstIds n) {latest : UInt16} {mask : UInt32}
    (h : AckWindow.Reports past latest mask) : (AckWindow.reading latest mask).missing = [] := by
  rw [List.eq_nil_iff_forall_not_mem]
  intro id hid
  obtain ⟨hnew, hpos, hlt, hlatest⟩ := h.missing hid
  obtain ⟨hfirst, hlength⟩ := eq_firstIds_of_prefix hpast
  rw [hfirst] at hlatest hnew
  obtain ⟨k, hk, rfl⟩ := mem_firstIds.mp hlatest
  rw [toNat_idAt (by omega)] at hlt
  rw [ne_eq, ← UInt16.toNat_inj, UInt16.toNat_zero] at hpos
  refine hnew (mem_firstIds.mpr ⟨id.toNat - 1, by omega, ?_⟩)
  rw [← UInt16.toNat_inj, toNat_idAt (by omega)]
  omega

theorem replace_keeps {l : Link} {t : Side} {c : Connection}
    (hchannels : c.channels = (l.side t).connection.channels)
    (hwindow : c.window = (l.side t).connection.window) (u : Side) :
    ((l.replace t c).side u).connection.channels = (l.side u).connection.channels ∧
      ((l.replace t c).side u).connection.window = (l.side u).connection.window ∧
      ((l.replace t c).side u).queue = (l.side u).queue := by
  rcases Side.eq_or_eq_other t u with rfl | rfl
  · rw [replace, side_setSide_self]
    exact ⟨hchannels, hwindow, rfl⟩
  · rw [replace, side_setSide_other]
    exact ⟨rfl, rfl, rfl⟩

theorem receivePing_keeps (c : Connection) (now : UInt32) (ping : Ping) :
    (c.receivePing now ping).connection.channels = c.channels ∧
      (c.receivePing now ping).connection.window = c.window := by
  unfold Connection.receivePing
  split <;> exact ⟨rfl, rfl⟩

section
variable {own : Side → Endpoint} {s : Side} {l l' : Link} {log entries : List Entry}

theorem Streams.undisturbed {config : Config} (h : Streams config s l log)
    (hsender : (l'.side s).connection.channels = (l.side s).connection.channels)
    (hqueue : (l'.side s).queue = (l.side s).queue)
    (hreceiver : (l'.side s.other).connection.channels = (l.side s.other).connection.channels)
    (hwindow : (l'.side s.other).connection.window = (l.side s.other).connection.window)
    (hacks : ∀ d ∈ (l'.side s.other).queue.toList, d ∈ (l.side s.other).queue.toList) :
    Streams config s l' log where
  ids := by
    rw [hqueue]
    exact h.ids
  quiet := fun d hd => h.quiet d (hacks d hd)
  transit := by
    obtain ⟨intake, htake, htracks, hstep, hsent⟩ := h.transit.taken
    rw [← hreceiver, ← hwindow, ← hqueue] at htake
    rw [← hsender] at hstep
    exact ⟨⟨intake, htake, htracks, hstep, hsent⟩⟩

theorem Streams.replace {config : Config} (h : Streams config s l log) {t : Side} {c : Connection}
    (hchannels : c.channels = (l.side t).connection.channels)
    (hwindow : c.window = (l.side t).connection.window) :
    Streams config s (l.replace t c) log := by
  obtain ⟨hsender, -, hqueue⟩ := replace_keeps hchannels hwindow s
  obtain ⟨hreceiver, hwindow', hacks⟩ := replace_keeps hchannels hwindow s.other
  exact h.undisturbed hsender hqueue hreceiver hwindow' fun d hd => hacks ▸ hd

theorem Streams.sent (h : Streams (own s).config s l log) (hsound : Sound own l log)
    {channel : UInt8} {message : Bytes} {p : Prepared}
    (hchannel : channel.toNat < (own s).config.channels.length)
    (hp : ((l.side s).connection.channelAt channel).prepare message
      (l.side s).connection.nextMessage = .ok p)
    (hl : l' = l.setSide s
      { connection := ((l.side s).connection.sent channel p).connection
        queue := (l.side s).queue.push ((l.side s).connection.sent channel p).emitted })
    (hentries : entries = [.sent s channel message ((l.side s).connection.sent channel p).emitted])
    (hbound : (minted (own s).config s (log ++ entries)).length ≤ 65535) :
    Streams (own s).config s l' (log ++ entries) := by
  subst hl hentries
  obtain ⟨hspeaks, -⟩ := hsound s
  rw [minted_append, minted_sent] at hbound
  constructor
  case ids =>
    have hids := h.ids
    rw [notedBy_append, minted_append, minted_sent, side_setSide_self, Backlog.toList_push,
      waiting_append, hspeaks.waiting_sent hp, List.length_append, firstIds, List.range_add,
      List.map_append, List.map_map]
    rw [firstIds] at hids
    rw [← hids]
    simp [notedBy, Entry.noted, Function.comp_def]
  case quiet =>
    rw [side_setSide_other]
    exact h.quiet
  case transit =>
    have hsent := h.transit.send hspeaks hchannel hp hbound
    rw [minted_append, minted_sent, returnedBy_append, sentBy_append, side_setSide_self,
      side_setSide_other]
    simpa [returnedBy, Entry.returned, sentBy, Entry.accepted] using hsent

theorem Streams.handed (h : Streams (own s).config s l log) (hsound : Sound own l log)
    (hpeers : Peers own s) (halive : Alive l)
    (hsilent : minted (own s.other).config s.other log = [])
    (hh : Handover s 0 false l l' entries) : Streams (own s).config s l' (log ++ entries) := by
  have hmem := List.mem_of_getElem? hh.waiting
  have hids := hsound.noted_arriving hpeers halive hmem
  have hqueue := hh.queue_eq
  obtain ⟨header, body, hd, -⟩ := (hsound s).1.queued _ hmem
  have hreceived := hh.received
  rw [hd] at hmem hreceived hqueue
  obtain ⟨intake, htake, hstep⟩ := Connection.receive_accepted (hsound.short s.other)
    (hsound.accepts hpeers halive hmem) hreceived
  constructor
  case ids =>
    rw [hh.notedBy_eq, if_pos rfl, hids, hh.minted_eq, hh.near, ← h.ids, hh.queue_eq,
      List.append_assoc]
    congr 1
    rw [waiting, waiting, List.filterMap_cons]
    cases carried (own s).config hh.datagram <;> rfl
  case quiet =>
    rw [hh.far, Backlog.toList_push, hstep]
    intro d hd'
    rcases List.mem_append.mp hd' with hd' | hd'
    · exact h.quiet d hd'
    · rw [Connection.emitted_received_of_empty (hsound.keeps_nothing hsilent)] at hd'
      obtain ⟨n, body, hbody, rfl⟩ := Connection.mem_datagrams hd'
      obtain ⟨-, rfl⟩ := List.mem_replicate.mp hbody
      exact Transfer.ofDatagram?_bytes _ _
  case transit =>
    rw [hh.minted_eq, hh.returnedBy_eq, if_pos rfl, hh.sentBy_eq, hh.near, hh.far, hstep]
    exact h.transit.receive hqueue htake

theorem Streams.answered (h : Streams (own s.other).config s.other l log)
    (hsound : Sound own l log) {index : Nat} {keep : Bool} (hh : Handover s index keep l l' entries)
    (hbound : (minted (own s.other).config s.other log).length ≤ 65535) :
    Streams (own s.other).config s.other l' (log ++ entries) := by
  have hmem := List.mem_of_getElem? hh.waiting
  have hquiet := h.quiet hh.datagram (by rwa [Side.other_other])
  have hkeeps : hh.step.connection.channels = (l.side s.other).connection.channels ∧
      hh.step.emitted = [] := by
    rcases Connection.receive_cases (hsound.short s.other) hh.received with
      ⟨hstep, -⟩ | ⟨header, body, intake, hd, -, htake, -, hstep⟩
    · rw [hstep]
      exact ⟨rfl, rfl⟩
    obtain rfl : body = [] := by
      rw [hd, Transfer.ofDatagram?, DataHeader.drop_bytes] at hquiet
      cases body with
      | nil => rfl
      | cons channel frame => cases hquiet
    rw [takeFrames_nil] at htake
    cases htake
    rw [hd] at hmem
    obtain ⟨past, hpast, hreports⟩ := (hsound s).2.report hmem
    have hids := h.ids
    rw [Side.other_other] at hids
    have hmissing := missing_of_prefix hbound
      (hpast.trans (hids ▸ List.prefix_append _ _)) hreports
    rw [hstep, Connection.received, hmissing]
    exact ⟨rfl, rfl⟩
  have hstays : Streams (own s.other).config s.other l' log := by
    apply h.undisturbed
    · rw [hh.far]
      exact hkeeps.1
    · rw [hh.far, hkeeps.2]
      rfl
    · rw [Side.other_other, hh.near]
    · rw [Side.other_other, hh.near]
    · rw [Side.other_other, hh.near]
      exact hh.subset
  have hnone : ¬ s.other.other = s.other := Side.other_ne _
  have hnoted := hh.notedBy_eq s.other.other log
  have hreturned := hh.returnedBy_eq s.other.other log
  rw [if_neg hnone, List.append_nil] at hnoted hreturned
  constructor
  case ids =>
    rw [hnoted, hh.minted_eq]
    exact hstays.ids
  case quiet => exact hstays.quiet
  case transit =>
    rw [hh.minted_eq, hreturned, hh.sentBy_eq]
    exact hstays.transit

theorem Streams.next (h : Streams (own s).config s l log) (hsound : Sound own l log)
    (hpeers : Peers own s) (halive : Alive l)
    (hsilent : minted (own s.other).config s.other log = []) {e : Event}
    (he : e.Streaming (own s).config s) (hnext : l.next e = .ok (l', entries))
    (hbound : (minted (own s).config s (log ++ entries)).length ≤ 65535) :
    Streams (own s).config s l' (log ++ entries) := by
  cases e with
  | send t channel message =>
    obtain ⟨rfl, hchannel⟩ := he
    rcases next_send (hsound.short t) hnext with ⟨rfl, rfl⟩ | ⟨p, -, hp, hl, hentries⟩
    · rwa [List.append_nil]
    · exact h.sent hsound hchannel hp hl hentries hbound
  | deliver t index keep =>
    obtain ⟨rfl, rfl⟩ := he
    rcases next_deliver hnext with ⟨-, rfl, rfl⟩ | ⟨⟨hh⟩⟩
    · rwa [List.append_nil]
    rcases Side.eq_or_eq_other t s with rfl | rfl
    · exact h.handed hsound hpeers halive hsilent hh
    · rw [minted_append, List.length_append] at hbound
      exact h.answered hsound hh (by omega)
  | lose t index =>
    cases hnext
    obtain rfl : t = s.other := he
    rw [List.append_nil]
    by_cases hi : index < (l.side s.other).queue.toList.length
    · obtain ⟨queue, hq, hdrop⟩ := l.toList_drop s.other hi
      rw [hdrop]
      apply h.undisturbed
      · rw [side_other_setSide]
      · rw [side_other_setSide]
      · rw [side_setSide_self]
      · rw [side_setSide_self]
      · rw [side_setSide_self, hq]
        exact fun d hd => (List.eraseIdx_sublist _ _).subset hd
    · rw [Backlog.length_toList] at hi
      simpa [drop, hi] using h
  | greet t now =>
    cases hnext
    rw [List.append_nil]
    exact h.replace rfl rfl
  | ping t now ping =>
    cases hnext
    rw [List.append_nil]
    exact h.replace (receivePing_keeps _ now ping).1 (receivePing_keeps _ now ping).2
  | disconnect t => exact he.elim

theorem Event.Streaming.silent {config : Config} {e : Event} (he : e.Streaming config s)
    (hsound : Sound own l log) (hnext : l.next e = .ok (l', entries)) (other : Config) :
    minted other s.other entries = [] := by
  cases e with
  | send t channel message =>
    obtain ⟨rfl, -⟩ := he
    rcases next_send (hsound.short t) hnext with ⟨-, rfl⟩ | ⟨p, -, -, -, rfl⟩
    · rfl
    · simp [minted, Entry.postings]
  | deliver t index keep =>
    rcases next_deliver hnext with ⟨-, -, rfl⟩ | ⟨⟨hh⟩⟩
    · rfl
    · exact congrArg (minted other s.other) hh.logged
  | lose t index =>
    cases hnext
    rfl
  | greet t now =>
    cases hnext
    rfl
  | ping t now ping =>
    cases hnext
    rfl
  | disconnect t => exact he.elim

end

section
variable {a b : Endpoint} (hpair : Paired a b) (s : Side)
include hpair

theorem Paired.streams_start : Streams a.config s (start a b) [] where
  ids := by
    rw [side_start]
    rfl
  quiet := by
    rw [side_start]
    simp
  transit := by
    have hshort := hpair.short
    rw [side_start, side_start]
    refine ⟨⟨_, rfl, ?_, ?_, rfl⟩⟩
    · rw [Connection.start, hpair.endpoints_config, hshort]
      exact AckWindow.tracks_fresh
    · intro i c hc
      simp only [Connection.start, hpair.endpoints_config] at hc ⊢
      rw [List.getElem?_map] at hc
      obtain ⟨q, hq, rfl⟩ := Option.map_eq_some_iff.mp hc
      exact ⟨.ofQos q, by rw [List.getElem?_map, hq]; rfl, Channel.inStep_ofQos q⟩

theorem Paired.streams_run {events : List Event} (hstream : ∀ e ∈ events, e.Streaming a.config s)
    {l : Link} {log : List Entry} (hrun : (start a b).run events = .ok (l, log))
    (hbound : (minted a.config s log).length ≤ 65535) : Streams a.config s l log := by
  have hconfig := hpair.endpoints_config
  refine (run_induction
    (P := fun l log => Sound (endpoints a b) l log ∧ Alive l ∧ minted a.config s.other log = [] ∧
      ((minted a.config s log).length ≤ 65535 → Streams a.config s l log))
    (Event.Streaming a.config s)
    ⟨hpair.sound_start, ?_, rfl, fun _ => hpair.streams_start s⟩ ?_ hstream hrun).2.2.2 hbound
  · intro t
    rw [side_start]
    exact Phase.noConfusion
  · intro l log e l' entries ⟨hsound, halive, hsilent, hstreams⟩ he hnext
    refine ⟨hsound.next hnext, halive.next hsound he.orderly.ne_disconnect hnext, ?_,
      fun hcount => ?_⟩
    · rw [minted_append, hsilent, he.silent hsound hnext]
      rfl
    · have hold : (minted a.config s log).length ≤ 65535 := by
        rw [minted_append, List.length_append] at hcount
        omega
      have hall := (hconfig s ▸ hstreams hold : Streams (endpoints a b s).config s l log).next
        hsound (hpair.peers s) halive (by rwa [hconfig]) (by rwa [hconfig]) hnext (by rwa [hconfig])
      rwa [hconfig] at hall

/-- A side streams over its channels. The other side returns the messages that were not refused, in
the order of sending; all of them when nothing is on its way any more. -/
theorem stream_returned_in_order (hvalid : a.config.validate = .ok ()) {events : List Event}
    (hstream : ∀ e ∈ events, e.Streaming a.config s) :
    ∃ l log, (start a b).run events = .ok (l, log) ∧
      ((minted a.config s log).length ≤ 65535 →
        returnedBy s.other log <+: sentBy s log ∧
          ((l.side s).queue.toList = [] → returnedBy s.other log = sentBy s log)) := by
  obtain ⟨l, log, hrun⟩ := hpair.run_ok hvalid events
  refine ⟨l, log, hrun, fun hbound => ?_⟩
  obtain ⟨intake, htake, -, -, hsent⟩ := (hpair.streams_run s hstream hrun hbound).transit.taken
  rw [← hsent]
  refine ⟨List.prefix_append _ _, fun hempty => ?_⟩
  rw [hempty] at htake
  cases htake
  exact (List.append_nil _).symm

end

def mixedEnd (session peerSession : UInt16) : Endpoint :=
  { standardEnd session peerSession with
    config := { Config.standard with
      channels := [.unreliable, .unreliableSequenced, .reliable, .reliableSequenced,
        .reliableFragmented, .allCostDelivery] } }

def mixedRun : List Event :=
  [.send .left 4 (List.replicate 600 7), .send .left 0 [10], .deliver .left 0 false,
    .send .left 2 [20], .deliver .right 0 false, .lose .right 1, .deliver .left 0 false,
    .deliver .left 0 false, .send .left 3 [], .send .left 1 [30], .deliver .left 0 false,
    .deliver .right 0 false, .send .left 5 [40], .deliver .left 0 false,
    .deliver .left 0 false, .deliver .left 0 false]

theorem stream_returned_in_order_mixed :
    ∃ l log, (start (mixedEnd 1 2) (mixedEnd 2 1)).run mixedRun = .ok (l, log) ∧
      (minted (mixedEnd 1 2).config .left log).length = 5 ∧ (l.side .left).queue.toList = [] ∧
      returnedBy .right log = [⟨4, List.replicate 600 7⟩, ⟨0, [10]⟩, ⟨2, [20]⟩, ⟨3, []⟩, ⟨1, [30]⟩,
        ⟨5, [40]⟩] := by
  have hpair : Paired (mixedEnd 1 2) (mixedEnd 2 1) := ⟨rfl, rfl, rfl, rfl, rfl⟩
  obtain ⟨l, log, hrun, hall⟩ := stream_returned_in_order hpair .left
    (Config.validate_eq_ok.mpr (by decide))
    (show ∀ e ∈ mixedRun, e.Streaming (mixedEnd 1 2).config .left by decide +kernel)
  obtain ⟨l', log', hrun', heval⟩ := run_of_eval (start (mixedEnd 1 2) (mixedEnd 2 1)) mixedRun
    (fun r => ((minted (mixedEnd 1 2).config .left r.2).length, (r.1.side .left).queue.toList,
      sentBy .left r.2))
    (5, [], [⟨4, List.replicate 600 7⟩, ⟨0, [10]⟩, ⟨2, [20]⟩, ⟨3, []⟩, ⟨1, [30]⟩, ⟨5, [40]⟩])
    (by decide +kernel)
  cases hrun.symm.trans hrun'
  have hcount : (minted (mixedEnd 1 2).config .left log).length = 5 := congrArg Prod.fst heval
  have hempty : (l.side .left).queue.toList = [] := congrArg (fun r => r.2.1) heval
  have hsent := congrArg (fun r => r.2.2) heval
  exact ⟨l, log, hrun, hcount, hempty, ((hall (by omega)).2 hempty).trans hsent⟩

end DatagramTransport.Link
