import DatagramTransport.Proofs.Connection.Room
import DatagramTransport.Proofs.Link.Custody

/-!
# An exchange between ends at rest

A message is sent on a reliable channel, and its datagram and the echoes it
causes all arrive. The sender keeps the frame until the first echo, which
evicts whatever it reports. The receiver answers only if its window takes the
message for a new one.
-/

set_option autoImplicit false

namespace DatagramTransport

namespace AckWindow

def full (latest : UInt16) : AckWindow where
  mode := .short
  latest := latest
  mask := .allOnes ackSpan

theorem full_zero : full 0 = fresh .short := rfl

theorem record_full_same (latest : UInt16) : (full latest).record latest = (full latest, false) :=
  if_pos rfl

theorem record_full_late {latest id : UInt16} (h : id < latest) :
    (full latest).record id = (full latest, true) := by
  have hne : id ≠ latest := UInt16.ne_of_lt h
  have hle : ¬ latest < id := UInt16.lt_asymm h
  simp [record, full, hne, hle]

theorem record_full_next {latest id : UInt16} (h : id.toNat = latest.toNat + 1) :
    (full latest).record id = (full id, true) := by
  have hlt : latest < id := by
    rw [UInt16.lt_iff_toNat_lt]
    omega
  have hdiff : (id - latest).toNat = 1 := by
    rw [UInt16.toNat_sub_of_le _ _ (UInt16.le_of_lt hlt)]
    omega
  have hmask : BitVec.allOnes ackSpan <<< 1 ||| BitVec.twoPow ackSpan 0 =
      BitVec.allOnes ackSpan := by decide
  simp [record, full, Ne.symm (UInt16.ne_of_lt hlt), hlt, hdiff, hmask]

def fullMask : UInt32 := .ofBitVec (.allOnes ackSpan)

theorem getLsbD_fullMask {i : Nat} (h : i < ackSpan) : fullMask.toBitVec.getLsbD i = true := by
  have hbit : (BitVec.allOnes ackSpan).getLsbD i = decide (i < ackSpan) :=
    BitVec.getLsbD_allOnes
  rw [decide_eq_true h] at hbit
  exact hbit

theorem missing_full (latest : UInt16) : (reading latest fullMask).missing = [] := by
  rw [List.eq_nil_iff_forall_not_mem]
  intro id hid
  obtain ⟨i, hi, hbit, -⟩ := mem_missing.mp hid
  rw [getLsbD_fullMask hi] at hbit
  cases hbit

theorem mem_received_full {latest id : UInt16} :
    id ∈ (reading latest fullMask).received ↔ ∃ i < ackSpan, latest - .ofNat i = id := by
  rw [mem_received]
  constructor
  · rintro ⟨i, hi, -, heq⟩
    exact ⟨i, hi, heq⟩
  · rintro ⟨i, hi, heq⟩
    exact ⟨i, hi, getLsbD_fullMask hi, heq⟩

end AckWindow

namespace Link

def exchange (l : Link) (channel : UInt8) (message : Bytes) (limit : Nat) :
    Except Fault Flushed :=
  (l.send .left channel message).link.flush limit

structure Idle (own : Endpoint) (window : AckWindow) (next : UInt16) (e : LinkEnd) : Prop where
  endpoint : e.connection.endpoint = own
  alive : e.connection.phase ≠ .disconnected
  window : e.connection.window = window
  next : e.connection.nextMessage = next
  channels : e.connection.channels = own.config.channels.map .ofQos
  queue : e.queue.toList = []

section
variable {left right : LinkEnd} {datagrams limit : Nat} {toLeft toRight : Array Message}

theorem flushFrom_stop (hl : left.queue.toList = []) (hr : right.queue.toList = []) :
    flushFrom left right datagrams toLeft toRight limit =
      .ok { link := { left, right }, datagrams, toLeft, toRight } := by
  rw [flushFrom.eq_def, dif_pos]
  simp [LinkEnd.handOver, hl, hr]

theorem flushFrom_left {d : Bytes} {ds : List Bytes} (hl : left.queue.toList = d :: ds)
    (hr : right.queue.toList = []) (hlimit : 0 < limit) {step : Step (List Message)}
    (hd : right.connection.receive d = .ok step) :
    flushFrom left right datagrams toLeft toRight limit =
      flushFrom { left with queue := left.queue.pop.2 }
        { connection := step.connection, queue := right.queue.pop.2.push step.emitted }
        (datagrams + 1) toLeft (toRight ++ step.answer) (limit - 1) := by
  have hne : limit ≠ 0 := by omega
  rw [flushFrom.eq_def, dif_neg (by simp [LinkEnd.handOver, hl, hr, hne])]
  simp [LinkEnd.handOver, hl, hr, LinkEnd.take, hd, bind, Except.bind, pure, Except.pure]

theorem flushFrom_right {d : Bytes} {ds : List Bytes} (hl : left.queue.toList = [])
    (hr : right.queue.toList = d :: ds) (hlimit : 0 < limit) {step : Step (List Message)}
    (hd : left.connection.receive d = .ok step) :
    flushFrom left right datagrams toLeft toRight limit =
      flushFrom { connection := step.connection, queue := left.queue.pop.2.push step.emitted }
        { right with queue := right.queue.pop.2 }
        (datagrams + 1) (toLeft ++ step.answer) toRight (limit - 1) := by
  have hne : limit ≠ 0 := by omega
  rw [flushFrom.eq_def, dif_neg (by simp [LinkEnd.handOver, hl, hr, hne])]
  simp [LinkEnd.handOver, hl, hr, LinkEnd.take, hd, bind, Except.bind, pure, Except.pure]

end

section
variable {own a b : Endpoint} {latest next : UInt16} {window : AckWindow} {e : LinkEnd}
  {header : DataHeader}

theorem Idle.accepts (h : Idle own window next e) (hid : header.connection = own.id)
    (hsession : header.session = own.peerSession) : e.connection.accepts header = true := by
  simp [Connection.accepts, h.endpoint, hid, hsession, h.alive]

theorem Idle.roomy (h : Idle own (.full latest) next e) (hshort : own.config.ackMode = .short)
    (hroom : own.config.maxDatagramLength ≤ 65535) : e.connection.Roomy where
  window := by
    rw [h.window]
    rfl
  config := by rwa [h.endpoint]
  room := by
    rw [h.endpoint]
    exact Nat.le_trans hroom (by decide)

theorem received_echo (c : Connection) (hmask : header.ackMask = AckWindow.fullMask) :
    c.received header
        { channels := c.channels, window := c.window, messages := [], accepted := false } =
      { connection := c.confirm (AckWindow.reading header.ackLatest AckWindow.fullMask).received
        emitted := [], answer := [] } := by
  simp [Connection.received, hmask, AckWindow.missing_full, Connection.kept,
    Connection.datagrams, Connection.advance, Connection.confirm]

/-- A pure acknowledgement of the end with this endpoint. -/
def Echo (own : Endpoint) (latest : UInt16) (datagram : Bytes) : Prop :=
  ∃ header : DataHeader, datagram = header.bytes ++ bodyBytes none ∧
    header.connection = own.id ∧ header.session = own.session ∧
    header.ackLatest = latest ∧ header.ackMask = AckWindow.fullMask

theorem Idle.echo (h : Idle a (.full 0) next e) (hpair : Paired a b)
    (hroom : a.config.maxDatagramLength ≤ 65535) {d : Bytes} (hd : Echo b latest d) :
    e.connection.receive d =
      .ok { connection :=
              e.connection.confirm (AckWindow.reading latest AckWindow.fullMask).received
            emitted := [], answer := [] } := by
  obtain ⟨header, rfl, hid, hsession, rfl, hmask⟩ := hd
  rw [← received_echo e.connection hmask]
  apply (h.roomy hpair.short hroom).receive
  · exact h.accepts (hid.trans hpair.id) (hsession.trans hpair.sessions.1.symm)
  · exact takeFrames_nil _ _

theorem Idle.confirm (h : Idle own window next e) (ids : List UInt16) {queue : Backlog Bytes}
    (hq : queue.toList = []) :
    Idle own window next { connection := e.connection.confirm ids, queue } :=
  ⟨h.endpoint, h.alive, h.window, h.next, h.channels, hq⟩

theorem mem_confirm (c : Connection) (ids : List UInt16) (id : UInt16) :
    id ∈ (c.confirm ids).pending ↔ id ∈ c.pending ∧ id ∉ ids := by
  rw [Std.ExtTreeMap.mem_iff_isSome_getElem?, Std.ExtTreeMap.mem_iff_isSome_getElem?,
    Connection.getElem?_confirm]
  split
  · simp_all
  · simp_all

theorem flushFrom_echoes (hpair : Paired a b) (hroom : a.config.maxDatagramLength ≤ 65535)
    {left right : LinkEnd} {datagrams limit : Nat} {toLeft toRight : Array Message}
    {echoes : List Bytes} (hleft : Idle a (.full 0) next left)
    (hq : right.queue.toList = echoes) (hechoes : ∀ d ∈ echoes, Echo b latest d)
    (hlimit : echoes.length ≤ limit) :
    ∃ done, flushFrom left right datagrams toLeft toRight limit = .ok done ∧
      done.toRight = toRight ∧ done.link.right.connection = right.connection ∧
      done.link.right.queue.toList = [] ∧ Idle a (.full 0) next done.link.left ∧
      ∀ id, id ∈ done.link.left.connection.pending ↔ id ∈ left.connection.pending ∧
        (echoes = [] ∨ id ∉ (AckWindow.reading latest AckWindow.fullMask).received) := by
  induction echoes generalizing left right datagrams limit toLeft toRight with
  | nil =>
    rw [flushFrom_stop hleft.queue hq]
    exact ⟨_, rfl, rfl, rfl, hq, hleft, by simp⟩
  | cons d ds ih =>
    rw [List.length_cons] at hlimit
    have hrestLimit : ds.length ≤ limit - 1 := by omega
    have hd := hleft.echo hpair hroom (hechoes d List.mem_cons_self)
    rw [flushFrom_right hleft.queue hq (by omega) hd]
    have hempty : (left.queue.pop.2.push []).toList = [] := by
      rw [Backlog.toList_push, Backlog.toList_pop, hleft.queue]
      rfl
    have hrest : ({ right with queue := right.queue.pop.2 } : LinkEnd).queue.toList = ds := by
      rw [Backlog.toList_pop, hq]
      rfl
    obtain ⟨done, hdone, htoRight, hconn, hqueue, hidle, hpending⟩ :=
      ih (hleft.confirm _ hempty) hrest (fun d hd => hechoes d (List.mem_cons_of_mem _ hd))
        hrestLimit
    refine ⟨done, hdone, htoRight, hconn, hqueue, hidle, fun id => ?_⟩
    rw [hpending id, mem_confirm]
    constructor
    · rintro ⟨⟨hid, hnew⟩, -⟩
      exact ⟨hid, .inr hnew⟩
    · rintro ⟨hid, hnone | hnew⟩
      · cases hnone
      · exact ⟨⟨hid, hnew⟩, .inr hnew⟩

/-- The message is within the limits for a reliable channel. -/
structure Admits (config : Config) (message : Bytes) : Prop where
  whole : message.length ≤ config.maxMessageLength
  datagram : DataHeader.encodedLength + Channel.reliable.headerLength + message.length ≤
    config.maxDatagramLength

theorem ofQos_reliable {config : Config} {channel : UInt8}
    (hq : config.channelQos channel = .reliable ∨ config.channelQos channel = .allCostDelivery) :
    (config.channels.map Channel.ofQos)[channel.toNat]? = some .reliable := by
  rw [List.getElem?_map]
  unfold Config.channelQos at hq
  cases hc : config.channels[channel.toNat]? with
  | none => simp [hc] at hq
  | some q =>
    have hframing : q.framing = .reliable := Qos.framing_eq_reliable.mpr (by simpa [hc] using hq)
    rw [← Channel.framing_ofQos] at hframing
    rw [Option.map_some, Channel.eq_reliable hframing]

theorem set_of_getElem? {α : Type} {l : List α} {i : Nat} {x : α} (h : l[i]? = some x) :
    l.set i x = l := by
  obtain ⟨hlt, rfl⟩ := List.getElem?_eq_some_iff.mp h
  exact List.set_getElem_self hlt

def reliableTransfer (channel : UInt8) (place : Nat) (message : Bytes) : Transfer where
  channel := channel
  frame := (Layout.reliable (idAt place)).frame message

theorem Admits.valid {config : Config} {message : Bytes} (h : Admits config message)
    (hroom : config.maxDatagramLength ≤ 65535) (id : UInt16) :
    (Layout.reliable id).Valid message := by
  have hlength := h.datagram
  simp only [DataHeader.encodedLength, Channel.headerLength] at hlength
  refine ⟨?_, trivial⟩
  have hheader : (Layout.reliable id).header.length = 2 := rfl
  rw [hheader, framePrefixLength]
  omega

theorem Idle.send {place : Nat} (h : Idle a (.full 0) (idAt place) e)
    (hshort : a.config.ackMode = .short) (hroom : a.config.maxDatagramLength ≤ 65535)
    {channel : UInt8} (hq : a.config.channelQos channel = .reliable ∨
      a.config.channelQos channel = .allCostDelivery)
    {message : Bytes} (hfit : Admits a.config message) :
    e.connection.send channel message =
      { connection :=
          { e.connection with
            nextMessage := idAt (place + 1)
            pending := e.connection.pending.insert (idAt place)
              (reliableTransfer channel place message)
            nextPacket := e.connection.nextPacket + 1 }
        emitted := [e.connection.header.bytes ++
          bodyBytes (some (reliableTransfer channel place message))]
        answer := .ok () } := by
  have hchannel : e.connection.channels[channel.toNat]? = some .reliable := by
    rw [h.channels]
    exact ofQos_reliable hq
  have hat : e.connection.channelAt channel = .reliable := by
    rw [Connection.channelAt, hchannel]
    rfl
  have hcheck : e.connection.checkSend (e.connection.channelAt channel) message = .ok () := by
    rw [hat, Connection.checkSend_eq_ok, h.endpoint]
    exact ⟨hfit.whole, h.alive, .inr hfit.datagram⟩
  have hprepare := Channel.prepare_reliable.mpr ⟨hfit.valid hroom e.connection.nextMessage, rfl⟩
  rw [← hat] at hprepare
  rw [(h.roomy hshort hroom).send hcheck hprepare, Connection.sent]
  have hset : e.connection.channels.set channel.toNat .reliable = e.connection.channels :=
    set_of_getElem? hchannel
  have hnext : idAt place + 1 = idAt (place + 1) := idAt_add place 1
  simp only [hat, hset, h.next, hnext]
  rfl

structure Taken (own : Endpoint) (latest next : UInt16) (isNew : Bool) (message : Message)
    (step : Step (List Message)) : Prop where
  answer : step.answer = if isNew then [message] else []
  idle : ∀ queue : Backlog Bytes, queue.toList = [] →
    Idle own (.full latest) next { connection := step.connection, queue }
  empty : ∀ id, id ∉ step.connection.pending
  echoes : ∀ d ∈ step.emitted, Echo own latest d
  count : step.emitted.length = if isNew then own.config.ackEchoes else 0

theorem Idle.receive {place : Nat} {latest' : UInt16} {isNew : Bool}
    (h : Idle b (.full latest) next e) (hshort : b.config.ackMode = .short)
    (hroom : b.config.maxDatagramLength ≤ 65535) {channel : UInt8}
    (hq : b.config.channelQos channel = .reliable ∨
      b.config.channelQos channel = .allCostDelivery)
    {message : Bytes} (hfit : Admits b.config message) (hid : header.connection = b.id)
    (hsession : header.session = b.peerSession) (hmask : header.ackMask = AckWindow.fullMask)
    (hrecord : (AckWindow.full latest).record (idAt place) = (.full latest', isNew))
    (hempty : ∀ id, id ∉ e.connection.pending) :
    ∃ step, e.connection.receive
        (header.bytes ++ bodyBytes (some (reliableTransfer channel place message))) = .ok step ∧
      Taken b latest' next isNew ⟨channel, message⟩ step := by
  have hchannel : e.connection.channels[channel.toNat]? = some .reliable := by
    rw [h.channels]
    exact ofQos_reliable hq
  have haccept : Channel.reliable.accept e.connection.window
      ((Layout.reliable (idAt place)).header ++ message) =
        .ok { channel := .reliable, window := .full latest'
              delivered := if isNew then [message] else [], accepted := isNew } := by
    rw [h.window, Channel.accept_reliable, hrecord]
  have htake := takeFrames_frame hchannel (h := .reliable (idAt place)) rfl
    (hfit.valid hroom (idAt place)) haccept
  rw [set_of_getElem? hchannel] at htake
  have hagain : (e.connection.confirm
      (AckWindow.reading header.ackLatest header.ackMask).received).kept
        (AckWindow.reading header.ackLatest header.ackMask).missing = [] := by
    rw [hmask, AckWindow.missing_full]
    rfl
  refine ⟨_, (h.roomy hshort hroom).receive (h.accepts hid hsession) htake, ?_⟩
  constructor
  case answer => cases isNew <;> rfl
  case idle =>
    intro queue hqueue
    exact ⟨h.endpoint, h.alive, rfl, h.next, h.channels, hqueue⟩
  case empty =>
    intro id hmem
    exact hempty id ((mem_confirm _ _ id).mp hmem).1
  case echoes =>
    intro d hd
    simp only [Connection.received, hagain, Connection.datagrams, List.nil_append] at hd
    obtain ⟨n, body, hbody, rfl⟩ := Connection.mem_datagrams hd
    obtain ⟨-, rfl⟩ := List.mem_replicate.mp hbody
    exact ⟨_, rfl, congrArg Endpoint.id h.endpoint, congrArg Endpoint.session h.endpoint,
      rfl, rfl⟩
  case count =>
    rw [Connection.received, hagain, List.length_append, Connection.length_datagrams,
      Connection.length_datagrams, List.length_replicate, h.endpoint]
    exact Nat.zero_add _

end

end Link

end DatagramTransport
