import DatagramTransport.Proofs.Link.Exchange

/-!
# One exchange after another

Up to the last id of the counter, exchanges leave nothing behind. Then the
counter wraps, and the window does not: it goes on reporting the highest id,
takes the lower ones for late, and drops that id itself when it comes again.
Frames under ids that the report does not cover are kept for good.
-/

set_option autoImplicit false

namespace DatagramTransport.Link

def exchangeAll (channel : UInt8) (limit : Nat) :
    Link → List Bytes → Except Fault (Link × List Message)
  | l, [] => .ok (l, [])
  | l, message :: messages => do
    let done ← l.exchange channel message limit
    let (l, later) ← exchangeAll channel limit done.link messages
    return (l, done.toRight.toList ++ later)

/-- The message with this number is dropped: it has the last id of the counter,
and is not the first one that has it. -/
def Dropped (number : Nat) : Prop := 65535 < number ∧ number % 65536 = 65535

instance (number : Nat) : Decidable (Dropped number) :=
  inferInstanceAs (Decidable (_ ∧ _))

def Stuck (number : Nat) (id : UInt16) : Prop :=
  id.toNat < custodyLimit ∧ id.toNat + 65536 ≤ number ∨ Dropped number ∧ id.toNat = 65535

def highest (number : Nat) : UInt16 := .ofNat (min number 65535)

structure Settled (a b : Endpoint) (number : Nat) (l : Link) : Prop where
  left : Idle a (.full 0) (idAt number) l.left
  right : Idle b (.full (highest number)) 1 l.right
  kept : ∀ id, id ∈ l.left.connection.pending ↔ Stuck number id
  empty : ∀ id, id ∉ l.right.connection.pending

theorem toNat_highest (number : Nat) : (highest number).toNat = min number 65535 :=
  UInt16.toNat_ofNat_of_lt' (Nat.lt_of_le_of_lt (Nat.min_le_right _ _) (by decide))

theorem toNat_idAt_mod (number : Nat) : (idAt number).toNat = (number + 1) % 65536 :=
  UInt16.toNat_ofNat'

/-- The window takes every message, except one with the highest id of all. -/
theorem record_highest (number : Nat) : (AckWindow.full (highest number)).record (idAt number) =
    (.full (highest (number + 1)), !decide (Dropped (number + 1))) := by
  have hid := toNat_idAt_mod number
  have hhigh := toNat_highest number
  have hhigh' := toNat_highest (number + 1)
  by_cases hfirst : number < 65535
  · have hdropped : ¬ Dropped (number + 1) := fun hd => by
      have := hd.1
      omega
    have hsame : idAt number = highest (number + 1) := by
      rw [← UInt16.toNat_inj]
      omega
    rw [AckWindow.record_full_next (by omega), ← hsame]
    simp [hdropped]
  · have hstays : highest (number + 1) = highest number := by
      rw [← UInt16.toNat_inj]
      omega
    rw [hstays]
    by_cases hlast : (number + 1) % 65536 = 65535
    · have hdropped : Dropped (number + 1) := ⟨by omega, hlast⟩
      have hsame : idAt number = highest number := by
        rw [← UInt16.toNat_inj]
        omega
      rw [hsame, AckWindow.record_full_same]
      simp [hdropped]
    · have hdropped : ¬ Dropped (number + 1) := fun hd => hlast hd.2
      have hlt : idAt number < highest number := by
        rw [UInt16.lt_iff_toNat_lt]
        omega
      rw [AckWindow.record_full_late hlt]
      simp [hdropped]

theorem mem_received_highest {latest id : UInt16} (h : 31 ≤ latest.toNat) :
    id ∈ (AckWindow.reading latest AckWindow.fullMask).received ↔
      latest.toNat ≤ id.toNat + 31 ∧ id.toNat ≤ latest.toNat := by
  have hspan : ackSpan = 32 := rfl
  rw [AckWindow.mem_received_full]
  constructor
  · rintro ⟨i, hi, rfl⟩
    rw [AckWindow.toNat_sub_ofNat (by omega)]
    omega
  · intro hid
    refine ⟨latest.toNat - id.toNat, by omega, ?_⟩
    rw [AckWindow.sub_ofNat_eq_iff (by omega)]
    omega

theorem stuck_succ (number : Nat) (id : UInt16) :
    (id = idAt number ∨ Stuck number id) ∧ (Dropped (number + 1) ∨
        id ∉ (AckWindow.reading (highest (number + 1)) AckWindow.fullMask).received) ↔
      Stuck (number + 1) id := by
  have hl : custodyLimit = 65504 := rfl
  have hid := toNat_idAt_mod number
  have hhigh := toNat_highest (number + 1)
  rw [← UInt16.toNat_inj, hid]
  unfold Stuck Dropped
  by_cases hfirst : number < 65535
  · have hreported : id.toNat = (number + 1) % 65536 →
        id ∈ (AckWindow.reading (highest (number + 1)) AckWindow.fullMask).received := by
      intro hnew
      rw [AckWindow.mem_received_full]
      refine ⟨0, by decide, ?_⟩
      rw [AckWindow.sub_ofNat_eq_iff (Nat.zero_le _)]
      omega
    constructor
    · rintro ⟨hnew | hold, hdropped | hnot⟩
      · omega
      · exact absurd (hreported hnew) hnot
      · omega
      · omega
    · omega
  · rw [mem_received_highest (by omega)]
    omega

def comeThrough (channel : UInt8) (number : Nat) (messages : List Bytes) : List Message :=
  ((messages.zipIdx number).filter fun m => ¬ Dropped m.2).map fun m => ⟨channel, m.1⟩

theorem comeThrough_cons (channel : UInt8) (number : Nat) (message : Bytes)
    (messages : List Bytes) : comeThrough channel number (message :: messages) =
      (if Dropped number then [] else [⟨channel, message⟩]) ++
        comeThrough channel (number + 1) messages := by
  rw [comeThrough, List.zipIdx_cons, List.filter_cons]
  by_cases hd : Dropped number <;> simp [hd, comeThrough]

theorem comeThrough_append (channel : UInt8) (number : Nat) (before after : List Bytes) :
    comeThrough channel number (before ++ after) =
      comeThrough channel number before ++ comeThrough channel (number + before.length) after := by
  simp [comeThrough, List.zipIdx_append]

theorem length_comeThrough_le (channel : UInt8) (number : Nat) (messages : List Bytes) :
    (comeThrough channel number messages).length ≤ messages.length := by
  rw [comeThrough, List.length_map]
  exact Nat.le_trans (List.length_filter_le _ _) (Nat.le_of_eq List.length_zipIdx)

theorem comeThrough_eq_map (channel : UInt8) {number : Nat} {messages : List Bytes}
    (h : number + messages.length ≤ 65536) :
    comeThrough channel number messages = messages.map fun m => ⟨channel, m⟩ := by
  induction messages generalizing number with
  | nil => rfl
  | cons message messages ih =>
    rw [List.length_cons] at h
    have hdropped : ¬ Dropped number := fun hd => by
      have := hd.1
      omega
    rw [comeThrough_cons, if_neg hdropped, ih (by omega)]
    rfl

section
variable {a b : Endpoint} {l : Link} {number limit : Nat} {channel : UInt8}

theorem Settled.start (hpair : Paired a b) : Settled a b 0 (Link.start a b) where
  left := ⟨rfl, Phase.noConfusion, by rw [AckWindow.full_zero, ← hpair.short]; rfl, rfl, rfl,
    Backlog.toList_ofList _⟩
  right := ⟨rfl, Phase.noConfusion, by
    rw [show highest 0 = 0 from rfl, AckWindow.full_zero, ← hpair.short, ← hpair.config]; rfl,
    rfl, rfl, Backlog.toList_ofList _⟩
  kept := by
    intro id
    simp [Link.start, Connection.start, Stuck, Dropped]
  empty := by simp [Link.start, Connection.start]

variable (hpair : Paired a b) (hroom : a.config.maxDatagramLength ≤ 65535)
  (hq : a.config.channelQos channel = .reliable ∨
    a.config.channelQos channel = .allCostDelivery)
include hpair hroom hq

theorem Settled.taken (h : Settled a b number l) {message : Bytes}
    (hfit : Admits a.config message) :
    ∃ step, l.right.connection.receive (l.left.connection.header.bytes ++
        bodyBytes (some (reliableTransfer channel number message))) = .ok step ∧
      Taken b (highest (number + 1)) 1 (!decide (Dropped (number + 1))) ⟨channel, message⟩
        step := by
  have hid : l.left.connection.header.connection = b.id := by
    rw [hpair.id, ← h.left.endpoint]
    rfl
  have hsession : l.left.connection.header.session = b.peerSession := by
    rw [hpair.sessions.2, ← h.left.endpoint]
    rfl
  have hmask : l.left.connection.header.ackMask = AckWindow.fullMask := by
    rw [Connection.header, h.left.window]
    rfl
  have hshort : b.config.ackMode = .short := by rw [hpair.config, hpair.short]
  rw [← hpair.config] at hroom hq hfit
  exact h.right.receive hshort hroom hq hfit hid hsession hmask (record_highest number) h.empty

variable (hechoes : 1 ≤ a.config.ackEchoes) (hlimit : a.config.ackEchoes < limit)
include hechoes hlimit

theorem Settled.exchange (h : Settled a b number l) {message : Bytes}
    (hfit : Admits a.config message) :
    ∃ done, l.exchange channel message limit = .ok done ∧ Settled a b (number + 1) done.link ∧
      done.toRight.toList = if Dropped (number + 1) then [] else [⟨channel, message⟩] := by
  obtain ⟨step, hreceive, htaken⟩ := h.taken hpair hroom hq hfit
  have hcount := htaken.count
  rw [hpair.config] at hcount
  have hsend := h.left.send hpair.short hroom hq hfit
  have hsent : (l.send .left channel message).link = l.setSide .left
      { connection := (l.left.connection.send channel message).connection
        queue := l.left.queue.push (l.left.connection.send channel message).emitted } := rfl
  rw [Link.exchange, Link.flush, hsent, hsend, Link.setSide]
  rw [flushFrom_left (by rw [Backlog.toList_push, h.left.queue]; rfl) h.right.queue (by omega)
    hreceive]
  have hidle : Idle a (.full 0) (idAt (number + 1))
      { connection :=
          { l.left.connection with
            nextMessage := idAt (number + 1)
            pending := l.left.connection.pending.insert (idAt number)
              (reliableTransfer channel number message)
            nextPacket := l.left.connection.nextPacket + 1 }
        queue := (l.left.queue.push [l.left.connection.header.bytes ++
          bodyBytes (some (reliableTransfer channel number message))]).pop.2 } := by
    refine ⟨h.left.endpoint, h.left.alive, h.left.window, rfl, h.left.channels, ?_⟩
    rw [Backlog.toList_pop, Backlog.toList_push, h.left.queue]
    rfl
  have hqueue : ({ connection := step.connection
                   queue := l.right.queue.pop.2.push step.emitted } : LinkEnd).queue.toList =
      step.emitted := by
    rw [Backlog.toList_push, Backlog.toList_pop, h.right.queue]
    rfl
  have hanswered : step.emitted = [] ↔ Dropped (number + 1) := by
    rw [← List.length_eq_zero_iff, hcount]
    by_cases hd : Dropped (number + 1)
    · simp [hd]
    · simp [hd]
      omega
  have hfew : step.emitted.length ≤ limit - 1 := by
    rw [hcount]
    split <;> omega
  obtain ⟨done, hdone, htoRight, hconn, hrest, hleft, hkept⟩ :=
    flushFrom_echoes hpair hroom hidle hqueue htaken.echoes hfew
  have hsame : done.link.right.connection = step.connection := hconn
  refine ⟨done, hdone, ?_, ?_⟩
  · constructor
    case left => exact hleft
    case right =>
      have hidle := htaken.idle done.link.right.queue hrest
      rwa [← hsame] at hidle
    case kept =>
      intro id
      rw [hkept, hanswered, ← stuck_succ, Std.ExtTreeMap.mem_insert, h.kept,
        Std.compare_eq_iff_eq, eq_comm]
    case empty =>
      rw [hsame]
      exact htaken.empty
  · rw [htoRight, htaken.answer]
    by_cases hd : Dropped (number + 1) <;> simp [hd]

theorem Settled.exchangeAll (h : Settled a b number l) {messages : List Bytes}
    (hfit : ∀ message ∈ messages, Admits a.config message) :
    ∃ l', l.exchangeAll channel limit messages =
        .ok (l', comeThrough channel (number + 1) messages) ∧
      Settled a b (number + messages.length) l' := by
  induction messages generalizing l number with
  | nil => exact ⟨l, rfl, h⟩
  | cons message messages ih =>
    obtain ⟨done, hdone, hsettled, hreturned⟩ :=
      h.exchange hpair hroom hq hechoes hlimit (hfit message List.mem_cons_self)
    obtain ⟨l', hl', hsettled'⟩ := ih hsettled fun m hm => hfit m (List.mem_cons_of_mem _ hm)
    rw [Nat.add_right_comm, Nat.add_assoc, ← List.length_cons] at hsettled'
    refine ⟨l', ?_, hsettled'⟩
    rw [Link.exchangeAll, hdone]
    simp only [bind, Except.bind, hl', hreturned, comeThrough_cons]
    rfl

end

theorem not_stuck {number : Nat} (h : number ≤ 65535) (id : UInt16) : ¬ Stuck number id := by
  unfold Stuck Dropped
  omega

theorem admits_standard {message : Bytes} (h : message.length ≤ 1455) :
    Admits .standard message := by
  refine ⟨Nat.le_trans h (by decide), ?_⟩
  have hheader : DataHeader.encodedLength + Channel.reliable.headerLength = 17 := rfl
  have hroom : Config.standard.maxDatagramLength = 1472 := rfl
  omega

/-- After any number of exchanges the frames that stay are known from their number, and the messages
that came through from theirs. -/
theorem exchanges_settle {a b : Endpoint} (hpair : Paired a b)
    (hvalid : a.config.validate = .ok ()) (hechoes : 1 ≤ a.config.ackEchoes)
    (channel : UInt8) (hq : a.config.channelQos channel = .reliable ∨
      a.config.channelQos channel = .allCostDelivery)
    (limit : Nat) (hlimit : a.config.ackEchoes < limit) {messages : List Bytes}
    (hfit : ∀ message ∈ messages, Admits a.config message) :
    ∃ l, (start a b).exchangeAll channel limit messages =
        .ok (l, comeThrough channel 1 messages) ∧
      l.left.queue.toList = [] ∧ l.right.queue.toList = [] ∧
      (∀ id, id ∈ l.left.connection.pending ↔ Stuck messages.length id) ∧
      (messages.length ≤ 65535 →
        comeThrough channel 1 messages = messages.map (fun m => ⟨channel, m⟩) ∧
          l.left.connection.pending.size = 0) := by
  obtain ⟨-, -, -, hroom, -⟩ := Config.validate_eq_ok.mp hvalid
  obtain ⟨l, hl, hsettled⟩ :=
    (Settled.start hpair).exchangeAll hpair hroom hq hechoes hlimit hfit
  rw [Nat.zero_add] at hl hsettled
  refine ⟨l, hl, hsettled.left.queue, hsettled.right.queue, hsettled.kept, ?_⟩
  intro hfew
  refine ⟨comeThrough_eq_map channel (by omega), ?_⟩
  apply pending_size_eq_zero
  intro id hid
  exact not_stuck hfew id ((hsettled.kept id).mp hid)

theorem exchanges_settle_two : ∃ l,
    (start (standardEnd 1 2) (standardEnd 2 1)).exchangeAll 0 4 [[10], [20]] =
      .ok (l, [⟨0, [10]⟩, ⟨0, [20]⟩]) ∧ l.left.connection.pending.size = 0 := by
  have hfit : ∀ message ∈ [[10], [20]], Admits .standard message := by
    intro message hm
    apply admits_standard
    obtain rfl | rfl : message = [10] ∨ message = [20] := by simpa using hm
    · decide
    · decide
  obtain ⟨l, hl, -, -, -, hall⟩ := exchanges_settle (paired_standardEnd 1 2) rfl (by decide)
    0 (.inl rfl) 4 (by decide) hfit
  obtain ⟨hmap, hsize⟩ := hall (by decide)
  rw [hmap] at hl
  exact ⟨l, hl, hsize⟩

/-- The first id that is used again keeps its frame, and the second message with
the last id is not returned. -/
theorem stuck_and_dropped_after_wrap :
    Paired (standardEnd 1 2) (standardEnd 2 1) ∧ Config.standard.validate = .ok () ∧
      1 ≤ Config.standard.ackEchoes ∧ Config.standard.channelQos 0 = .reliable ∧
      (∃ l returned, (start (standardEnd 1 2) (standardEnd 2 1)).exchangeAll 0 4
          (List.replicate 65536 []) = .ok (l, returned) ∧ l.left.queue.toList = [] ∧
        l.right.queue.toList = [] ∧ l.left.connection.pending.size ≠ 0) ∧
      ∃ l returned, (start (standardEnd 1 2) (standardEnd 2 1)).exchangeAll 0 4
          (List.replicate 131071 []) = .ok (l, returned) ∧ returned.length < 131071 := by
  have hpair := paired_standardEnd 1 2
  have hq : Config.standard.channelQos 0 = .reliable ∨
      Config.standard.channelQos 0 = .allCostDelivery := .inl rfl
  have hlimit : Config.standard.ackEchoes < 4 := by decide
  have hfit : ∀ n, ∀ message ∈ List.replicate n ([] : Bytes), Admits .standard message := by
    intro n message hm
    rw [List.eq_of_mem_replicate hm]
    exact admits_standard (Nat.zero_le _)
  have hrun : ∀ n, ∃ l, (start (standardEnd 1 2) (standardEnd 2 1)).exchangeAll 0 4
      (List.replicate n []) = .ok (l, comeThrough 0 1 (List.replicate n [])) ∧
        Settled (standardEnd 1 2) (standardEnd 2 1) n l := by
    intro n
    obtain ⟨l, hl, hsettled⟩ :=
      (Settled.start hpair).exchangeAll hpair (by decide) hq (by decide) hlimit (hfit n)
    rw [List.length_replicate, Nat.zero_add] at hsettled
    exact ⟨l, hl, hsettled⟩
  refine ⟨hpair, rfl, by decide, rfl, ?_, ?_⟩
  · obtain ⟨l, hl, hsettled⟩ := hrun 65536
    refine ⟨l, _, hl, hsettled.left.queue, hsettled.right.queue, fun hsize => ?_⟩
    have hid : (0 : UInt16) ∈ l.left.connection.pending :=
      (hsettled.kept 0).mpr (.inl (by decide))
    rw [Std.ExtTreeMap.eq_empty_iff_size_eq_zero.mpr hsize] at hid
    exact Std.ExtTreeMap.not_mem_empty hid
  · obtain ⟨l, hl, -⟩ := hrun 131071
    refine ⟨l, _, hl, ?_⟩
    have hlast : comeThrough 0 131071 [[]] = [] := by decide
    have hsplit : List.replicate 131071 ([] : Bytes) = List.replicate 131070 [] ++ [[]] :=
      List.replicate_succ'
    rw [hsplit, comeThrough_append, List.length_replicate, hlast, List.append_nil]
    have hle := length_comeThrough_le 0 1 (List.replicate 131070 [])
    rw [List.length_replicate] at hle
    omega

end DatagramTransport.Link
