import DatagramTransport.Proofs.Link.Repetition

/-!
# One side sends whole messages

Only one side sends, and on reliable channels that do not cut messages. Then
each message that is not refused is one posting, the other side has nothing
to send again, and a message whose id was noted was returned when a frame of
its own came; another message with the same bytes does not stand in for it.
-/

set_option autoImplicit false

namespace DatagramTransport

def Posting.toMessage (p : Posting) : Message := ⟨p.transfer.channel, p.message⟩

namespace Link

def Event.OneWay (config : Config) (s : Side) : Event → Prop
  | send t channel _ => t = s ∧
      (config.channelQos channel = .reliable ∨ config.channelQos channel = .allCostDelivery)
  | deliver .. | lose .. | greet .. | ping .. | disconnect _ => True

structure OneSided (config : Config) (s : Side) (log : List Entry) : Prop where
  silent : minted config s.other log = []
  whole : ∀ p ∈ minted config s log, (config.channelQos p.transfer.channel).framing = .reliable
  sent : sentBy s log = (minted config s log).map Posting.toMessage

theorem oneSided_nil (config : Config) (s : Side) : OneSided config s [] where
  silent := rfl
  whole := by simp [minted]
  sent := rfl

/-- A message whose id was noted was returned with its own frame. -/
def Credited (config : Config) (s : Side) (log : List Entry) : Prop :=
  ∀ k p, (minted config s log)[k]? = some p → idAt k ∈ notedBy s.other log →
    (config.channelQos p.transfer.channel).framing = .reliable →
      p.toMessage ∈ returns s.other p.transfer log

section
variable {own : Side → Endpoint} {s : Side} {l l' : Link} {log entries : List Entry} {e : Event}

theorem OneSided.append {config : Config} (h : OneSided config s log)
    (hentries : OneSided config s entries) : OneSided config s (log ++ entries) where
  silent := by rw [minted_append, h.silent, hentries.silent, List.append_nil]
  whole := by
    rw [minted_append]
    intro p hp
    exact (List.mem_append.mp hp).elim (h.whole p) (hentries.whole p)
  sent := by rw [sentBy_append, minted_append, List.map_append, h.sent, hentries.sent]

theorem Sound.sent_whole (h : Sound own l log) {channel : UInt8} {message : Bytes}
    (hq : (own s).config.channelQos channel = .reliable ∨
      (own s).config.channelQos channel = .allCostDelivery) {emitted : List Bytes}
    (hnext : l.next (.send s channel message) = .ok (l', [.sent s channel message emitted])) :
    ∃ (header : DataHeader) (p : Posting), p.toMessage = ⟨channel, message⟩ ∧
      minted (own s).config s [.sent s channel message emitted] = [p] ∧
      emitted = [header.bytes ++ bodyBytes (some p.transfer)] ∧
      l'.side s.other = l.side s.other ∧
      (l'.side s).queue.toList = (l.side s).queue.toList ++ emitted ∧
      (l'.side s).connection.pending = (l.side s).connection.pending.insert
        (idAt (minted (own s).config s log).length) p.transfer := by
  have hframing := Qos.framing_eq_reliable.mpr hq
  obtain ⟨-, hnone⟩ | ⟨p, -, hp, hl, hentries⟩ := next_send (h.short s) hnext
  · cases hnone
  have hat : (l.side s).connection.channelAt channel = .reliable := by
    apply Channel.eq_reliable
    rw [framing_channelAt (h s).1.fits, hframing]
  rw [hat, (h s).1.counter] at hp
  obtain ⟨-, rfl⟩ := Channel.prepare_reliable.mp hp
  have hreliable : ((own s).config.channelQos channel).isReliable = true := by
    rw [← Qos.isReliable_framing, hframing]
    rfl
  cases hentries
  rw [minted_sent, postingsOf, if_pos hreliable, hl, side_setSide_self, side_setSide_other]
  exact ⟨(l.side s).connection.header,
    { transfer := { channel, frame := _ }, message }, rfl, rfl, rfl, rfl,
    Backlog.toList_push _ _, rfl⟩

theorem Event.OneWay.oneSided (he : e.OneWay (own s).config s) (hsound : Sound own l log)
    (hnext : l.next e = .ok (l', entries)) : OneSided (own s).config s entries := by
  cases e with
  | send t channel message =>
    obtain ⟨rfl, hq⟩ := he
    rcases next_send (hsound.short t) hnext with ⟨-, rfl⟩ | ⟨p, -, -, -, rfl⟩
    · exact oneSided_nil _ _
    obtain ⟨-, q, hmessage, hposted, -⟩ := hsound.sent_whole hq hnext
    constructor
    case silent => simp [minted, Entry.postings]
    case whole =>
      rw [hposted]
      intro q' hq'
      rw [List.mem_singleton.mp hq', show q.transfer.channel = channel from
        congrArg Message.channel hmessage]
      exact Qos.framing_eq_reliable.mpr hq
    case sent =>
      rw [hposted, List.map_singleton, hmessage]
      simp [sentBy, Entry.accepted]
  | deliver t index keep =>
    rcases next_deliver hnext with ⟨-, -, rfl⟩ | ⟨⟨hh⟩⟩
    · exact oneSided_nil _ _
    · rw [hh.logged]
      exact ⟨rfl, by simp [minted, Entry.postings], rfl⟩
  | lose t index =>
    cases hnext
    exact oneSided_nil _ _
  | greet t now =>
    cases hnext
    exact oneSided_nil _ _
  | ping t now ping =>
    cases hnext
    exact oneSided_nil _ _
  | disconnect t =>
    cases hnext
    exact oneSided_nil _ _

theorem returns_append (t : Transfer) (log later : List Entry) :
    returns s t (log ++ later) = returns s t log ++ returns s t later := by
  rw [returns, List.filter_append, List.flatMap_append]
  rfl

theorem Credited.next (h : Credited (own s).config s log) (hsound : Sound own l log)
    (hcustody : Custody (own s).config s l log)
    (hconfig : (own s.other).config = (own s).config) (hnext : l.next e = .ok (l', entries))
    (hn : (minted (own s).config s (log ++ entries)).length ≤ custodyLimit) :
    Credited (own s).config s (log ++ entries) := by
  intro k p hk hid hq
  rw [returns_append, List.mem_append]
  by_cases hpast : idAt k ∈ notedBy s.other log
  · exact .inl (h k p (hcustody.minted_of_noted hn hk hpast) hpast hq)
  right
  rcases next_cases hsound.short hnext with ⟨t, ha, -, -⟩ | ⟨t, index, keep, -, ⟨hh⟩⟩
  · rw [ha.notedBy_eq] at hid
    exact absurd hid hpast
  rw [hh.minted_eq] at hk hn
  rw [hh.notedBy_eq] at hid
  rcases Side.eq_or_eq_other t s with rfl | rfl
  · rw [if_pos rfl] at hid
    have hfirst := (List.mem_append.mp hid).resolve_left hpast
    obtain ⟨hframe, hanswer⟩ := hsound.first_noted hconfig hh hn hk hfirst hpast
    rw [hh.logged, returns]
    simp [Entry.brings, Entry.returned, hframe, hanswer hq, Posting.toMessage]
  · rw [if_neg (Side.other_ne _), List.append_nil] at hid
    exact absurd hid hpast

end

structure Ledger (own : Side → Endpoint) (s : Side) (l : Link) (log : List Entry) : Prop where
  sound : Sound own l log
  custody : Custody (own s).config s l log
  oneSided : OneSided (own s).config s log
  credited : Credited (own s).config s log

section
variable {own : Side → Endpoint} {s : Side} {l l' : Link} {log entries : List Entry} {e : Event}

theorem Ledger.next (h : Ledger own s l log) (hconfig : (own s.other).config = (own s).config)
    (he : e.OneWay (own s).config s) (hnext : l.next e = .ok (l', entries))
    (hn : (minted (own s).config s (log ++ entries)).length ≤ custodyLimit) :
    Ledger own s l' (log ++ entries) where
  sound := h.sound.next hnext
  custody := h.custody.next h.sound hconfig hnext hn
  oneSided := h.oneSided.append (he.oneSided h.sound hnext)
  credited := h.credited.next h.sound h.custody hconfig hnext hn

end

theorem Paired.ledger_run {a b : Endpoint} (h : Paired a b) (s : Side) {events : List Event}
    (honly : ∀ e ∈ events, e.OneWay a.config s) {l : Link} {log : List Entry}
    (hrun : (start a b).run events = .ok (l, log))
    (hn : (minted a.config s log).length ≤ custodyLimit) : Ledger (endpoints a b) s l log := by
  have hconfig := h.endpoints_config s
  have hall := run_induction
    (P := fun l log => Sound (endpoints a b) l log ∧
      ((minted a.config s log).length ≤ custodyLimit → Ledger (endpoints a b) s l log))
    (Event.OneWay a.config s) ⟨h.sound_start, fun _ => ?_⟩ ?_ honly hrun
  · exact hall.2 hn
  · rw [hconfig] at *
    refine ⟨h.sound_start, h.custody_start s, ?_, ?_⟩
    · exact oneSided_nil _ _
    · intro k p hk
      cases hk
  · intro l log e l' entries ⟨hsound, hledger⟩ he hnext
    refine ⟨hsound.next hnext, fun hcount => ?_⟩
    have hold : (minted a.config s log).length ≤ custodyLimit := by
      rw [minted_append, List.length_append] at hcount
      omega
    exact (hledger hold).next (h.peers s).config (by rwa [hconfig]) hnext (by rwa [hconfig])

end Link

end DatagramTransport
