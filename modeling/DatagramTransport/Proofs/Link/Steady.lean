import DatagramTransport.Proofs.Flow
import DatagramTransport.Proofs.Link.Custody
import DatagramTransport.Proofs.Link.Waiting

/-!
# Nothing overtakes

On a link that loses datagrams but keeps their order, a window never takes a
frame for a repetition: by the time that a frame is asked for again, a higher
one has come, and only the highest is remembered. What is written down of a
datagram is then known from the datagram alone.
-/

set_option autoImplicit false

namespace DatagramTransport.Link

namespace Event

/-- Datagrams come in order and once, if they come, and no end is closed. -/
def Orderly : Event → Prop
  | send .. | lose .. | greet .. | ping .. => True
  | deliver _ index keep => index = 0 ∧ keep = false
  | disconnect _ => False

theorem Orderly.ne_disconnect {e : Event} (h : e.Orderly) (t : Side) : e ≠ .disconnect t := by
  rintro rfl
  exact h

end Event

def Entry.Faithful (config : Config) (s : Side) (posted : List Posting) : Entry → Prop
  | .received t datagram ids messages => t = s.other → ids = (carried config datagram).toList ∧
      ∀ u, Transfer.ofDatagram? datagram = some u → Known config posted u ∧
        ((config.channelQos u.channel).framing = .reliable →
          messages = [⟨u.channel, u.frame.drop 4⟩])
  | .sent .. => True

def Alive (l : Link) : Prop :=
  ∀ s, (l.side s).connection.phase ≠ .disconnected

structure Steady (config : Config) (s : Side) (l : Link) (log : List Entry) : Prop where
  flow : Flow (notedBy s.other log) (waiting config (l.side s).queue.toList)
  faithful : ∀ entry ∈ log, entry.Faithful config s (minted config s log)

section
variable {own : Side → Endpoint} {s : Side} {l l' : Link} {log entries : List Entry}

theorem Alive.next (h : Alive l) (hsound : Sound own l log) {e : Event}
    (he : ∀ t, e ≠ .disconnect t) (hn : l.next e = .ok (l', entries)) : Alive l' := by
  intro t
  rcases next_cases hsound.short hn with ⟨s, -, hfar, hends⟩ | ⟨s, index, keep, -, ⟨hh⟩⟩
  · rcases Side.eq_or_eq_other s t with rfl | rfl
    · exact fun hd => h t (hends (he t) hd)
    · rw [hfar]
      exact h s.other
  · rcases Side.eq_or_eq_other s t with rfl | rfl
    · rw [hh.near]
      exact h t
    · rw [hh.far]
      rcases Connection.receive_cases (hsound.short s.other) hh.received with
        ⟨hstep, -⟩ | ⟨header, body, intake, -, -, -, -, hstep⟩
      · rw [hstep]
        exact h s.other
      · rw [hstep]
        exact h s.other

theorem Entry.Faithful.append {config : Config} {posted : List Posting} {entry : Entry}
    (h : entry.Faithful config s posted) (later : List Posting) :
    entry.Faithful config s (posted ++ later) := by
  cases entry with
  | sent => trivial
  | received t datagram ids messages =>
    intro ht
    obtain ⟨hids, hall⟩ := h ht
    exact ⟨hids, fun u hu => ⟨(hall u hu).1.append later, (hall u hu).2⟩⟩

/-- What was written down stays faithful, so only new entries are to be looked at. -/
theorem Steady.faithful_append {config : Config} (h : Steady config s l log)
    (hnew : ∀ entry ∈ entries, entry.Faithful config s (minted config s (log ++ entries))) :
    ∀ entry ∈ log ++ entries, entry.Faithful config s (minted config s (log ++ entries)) := by
  intro entry hentry
  rcases List.mem_append.mp hentry with hentry | hentry
  · rw [minted_append]
    exact (h.faithful entry hentry).append _
  · exact hnew entry hentry

theorem Act.faithful {t : Side} {e e' : LinkEnd} (ha : Act t e e' entries) {config : Config}
    {posted : List Posting} : ∀ entry ∈ entries, entry.Faithful config s posted := by
  intro entry hentry
  cases ha with
  | sent =>
    rw [List.mem_singleton.mp hentry]
    trivial
  | rest => cases hentry
  | lost => cases hentry
  | pinged => cases hentry
  | ended => cases hentry

theorem Steady.act_near (h : Steady (own s).config s l log) (hsound : Sound own l log)
    (hcustody : Custody (own s).config s l log) (ha : Act s (l.side s) (l'.side s) entries)
    (hn : (minted (own s).config s (log ++ entries)).length ≤ custodyLimit) :
    Steady (own s).config s l' (log ++ entries) := by
  refine ⟨?_, h.faithful_append ha.faithful⟩
  have hl : custodyLimit = 65504 := rfl
  rw [ha.notedBy_eq]
  generalize he : l'.side s = e' at ha
  cases ha with
  | rest => exact h.flow
  | lost queue sub => exact h.flow.sublist (sub.filterMap _)
  | pinged phase packet alive => exact h.flow
  | ended => exact h.flow
  | sent channel message p fits prepared =>
    obtain ⟨hspeaks, -⟩ := hsound s
    rw [minted_append, minted_sent, List.length_append] at hn
    rw [Backlog.toList_push, waiting_append, hspeaks.waiting_sent prepared]
    have hplace : ∀ id ∈ (List.range (postingsOf (own s).config channel message p).length).map
        (fun i => idAt ((minted (own s).config s log).length + i)),
        ∃ k, (minted (own s).config s log).length ≤ k ∧ k < custodyLimit ∧ id = idAt k := by
      intro id hid
      obtain ⟨i, hi, rfl⟩ := List.mem_map.mp hid
      rw [List.mem_range] at hi
      exact ⟨_, Nat.le_add_right _ _, by omega, rfl⟩
    apply h.flow.post
    · intro id hid
      obtain ⟨k, -, hk, rfl⟩ := hplace id hid
      exact idAt_ne_zero (by omega)
    · rw [List.pairwise_map]
      refine List.pairwise_lt_range.imp_of_mem fun _ hj hij => ?_
      rw [List.mem_range] at hj
      exact idAt_lt (by omega) (by omega)
    · intro id hid n hnoted
      obtain ⟨k, hge, hk, rfl⟩ := hplace id hid
      obtain ⟨j, hj, rfl⟩ := hcustody.honest n hnoted
      exact idAt_lt (by omega) (by omega)
    · intro id hid n hwaiting
      obtain ⟨k, hge, hk, rfl⟩ := hplace id hid
      obtain ⟨j, hj, rfl⟩ := hspeaks.waiting_minted n hwaiting
      exact idAt_lt (by omega) (by omega)

theorem Steady.act_far (h : Steady (own s).config s l log)
    (ha : Act s.other (l.side s.other) (l'.side s.other) entries)
    (hnear : l'.side s = l.side s) : Steady (own s).config s l' (log ++ entries) := by
  refine ⟨?_, h.faithful_append ha.faithful⟩
  rw [ha.notedBy_eq, hnear]
  exact h.flow

structure Peers (own : Side → Endpoint) (s : Side) : Prop where
  config : (own s.other).config = (own s).config
  id : (own s.other).id = (own s).id
  session : (own s.other).peerSession = (own s).session

theorem Sound.accepts (h : Sound own l log) (hpeers : Peers own s) (halive : Alive l)
    {header : DataHeader} {body : Bytes}
    (hd : header.bytes ++ body ∈ (l.side s).queue.toList) :
    (l.side s.other).connection.accepts header = true := by
  have hendpoint := (h s.other).1.endpoint
  apply (h s).1.accepts ?_ ?_ (halive s.other) hd
  · rw [hendpoint, hpeers.id]
  · rw [hendpoint, hpeers.session]

theorem Sound.noted_arriving (h : Sound own l log) (hpeers : Peers own s) (halive : Alive l)
    {d : Bytes} (hd : d ∈ (l.side s).queue.toList) :
    (l.side s.other).connection.noted d = (carried (own s).config d).toList := by
  obtain ⟨header, body, rfl, -, -, hknown⟩ := (h s).1.queued d hd
  rw [carried_bytes]
  cases body with
  | none => exact noted_none (h.short s.other)
  | some t =>
    obtain ⟨layout, payload, hcarries, -⟩ := hknown t rfl
    rw [noted_carried hcarries (h.short s.other) (h.fits hpeers.config),
      if_pos (h.accepts hpeers halive hd), Option.bind_some, hcarries.messageId]

theorem WellPosted.message {config : Config} {posted : List Posting}
    (h : WellPosted config posted) {k : Nat} {p : Posting} (hk : posted[k]? = some p)
    (hq : (config.channelQos p.transfer.channel).framing = .reliable) :
    p.message = p.transfer.frame.drop 4 := by
  obtain ⟨layout, payload, hcarries, hid, hwhole⟩ := h k p hk
  have hq' : layout.framing = .reliable := hcarries.framing.trans hq
  have hm := hwhole (by rw [hq']; exact Qos.noConfusion)
  rw [hcarries.frame, hm]
  cases layout <;> simp [Layout.framing] at hq'
  rfl

theorem Steady.handed (h : Steady (own s).config s l log) (hsound : Sound own l log)
    (hpeers : Peers own s) (halive : Alive l) (hh : Handover s 0 false l l' entries) :
    Steady (own s).config s l' (log ++ entries) := by
  obtain ⟨hspeaks, -⟩ := hsound s
  have hd := List.mem_of_getElem? hh.waiting
  have hids := hsound.noted_arriving hpeers halive hd
  have hflow := h.flow
  rw [hh.queue_eq, waiting, List.filterMap_cons] at hflow
  refine ⟨?_, h.faithful_append ?_⟩
  · rw [hh.notedBy_eq, if_pos rfl, hids, hh.near]
    cases hc : carried (own s).config hh.datagram with
    | none =>
      rw [hc] at hflow
      rwa [Option.toList_none, List.append_nil]
    | some id =>
      rw [hc] at hflow
      exact hflow.arrive
  · intro entry hentry
    rw [hh.logged, List.mem_singleton] at hentry
    subst hentry
    rw [hh.minted_eq]
    intro _
    constructor
    · exact hids
    intro u hu
    obtain ⟨header, body, hbytes, -, -, hknown⟩ := hspeaks.queued _ hd
    rw [hbytes, Transfer.ofDatagram?_bytes] at hu
    subst hu
    constructor
    · exact hknown u rfl
    intro hq
    obtain ⟨layout, payload, hcarries, hplace⟩ := hknown u rfl
    obtain ⟨id, hid⟩ : ∃ id, layout.messageId = some id := by
      rw [← Option.isSome_iff_exists, layout.messageId_isSome, hcarries.framing, hq]
      rfl
    obtain ⟨k, p, hk, rfl, rfl⟩ := hplace id hid
    have hr := hh.received
    rw [hbytes] at hr hd
    obtain ⟨-, hanswer⟩ := hspeaks.wellPosted.receive (hsound.short s.other)
      (hsound.fits hpeers.config) hk hr
    have haccepts := hsound.accepts hpeers halive hd
    rw [hbytes, carried_bytes, Option.bind_some, hcarries.messageId, hid] at hflow
    have hnew := hflow.record_accepted (hsound s.other).2.tracks
    rw [hanswer hq, if_pos ⟨haccepts, hnew⟩, hspeaks.wellPosted.message hk hq]

theorem Steady.answered (h : Steady (own s.other).config s.other l log)
    (hsound : Sound own l log) {index : Nat} {keep : Bool}
    (hh : Handover s index keep l l' entries) :
    Steady (own s.other).config s.other l' (log ++ entries) := by
  refine ⟨?_, h.faithful_append ?_⟩
  · rw [hh.notedBy_eq, if_neg (Side.other_ne _), List.append_nil, hh.far,
      Backlog.toList_push, waiting_append]
    rcases Connection.receive_cases (hsound.short s.other) hh.received with
      ⟨hstep, -⟩ | ⟨header, body, intake, hd, -, -, -, hstep⟩
    · rw [hstep]
      exact h.flow.resend (by simp [waiting]) (by simp [waiting])
    obtain ⟨hspeaks, -⟩ := hsound s.other
    have hwaiting := List.mem_of_getElem? hh.waiting
    rw [hd] at hwaiting
    obtain ⟨past, hpast, hreports⟩ := (hsound s).2.report hwaiting
    have hagain := hspeaks.waiting_again
      (AckWindow.reading header.ackLatest header.ackMask).received
      (AckWindow.reading header.ackLatest header.ackMask).missing
    rw [hstep, Connection.received, waiting_append, waiting_echoes, List.append_nil]
    apply h.flow.resend
    · intro id hid
      exact (hreports.missing (hagain id hid)).2.1
    · intro id hid
      rw [Side.other_other]
      exact hreports.not_inOrder hpast (hagain id hid)
  · intro entry hentry
    rw [hh.logged, List.mem_singleton] at hentry
    subst hentry
    exact fun ht => absurd ht (Side.ne_other _)

theorem Steady.next (h : Steady (own s).config s l log) (hsound : Sound own l log)
    (hpeers : Peers own s) (halive : Alive l) (hcustody : Custody (own s).config s l log)
    {e : Event} (he : e.Orderly) (hnext : l.next e = .ok (l', entries))
    (hn : (minted (own s).config s (log ++ entries)).length ≤ custodyLimit) :
    Steady (own s).config s l' (log ++ entries) := by
  rcases next_cases hsound.short hnext with ⟨t, ha, hfar, -⟩ | ⟨t, index, keep, rfl, ⟨hh⟩⟩
  · rcases Side.eq_or_eq_other s t with rfl | rfl
    · exact h.act_near hsound hcustody ha hn
    · rw [Side.other_other] at hfar
      exact h.act_far ha hfar
  · obtain ⟨rfl, rfl⟩ := he
    rcases Side.eq_or_eq_other t s with rfl | rfl
    · exact h.handed hsound hpeers halive hh
    · exact h.answered hsound hh

end

theorem Paired.peers {a b : Endpoint} (h : Paired a b) (s : Side) : Peers (endpoints a b) s where
  config := by rw [h.endpoints_config, h.endpoints_config]
  id := (h.endpoints_id s).symm
  session := h.endpoints_session s

theorem Paired.steady_start {a b : Endpoint} (config : Config) (s : Side) :
    Steady config s (start a b) [] where
  flow := by
    rw [side_start]
    simpa [notedBy, waiting] using flow_nil
  faithful := by simp

theorem Paired.steady_run {a b : Endpoint} (h : Paired a b) {events : List Event}
    (horderly : ∀ e ∈ events, e.Orderly) {l : Link} {log : List Entry}
    (hrun : (start a b).run events = .ok (l, log)) :
    Sound (endpoints a b) l log ∧ ∀ s,
      (minted (endpoints a b s).config s log).length ≤ custodyLimit →
        Alive l ∧ Custody (endpoints a b s).config s l log ∧
          Steady (endpoints a b s).config s l log := by
  refine run_induction
    (P := fun l log => Sound (endpoints a b) l log ∧ ∀ s,
      (minted (endpoints a b s).config s log).length ≤ custodyLimit →
        Alive l ∧ Custody (endpoints a b s).config s l log ∧
          Steady (endpoints a b s).config s l log)
    Event.Orderly ⟨h.sound_start, fun s _ => ⟨?_, h.custody_start s, steady_start _ s⟩⟩ ?_
    horderly hrun
  · intro t
    rw [side_start]
    exact Phase.noConfusion
  · intro l log e l' entries ⟨hsound, hall⟩ he hn
    constructor
    · exact hsound.next hn
    intro s hcount
    have hold : (minted (endpoints a b s).config s log).length ≤ custodyLimit := by
      rw [minted_append, List.length_append] at hcount
      omega
    obtain ⟨halive, hcustody, hsteady⟩ := hall s hold
    have hpeers := h.peers s
    exact ⟨halive.next hsound he.ne_disconnect hn, hcustody.next hsound hpeers.config hn hcount,
      hsteady.next hsound hpeers halive hcustody he hn hcount⟩

end DatagramTransport.Link
