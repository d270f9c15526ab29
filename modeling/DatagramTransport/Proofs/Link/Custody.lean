import DatagramTransport.Proofs.Link.Sound

/-!
# Custody of reliable frames

A reliable frame is kept by its sender until the peer has accepted it. A
report evicts a frame only if it has the bit of the frame's id set, and what
a window sets without having seen it lies outside the ids that are in use,
as long as these end below the span under the highest id. The report may be
of any age, and come any number of times.
-/

set_option autoImplicit false

namespace DatagramTransport.Link

def custodyLimit : Nat := 65504

/-- Where the frames that a side posted are. -/
structure Custody (config : Config) (s : Side) (l : Link) (log : List Entry) : Prop where
  honest : ∀ id ∈ notedBy s.other log,
    ∃ k < (minted config s log).length, id = idAt k
  accounted : (l.side s).connection.phase ≠ .disconnected →
    ∀ k p, (minted config s log)[k]? = some p →
      (l.side s).connection.pending[idAt k]? = some p.transfer ∨ idAt k ∈ notedBy s.other log
  returned : ∀ k p, (minted config s log)[k]? = some p → idAt k ∈ notedBy s.other log →
    (config.channelQos p.transfer.channel).framing = .reliable →
      ⟨p.transfer.channel, p.message⟩ ∈ returnedBy s.other log

section
variable {own : Endpoint} {posted : List Posting} {noted : List UInt16} {e : LinkEnd}

theorem Speaks.kept_sent (h : Speaks own posted e) {channel : UInt8} {message : Bytes}
    {p : Prepared}
    (hp : (e.connection.channelAt channel).prepare message e.connection.nextMessage = .ok p)
    (hn : (posted ++ postingsOf own.config channel message p).length ≤ custodyLimit)
    {k : Nat} {q : Posting}
    (hq : (posted ++ postingsOf own.config channel message p)[k]? = some q) :
    (keepFrames channel e.connection.pending p.frames)[idAt k]? =
      if k < posted.length then e.connection.pending[idAt k]? else some q.transfer := by
  have hl : custodyLimit = 65504 := rfl
  obtain ⟨-, hnum⟩ := h.numbered hp
  obtain ⟨-, -, hdraws⟩ := Channel.prepare_spec hp
  rw [List.length_append] at hn
  split
  · rename_i hk
    apply getElem?_keepFrames_of_not_mem
    intro f hf hid
    unfold postingsOf at hn
    by_cases hr : (own.config.channelQos channel).isReliable = true
    · rw [if_pos hr] at hnum hn
      obtain ⟨i, hi⟩ := List.mem_iff_getElem?.mp hf
      obtain ⟨hlt, -⟩ := List.getElem?_eq_some_iff.mp hi
      rw [List.length_map] at hn
      rw [hnum i f hi] at hid
      have hplace := idAt_inj (by omega) (by omega) (Option.some.inj hid)
      omega
    · rw [if_neg hr] at hnum
      rw [hnum f hf] at hid
      cases hid
  · rename_i hk
    rw [List.getElem?_append_right (by omega)] at hq
    unfold postingsOf at hq
    by_cases hr : (own.config.channelQos channel).isReliable = true
    · rw [if_pos hr] at hnum hq
      rw [List.getElem?_map] at hq
      obtain ⟨f, hf, rfl⟩ := Option.map_eq_some_iff.mp hq
      have hid : f.messageId = some (idAt k) := by
        rw [hnum _ f hf]
        congr 2
        omega
      exact getElem?_keepFrames_of_mem (List.mem_of_getElem? hf) hid
        (hdraws.nodup (Channel.length_frames_le hp))
    · rw [if_neg hr] at hq
      cases hq

end

section
variable {own : Side → Endpoint} {s : Side} {l l' : Link} {log entries : List Entry}

theorem Custody.minted_of_noted {config : Config} (h : Custody config s l log)
    (hn : (minted config s (log ++ entries)).length ≤ custodyLimit) {k : Nat} {q : Posting}
    (hq : (minted config s (log ++ entries))[k]? = some q) (hid : idAt k ∈ notedBy s.other log) :
    (minted config s log)[k]? = some q := by
  have hl : custodyLimit = 65504 := rfl
  obtain ⟨j, hj, heq⟩ := h.honest _ hid
  rw [minted_append] at hq hn
  obtain ⟨hk, -⟩ := List.getElem?_eq_some_iff.mp hq
  rw [List.length_append] at hn hk
  obtain rfl := idAt_inj (by omega) (by omega) heq
  rwa [List.getElem?_append_left hj] at hq

theorem Custody.act_near (h : Custody (own s).config s l log) (hsound : Sound own l log)
    (ha : Act s (l.side s) (l'.side s) entries)
    (hn : (minted (own s).config s (log ++ entries)).length ≤ custodyLimit) :
    Custody (own s).config s l' (log ++ entries) := by
  constructor
  case honest =>
    rw [ha.notedBy_eq, minted_append]
    intro id hid
    obtain ⟨k, hk, heq⟩ := h.honest id hid
    exact ⟨k, by rw [List.length_append]; omega, heq⟩
  case returned =>
    rw [ha.notedBy_eq, ha.returnedBy_eq]
    intro k q hq hid
    exact h.returned k q (h.minted_of_noted hn hq hid) hid
  case accounted =>
    rw [ha.notedBy_eq, minted_append]
    intro hphase k q hq
    generalize he : l'.side s = e' at ha hphase
    cases ha with
    | rest =>
      rw [minted_nil, List.append_nil] at hq
      exact h.accounted hphase k q hq
    | lost queue sub =>
      rw [minted_nil, List.append_nil] at hq
      exact h.accounted hphase k q hq
    | pinged phase packet alive =>
      rw [minted_nil, List.append_nil] at hq
      exact h.accounted (fun hd => hphase (alive.mpr hd)) k q hq
    | ended => exact absurd rfl hphase
    | sent channel message p fits prepared =>
      rw [minted_append, minted_sent] at hn
      rw [minted_sent] at hq
      have hkept := (hsound s).1.kept_sent prepared hn hq
      simp only [Connection.sent] at hphase ⊢
      rw [hkept]
      split
      · rename_i hk
        rw [List.getElem?_append_left hk] at hq
        exact h.accounted hphase k q hq
      · exact .inl rfl

theorem Custody.act_far (h : Custody (own s).config s l log)
    (ha : Act s.other (l.side s.other) (l'.side s.other) entries)
    (hnear : l'.side s = l.side s) : Custody (own s).config s l' (log ++ entries) := by
  have hminted := ha.minted_eq (Side.ne_other s) (own s).config log
  constructor
  case honest =>
    rw [hminted, ha.notedBy_eq]
    exact h.honest
  case accounted =>
    rw [hminted, ha.notedBy_eq, hnear]
    exact h.accounted
  case returned =>
    rw [hminted, ha.notedBy_eq, ha.returnedBy_eq]
    exact h.returned

/-- A frame that is noted for the first time is the posted one, and if it is a
whole message, it is returned. -/
theorem Sound.first_noted (hsound : Sound own l log)
    (hconfig : (own s.other).config = (own s).config) {index : Nat} {keep : Bool}
    (hh : Handover s index keep l l' entries)
    (hn : (minted (own s).config s log).length ≤ custodyLimit) {k : Nat} {p : Posting}
    (hk : (minted (own s).config s log)[k]? = some p)
    (hid : idAt k ∈ (l.side s.other).connection.noted hh.datagram)
    (hpast : idAt k ∉ notedBy s.other log) :
    Transfer.ofDatagram? hh.datagram = some p.transfer ∧
      (((own s).config.channelQos p.transfer.channel).framing = .reliable →
        hh.step.answer = [⟨p.transfer.channel, p.message⟩]) := by
  have hl : custodyLimit = 65504 := rfl
  obtain ⟨hspeaks, -⟩ := hsound s
  have hfit := hsound.fits hconfig
  have hshort := hsound.short s.other
  rcases hspeaks.arrival hshort hfit (List.mem_of_getElem? hh.waiting) with
    hnone | ⟨header, j, q, hj, hd⟩
  · rw [hnone] at hid
    cases hid
  obtain ⟨hkn, -⟩ := List.getElem?_eq_some_iff.mp hk
  obtain ⟨hjn, -⟩ := List.getElem?_eq_some_iff.mp hj
  have hr := hh.received
  rw [hd] at hr hid ⊢
  obtain ⟨hids, hanswer⟩ := hspeaks.wellPosted.receive hshort hfit hj hr
  rw [hids] at hid
  split at hid
  case isFalse => cases hid
  case isTrue haccepts =>
    obtain rfl := idAt_inj (by omega) (by omega) (List.mem_singleton.mp hid)
    cases hk.symm.trans hj
    have hnew := (hsound s.other).2.tracks.record_new (idAt_ne_zero (by omega)) hpast
    refine ⟨Transfer.ofDatagram?_bytes _ _, fun hq => ?_⟩
    rw [hanswer hq, if_pos ⟨haccepts, hnew⟩]

theorem Custody.handed (h : Custody (own s).config s l log) (hsound : Sound own l log)
    (hconfig : (own s.other).config = (own s).config) {index : Nat} {keep : Bool}
    (hh : Handover s index keep l l' entries)
    (hn : (minted (own s).config s log).length ≤ custodyLimit) :
    Custody (own s).config s l' (log ++ entries) := by
  have hl : custodyLimit = 65504 := rfl
  have hminted := hh.minted_eq (own s).config s log
  have hnoted := hh.notedBy_eq s.other log
  have hreturned := hh.returnedBy_eq s.other log
  rw [if_pos rfl] at hnoted hreturned
  obtain ⟨hspeaks, -⟩ := hsound s
  have hfit := hsound.fits hconfig
  have hshort := hsound.short s.other
  have harrival := hspeaks.arrival hshort hfit (List.mem_of_getElem? hh.waiting)
  constructor
  case accounted =>
    rw [hminted, hnoted, hh.near]
    intro hphase k p hk
    exact (h.accounted hphase k p hk).imp_right fun hid => List.mem_append.mpr (.inl hid)
  case honest =>
    rw [hminted, hnoted]
    intro id hid
    rcases List.mem_append.mp hid with hid | hid
    · exact h.honest id hid
    rcases harrival with hnone | ⟨header, k, p, hk, hd⟩
    · rw [hnone] at hid
      cases hid
    · obtain ⟨hlt, -⟩ := List.getElem?_eq_some_iff.mp hk
      have hr := hh.received
      rw [hd] at hr hid
      rw [(hspeaks.wellPosted.receive hshort hfit hk hr).1] at hid
      split at hid
      · exact ⟨k, hlt, List.mem_singleton.mp hid⟩
      · cases hid
  case returned =>
    rw [hminted, hnoted, hreturned]
    intro k p hk hid hq
    by_cases hpast : idAt k ∈ notedBy s.other log
    · exact List.mem_append.mpr (.inl (h.returned k p hk hpast hq))
    have hid := (List.mem_append.mp hid).resolve_left hpast
    rw [(hsound.first_noted hconfig hh hn hk hid hpast).2 hq]
    exact List.mem_append.mpr (.inr (List.mem_singleton.mpr rfl))

theorem Custody.answered (h : Custody (own s.other).config s.other l log)
    (hsound : Sound own l log) {index : Nat} {keep : Bool}
    (hh : Handover s index keep l l' entries)
    (hn : (minted (own s.other).config s.other log).length ≤ custodyLimit) :
    Custody (own s.other).config s.other l' (log ++ entries) := by
  have hl : custodyLimit = 65504 := rfl
  have hminted := hh.minted_eq (own s.other).config s.other log
  have hnoted := hh.notedBy_eq s.other.other log
  have hreturned := hh.returnedBy_eq s.other.other log
  rw [if_neg (Side.other_ne _), List.append_nil] at hnoted hreturned
  constructor
  case honest =>
    rw [hminted, hnoted]
    exact h.honest
  case returned =>
    rw [hminted, hnoted, hreturned]
    exact h.returned
  case accounted =>
    rw [hminted, hnoted, hh.far]
    intro hphase k p hk
    obtain ⟨hkn, -⟩ := List.getElem?_eq_some_iff.mp hk
    rcases Connection.receive_cases (hsound.short s.other) hh.received with
      ⟨hstep, -⟩ | ⟨header, body, intake, hd, -, -, -, hstep⟩
    · rw [hstep] at hphase ⊢
      exact h.accounted hphase k p hk
    rw [hstep] at hphase ⊢
    have hwaiting := List.mem_of_getElem? hh.waiting
    rw [hd] at hwaiting
    obtain ⟨past, hpast, hreports⟩ := (hsound s).2.report hwaiting
    show ((l.side s.other).connection.confirm _).pending[idAt k]? = _ ∨ _
    rw [Connection.getElem?_confirm]
    split
    · rename_i hconfirmed
      rcases hreports.received hconfirmed with hid | hid | hid
      · right
        rw [Side.other_other]
        exact hpast.subset hid
      · exact absurd hid (idAt_ne_zero (by omega))
      · rw [toNat_idAt (by omega)] at hid
        omega
    · exact h.accounted hphase k p hk

theorem Custody.next (h : Custody (own s).config s l log) (hsound : Sound own l log)
    (hconfig : (own s.other).config = (own s).config) {e : Event}
    (he : l.next e = .ok (l', entries))
    (hn : (minted (own s).config s (log ++ entries)).length ≤ custodyLimit) :
    Custody (own s).config s l' (log ++ entries) := by
  have hn' : (minted (own s).config s log).length ≤ custodyLimit := by
    rw [minted_append, List.length_append] at hn
    omega
  rcases next_cases hsound.short he with ⟨t, ha, hfar, -⟩ | ⟨t, index, keep, -, ⟨hh⟩⟩
  · rcases Side.eq_or_eq_other s t with rfl | rfl
    · exact h.act_near hsound ha hn
    · rw [Side.other_other] at hfar
      exact h.act_far ha hfar
  · rcases Side.eq_or_eq_other t s with rfl | rfl
    · exact h.handed hsound hconfig hh hn'
    · exact h.answered hsound hh hn'

end

theorem Paired.custody_start {a b : Endpoint} (_ : Paired a b) (s : Side) :
    Custody (endpoints a b s).config s (start a b) [] where
  honest := by simp [notedBy]
  accounted := by simp [minted]
  returned := by simp [minted]

theorem Paired.custody_run {a b : Endpoint} (h : Paired a b) {events : List Event} {l : Link}
    {log : List Entry} (hrun : (start a b).run events = .ok (l, log)) (s : Side) :
    Sound (endpoints a b) l log ∧
      ((minted (endpoints a b s).config s log).length ≤ custodyLimit →
        Custody (endpoints a b s).config s l log) := by
  refine run_induction
    (P := fun l log => Sound (endpoints a b) l log ∧
      ((minted (endpoints a b s).config s log).length ≤ custodyLimit →
        Custody (endpoints a b s).config s l log))
    (fun _ => True) ⟨h.sound_start, fun _ => h.custody_start s⟩ ?_ (fun _ _ => trivial) hrun
  intro l log e l' entries ⟨hsound, hcustody⟩ _ hn
  constructor
  · exact hsound.next hn
  intro hcount
  have hold : (minted (endpoints a b s).config s log).length ≤ custodyLimit := by
    rw [minted_append, List.length_append] at hcount
    omega
  exact (hcustody hold).next hsound (by rw [h.endpoints_config, h.endpoints_config]) hn hcount

/-- In every state of a lossy, repeating and reordering link, each reliable
frame that a live side posted is kept as it was first transmitted, or was
accepted by the peer. -/
theorem reliable_frames_in_custody {a b : Endpoint} (hpair : Paired a b) {events : List Event}
    {l : Link} {log : List Entry} (hrun : (start a b).run events = .ok (l, log)) (s : Side)
    (hcount : (minted a.config s log).length ≤ custodyLimit)
    (halive : (l.side s).connection.phase ≠ .disconnected) :
    (l.side s).connection.nextMessage = idAt (minted a.config s log).length ∧
      (l.side s.other).connection.window =
        ((AckWindow.fresh .short).recordAll (notedBy s.other log)).1 ∧
      ∀ k p, (minted a.config s log)[k]? = some p →
        (∃ layout payload, p.transfer.Carries a.config layout payload ∧
          layout.messageId = some (idAt k)) ∧
        ((l.side s).connection.pending[idAt k]? = some p.transfer ∨
          AckWindow.Accepted (notedBy s.other log) (idAt k) ∧
            (a.config.channelQos p.transfer.channel = .reliable ∨
              a.config.channelQos p.transfer.channel = .allCostDelivery →
              ⟨p.transfer.channel, p.message⟩ ∈ returnedBy s.other log)) := by
  obtain ⟨hsound, hcustody⟩ := hpair.custody_run hrun s
  rw [hpair.endpoints_config] at hcustody
  have hc := hcustody hcount
  obtain ⟨hspeaks, -⟩ := hsound s
  rw [hpair.endpoints_config] at hspeaks
  refine ⟨hspeaks.counter, (hsound s.other).2.window, fun k p hk => ⟨?_, ?_⟩⟩
  · obtain ⟨layout, payload, hcarries, hid, -⟩ := hspeaks.wellPosted k p hk
    rw [hpair.endpoints_config] at hcarries
    exact ⟨layout, payload, hcarries, hid⟩
  · obtain ⟨hlt, -⟩ := List.getElem?_eq_some_iff.mp hk
    rcases hc.accounted halive k p hk with hkept | hid
    · exact .inl hkept
    · right
      have hl : custodyLimit = 65504 := rfl
      constructor
      · exact AckWindow.accepted_of_mem (idAt_ne_zero (by omega)) hid
      intro hq
      exact hc.returned k p hk hid (Qos.framing_eq_reliable.mpr hq)

theorem reliable_frames_in_custody_after_loss :
    ∃ l log, (start (standardEnd 1 2) (standardEnd 2 1)).run
        [.send .left 0 [10], .lose .left 0, .send .left 0 [20], .deliver .left 0 false,
          .deliver .right 0 false] = .ok (l, log) ∧
      notedBy .right log = [2] ∧ (minted .standard .left log).length = 2 ∧
      ∀ k p, (minted .standard .left log)[k]? = some p →
        (l.side .left).connection.pending[idAt k]? = some p.transfer ∨
          AckWindow.Accepted (notedBy .right log) (idAt k) := by
  obtain ⟨l, log, hrun, heval⟩ := run_of_eval
    (start (standardEnd 1 2) (standardEnd 2 1))
    [.send .left 0 [10], .lose .left 0, .send .left 0 [20], .deliver .left 0 false,
      .deliver .right 0 false]
    (fun r => (notedBy .right r.2, (minted .standard .left r.2).length,
      (r.1.side .left).connection.phase))
    ([2], 2, .handshake) (by decide +kernel)
  obtain ⟨hnoted, hcount, hphase⟩ : notedBy .right log = [2] ∧
      (minted .standard .left log).length = 2 ∧
      (l.side .left).connection.phase = .handshake := by simpa using heval
  have hlimit : (minted (standardEnd 1 2).config .left log).length ≤ custodyLimit :=
    Nat.le_trans (Nat.le_of_eq hcount) (by decide)
  have halive : (l.side .left).connection.phase ≠ .disconnected := by
    rw [hphase]
    decide
  have hall := reliable_frames_in_custody (paired_standardEnd 1 2) hrun .left hlimit halive
  exact ⟨l, log, hrun, hnoted, hcount, fun k p hk => (hall.2.2 k p hk).2.imp_right And.left⟩

end DatagramTransport.Link
