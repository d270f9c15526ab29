import DatagramTransport.Proofs.Link.Steady

/-!
# How often a message is returned

On a link that only loses datagrams, a message is returned as often as its
frame arrives. One that came before every later one arrives once. One that
was overtaken is sent again for each report that misses it.
-/

set_option autoImplicit false

namespace DatagramTransport.Link

namespace Entry

def brings (s : Side) (t : Transfer) : Entry → Bool
  | received u datagram _ _ => u = s ∧ Transfer.ofDatagram? datagram = some t
  | sent .. => false

end Entry

def arrivals (s : Side) (t : Transfer) (log : List Entry) : Nat :=
  log.countP (Entry.brings s t)

def returns (s : Side) (t : Transfer) (log : List Entry) : List Message :=
  (log.filter (Entry.brings s t)).flatMap (Entry.returned s)

section
variable {config : Config} {s : Side} {posted : List Posting} {log : List Entry} {entry : Entry}
  {k : Nat} {p : Posting}

/-- A datagram counts for a posted frame if and only if the frame's id is noted. -/
theorem Entry.Faithful.count (h : entry.Faithful config s posted)
    (hposted : WellPosted config posted) (hn : posted.length ≤ custodyLimit)
    (hk : posted[k]? = some p) :
    (entry.noted s.other).count (idAt k) =
      if entry.brings s.other p.transfer then 1 else 0 := by
  have hl : custodyLimit = 65504 := rfl
  obtain ⟨hkn, -⟩ := List.getElem?_eq_some_iff.mp hk
  cases entry with
  | sent => rfl
  | received t datagram ids messages =>
    by_cases ht : t = s.other
    · obtain ⟨hids, hall⟩ := h ht
      simp only [Entry.noted, Entry.brings, ht, true_and, if_true, hids, carried]
      cases hu : Transfer.ofDatagram? datagram with
      | none => rfl
      | some u =>
        obtain ⟨⟨layout, payload, hcarries, hplace⟩, -⟩ := hall u hu
        rw [Option.bind_some, hcarries.messageId]
        by_cases heq : u = p.transfer
        · subst heq
          obtain ⟨layout', payload', hcarries', hid, -⟩ := hposted k p hk
          rw [← hcarries.messageId, hcarries'.messageId, hid]
          simp
        · have hother : layout.messageId ≠ some (idAt k) := by
            intro hid
            obtain ⟨j, q, hj, hq, hjk⟩ := hplace _ hid
            obtain ⟨hjn, -⟩ := List.getElem?_eq_some_iff.mp hj
            obtain rfl := idAt_inj (by omega) (by omega) hjk
            cases hk.symm.trans hj
            exact heq hq.symm
          rw [List.count_eq_zero_of_not_mem fun hm => hother (Option.mem_toList.mp hm)]
          simp [heq]
    · simp [Entry.noted, Entry.brings, ht]

theorem arrivals_eq_count (hposted : WellPosted config posted)
    (hn : posted.length ≤ custodyLimit) (hk : posted[k]? = some p)
    (h : ∀ entry ∈ log, entry.Faithful config s posted) :
    arrivals s.other p.transfer log = (notedBy s.other log).count (idAt k) := by
  induction log with
  | nil => rfl
  | cons entry log ih =>
    have hfirst := (h entry (by simp)).count hposted hn hk
    have hrest := ih fun e he => h e (List.mem_cons_of_mem _ he)
    have hsplit : notedBy s.other (entry :: log) =
        entry.noted s.other ++ notedBy s.other log := List.flatMap_cons
    rw [arrivals] at hrest
    rw [arrivals, List.countP_cons, hrest, hsplit, List.count_append, hfirst, Nat.add_comm]

theorem returns_eq_replicate (hposted : WellPosted config posted) (hk : posted[k]? = some p)
    (hq : (config.channelQos p.transfer.channel).framing = .reliable)
    (h : ∀ entry ∈ log, entry.Faithful config s posted) :
    returns s.other p.transfer log =
      List.replicate (arrivals s.other p.transfer log) ⟨p.transfer.channel, p.message⟩ := by
  induction log with
  | nil => rfl
  | cons entry log ih =>
    have hrest := ih fun e he => h e (List.mem_cons_of_mem _ he)
    rw [returns, arrivals] at hrest ⊢
    by_cases hb : entry.brings s.other p.transfer = true
    · rw [List.filter_cons_of_pos hb, List.flatMap_cons, hrest, List.countP_cons_of_pos hb,
        List.replicate_succ]
      cases entry with
      | sent => cases hb
      | received t datagram ids messages =>
        have hb' : t = s.other ∧ Transfer.ofDatagram? datagram = some p.transfer := by
          simpa [Entry.brings] using hb
        obtain ⟨ht, hu⟩ := hb'
        obtain ⟨-, hall⟩ := h _ List.mem_cons_self ht
        rw [Entry.returned, if_pos ht, (hall _ hu).2 hq, hposted.message hk hq]
        rfl
    · rw [List.filter_cons_of_neg hb, List.countP_cons_of_neg hb, hrest]

end

/-- On a link that only loses datagrams, a message is returned as often as its
frame arrives. A frame that came before every later one arrives once. -/
theorem returned_at_each_arrival {a b : Endpoint} (hpair : Paired a b) {events : List Event}
    (horderly : ∀ e ∈ events, e.Orderly) {l : Link} {log : List Entry}
    (hrun : (start a b).run events = .ok (l, log)) (s : Side)
    (hcount : (minted a.config s log).length ≤ custodyLimit) {k : Nat} {p : Posting}
    (hk : (minted a.config s log)[k]? = some p)
    (hq : a.config.channelQos p.transfer.channel = .reliable ∨
      a.config.channelQos p.transfer.channel = .allCostDelivery) :
    returns s.other p.transfer log =
        List.replicate (arrivals s.other p.transfer log) ⟨p.transfer.channel, p.message⟩ ∧
      (InOrder (notedBy s.other log) (idAt k) → arrivals s.other p.transfer log = 1) := by
  obtain ⟨hsound, hsteady⟩ := hpair.steady_run horderly hrun
  obtain ⟨-, -, hflow, hfaithful⟩ := hsteady s (by rwa [hpair.endpoints_config])
  obtain ⟨hspeaks, -⟩ := hsound s
  rw [hpair.endpoints_config] at hspeaks hfaithful
  have hposted := hspeaks.wellPosted
  rw [hpair.endpoints_config] at hposted
  constructor
  · exact returns_eq_replicate hposted hk (Qos.framing_eq_reliable.mpr hq) hfaithful
  intro hinOrder
  rw [arrivals_eq_count hposted hcount hk hfaithful]
  exact hflow.once _ hinOrder

/-- The first of two messages is lost, and two echoes of the second one make
its sender send the first one twice. -/
theorem returned_twice_after_loss :
    ∃ l log p, (start (standardEnd 1 2) (standardEnd 2 1)).run
        [.send .left 0 [10], .lose .left 0, .send .left 0 [20], .deliver .left 0 false,
          .deliver .right 0 false, .deliver .right 0 false, .deliver .left 0 false,
          .deliver .left 0 false] = .ok (l, log) ∧
      (minted .standard .left log)[0]? = some p ∧ arrivals .right p.transfer log = 2 ∧
      returns .right p.transfer log = [⟨0, [10]⟩, ⟨0, [10]⟩] := by
  let p : Posting := { transfer := { channel := 0, frame := [0, 6, 0, 1, 10] }, message := [10] }
  obtain ⟨l, log, hrun, heval⟩ := run_of_eval
    (start (standardEnd 1 2) (standardEnd 2 1))
    [.send .left 0 [10], .lose .left 0, .send .left 0 [20], .deliver .left 0 false,
      .deliver .right 0 false, .deliver .right 0 false, .deliver .left 0 false,
      .deliver .left 0 false]
    (fun r => ((minted .standard .left r.2)[0]?, (minted .standard .left r.2).length,
      arrivals .right p.transfer r.2))
    (some p, 2, 2) (by decide +kernel)
  obtain ⟨hfirst, hcount, harrivals⟩ : (minted .standard .left log)[0]? = some p ∧
      (minted .standard .left log).length = 2 ∧ arrivals .right p.transfer log = 2 := by
    simpa using heval
  have hlimit : (minted (standardEnd 1 2).config .left log).length ≤ custodyLimit :=
    Nat.le_trans (Nat.le_of_eq hcount) (by decide)
  have horderly : ∀ e ∈ [Event.send .left 0 [10], .lose .left 0, .send .left 0 [20],
      .deliver .left 0 false, .deliver .right 0 false, .deliver .right 0 false,
      .deliver .left 0 false, .deliver .left 0 false], e.Orderly := by
    simp [Event.Orderly]
  have hreturns := (returned_at_each_arrival (paired_standardEnd 1 2) horderly hrun .left hlimit
    (p := p) hfirst (.inl rfl)).1
  refine ⟨l, log, p, hrun, hfirst, harrivals, ?_⟩
  rw [Side.other, harrivals] at hreturns
  exact hreturns

end DatagramTransport.Link
