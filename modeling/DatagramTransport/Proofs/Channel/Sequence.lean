import DatagramTransport.Proofs.Channel.Arrivals

/-!
# Delivery in order

The positions of a channel are bytes, and the awaited one is compared as a
plain number. As long as a channel has sent no more than 255 messages, a
byte names one of them. What has passed may then be held again, while 255 is
awaited or after it, but nothing that is held is released a second time.
-/

set_option autoImplicit false

namespace DatagramTransport

theorem toNat_positionAt {index : Nat} (h : index < 255) :
    (positionAt index).toNat = index + 1 :=
  UInt8.toNat_ofNat_of_lt' (Nat.succ_lt_succ h)

/-- The awaited position is that of the next message, or zero after the last one. -/
theorem positionAt_inj {i j : Nat} (hi : i ≤ 255) (hj : j < 255)
    (h : positionAt i = positionAt j) : i = j := by
  have hn := congrArg UInt8.toNat h
  rw [toNat_positionAt hj, positionAt, UInt8.toNat_ofNat'] at hn
  omega

namespace Reorder

/-- Of the messages of a channel, some of which came, the first ones are done. -/
structure Holds (messages : List Bytes) (came : Nat → Bool) (r : Reorder) (done : Nat) :
    Prop where
  next : r.next = positionAt done
  done_le : done ≤ messages.length
  before : ∀ k < done, came k = true
  sound : ∀ position payload, r.held[position]? = some payload →
    ∃ k, messages[k]? = some payload ∧ position = positionAt k ∧ came k = true
  complete : ∀ k payload, done ≤ k → messages[k]? = some payload → came k = true →
    r.held[positionAt k]? = some payload

def Stops (messages : List Bytes) (came : Nat → Bool) (done : Nat) : Prop :=
  done < messages.length → came done = false

section
variable {messages : List Bytes} {came : Nat → Bool} {r : Reorder} {done : Nat}

theorem holds_fresh : fresh.Holds messages (fun _ => false) 0 where
  next := rfl
  done_le := Nat.zero_le _
  before := by simp
  sound := by simp [fresh]
  complete := by simp

theorem Holds.erase (hn : messages.length ≤ 255) (h : r.Holds messages came done)
    (hlt : done < messages.length) (hcame : came done = true) :
    Holds messages came { next := r.next + 1, held := r.held.erase r.next } (done + 1) := by
  constructor
  case next => exact (congrArg (· + 1) h.next).trans (positionAt_succ done)
  case done_le => exact hlt
  case before =>
    intro j hj
    by_cases heq : j = done
    · rw [heq]
      exact hcame
    · exact h.before j (by omega)
  case sound =>
    intro position other hother
    simp only [Std.ExtTreeMap.getElem?_erase] at hother
    split at hother
    · cases hother
    · exact h.sound position other hother
  case complete =>
    intro j other hj hother hc
    obtain ⟨hjlt, -⟩ := List.getElem?_eq_some_iff.mp hother
    have hne : positionAt done ≠ positionAt j := by
      intro heq
      have := positionAt_inj (by omega) (by omega) heq
      omega
    simp only [Std.ExtTreeMap.getElem?_erase, h.next, Std.compare_eq_iff_eq, hne, if_false]
    exact h.complete j other (by omega) hother hc

theorem Holds.release (hn : messages.length ≤ 255) (h : r.Holds messages came done) :
    ∃ done', r.release.1.Holds messages came done' ∧ Stops messages came done' ∧
      messages.take done ++ r.release.2 = messages.take done' := by
  induction r using release.induct generalizing done with
  | case1 r hnone =>
    have hstops : Stops messages came done := by
      intro hlt
      by_cases hc : came done = true
      · have hheld := h.complete done _ (Nat.le_refl _) (List.getElem?_eq_getElem hlt) hc
        rw [← h.next, hnone] at hheld
        cases hheld
      · simpa using hc
    rw [release_of_none hnone]
    exact ⟨done, h, hstops, List.append_nil _⟩
  | case2 r payload hheld after payloads hafter ih =>
    obtain ⟨k, hk, hposition, hcame⟩ := h.sound r.next payload hheld
    obtain ⟨hlt, -⟩ := List.getElem?_eq_some_iff.mp hk
    have hle := h.done_le
    rw [h.next] at hposition
    obtain rfl := positionAt_inj (by omega) (by omega) hposition
    obtain ⟨done', hholds, hstops, heq⟩ := ih (h.erase hn hlt hcame)
    rw [release_of_some hheld]
    refine ⟨done', hholds, hstops, ?_⟩
    rw [← heq, List.take_add_one, hk, List.append_assoc]
    rfl

theorem Holds.come_next (h : r.Holds messages came done) (hlt : done < messages.length) :
    Holds messages (fun j => came j || decide (j = done)) { r with next := r.next + 1 }
      (done + 1) := by
  constructor
  case next => exact (congrArg (· + 1) h.next).trans (positionAt_succ done)
  case done_le => exact hlt
  case before =>
    intro j hj
    by_cases heq : j = done
    · simp [heq]
    · simp [h.before j (by omega)]
  case sound =>
    intro position other hother
    obtain ⟨j, hj, hp, hc⟩ := h.sound position other hother
    exact ⟨j, hj, hp, by simp [hc]⟩
  case complete =>
    intro j other hj hother hc
    have hne : j ≠ done := by omega
    exact h.complete j other (by omega) hother (by simpa [hne] using hc)

theorem Holds.come_later (hn : messages.length ≤ 255) (h : r.Holds messages came done)
    {k : Nat} {payload : Bytes} (hk : messages[k]? = some payload) :
    Holds messages (fun j => came j || decide (j = k))
      { r with held := r.held.insertIfNew (positionAt k) payload } done := by
  obtain ⟨hlt, -⟩ := List.getElem?_eq_some_iff.mp hk
  constructor
  case next => exact h.next
  case done_le => exact h.done_le
  case before =>
    intro j hj
    simp [h.before j hj]
  case sound =>
    intro position other hother
    simp only [Std.ExtTreeMap.getElem?_insertIfNew, Std.compare_eq_iff_eq] at hother
    split at hother
    · rename_i hnew
      cases hother
      exact ⟨k, hk, hnew.1.symm, by simp⟩
    · obtain ⟨j, hj, hp, hc⟩ := h.sound position other hother
      exact ⟨j, hj, hp, by simp [hc]⟩
  case complete =>
    intro j other hj hother hc
    simp only [Std.ExtTreeMap.getElem?_insertIfNew, Std.compare_eq_iff_eq]
    obtain ⟨hjlt, -⟩ := List.getElem?_eq_some_iff.mp hother
    by_cases hjk : j = k
    · subst hjk
      cases hk.symm.trans hother
      split
      · rfl
      · rename_i hold
        have hmem : positionAt j ∈ r.held := by simpa using hold
        obtain ⟨kept, hkept⟩ := Option.isSome_iff_exists.mp
          (Std.ExtTreeMap.mem_iff_isSome_getElem?.mp hmem)
        obtain ⟨i, hi, hp, -⟩ := h.sound _ kept hkept
        obtain ⟨hilt, -⟩ := List.getElem?_eq_some_iff.mp hi
        obtain rfl := positionAt_inj (by omega) (by omega) hp
        exact hkept.trans (hi.symm.trans hk)
    · have hother' : positionAt k ≠ positionAt j := by
        intro heq
        exact hjk (positionAt_inj (by omega) (by omega) heq).symm
      rw [if_neg fun hc => hother' hc.1]
      exact h.complete j other hj hother (by simpa [hjk] using hc)

theorem Holds.lt_of_passed (h : r.Holds messages came done) {k : Nat} (hk : k < 255)
    (hle : done ≤ 255) (hnow : positionAt k ≠ r.next)
    (hlater : ¬ (r.next < positionAt k ∨ r.next = 255)) : k < done := by
  obtain ⟨hearlier, -⟩ := not_or.mp hlater
  rw [UInt8.lt_iff_toNat_lt, h.next, toNat_positionAt hk] at hearlier
  have hne : done ≠ k := fun heq => hnow (by rw [h.next, heq])
  by_cases hd : done < 255
  · rw [toNat_positionAt hd] at hearlier
    omega
  · obtain rfl : done = 255 := by omega
    exact absurd (Nat.succ_pos k) hearlier

theorem Holds.accept (hn : messages.length ≤ 255) (h : r.Holds messages came done)
    (hstops : Stops messages came done) {k : Nat} {payload : Bytes}
    (hk : messages[k]? = some payload) :
    ∃ done', (r.accept (positionAt k) payload).1.Holds messages
        (fun j => came j || decide (j = k)) done' ∧
      Stops messages (fun j => came j || decide (j = k)) done' ∧
      messages.take done ++ (r.accept (positionAt k) payload).2 = messages.take done' := by
  obtain ⟨hlt, -⟩ := List.getElem?_eq_some_iff.mp hk
  have hle := h.done_le
  unfold Reorder.accept
  by_cases hnow : positionAt k = r.next
  · rw [if_pos hnow]
    rw [h.next] at hnow
    obtain rfl := positionAt_inj (by omega) (by omega) hnow.symm
    obtain ⟨done', hholds, hstops', heq⟩ := (h.come_next hlt).release hn
    refine ⟨done', hholds, hstops', ?_⟩
    rw [← heq, List.take_add_one, hk, List.append_assoc]
    rfl
  · rw [if_neg hnow]
    by_cases hlater : r.next < positionAt k ∨ r.next = 255
    · rw [if_pos hlater]
      have hstays : Stops messages (fun j => came j || decide (j = k)) done := by
        intro hd
        have hne : done ≠ k := by
          rintro rfl
          exact hnow h.next.symm
        simp [hstops hd, hne]
      exact ⟨done, h.come_later hn hk, hstays, List.append_nil _⟩
    · rw [if_neg hlater]
      have hpassed := h.lt_of_passed (by omega) (by omega) hnow hlater
      have hsame : (fun j => came j || decide (j = k)) = came := by
        funext j
        by_cases hj : j = k
        · simp [hj, h.before k hpassed]
        · simp [hj]
      rw [hsame]
      exact ⟨done, h, hstops, List.append_nil _⟩

end

end Reorder

theorem takeWhile_eq_take {α : Type} {test : α → Bool} {l : List α} {n : Nat}
    (hbefore : ∀ k < n, l[k]?.any test = true) (hstop : n < l.length → l[n]?.any test = false) :
    l.takeWhile test = l.take n := by
  induction n generalizing l with
  | zero =>
    cases l with
    | nil => rfl
    | cons a l =>
      have ha := hstop (Nat.succ_pos _)
      rw [List.take_zero, List.takeWhile_cons_of_neg (by simpa using ha)]
  | succ n ih =>
    cases l with
    | nil =>
      have := hbefore 0 (Nat.succ_pos n)
      cases this
    | cons a l =>
      have ha := hbefore 0 (Nat.succ_pos n)
      rw [List.take_succ_cons, List.takeWhile_cons_of_pos (by simpa using ha)]
      congr 1
      exact ih (fun k hk => hbefore (k + 1) (Nat.succ_lt_succ hk))
        (fun hn => hstop (Nat.succ_lt_succ hn))

/-- What a channel has delivered of its parcels, after some arrivals. -/
structure Inbox.Keeps (qualities : List Qos) (place : Nat) (posted arrived : List Parcel)
    (delivered : List Bytes) (b : Inbox) : Prop where
  framing : b.channels.map Channel.framing = qualities.map Qos.framing
  window : b.window.latest = 0 ∨ b.window.latest ∈ drawn arrived
  channel : ∃ inbound nextOut done,
    b.channels[place]? = some (.reliableSequenced inbound nextOut) ∧
      inbound.Holds (posted.map Parcel.message) (came posted arrived) done ∧
      Reorder.Stops (posted.map Parcel.message) (came posted arrived) done ∧
      delivered = (posted.map Parcel.message).take done

namespace Inbox

section
variable {qualities : List Qos} {place : Nat} {posted arrived : List Parcel}
  {delivered : List Bytes} {b : Inbox} {p : Parcel}

theorem keeps_fresh (mode : AckMode) (hq : qualities[place]? = some .reliableSequenced)
    (posted : List Parcel) : (fresh qualities mode).Keeps qualities place posted [] [] where
  framing := (fed_fresh qualities mode).framing
  window := (fed_fresh qualities mode).window
  channel := by
    refine ⟨.fresh, 1, 0, by simp [fresh, hq, Channel.ofQos], ?_, ?_, rfl⟩
    · have hnone : came posted [] = fun _ => false := by
        funext k
        simp [came]
      rw [hnone]
      exact Reorder.holds_fresh
    · intro _
      simp [came]

theorem Keeps.fed (h : b.Keeps qualities place posted arrived delivered) :
    b.Fed qualities arrived :=
  ⟨h.framing, h.window⟩

theorem Keeps.take_other (h : b.Keeps qualities place posted arrived delivered)
    (hother : p.place ≠ place) (hposted : ∀ k : Nat, posted[k]? ≠ some p) {q : Qos}
    (hq : q ∈ qualities[p.place]?) (hp : p.frame.PartOf q.framing p.message) :
    (b.take p).1.Keeps qualities place posted (arrived ++ [p]) delivered := by
  obtain ⟨hfed, hstays⟩ := h.fed.take hq hp
  refine ⟨hfed.framing, hfed.window, ?_⟩
  rw [came_append_other hposted, hstays place hother]
  exact h.channel

theorem Keeps.take_self (h : b.Keeps qualities place posted arrived delivered)
    (hn : posted.length ≤ 255) (hself : p.place = place) {k : Nat} (hk : posted[k]? = some p)
    (honly : ∀ j : Nat, posted[j]? = some p → j = k) (hseq : p.Sequenced k)
    (hfed : (b.take p).1.Fed qualities (arrived ++ [p]))
    (hagain : p.frame.messageId = some b.window.latest → p ∈ arrived) :
    (b.take p).1.Keeps qualities place posted (arrived ++ [p])
      (delivered ++ (b.take p).2) := by
  obtain ⟨inbound, nextOut, done, hc, hholds, hstops, rfl⟩ := h.channel
  have hmessage : (posted.map Parcel.message)[k]? = some p.message := by
    rw [List.getElem?_map, hk]
    rfl
  obtain ⟨hlt, -⟩ := List.getElem?_eq_some_iff.mp hc
  refine ⟨hfed.framing, hfed.window, ?_⟩
  by_cases hlatest : p.frame.messageId = some b.window.latest
  · rw [take_sequenced_latest hc hself hseq hlatest, List.append_nil,
      came_append_again (hagain hlatest)]
    exact ⟨inbound, nextOut, done, hc, hholds, hstops, rfl⟩
  · obtain ⟨id, -, htake⟩ := take_sequenced hc hself hseq hlatest
    have hcame : came posted (arrived ++ [p]) =
        fun j => came posted arrived j || decide (j = k) := funext (came_append honly hk)
    obtain ⟨done', hholds', hstops', heq⟩ :=
      hholds.accept (by rwa [List.length_map]) hstops hmessage
    rw [htake, hcame, List.getElem?_set_self hlt]
    exact ⟨_, _, done', rfl, hholds', hstops', heq⟩

end

theorem Keeps.takeAll {qualities : List Qos} {place : Nat} {parcels arriving : List Parcel}
    {b : Inbox} {o : Outbox} (hposted : o.Posted qualities parcels)
    (hids : (drawn parcels).length ≤ 65535) (hn : (postedOn place parcels).length ≤ 255)
    (hseq : ∀ (k : Nat) (p : Parcel), (postedOn place parcels)[k]? = some p → p.Sequenced k)
    (harriving : ∀ p ∈ arriving, p ∈ parcels)
    (h : b.Keeps qualities place (postedOn place parcels) [] []) :
    (b.takeAll place arriving).1.Keeps qualities place (postedOn place parcels) arriving
      (b.takeAll place arriving).2 := by
  obtain ⟨hdistinct, hpositive⟩ := hposted.distinct hids
  refine takeAll_induction place arriving
    (P := fun arrived delivered b =>
      b.Keeps qualities place (postedOn place parcels) arrived delivered) h ?_
  intro arrived p delivered b hfirst hkeeps
  have hp : p ∈ parcels := harriving p (hfirst.subset (by simp))
  have harrived : ∀ q ∈ arrived, q ∈ parcels := fun q hq =>
    harriving q (hfirst.subset (List.mem_append_left _ hq))
  obtain ⟨q, hq, hpart⟩ := hposted.fits p hp
  split
  · rename_i hself
    have hmem : p ∈ postedOn place parcels := List.mem_filter.mpr ⟨hp, by simpa using hself⟩
    obtain ⟨k, hk⟩ := List.mem_iff_getElem?.mp hmem
    obtain ⟨id, -, hframe⟩ := hseq k p hk
    have hid : p.frame.messageId = some id := by rw [hframe]
    have hown : Distinct (postedOn place parcels) := hdistinct.sublist List.filter_sublist
    exact hkeeps.take_self hn hself hk (fun j hj => hown.place_eq hj hk hid hid) (hseq k p hk)
      (hkeeps.fed.take hq hpart).1 (hkeeps.fed.again hdistinct hpositive harrived hp)
  · rename_i hother
    rw [List.append_nil]
    apply hkeeps.take_other hother ?_ hq hpart
    intro k hk
    have hmem := List.mem_of_getElem? hk
    exact hother (by simpa using (List.mem_filter.mp hmem).2)

end Inbox

/-- Whatever is lost, repeated or reordered, a sequenced channel has delivered
the messages up to the first one that did not arrive, in the order in which
they were posted. -/
theorem sequenced_delivers_arrived_prefix (qualities : List Qos) (mode : AckMode) {place : Nat}
    (hplace : qualities[place]? = some .reliableSequenced) (posts : List (Nat × Bytes))
    (hids : (drawn ((Outbox.fresh qualities).postAll posts).2).length ≤ 65535)
    (hcount : (postedOn place ((Outbox.fresh qualities).postAll posts).2).length ≤ 255)
    {arriving : List Parcel}
    (harriving : ∀ p ∈ arriving, p ∈ ((Outbox.fresh qualities).postAll posts).2) :
    ((Inbox.fresh qualities mode).takeAll place arriving).2 <+:
        (postedOn place ((Outbox.fresh qualities).postAll posts).2).map Parcel.message ∧
      ((Inbox.fresh qualities mode).takeAll place arriving).2 =
        ((postedOn place ((Outbox.fresh qualities).postAll posts).2).takeWhile
          (· ∈ arriving)).map Parcel.message := by
  have hposted := (Outbox.posted_fresh qualities).postAll posts
  rw [List.nil_append] at hposted
  generalize hparcels : ((Outbox.fresh qualities).postAll posts).2 = parcels at *
  have hseq : ∀ (k : Nat) (p : Parcel), (postedOn place parcels)[k]? = some p →
      p.Sequenced k := by
    have hquality := congrArg (fun l => l[place]?) hposted.framing
    simp only [List.getElem?_map, hplace, Option.map_some] at hquality
    obtain ⟨c, hc, hframing⟩ := Option.map_eq_some_iff.mp hquality
    obtain ⟨inbound, nextOut, rfl⟩ := Channel.eq_reliableSequenced hframing
    exact (hposted.sequence place inbound nextOut hc).2
  have hkeeps := (Inbox.keeps_fresh mode hplace (postedOn place parcels)).takeAll hposted hids
    hcount hseq harriving
  obtain ⟨inbound, nextOut, done, -, hholds, hstops, heq⟩ := hkeeps.channel
  rw [heq]
  constructor
  · exact List.take_prefix _ _
  rw [← List.map_take]
  congr 1
  rw [takeWhile_eq_take hholds.before fun hlt => hstops (by rwa [List.length_map])]

theorem sequenced_delivers_arrived_prefix_reordered :
    ∃ parcels arriving : List Parcel,
      ((Outbox.fresh [.reliableSequenced, .reliable]).postAll
        [(0, [10]), (1, [90]), (0, [20]), (0, [30])]).2 = parcels ∧
      [2, 1, 2, 0].filterMap (fun k : Nat => parcels[k]?) = arriving ∧ arriving.length = 4 ∧
      ((Inbox.fresh [.reliableSequenced, .reliable] .short).takeAll 0 arriving).2 =
        [[10], [20]] := by
  have hplace : ([.reliableSequenced, .reliable] : List Qos)[0]? = some .reliableSequenced := rfl
  have harriving : ∀ (parcels : List Parcel) (places : List Nat),
      ∀ p ∈ places.filterMap (fun k : Nat => parcels[k]?), p ∈ parcels := by
    intro parcels places p hp
    obtain ⟨k, -, hk⟩ := List.mem_filterMap.mp hp
    exact List.mem_of_getElem? hk
  refine ⟨_, _, rfl, rfl, by decide +kernel, ?_⟩
  have hall := sequenced_delivers_arrived_prefix [.reliableSequenced, .reliable] .short hplace
    [(0, [10]), (1, [90]), (0, [20]), (0, [30])] (by decide +kernel) (by decide +kernel)
    (harriving _ [2, 1, 2, 0])
  rw [hall.2]
  decide +kernel

end DatagramTransport
