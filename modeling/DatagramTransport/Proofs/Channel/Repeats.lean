import DatagramTransport.Proofs.Channel.Overtaking
import DatagramTransport.Proofs.AckWindow

/-!
# Frames that come again

The window takes only its highest id for a repetition. Any other frame that
comes a second time gets as far as the reorder buffer, where its position
decides. Positions repeat after 256 messages, and all of them count as later
ones while 255 is awaited, so that a frame of a message that was delivered
long ago can be held, or be delivered once more.
-/

set_option autoImplicit false

namespace DatagramTransport

namespace AckWindow

theorem Tracks.record_known {w : AckWindow} {ids : List UInt16} (h : w.Tracks ids) {id : UInt16}
    (hid : id ∈ ids) : (w.record id).1 = w := by
  have hle := h.bound id hid
  unfold record
  by_cases heq : id = w.latest
  · rw [if_pos heq]
  · have hnot : ¬ w.latest < id := by
      rw [UInt16.lt_iff_toNat_lt]
      omega
    have hdistance : (w.latest - id).toNat = w.latest.toNat - id.toNat :=
      UInt16.toNat_sub_of_le _ _ (UInt16.le_iff_toNat_le.mpr hle)
    have hmask : w.mask ||| .twoPow ackSpan (w.latest - id).toNat = w.mask := by
      apply BitVec.eq_of_getLsbD_eq
      intro i hi
      rw [BitVec.getLsbD_or, BitVec.getLsbD_twoPow]
      by_cases hplace : (w.latest - id).toNat = i
      · have hback : w.latest - .ofNat i = id := by
          rw [sub_ofNat_eq_iff (by omega)]
          omega
        have hset : w.mask.getLsbD i = true := by
          rw [← Bool.not_eq_false, h.bit i hi, hback]
          exact fun hclear => hclear.2 hid
        rw [hset, Bool.true_or]
      · simp [hplace]
    rw [if_neg heq, if_neg hnot, hmask]

theorem record_withMode (w : AckWindow) (mode : AckMode) (id : UInt16) :
    (record { w with mode := mode } id).1 = { (w.record id).1 with mode := mode } := by
  unfold record
  by_cases heq : id = w.latest
  · rw [if_pos heq, if_pos heq]
  · rw [if_neg heq, if_neg heq]
    by_cases hlt : w.latest < id
    · rw [if_pos hlt, if_pos hlt]
    · rw [if_neg hlt, if_neg hlt]

end AckWindow

namespace Reorder

section
variable {r : Reorder} {n : Nat} {P : UInt8 → Bytes → Prop}
  (hheld : ∀ position payload, r.held[position]? = some payload → P position payload)
include hheld

theorem release_keeps (hnext : r.next = positionAt n) :
    (∀ position payload, r.release.1.held[position]? = some payload → P position payload) ∧
      ∀ j payload, r.release.2[j]? = some payload → P (positionAt (n + j)) payload := by
  induction r using release.induct generalizing n with
  | case1 r hnone =>
    rw [release_of_none hnone]
    exact ⟨hheld, by simp⟩
  | case2 r first hfirst after payloads hafter ih =>
    have hrest : ∀ position payload, (r.held.erase r.next)[position]? = some payload →
        P position payload := by
      intro position payload h
      rw [Std.ExtTreeMap.getElem?_erase] at h
      split at h
      · cases h
      · exact hheld position payload h
    obtain ⟨hstays, hreleased⟩ := ih hrest ((congrArg (· + 1) hnext).trans (positionAt_succ n))
    rw [release_of_some hfirst]
    refine ⟨hstays, fun j payload hj => ?_⟩
    cases j with
    | zero =>
      cases hj
      exact hheld _ _ (hnext ▸ hfirst)
    | succ j =>
      rw [← Nat.succ_add_eq_add_succ]
      exact hreleased j payload hj

theorem accept_keeps (hnext : r.next = positionAt n) {position : UInt8} {payload : Bytes}
    (hnew : P position payload) :
    (∀ other waiting, (r.accept position payload).1.held[other]? = some waiting →
        P other waiting) ∧
      ∀ j delivered, (r.accept position payload).2[j]? = some delivered →
        P (positionAt (n + j)) delivered := by
  unfold accept
  by_cases hnow : position = r.next
  · rw [if_pos hnow]
    obtain ⟨hstays, hreleased⟩ := release_keeps (r := { r with next := r.next + 1 }) hheld
      ((congrArg (· + 1) hnext).trans (positionAt_succ n))
    refine ⟨hstays, fun j delivered hj => ?_⟩
    cases j with
    | zero =>
      cases hj
      rwa [Nat.add_zero, ← hnext, ← hnow]
    | succ j =>
      rw [← Nat.succ_add_eq_add_succ]
      exact hreleased j delivered hj
  · rw [if_neg hnow]
    split
    · refine ⟨fun other waiting h => ?_, by simp⟩
      rw [Std.ExtTreeMap.getElem?_insertIfNew] at h
      split at h
      · rename_i hboth
        cases h
        rwa [← Std.compare_eq_iff_eq.mp hboth.1]
      · exact hheld other waiting h
    · exact ⟨hheld, by simp⟩

end

/-- A position for which the buffer has no use: one below the awaited one, or
one that is taken. -/
def Passed (r : Reorder) (position : UInt8) : Prop :=
  position < r.next ∧ r.next ≠ 255 ∨ position ≠ r.next ∧ position ∈ r.held

theorem accept_eq_self_iff (r : Reorder) (position : UInt8) (payload : Bytes) :
    r.accept position payload = (r, []) ↔ r.Passed position := by
  unfold accept Passed
  by_cases hnow : position = r.next
  · simp [hnow]
  · rw [if_neg hnow]
    by_cases hlater : r.next < position ∨ r.next = 255
    · have hnotBelow : ¬ (position < r.next ∧ r.next ≠ 255) := by
        rintro ⟨hlt, hne⟩
        exact UInt8.lt_asymm hlt (hlater.resolve_right hne)
      rw [if_pos hlater, or_iff_right hnotBelow, and_iff_right hnow]
      constructor
      · intro hsame
        have hheld : r.held.insertIfNew position payload = r.held :=
          congrArg (fun x => x.1.held) hsame
        rw [← hheld]
        exact Std.ExtTreeMap.mem_insertIfNew_self
      · intro htaken
        have hheld : r.held.insertIfNew position payload = r.held := by
          apply Std.ExtTreeMap.ext_getElem?
          intro other
          rw [Std.ExtTreeMap.getElem?_insertIfNew, if_neg fun h => h.2 htaken]
        rw [hheld]
    · have hbelow : position < r.next ∧ r.next ≠ 255 := by
        obtain ⟨hle, hne⟩ := not_or.mp hlater
        rw [UInt8.lt_iff_toNat_lt] at hle ⊢
        have hdiff : position.toNat ≠ r.next.toNat := fun heq => hnow (UInt8.toNat_inj.mp heq)
        exact ⟨by omega, hne⟩
      rw [if_neg hlater]
      exact iff_of_true rfl (.inl hbelow)

end Reorder

namespace Inbox

theorem eq_of_parts {a b : Inbox} (hchannels : a.channels = b.channels)
    (hwindow : a.window = b.window) : a = b := by
  cases a
  cases b
  cases hchannels
  cases hwindow
  rfl

def Brought (posted arrived : List Parcel) (position : UInt8) (payload : Bytes) : Prop :=
  ∃ i q, posted[i]? = some q ∧ q ∈ arrived ∧ q.message = payload ∧ positionAt i = position

/-- What a sequenced channel has delivered and holds was brought to its position. -/
def Traced (place : Nat) (posted arrived : List Parcel) (delivered : List Bytes) (b : Inbox) :
    Prop :=
  ∃ inbound nextOut, b.channels[place]? = some (.reliableSequenced inbound nextOut) ∧
    inbound.next = positionAt delivered.length ∧
    (∀ position payload, inbound.held[position]? = some payload →
      Brought posted arrived position payload) ∧
    ∀ j payload, delivered[j]? = some payload → Brought posted arrived (positionAt j) payload

def Noted (arrived : List Parcel) (b : Inbox) : Prop :=
  AckWindow.Tracks { b.window with mode := .short } (drawn arrived)

section
variable {qualities : List Qos} {place : Nat} {arrived arriving : List Parcel}
  {b : Inbox} {p : Parcel} {k : Nat}

theorem traced_fresh (mode : AckMode) (hplace : qualities[place]? = some .reliableSequenced)
    (posted arrived : List Parcel) : (fresh qualities mode).Traced place posted arrived [] :=
  ⟨.fresh, 1, by simp [fresh, hplace, Channel.ofQos], rfl, by simp [Reorder.fresh], by simp⟩

theorem Traced.take_other {posted : List Parcel} {delivered : List Bytes}
    (h : b.Traced place posted arrived delivered)
    (hsame : (b.take p).1.channels[place]? = b.channels[place]?) :
    (b.take p).1.Traced place posted arrived delivered := by
  obtain ⟨inbound, nextOut, hc, hall⟩ := h
  exact ⟨inbound, nextOut, hsame.trans hc, hall⟩

theorem Traced.take_self {posted : List Parcel} {delivered : List Bytes}
    (h : b.Traced place posted arrived delivered) (hself : p.place = place)
    (hseq : p.Sequenced k) (hk : posted[k]? = some p) (hp : p ∈ arrived) :
    (b.take p).1.Traced place posted arrived (delivered ++ (b.take p).2) := by
  obtain ⟨inbound, nextOut, hc, hnext, hheld, hdone⟩ := h
  by_cases hlatest : p.frame.messageId = some b.window.latest
  · rw [take_sequenced_latest hc hself hseq hlatest, List.append_nil]
    exact ⟨inbound, nextOut, hc, hnext, hheld, hdone⟩
  · obtain ⟨id, -, htake⟩ := take_sequenced hc hself hseq hlatest
    obtain ⟨hlt, -⟩ := List.getElem?_eq_some_iff.mp hc
    have hbrought : Brought posted arrived (positionAt k) p.message := ⟨k, p, hk, hp, rfl, rfl⟩
    obtain ⟨hstays, hnow⟩ := Reorder.accept_keeps hheld hnext hbrought
    rw [htake]
    refine ⟨_, nextOut, List.getElem?_set_self hlt, ?_, hstays, fun j payload hj => ?_⟩
    · rw [Reorder.next_accept, hnext, positionAt_add, List.length_append]
    · by_cases hold : j < delivered.length
      · rw [List.getElem?_append_left hold] at hj
        exact hdone j payload hj
      · rw [List.getElem?_append_right (by omega)] at hj
        have hplace := hnow _ payload hj
        rwa [Nat.add_sub_of_le (by omega)] at hplace

theorem noted_fresh (qualities : List Qos) (mode : AckMode) :
    (fresh qualities mode).Noted [] :=
  AckWindow.tracks_fresh

theorem Noted.take (h : b.Noted arrived)
    (hwindow : (b.take p).1.window = (b.window.note p.frame.messageId).1) :
    (b.take p).1.Noted (arrived ++ [p]) := by
  rw [Noted, hwindow, drawn_append]
  cases hm : p.frame.messageId with
  | none =>
    have hnone : drawn [p] = [] := by simp [drawn, hm]
    rw [hnone, List.append_nil]
    exact h
  | some id =>
    have hnext := AckWindow.tracks_record h id
    rw [AckWindow.record_withMode] at hnext
    simpa [drawn, hm] using hnext

/-- A frame that came before does not move the window. It leaves the channel as it
is if the window skips it or the reorder buffer has no use for its position. -/
theorem Noted.take_again (h : b.Noted arrived) {inbound : Reorder} {nextOut : UInt8}
    (hc : b.channels[place]? = some (.reliableSequenced inbound nextOut)) (hself : p.place = place)
    (hseq : p.Sequenced k) (hp : p ∈ arrived) :
    (b.take p).1.window = b.window ∧
      ((b.take p).1.channels = b.channels ∧ (b.take p).2 = [] ↔
        p.frame.messageId = some b.window.latest ∨ inbound.Passed (positionAt k)) := by
  by_cases hlatest : p.frame.messageId = some b.window.latest
  · rw [take_sequenced_latest hc hself hseq hlatest]
    exact ⟨rfl, iff_of_true ⟨rfl, rfl⟩ (.inl hlatest)⟩
  · obtain ⟨id, hid, htake⟩ := take_sequenced hc hself hseq hlatest
    obtain ⟨hlt, hat⟩ := List.getElem?_eq_some_iff.mp hc
    have hknown := h.record_known (List.mem_filterMap.mpr ⟨p, hp, hid⟩)
    have hwindow : (b.window.record id).1 = b.window := by
      rw [AckWindow.record_withMode] at hknown
      have hmode := b.window.record_mode id
      cases hw : (b.window.record id).1
      simp_all
    have hchannels : b.channels.set place
          (.reliableSequenced (inbound.accept (positionAt k) p.message).1 nextOut) = b.channels ↔
        (inbound.accept (positionAt k) p.message).1 = inbound := by
      constructor
      · intro hset
        have hplace := congrArg (fun l => l[place]?) hset
        simp only [List.getElem?_set_self hlt, hc, Option.some.injEq,
          Channel.reliableSequenced.injEq] at hplace
        exact hplace.1
      · intro hsame
        rw [hsame, ← hat, List.set_getElem_self]
    rw [htake, hwindow, or_iff_right hlatest,
      ← inbound.accept_eq_self_iff (positionAt k) p.message, Prod.ext_iff, hchannels]
    exact ⟨rfl, Iff.rfl⟩

theorem noted_takeAll {parcels : List Parcel} {o : Outbox} (hposted : o.Posted qualities parcels)
    (mode : AckMode) (hplace : qualities[place]? = some .reliableSequenced)
    (harriving : ∀ p ∈ arriving, p ∈ parcels) :
    ((fresh qualities mode).takeAll place arriving).1.Noted arriving ∧
      ((fresh qualities mode).takeAll place arriving).1.Traced place (postedOn place parcels)
        arriving ((fresh qualities mode).takeAll place arriving).2 ∧
      ((fresh qualities mode).takeAll place arriving).1.Balanced place 0 arriving
        ((fresh qualities mode).takeAll place arriving).2 := by
  refine (takeAll_induction place arriving
    (P := fun arrived delivered b => b.Fed qualities arrived ∧ b.Noted arrived ∧
      b.Traced place (postedOn place parcels) arriving delivered ∧
      b.Balanced place 0 arrived delivered)
    ⟨fed_fresh qualities mode, noted_fresh qualities mode, traced_fresh mode hplace _ _,
      balanced_fresh mode hplace⟩ ?_).2
  rintro arrived p delivered b hfirst ⟨hfed, hnoted, htraced, hbalanced⟩
  have hcame : p ∈ arriving := hfirst.subset (by simp)
  have hp : p ∈ parcels := harriving p hcame
  obtain ⟨q, hq, hpart⟩ := hposted.fits p hp
  obtain ⟨c, d, out, -, -, htake⟩ := hfed.take_eq hq hpart
  obtain ⟨hfed', hstays⟩ := hfed.take hq hpart
  refine ⟨hfed', hnoted.take (by rw [htake]), ?_⟩
  by_cases hself : p.place = place
  · have hmem : p ∈ postedOn place parcels := List.mem_filter.mpr ⟨hp, by simpa using hself⟩
    obtain ⟨k, hk⟩ := List.mem_iff_getElem?.mp hmem
    have hseq := hposted.sequenced hplace hk
    rw [if_pos hself]
    exact ⟨htraced.take_self hself hseq hk hcame, hbalanced.take_self hself hseq⟩
  · rw [if_neg hself, List.append_nil]
    exact ⟨htraced.take_other (hstays place hself), hbalanced.take_other (hstays place hself) hself⟩

end

end Inbox

/-- A frame that comes again is without effect just if it has the highest id, or its position has
passed or is taken. It is so for what was delivered, up to 253 payloads. -/
theorem repeated_frame_inert_iff (qualities : List Qos) (mode : AckMode) {place : Nat}
    (hplace : qualities[place]? = some .reliableSequenced) (posts : List (Nat × Bytes))
    {arriving : List Parcel}
    (harriving : ∀ p ∈ arriving, p ∈ ((Outbox.fresh qualities).postAll posts).2)
    {k : Nat} {p : Parcel}
    (hk : (postedOn place ((Outbox.fresh qualities).postAll posts).2)[k]? = some p)
    (hp : p ∈ arriving) {b : Inbox} {delivered : List Bytes}
    (hrun : (Inbox.fresh qualities mode).takeAll place arriving = (b, delivered)) :
    ∃ inbound nextOut, b.channels[place]? = some (.reliableSequenced inbound nextOut) ∧
      inbound.next = positionAt delivered.length ∧ (b.take p).1.window = b.window ∧
      ((b.take p).1.channels = b.channels ∧ (b.take p).2 = [] ↔
        p.frame.messageId = some b.window.latest ∨ inbound.Passed (positionAt k)) ∧
      (∀ j payload, delivered[j]? = some payload →
        Inbox.Brought (postedOn place ((Outbox.fresh qualities).postAll posts).2) arriving
          (positionAt j) payload) ∧
      ∀ j < delivered.length, positionAt k = positionAt j → delivered.length ≤ 253 →
        b.take p = (b, []) := by
  have hposted := (Outbox.posted_fresh qualities).postAll posts
  rw [List.nil_append] at hposted
  obtain ⟨hnoted, ⟨inbound, nextOut, hc, hnext, -, hdone⟩, -⟩ :=
    Inbox.noted_takeAll hposted mode hplace harriving
  simp only [hrun] at hnoted hc hnext hdone
  have hself : p.place = place := by
    simpa using (List.mem_filter.mp (List.mem_of_getElem? hk)).2
  obtain ⟨hwindow, hinert⟩ := hnoted.take_again hc hself (hposted.sequenced hplace hk) hp
  refine ⟨inbound, nextOut, hc, hnext, hwindow, hinert, hdone, ?_⟩
  intro j hlt hsame hfew
  have hpassed : inbound.Passed (positionAt k) := by
    left
    have hlast : (255 : UInt8).toNat = 255 := rfl
    rw [hsame, UInt8.lt_iff_toNat_lt, ne_eq, ← UInt8.toNat_inj, hnext, toNat_positionAt_mod,
      toNat_positionAt_mod, hlast]
    omega
  obtain ⟨hchannels, hnone⟩ := hinert.mpr (.inr hpassed)
  exact Prod.ext (Inbox.eq_of_parts hchannels hwindow) hnone

theorem repeated_frame_inert_early :
    ∃ (parcels : List Parcel) (b : Inbox) (p : Parcel),
      ((Outbox.fresh [.reliableSequenced]).postAll [(0, [10]), (0, [20])]).2 = parcels ∧
      (Inbox.fresh [.reliableSequenced] .short).takeAll 0 parcels = (b, [[10], [20]]) ∧
      parcels[0]? = some p ∧ b.take p = (b, []) := by
  have hplace : ([.reliableSequenced] : List Qos)[0]? = some .reliableSequenced := rfl
  have hposted := (Outbox.posted_fresh [.reliableSequenced]).postAll [(0, [10]), (0, [20])]
  rw [List.nil_append] at hposted
  obtain ⟨parcels, hparcels⟩ : ∃ parcels, ((Outbox.fresh [.reliableSequenced]).postAll
    [(0, [10]), (0, [20])]).2 = parcels := ⟨_, rfl⟩
  have hids : (drawn parcels).length ≤ 65535 := hparcels ▸ by decide +kernel
  have hown : postedOn 0 parcels = parcels := hparcels ▸ by decide +kernel
  have hmessages : parcels.map Parcel.message = [[10], [20]] := hparcels ▸ by decide +kernel
  have hsize : parcels.length = 2 := by simpa using congrArg List.length hmessages
  obtain ⟨p, hk⟩ : ∃ p, parcels[0]? = some p := ⟨_, List.getElem?_eq_getElem (by omega)⟩
  obtain ⟨b, hrun⟩ :
      ∃ b, (Inbox.fresh [.reliableSequenced] .short).takeAll 0 parcels = (b, [[10], [20]]) := by
    rw [hparcels] at hposted
    exact ⟨_, Prod.ext rfl ((hposted.delivered_in_order hids .short hplace hown).trans hmessages)⟩
  refine ⟨parcels, b, p, hparcels, hrun, hk, ?_⟩
  subst hparcels
  obtain ⟨inbound, nextOut, -, -, -, -, -, hearly⟩ :=
    repeated_frame_inert_iff [.reliableSequenced] .short hplace [(0, [10]), (0, [20])]
      (fun _ => id) (hown.symm ▸ hk) (List.mem_of_getElem? hk) hrun
  exact hearly 0 (by decide) rfl (by decide)

/-- After 254 messages the frame of the first one is not without effect. -/
theorem repeated_frame_not_inert :
    ∃ (parcels : List Parcel) (b : Inbox) (p : Parcel),
      ((Outbox.fresh [.reliableSequenced]).postAll (List.replicate 254 (0, []))).2 = parcels ∧
      (Inbox.fresh [.reliableSequenced] .short).takeAll 0 parcels =
        (b, parcels.map Parcel.message) ∧
      parcels[0]? = some p ∧ ¬ ((b.take p).1.channels = b.channels ∧ (b.take p).2 = []) := by
  have hposted := (Outbox.posted_fresh [.reliableSequenced]).postAll (List.replicate 254 (0, []))
  rw [List.nil_append] at hposted
  have hsize : ((Outbox.fresh [.reliableSequenced]).postAll
      (List.replicate 254 (0, []))).2.length = 254 := by decide +kernel
  have hplaces : ∀ p ∈ ((Outbox.fresh [.reliableSequenced]).postAll
      (List.replicate 254 (0, []))).2, p.place = 0 := by decide +kernel
  have hids : drawn ((Outbox.fresh [.reliableSequenced]).postAll
      (List.replicate 254 (0, []))).2 = (List.range 254).map idAt := by decide +kernel
  generalize ((Outbox.fresh [.reliableSequenced]).postAll (List.replicate 254 (0, []))).2 =
    parcels at *
  have hplace : ([.reliableSequenced] : List Qos)[0]? = some .reliableSequenced := rfl
  have hown : postedOn 0 parcels = parcels := List.filter_eq_self.mpr (by simpa using hplaces)
  have hcount : (drawn parcels).length = 254 := by simp [hids]
  have hall := hposted.delivered_in_order (by omega) .short hplace hown
  obtain ⟨hnoted, -, inbound, nextOut, hc, hnext, hsum⟩ :=
    Inbox.noted_takeAll hposted .short hplace (fun p hp => hp)
  rw [hown] at hsum
  rw [hall, List.length_map, hsize] at hnext hsum
  obtain ⟨p, hk⟩ : ∃ p, parcels[0]? = some p := ⟨_, List.getElem?_eq_getElem (by omega)⟩
  have hmem := List.mem_of_getElem? hk
  have hself := hplaces p hmem
  have hseq := hposted.sequenced hplace (hown.symm ▸ hk)
  refine ⟨_, _, p, rfl, Prod.ext rfl hall, hk, ?_⟩
  rw [(hnoted.take_again hc hself hseq hmem).2, not_or]
  constructor
  · intro hlatest
    have hfirst : p.frame.messageId = some (idAt 0) := by
      obtain ⟨id, -, hframe⟩ := hseq
      have hid : p.frame.messageId = some id := by rw [hframe]
      obtain ⟨rest, rfl⟩ : ∃ rest, parcels = p :: rest :=
        List.head?_eq_some_iff.mp (List.head?_eq_getElem?.trans hk)
      have hcons : drawn (p :: rest) = id :: drawn rest := by simp [drawn, hid]
      have hhead := congrArg List.head? (hcons.symm.trans hids)
      rw [List.head?_cons, List.head?_map, List.head?_range] at hhead
      exact hid.trans hhead
    have hhigh := hnoted.bound (idAt 253) (hids ▸ List.mem_map_of_mem (by simp))
    rw [Option.some.inj (hlatest.symm.trans hfirst)] at hhigh
    exact absurd hhigh (by decide)
  · have hempty : inbound.held = ∅ := Std.ExtTreeMap.eq_empty_iff_size_eq_zero.mpr (by omega)
    simp [Reorder.Passed, hempty, hnext, positionAt]

end DatagramTransport
