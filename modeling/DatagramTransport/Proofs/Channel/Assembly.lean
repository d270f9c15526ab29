import DatagramTransport.Proofs.Channel.Arrivals
import DatagramTransport.Proofs.Channel.Letters

/-!
# Delivery of fragmented messages

The parcels of a fragmenting channel arrive in any order and any number of
times, among those of other channels. What is delivered is always one of the
messages that were posted. If no parcel comes after one of a later letter
with the same group id, each letter is delivered when the last of its parcels
has come, and only then.
-/

set_option autoImplicit false

namespace DatagramTransport

def cameOf (letters : List Letter) (arrived : List Parcel) (k : Nat) : Nat → Bool :=
  came ((letters[k]?.map Letter.parcels).getD []) arrived

/-- The letters of a fragmenting channel. No id stands for parcels of two of them. -/
structure Filed (place : Nat) (letters : List Letter) : Prop where
  inParts : ∀ {k : Nat} {l : Letter}, letters[k]? = some l → l.InParts place k
  distinct : ∀ l ∈ letters, Distinct l.parcels
  apart : ∀ {j k : Nat} {l m : Letter} {p q : Parcel} {id : UInt16}, letters[j]? = some l →
    letters[k]? = some m → p ∈ l.parcels → q ∈ m.parcels → p.frame.messageId = some id →
      q.frame.messageId = some id → j = k

theorem Outbox.filed_letters {qualities : List Qos} {place : Nat}
    (hplace : qualities[place]? = some .reliableFragmented) (posts : List (Nat × Bytes))
    (hdistinct : Distinct ((fresh qualities).postAll posts).2) :
    Filed place (lettersOn place ((fresh qualities).letters posts)) := by
  rw [← flatMap_letters] at hdistinct
  obtain ⟨hwithin, hacross⟩ := List.pairwise_flatMap.mp hdistinct
  have hon : (lettersOn place ((fresh qualities).letters posts)).Sublist _ :=
    List.filter_sublist
  constructor
  case inParts =>
    have hnumbers := (numbers_fresh hplace).postAll posts
    rw [List.nil_append] at hnumbers
    intro k l hl
    exact hnumbers.inParts hl
  case distinct => exact fun l hl => hwithin l (hon.subset hl)
  case apart =>
    intro j k l m p q id hl hm hp hq hpid hqid
    obtain ⟨hj, rfl⟩ := List.getElem?_eq_some_iff.mp hl
    obtain ⟨hk, rfl⟩ := List.getElem?_eq_some_iff.mp hm
    have hpairs := List.pairwise_iff_getElem.mp (hacross.sublist hon)
    rcases Nat.lt_trichotomy j k with hlt | heq | hgt
    · exact absurd hqid (hpairs j k hj hk hlt p hp q hq id hpid)
    · exact heq
    · exact absurd hpid (hpairs k j hk hj hgt q hq p hp id hqid)

section
variable {place : Nat} {letters : List Letter} {arrived : List Parcel} {k i : Nat} {l : Letter}
  {p : Parcel} {part : Bytes}

theorem Letter.length_cut_pos (l : Letter) : 0 < l.cut.parts.length := by
  rw [l.length_cut]
  exact fragmentCount_pos _

theorem Letter.InParts.of_mem (h : l.InParts place k) (hp : p ∈ l.parcels) :
    ∃ i part, l.cut.parts[i]? = some part ∧ l.parcels[i]? = some p ∧ p.place = place ∧
      p.message = l.message ∧ (l.layout k i).Valid part ∧
      p.frame = { messageId := (l.layout k i).messageId, bytes := (l.layout k i).frame part } := by
  obtain ⟨i, hi⟩ := List.mem_iff_getElem?.mp hp
  obtain ⟨hlt, -⟩ := List.getElem?_eq_some_iff.mp hi
  rw [h.length] at hlt
  obtain ⟨hv, hat⟩ := h.parcel (List.getElem?_eq_getElem hlt)
  cases hi.symm.trans hat
  exact ⟨i, _, List.getElem?_eq_getElem hlt, hi, rfl, rfl, hv, rfl⟩

theorem Filed.number_eq (h : Filed place letters) {j : Nat} {m : Letter}
    (hl : letters[k]? = some l) (hm : letters[j]? = some m) (hp : p ∈ l.parcels)
    (hp' : p ∈ m.parcels) : k = j := by
  obtain ⟨i, part, -, -, -, -, -, hframe⟩ := (h.inParts hl).of_mem hp
  have hid : p.frame.messageId = some (l.cut.base + .ofNat i) := by
    rw [hframe]
    rfl
  exact h.apart hl hm hp hp' hid hid

theorem Filed.cuts (h : Filed place letters) : Cut.Apart (letters.map Letter.cut) where
  bases := by
    intro j k c d hc hd hbase
    rw [List.getElem?_map] at hc hd
    obtain ⟨l, hl, rfl⟩ := Option.map_eq_some_iff.mp hc
    obtain ⟨m, hm, rfl⟩ := Option.map_eq_some_iff.mp hd
    have hfirst := ((h.inParts hl).parcel (List.getElem?_eq_getElem l.length_cut_pos)).2
    have hfirst' := ((h.inParts hm).parcel (List.getElem?_eq_getElem m.length_cut_pos)).2
    refine h.apart hl hm (List.mem_of_getElem? hfirst) (List.mem_of_getElem? hfirst') rfl ?_
    rw [Letter.layout, hbase]
    rfl
  size := by
    intro cut hcut
    obtain ⟨l, hl, rfl⟩ := List.mem_map.mp hcut
    obtain ⟨k, hk⟩ := List.mem_iff_getElem?.mp hl
    have hsize := (h.inParts hk).size
    have hlimit : maxFragments = 255 := rfl
    exact ⟨l.length_cut_pos, by omega⟩

theorem Filed.cameOf_append (h : Filed place letters) (hl : letters[k]? = some l)
    (hi : l.parcels[i]? = some p) :
    cameOf letters (arrived ++ [p]) = withPart (cameOf letters arrived) k i := by
  have hp := List.mem_of_getElem? hi
  obtain ⟨j, part, -, -, -, -, -, hframe⟩ := (h.inParts hl).of_mem hp
  have hid : p.frame.messageId = some (l.cut.base + .ofNat j) := by
    rw [hframe]
    rfl
  funext m
  by_cases hm : m = k
  · subst hm
    rw [withPart_self, cameOf, cameOf, hl]
    exact funext (came_append (fun n hn =>
      (h.distinct l (List.mem_of_getElem? hl)).place_eq hn hi hid hid) hi)
  · rw [withPart_other hm, cameOf, cameOf]
    apply came_append_other
    intro n hn
    cases hm' : letters[m]? with
    | none => simp [hm'] at hn
    | some l' =>
      rw [hm'] at hn
      exact hm (h.number_eq hm' hl (List.mem_of_getElem? hn) hp)

theorem cameOf_append_other (hp : ∀ l ∈ letters, p ∉ l.parcels) :
    cameOf letters (arrived ++ [p]) = cameOf letters arrived := by
  funext k
  apply came_append_other
  intro j hj
  cases hk : letters[k]? with
  | none => simp [hk] at hj
  | some l =>
    rw [hk] at hj
    exact hp l (List.mem_of_getElem? hk) (List.mem_of_getElem? hj)

theorem cameOf_append_again (hp : p ∈ arrived) :
    cameOf letters (arrived ++ [p]) = cameOf letters arrived :=
  funext fun _ => came_append_again hp

theorem Filed.whole_iff (h : Filed place letters) (hl : letters[k]? = some l) :
    FragmentInbox.Whole (cameOf letters arrived) k l.cut ↔ ∀ p ∈ l.parcels, p ∈ arrived := by
  have hat : ∀ i, cameOf letters arrived k i = l.parcels[i]?.any fun p => decide (p ∈ arrived) := by
    intro i
    rw [cameOf, hl]
    rfl
  constructor
  · intro hall p hp
    obtain ⟨i, part, hpart, hi, -⟩ := (h.inParts hl).of_mem hp
    obtain ⟨hlt, -⟩ := List.getElem?_eq_some_iff.mp hpart
    have hcame := hall i hlt
    rw [hat, hi] at hcame
    simpa using hcame
  · intro hall i hlt
    rw [← (h.inParts hl).length] at hlt
    rw [hat, List.getElem?_eq_getElem hlt]
    simpa using hall _ (List.getElem_mem hlt)

end

namespace Inbox

/-- A part finds its channel and its group, and is dropped there only if it
has the id that the window saw last. -/
theorem take_part_cases {place k i : Nat} {l : Letter} {p : Parcel} {part : Bytes} {b : Inbox}
    {inbound : FragmentInbox} {nextGroup : UInt8} (h : l.InParts place k)
    (hc : b.channels[place]? = some (.reliableFragmented inbound nextGroup))
    (hpart : l.cut.parts[i]? = some part) (hi : l.parcels[i]? = some p) :
    (p.frame.messageId = some b.window.latest ∧ (b.take p).2 = [] ∧
        (b.take p).1.channels[place]? = b.channels[place]?) ∨
      ∃ r, inbound.accept (groupAt k) l.cut.base (.ofNat i) (.ofNat l.cut.parts.length) part =
          .ok r ∧ (b.take p).2 = r.2 ∧
        (b.take p).1.channels[place]? = some (.reliableFragmented r.1 nextGroup) := by
  obtain ⟨hv, hat⟩ := h.parcel hpart
  cases hi.symm.trans hat
  obtain ⟨hlt, -⟩ := List.getElem?_eq_some_iff.mp hpart
  have hsize := h.size
  have hlimit : maxFragments = 255 := rfl
  have hbase := base_of_index l.cut.base (i := i) (by omega)
  obtain ⟨r, hr, haccept⟩ := Channel.accept_reliableFragmented inbound nextGroup
    (l.cut.base + .ofNat i) (groupAt k) hv.inRange b.window part
  rw [hbase] at hr
  have hprocess := Channel.process_frame (c := .reliableFragmented inbound nextGroup)
    (h := l.layout k i) (w := b.window) rfl hv []
  rw [List.append_nil, Letter.layout, haccept] at hprocess
  obtain ⟨hin, -⟩ := List.getElem?_eq_some_iff.mp hc
  by_cases hnew : (b.window.record (l.cut.base + .ofNat i)).2 = true
  · refine .inr ⟨r, hr, ?_⟩
    rw [if_pos hnew] at hprocess
    simp only [Inbox.take, hc, Letter.layout, hprocess, List.getElem?_set_self hin, true_and]
  · left
    rw [if_neg hnew] at hprocess
    have hlatest : l.cut.base + .ofNat i = b.window.latest := by
      rw [AckWindow.record_accepted] at hnew
      exact Classical.not_not.mp hnew
    simp only [Inbox.take, hc, Letter.layout, hprocess, List.getElem?_set_self hin, and_true]
    exact congrArg some hlatest

/-- What is kept by each arrival, where `Known` is what the fragmenting channel
knows of the parts that came. -/
structure Collects (qualities : List Qos) (place : Nat) (letters : List Letter)
    (Known : (Nat → Nat → Bool) → FragmentInbox → Prop) (arrived : List Parcel) (b : Inbox) :
    Prop where
  fed : b.Fed qualities arrived
  channel : ∃ inbound nextGroup, b.channels[place]? =
    some (.reliableFragmented inbound nextGroup) ∧ Known (cameOf letters arrived) inbound

section
variable {qualities : List Qos} {place : Nat} {letters : List Letter}
  {Known : (Nat → Nat → Bool) → FragmentInbox → Prop} {arrived : List Parcel} {b : Inbox}
  {p : Parcel}

theorem collects_fresh (mode : AckMode) (hplace : qualities[place]? = some .reliableFragmented)
    (hknown : Known (fun _ _ => false) .fresh) :
    (fresh qualities mode).Collects qualities place letters Known [] where
  fed := fed_fresh qualities mode
  channel := by
    refine ⟨.fresh, 0, by simp [fresh, hplace, Channel.ofQos], ?_⟩
    have hnone : cameOf letters [] = fun _ _ => false := by
      funext k i
      simp [cameOf, came]
    rwa [hnone]

theorem Collects.take_other (h : b.Collects qualities place letters Known arrived)
    (hother : p.place ≠ place) (hletters : ∀ l ∈ letters, p ∉ l.parcels) {q : Qos}
    (hq : q ∈ qualities[p.place]?) (hp : p.frame.PartOf q.framing p.message) :
    (b.take p).1.Collects qualities place letters Known (arrived ++ [p]) := by
  obtain ⟨hfed, hstays⟩ := h.fed.take hq hp
  refine ⟨hfed, ?_⟩
  rw [cameOf_append_other hletters, hstays place hother]
  exact h.channel

theorem Collects.take_part (h : b.Collects qualities place letters Known arrived)
    (hfiled : Filed place letters) {k i : Nat} {l : Letter} {part : Bytes}
    (hl : letters[k]? = some l) (hpart : l.cut.parts[i]? = some part)
    (hi : l.parcels[i]? = some p) (hfed : (b.take p).1.Fed qualities (arrived ++ [p]))
    (hagain : p.frame.messageId = some b.window.latest → p ∈ arrived) :
    (p ∈ arrived ∧ (b.take p).2 = [] ∧
        (b.take p).1.Collects qualities place letters Known (arrived ++ [p])) ∨
      ∃ inbound r, Known (cameOf letters arrived) inbound ∧
        inbound.accept (groupAt k) l.cut.base (.ofNat i) (.ofNat l.cut.parts.length) part =
          .ok r ∧ (b.take p).2 = r.2 ∧
        (Known (withPart (cameOf letters arrived) k i) r.1 →
          (b.take p).1.Collects qualities place letters Known (arrived ++ [p])) := by
  obtain ⟨inbound, nextGroup, hc, hknown⟩ := h.channel
  rcases take_part_cases (hfiled.inParts hl) hc hpart hi with
    ⟨hlatest, hnone, hstays⟩ | ⟨r, hr, hdelivered, hchannel⟩
  · have hp := hagain hlatest
    refine .inl ⟨hp, hnone, hfed, inbound, nextGroup, hstays.trans hc, ?_⟩
    rwa [cameOf_append_again hp]
  · refine .inr ⟨inbound, r, hknown, hr, hdelivered, fun hafter =>
      ⟨hfed, r.1, nextGroup, hchannel, ?_⟩⟩
    rwa [hfiled.cameOf_append hl hi]

theorem Collects.take {posts : List (Nat × Bytes)}
    (hplace : qualities[place]? = some .reliableFragmented)
    (hids : (drawn ((Outbox.fresh qualities).postAll posts).2).length ≤ 65535)
    (hletters : lettersOn place ((Outbox.fresh qualities).letters posts) = letters)
    (harrived : ∀ q ∈ arrived, q ∈ ((Outbox.fresh qualities).postAll posts).2)
    (hp : p ∈ ((Outbox.fresh qualities).postAll posts).2)
    (h : b.Collects qualities place letters Known arrived)
    (Gives : Nat → Letter → List Bytes → Prop)
    (hpart : ∀ {k i : Nat} {l : Letter} {part : Bytes} {inbound : FragmentInbox},
      letters[k]? = some l → l.parcels[i]? = some p → l.cut.parts[i]? = some part →
        Known (cameOf letters arrived) inbound →
          ∃ r, inbound.accept (groupAt k) l.cut.base (.ofNat i) (.ofNat l.cut.parts.length)
              part = .ok r ∧
            Known (withPart (cameOf letters arrived) k i) r.1 ∧ Gives k l r.2) :
    (b.take p).1.Collects qualities place letters Known (arrived ++ [p]) ∧
      (p.place = place → ∃ k l, letters[k]? = some l ∧ p ∈ l.parcels ∧
        (p ∈ arrived ∧ (b.take p).2 = [] ∨ Gives k l (b.take p).2)) := by
  have hposted := (Outbox.posted_fresh qualities).postAll posts
  rw [List.nil_append] at hposted
  obtain ⟨hdistinct, hpositive⟩ := hposted.distinct hids
  have hfiled := Outbox.filed_letters hplace posts hdistinct
  rw [hletters] at hfiled
  obtain ⟨q, hq, hpartOf⟩ := hposted.fits p hp
  by_cases hself : p.place = place
  · obtain ⟨k, l, hl, hmem⟩ := exists_letter hp
    rw [hself, hletters] at hl
    obtain ⟨i, part, hparts, hi, -⟩ := (hfiled.inParts hl).of_mem hmem
    have hfed := (h.fed.take hq hpartOf).1
    have hagain := h.fed.again hdistinct hpositive harrived hp
    rcases h.take_part hfiled hl hparts hi hfed hagain with
      ⟨hold, hnone, hafter⟩ | ⟨inbound, r, hknown, hr, hdelivered, hafter⟩
    · exact ⟨hafter, fun _ => ⟨k, l, hl, hmem, .inl ⟨hold, hnone⟩⟩⟩
    · obtain ⟨r', hr', hknown', hgives⟩ := hpart hl hi hparts hknown
      cases hr.symm.trans hr'
      rw [hdelivered]
      exact ⟨hafter hknown', fun _ => ⟨k, l, hl, hmem, .inr hgives⟩⟩
  · refine ⟨h.take_other hself ?_ hq hpartOf, fun heq => absurd heq hself⟩
    intro l hl hmem
    obtain ⟨k, hk⟩ := List.mem_iff_getElem?.mp hl
    obtain ⟨-, -, -, -, hplace', -⟩ := (hfiled.inParts hk).of_mem hmem
    exact hself hplace'

end

end Inbox

/-- What a fragmenting channel delivers is a message that was posted on it, all parts of which
arrived, however often group ids are used again. -/
theorem fragmented_delivers_posted (qualities : List Qos) (mode : AckMode) {place : Nat}
    (hplace : qualities[place]? = some .reliableFragmented) (posts : List (Nat × Bytes))
    (hids : (drawn ((Outbox.fresh qualities).postAll posts).2).length ≤ 65535)
    {arriving : List Parcel}
    (harriving : ∀ p ∈ arriving, p ∈ ((Outbox.fresh qualities).postAll posts).2) :
    ∀ payload ∈ ((Inbox.fresh qualities mode).takeAll place arriving).2,
      (place, payload) ∈ posts ∧
        ∃ l ∈ lettersOn place ((Outbox.fresh qualities).letters posts),
          l.message = payload ∧ ∀ p ∈ l.parcels, p ∈ arriving := by
  have hposted := (Outbox.posted_fresh qualities).postAll posts
  rw [List.nil_append] at hposted
  have hfiled := Outbox.filed_letters hplace posts (hposted.distinct hids).1
  generalize hletters : lettersOn place ((Outbox.fresh qualities).letters posts) = letters at *
  have hall := Inbox.takeAll_induction place arriving (b := .fresh qualities mode)
    (P := fun arrived delivered b =>
      b.Collects qualities place letters (FragmentInbox.Unmixed (letters.map Letter.cut)) arrived ∧
        ∀ payload ∈ delivered, ∃ l ∈ letters, l.message = payload ∧
          ∀ p ∈ l.parcels, p ∈ arrived)
    ⟨Inbox.collects_fresh mode hplace (FragmentInbox.unmixed_fresh _ _), by simp⟩ ?_
  · intro payload hpayload
    obtain ⟨l, hl, rfl, hparcels⟩ := hall.2 payload hpayload
    refine ⟨?_, l, hl, rfl, hparcels⟩
    rw [← hletters] at hl
    obtain ⟨hposts, hon⟩ := List.mem_filter.mp hl
    obtain ⟨rfl, -⟩ := of_decide_eq_true hon
    exact mem_posts_of_mem_letters hposts
  · intro arrived p delivered b hfirst hkeeps
    obtain ⟨hcollects, hold⟩ := hkeeps
    have hp : p ∈ arriving := hfirst.subset (by simp)
    have harrived : ∀ q ∈ arrived, q ∈ arriving := fun q hq =>
      hfirst.subset (List.mem_append_left _ hq)
    obtain ⟨hafter, hdelivered⟩ := hcollects.take hplace hids hletters
      (fun q hq => harriving q (harrived q hq)) (harriving p hp)
      (fun k l delivered => ∀ payload ∈ delivered, payload = l.message ∧
        FragmentInbox.Whole (cameOf letters (arrived ++ [p])) k l.cut) (by
        intro k i l part inbound hl hi hpart hknown
        obtain ⟨r, hr, hunmixed, hpayloads⟩ := hknown.accept hfiled.cuts
          (by rw [List.getElem?_map, hl, Option.map_some]) hpart (groupAt k)
        refine ⟨r, hr, hunmixed, fun payload hpayload => ?_⟩
        rw [hfiled.cameOf_append hl hi, ← l.flatten_cut]
        exact hpayloads payload hpayload)
    refine ⟨hafter, fun payload hpayload => ?_⟩
    rcases List.mem_append.mp hpayload with hpayload | hpayload
    · obtain ⟨l, hl, hmessage, hparcels⟩ := hold payload hpayload
      exact ⟨l, hl, hmessage, fun q hq => List.mem_append_left _ (hparcels q hq)⟩
    · split at hpayload
      · rename_i hself
        obtain ⟨k, l, hl, -, ⟨-, hnone⟩ | hgives⟩ := hdelivered hself
        · rw [hnone] at hpayload
          cases hpayload
        · obtain ⟨rfl, hwhole⟩ := hgives payload hpayload
          exact ⟨l, List.mem_of_getElem? hl, rfl, (hfiled.whole_iff hl).mp hwhole⟩
      · cases hpayload

theorem fragmented_delivers_posted_reused :
    ∃ parcels arriving : List Parcel,
      ((Outbox.fresh [.reliableFragmented]).postAll
        ((0, List.replicate 600 1) :: List.replicate 256 (0, [5]))).2 = parcels ∧
      [0, 257, 1, 0].filterMap (fun k : Nat => parcels[k]?) = arriving ∧ arriving.length = 4 ∧
      ((Inbox.fresh [.reliableFragmented] .short).takeAll 0 arriving).2 =
        [[5], List.replicate 600 1] ∧
      ∀ payload ∈ ((Inbox.fresh [.reliableFragmented] .short).takeAll 0 arriving).2,
        (0, payload) ∈ (0, List.replicate 600 1) :: List.replicate 256 (0, [5]) := by
  refine ⟨_, _, rfl, rfl, by decide +kernel, by decide +kernel, fun payload hpayload => ?_⟩
  exact (fragmented_delivers_posted [.reliableFragmented] .short rfl
    ((0, List.replicate 600 1) :: List.replicate 256 (0, [5])) (by decide +kernel)
    (fun _ => mem_of_mem_picked) payload hpayload).1

/-- No parcel of a letter arrives after one of a later letter that has the
same group id. -/
def InGroupOrder (letters : List Letter) (arriving : List Parcel) : Prop :=
  arriving.Pairwise fun earlier later => ∀ (k j : Nat) (l m : Letter), letters[k]? = some l →
    letters[k + 256 * (j + 1)]? = some m → later ∈ l.parcels → earlier ∉ m.parcels

/-- Up to 256 letters, parcels may arrive in any order. -/
theorem inGroupOrder_of_length {letters : List Letter} {arriving : List Parcel}
    (h : letters.length ≤ 256) : InGroupOrder letters arriving := by
  refine List.pairwise_of_forall fun earlier later k j l m _ hm => ?_
  have hnone : letters.length ≤ k + 256 * (j + 1) := Nat.le_trans h (by omega)
  rw [List.getElem?_eq_none hnone] at hm
  cases hm

theorem InGroupOrder.current {letters : List Letter} {before after : List Parcel} {p : Parcel}
    (h : InGroupOrder letters (before ++ p :: after)) {k : Nat} {l : Letter}
    (hl : letters[k]? = some l) (hp : p ∈ l.parcels) :
    FragmentInbox.Current (cameOf letters before) k := by
  intro m hm hgroup i
  rw [groupAt_eq_iff] at hgroup
  obtain ⟨j, rfl⟩ : ∃ j, m = k + 256 * (j + 1) := ⟨(m - k) / 256 - 1, by omega⟩
  rw [cameOf, came]
  cases hlater : letters[k + 256 * (j + 1)]? with
  | none => simp
  | some l' =>
    cases hi : l'.parcels[i]? with
    | none => simp [hi]
    | some q =>
      have hpairs := (List.pairwise_append.mp h).2.2
      have hq : q ∉ before := fun hq =>
        hpairs q hq p List.mem_cons_self k j l l' hl hlater hp (List.mem_of_getElem? hi)
      simp [hi, hq]

namespace Inbox

section
variable {qualities : List Qos} {place : Nat} {posts : List (Nat × Bytes)}
  {letters : List Letter} {before after : List Parcel} {b : Inbox} {p : Parcel}

theorem Collects.take_current (hplace : qualities[place]? = some .reliableFragmented)
    (hids : (drawn ((Outbox.fresh qualities).postAll posts).2).length ≤ 65535)
    (hletters : lettersOn place ((Outbox.fresh qualities).letters posts) = letters)
    (hfiled : Filed place letters)
    (harriving : ∀ q ∈ before ++ p :: after, q ∈ ((Outbox.fresh qualities).postAll posts).2)
    (horder : InGroupOrder letters (before ++ p :: after))
    (h : b.Collects qualities place letters
      (FragmentInbox.Gathers (letters.map Letter.cut)) before) :
    (b.take p).1.Collects qualities place letters
        (FragmentInbox.Gathers (letters.map Letter.cut)) (before ++ [p]) ∧
      (p.place = place → ∃ (k : Nat) (l : Letter), letters[k]? = some l ∧ p ∈ l.parcels ∧
        (b.take p).2 = if (∀ q ∈ l.parcels, q ∈ before ++ [p]) ∧
          ¬ (∀ q ∈ l.parcels, q ∈ before) then [l.message] else []) := by
  obtain ⟨hafter, hdelivered⟩ := h.take hplace hids hletters
    (fun q hq => harriving q (List.mem_append_left _ hq)) (harriving p (by simp))
    (fun _ l delivered => delivered = if (∀ q ∈ l.parcels, q ∈ before ++ [p]) ∧
      ¬ (∀ q ∈ l.parcels, q ∈ before) then [l.message] else []) (by
    intro k i l part inbound hl hi hpart hknown
    have hcurrent := horder.current hl (List.mem_of_getElem? hi)
    obtain ⟨inbound', haccept, hgathers⟩ := hknown.accept hfiled.cuts
      (by rw [List.getElem?_map, hl, Option.map_some]) hcurrent hpart
    refine ⟨_, haccept, hgathers, ?_⟩
    simp only [← hfiled.cameOf_append hl hi, hfiled.whole_iff hl, l.flatten_cut])
  refine ⟨hafter, fun hself => ?_⟩
  obtain ⟨k, l, hl, hmem, ⟨hold, hnone⟩ | hgives⟩ := hdelivered hself
  · refine ⟨k, l, hl, hmem, ?_⟩
    have hsame : ∀ q, q ∈ before ++ [p] ↔ q ∈ before := by
      intro q
      rw [List.mem_append, List.mem_singleton]
      exact ⟨fun hq => hq.elim id fun heq => heq ▸ hold, .inl⟩
    simp only [hnone, hsame, and_not_self, if_false]
  · exact ⟨k, l, hl, hmem, hgives⟩

theorem Collects.takeAll_current (mode : AckMode)
    (hplace : qualities[place]? = some .reliableFragmented)
    (hids : (drawn ((Outbox.fresh qualities).postAll posts).2).length ≤ 65535)
    (hletters : lettersOn place ((Outbox.fresh qualities).letters posts) = letters)
    (hfiled : Filed place letters)
    (harriving : ∀ q ∈ before, q ∈ ((Outbox.fresh qualities).postAll posts).2)
    (horder : InGroupOrder letters before) :
    ((fresh qualities mode).takeAll place before).1.Collects qualities place letters
      (FragmentInbox.Gathers (letters.map Letter.cut)) before := by
  refine takeAll_induction place before (P := fun arrived _ b => b.Collects qualities place letters
      (FragmentInbox.Gathers (letters.map Letter.cut)) arrived)
    (collects_fresh mode hplace (FragmentInbox.gathers_fresh hfiled.cuts)) ?_
  rintro arrived p delivered b ⟨later, rfl⟩ h
  rw [List.append_assoc] at harriving horder
  exact (h.take_current hplace hids hletters hfiled harriving horder).1

end

end Inbox

/-- If no parcel arrives after one of a later letter with the same group id, a message is delivered
by the arrival of the last of its parts that was missing. -/
theorem fragmented_delivers_at_completion (qualities : List Qos) (mode : AckMode) {place : Nat}
    (hplace : qualities[place]? = some .reliableFragmented) (posts : List (Nat × Bytes))
    (hids : (drawn ((Outbox.fresh qualities).postAll posts).2).length ≤ 65535)
    {arriving : List Parcel}
    (harriving : ∀ p ∈ arriving, p ∈ ((Outbox.fresh qualities).postAll posts).2)
    (horder : InGroupOrder (lettersOn place ((Outbox.fresh qualities).letters posts)) arriving) :
    ∀ (before : List Parcel) (p : Parcel) (after : List Parcel), arriving = before ++ p :: after →
      p.place = place →
        ∃ (k : Nat) (l : Letter),
          (lettersOn place ((Outbox.fresh qualities).letters posts))[k]? = some l ∧
          p ∈ l.parcels ∧
          (((Inbox.fresh qualities mode).takeAll place before).1.take p).2 =
            if (∀ q ∈ l.parcels, q ∈ before ++ [p]) ∧ ¬ (∀ q ∈ l.parcels, q ∈ before)
            then [l.message] else [] := by
  rintro before p after rfl hself
  have hposted := (Outbox.posted_fresh qualities).postAll posts
  rw [List.nil_append] at hposted
  have hfiled := Outbox.filed_letters hplace posts (hposted.distinct hids).1
  have hbefore := Inbox.Collects.takeAll_current mode hplace hids rfl hfiled
    (fun q hq => harriving q (List.mem_append_left _ hq)) (List.pairwise_append.mp horder).1
  exact (hbefore.take_current hplace hids rfl hfiled harriving horder).2 hself

theorem fragmented_delivers_at_completion_repeated :
    ∃ (parcels arriving : List Parcel) (letters : List Letter),
      ((Outbox.fresh [.reliableFragmented, .reliable]).postAll
        [(0, List.replicate 600 1), (1, [90]), (0, [])]).2 = parcels ∧
      lettersOn 0 ((Outbox.fresh [.reliableFragmented, .reliable]).letters
        [(0, List.replicate 600 1), (1, [90]), (0, [])]) = letters ∧
      [1, 3, 2, 1, 0, 1, 0].filterMap (fun k : Nat => parcels[k]?) = arriving ∧
      InGroupOrder letters arriving ∧
      ((Inbox.fresh [.reliableFragmented, .reliable] .short).takeAll 0 arriving).2 =
        [[], List.replicate 600 1] ∧
      ∀ (before : List Parcel) (p : Parcel) (after : List Parcel),
        arriving = before ++ p :: after → p.place = 0 →
          ∃ (k : Nat) (l : Letter), letters[k]? = some l ∧ p ∈ l.parcels ∧
            (((Inbox.fresh [.reliableFragmented, .reliable] .short).takeAll 0 before).1.take p).2 =
              if (∀ q ∈ l.parcels, q ∈ before ++ [p]) ∧ ¬ (∀ q ∈ l.parcels, q ∈ before)
              then [l.message] else [] := by
  have horder : ∀ arriving, InGroupOrder
      (lettersOn 0 ((Outbox.fresh [.reliableFragmented, .reliable]).letters
        [(0, List.replicate 600 1), (1, [90]), (0, [])])) arriving :=
    fun _ => inGroupOrder_of_length (by decide +kernel)
  exact ⟨_, _, _, rfl, rfl, rfl, horder _, by decide +kernel,
    fragmented_delivers_at_completion [.reliableFragmented, .reliable] .short rfl
      [(0, List.replicate 600 1), (1, [90]), (0, [])] (by decide +kernel)
      (fun _ => mem_of_mem_picked) (horder _)⟩

end DatagramTransport
