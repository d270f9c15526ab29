import DatagramTransport.Proofs.Channel.Balance
import DatagramTransport.Proofs.Channel.Nearby

/-!
# Frames that overtake a few others

Every frame arrives once, and none before one that was posted 32 or more
places earlier, so that no two of those that wait for the same gap have one
position. A frame that comes from beyond a wrap of the positions, before the
last position is awaited, is noted and lost; then a payload is missing when all
frames have come. Otherwise all are delivered.
-/

set_option autoImplicit false

namespace DatagramTransport

/-- The first parcel does not come from beyond a wrap of the positions, unless
the second one has the last position before it. -/
def WithinWrap (posted : List Parcel) (p q : Parcel) : Prop :=
  (posted.idxOf p + 1) / 256 ≤ (posted.idxOf q + 2) / 256

instance (posted : List Parcel) (p q : Parcel) : Decidable (WithinWrap posted p q) :=
  inferInstanceAs (Decidable (_ ≤ _))

def Inbox.Lossless (place : Nat) (posted arrived : List Parcel) (delivered : List Bytes)
    (b : Inbox) : Prop :=
  ∃ inbound nextOut done, b.channels[place]? = some (.reliableSequenced inbound nextOut) ∧
    inbound.Awaits (posted.map Parcel.message) (came posted arrived) done ∧
    (done < posted.length → came posted arrived done = false) ∧
    delivered = (posted.map Parcel.message).take done

namespace Inbox

section
variable {qualities : List Qos} {place : Nat} {posted arrived : List Parcel}
  {delivered : List Bytes} {b : Inbox} {p : Parcel}

theorem lossless_fresh (mode : AckMode) (hplace : qualities[place]? = some .reliableSequenced)
    (posted : List Parcel) : (fresh qualities mode).Lossless place posted [] [] := by
  have hnone : came posted [] = fun _ => false := by
    funext k
    simp [came]
  refine ⟨.fresh, 1, 0, by simp [fresh, hplace, Channel.ofQos], ?_, ?_, rfl⟩
  · rw [hnone]
    exact Reorder.awaits_fresh
  · intro _
    rw [hnone]

theorem Lossless.take_other (h : b.Lossless place posted arrived delivered)
    (hsame : (b.take p).1.channels[place]? = b.channels[place]?)
    (hposted : ∀ k : Nat, posted[k]? ≠ some p) :
    (b.take p).1.Lossless place posted (arrived ++ [p]) delivered := by
  rw [Lossless, hsame, came_append_other hposted]
  exact h

theorem Lossless.take_self (h : b.Lossless place posted arrived delivered)
    (hself : p.place = place) {k : Nat} (hk : posted[k]? = some p)
    (honly : ∀ j : Nat, posted[j]? = some p → j = k) (hseq : p.Sequenced k)
    (hnew : p.frame.messageId ≠ some b.window.latest) (hcame : came posted arrived k = false)
    (hspan : ∀ j < posted.length, came posted arrived j = false → j ≠ k → k < j + 32) :
    ((b.take p).1.Lossless place posted (arrived ++ [p]) (delivered ++ (b.take p).2) ∧
        ∀ j, came posted arrived j = false → (k + 1) / 256 ≤ (j + 2) / 256) ∨
      ((b.take p).1.channels[place]? = b.channels[place]? ∧ (b.take p).2 = [] ∧
        ∃ j < posted.length, came posted arrived j = false ∧ j ≠ k ∧
          ¬ (k + 1) / 256 ≤ (j + 2) / 256) := by
  obtain ⟨inbound, nextOut, done, hc, hawaits, hstops, rfl⟩ := h
  obtain ⟨id, -, htake⟩ := take_sequenced hc hself hseq hnew
  obtain ⟨hlt, -⟩ := List.getElem?_eq_some_iff.mp hc
  obtain ⟨hklt, -⟩ := List.getElem?_eq_some_iff.mp hk
  have hmessage : (posted.map Parcel.message)[k]? = some p.message := by
    rw [List.getElem?_map, hk]
    rfl
  have hfirst : ∀ j, came posted arrived j = false → done ≤ j := by
    intro j hj
    apply Nat.le_of_not_lt
    intro hpast
    rw [hawaits.before j hpast] at hj
    cases hj
  have hle := hfirst k hcame
  have hnear : k < done + 32 := by
    by_cases heq : done = k
    · omega
    · exact hspan done (by omega) (hstops (by omega)) heq
  rw [htake]
  by_cases hside : (k + 1) / 256 ≤ (done + 2) / 256
  · left
    have hafter : came posted (arrived ++ [p]) =
        fun j => came posted arrived j || decide (j = k) := funext (came_append honly hk)
    obtain ⟨done', hawaits', hstops', heq⟩ := hawaits.accept hmessage hcame
      (by rwa [List.length_map]) hnear hside
    constructor
    · rw [Lossless, hafter, List.getElem?_set_self hlt]
      rw [List.length_map] at hstops'
      exact ⟨_, _, done', rfl, hawaits', hstops', heq⟩
    · intro j hj
      have := hfirst j hj
      omega
  · right
    have hlate : done < k := by
      apply Nat.lt_of_le_of_ne hle
      rintro rfl
      omega
    rw [hawaits.accept_beyond p.message hlate hnear hside, List.getElem?_set_self hlt, hc]
    exact ⟨rfl, rfl, done, by omega, hstops (by omega), by omega, hside⟩

end

end Inbox

section
variable {posted arrived arriving : List Parcel} {place : Nat} {p q : Parcel}

theorem came_eq_false {j : Nat} (hq : posted[j]? = some q) :
    came posted arrived j = false ↔ q ∉ arrived := by
  simp [came, hq]

/-- What is arranged pairwise arrives in that order. -/
theorem pairwise_first {R : Parcel → Parcel → Prop}
    (hown : (postedOn place arriving).Pairwise R) (hfirst : arrived ++ [p] <+: arriving)
    (hself : p.place = place) :
    (∀ q ∈ postedOn place arrived, R q p) ∧
      ∀ q ∈ postedOn place arriving, q ∉ arrived → q ≠ p → R p q := by
  obtain ⟨rest, rfl⟩ := hfirst
  have hone : postedOn place [p] = [p] := by simp [postedOn, hself]
  rw [postedOn_append, postedOn_append, hone, List.append_assoc] at hown ⊢
  obtain ⟨-, hlater, hcross⟩ := List.pairwise_append.mp hown
  constructor
  · intro q hq
    exact hcross q hq p (by simp)
  · intro q hq hlate hne
    have hq' : q ∉ postedOn place arrived := fun hmem => hlate (List.mem_filter.mp hmem).1
    have hrest : q ∈ postedOn place rest := by simpa [hq', hne] using hq
    exact (List.pairwise_cons.mp hlater).1 q hrest

end

structure Arranged (place : Nat) (parcels arriving : List Parcel) : Prop where
  nodup : (postedOn place parcels).Nodup
  once : (postedOn place arriving).Perm (postedOn place parcels)
  span : (postedOn place arriving).Pairwise fun p q =>
    (postedOn place parcels).idxOf p < (postedOn place parcels).idxOf q + 32

namespace Arranged

section
variable {place : Nat} {parcels arriving arrived : List Parcel} {p q : Parcel} {j k : Nat}

theorem number (h : Arranged place parcels arriving) (hk : (postedOn place parcels)[k]? = some p) :
    (postedOn place parcels).idxOf p = k := by
  obtain ⟨hlt, rfl⟩ := List.getElem?_eq_some_iff.mp hk
  exact h.nodup.idxOf_getElem k hlt

theorem not_came (h : Arranged place parcels arriving) (hfirst : arrived ++ [p] <+: arriving)
    (hself : p.place = place) (hk : (postedOn place parcels)[k]? = some p) :
    came (postedOn place parcels) arrived k = false := by
  rw [came_eq_false hk]
  intro harrived
  have hmem : p ∈ postedOn place arrived := List.mem_filter.mpr ⟨harrived, by simpa using hself⟩
  have hown : (postedOn place arriving).Nodup := h.once.nodup_iff.mpr h.nodup
  exact (pairwise_first hown hfirst hself).1 p hmem rfl

theorem later (h : Arranged place parcels arriving) (hfirst : arrived ++ [p] <+: arriving)
    (hself : p.place = place) (hk : (postedOn place parcels)[k]? = some p)
    (hj : j < (postedOn place parcels).length)
    (hcame : came (postedOn place parcels) arrived j = false) (hne : j ≠ k)
    {R : Parcel → Parcel → Prop} (hown : (postedOn place arriving).Pairwise R) :
    ∃ q, (postedOn place parcels).idxOf q = j ∧ R p q := by
  have hq := List.getElem?_eq_getElem hj
  have hnumber := h.number hq
  refine ⟨_, hnumber, (pairwise_first hown hfirst hself).2 _
    (h.once.mem_iff.mpr (List.mem_of_getElem? hq)) ((came_eq_false hq).mp hcame) ?_⟩
  intro heq
  rw [heq, h.number hk] at hnumber
  exact hne hnumber.symm

end

end Arranged

/-- Either nothing is missing so far, and nothing that came was from beyond a
wrap for what is still awaited, or a frame is lost and the order was to blame. -/
def Inbox.Sorted (place : Nat) (posted own arrived : List Parcel) (delivered : List Bytes)
    (b : Inbox) : Prop :=
  (b.Lossless place posted arrived delivered ∧ b.Balanced place 0 arrived delivered ∧
      (postedOn place arrived).Pairwise (WithinWrap posted) ∧
      ∀ p ∈ postedOn place arrived, ∀ q ∈ own, q ∉ arrived → WithinWrap posted p q) ∨
    (b.Balanced place 1 arrived delivered ∧ ¬ own.Pairwise (WithinWrap posted))

namespace Inbox

section
variable {qualities : List Qos} {place : Nat} {parcels arriving arrived : List Parcel}
  {o : Outbox} {delivered : List Bytes} {b : Inbox} {p : Parcel}

theorem Sorted.take_other {own posted : List Parcel}
    (h : b.Sorted place posted own arrived delivered) (hother : p.place ≠ place)
    (hsame : (b.take p).1.channels[place]? = b.channels[place]?)
    (hposted : ∀ k : Nat, posted[k]? ≠ some p) :
    (b.take p).1.Sorted place posted own (arrived ++ [p]) delivered := by
  have hnone : postedOn place [p] = [] := by simp [postedOn, hother]
  rw [Sorted, postedOn_append, hnone, List.append_nil]
  rcases h with ⟨hlossless, hbalanced, hpairwise, hahead⟩ | ⟨hbalanced, hnot⟩
  · refine .inl ⟨hlossless.take_other hsame hposted, hbalanced.take_other hsame hother,
      hpairwise, ?_⟩
    intro q hq r hr hlate
    exact hahead q hq r hr fun hmem => hlate (List.mem_append_left _ hmem)
  · exact .inr ⟨hbalanced.take_other hsame hother, hnot⟩

theorem Sorted.take_self (harranged : Arranged place parcels arriving)
    (hfirst : arrived ++ [p] <+: arriving) (hself : p.place = place) {k : Nat}
    (hk : (postedOn place parcels)[k]? = some p) (hseq : p.Sequenced k)
    (hnew : p.frame.messageId ≠ some b.window.latest)
    (h : b.Sorted place (postedOn place parcels) (postedOn place arriving) arrived delivered) :
    (b.take p).1.Sorted place (postedOn place parcels) (postedOn place arriving)
      (arrived ++ [p]) (delivered ++ (b.take p).2) := by
  rcases h with ⟨hlossless, hbalanced, hpairwise, hahead⟩ | ⟨hbalanced, hnot⟩
  case inr => exact .inr ⟨hbalanced.take_self hself hseq, hnot⟩
  have hnumber := harranged.number hk
  have hcame := harranged.not_came hfirst hself hk
  have honly : ∀ j : Nat, (postedOn place parcels)[j]? = some p → j = k :=
    fun j hj => (harranged.number hj).symm.trans hnumber
  have hspan : ∀ j < (postedOn place parcels).length,
      came (postedOn place parcels) arrived j = false → j ≠ k → k < j + 32 := by
    intro j hj hc hne
    obtain ⟨q, rfl, hlt⟩ := harranged.later hfirst hself hk hj hc hne harranged.span
    rwa [hnumber] at hlt
  have hone : postedOn place [p] = [p] := by simp [postedOn, hself]
  rcases hlossless.take_self hself hk honly hseq hnew hcame hspan with
    ⟨hlossless', hall⟩ | ⟨hsame, hnone, j, hj, hc, hne, hbad⟩
  · refine .inl ⟨hlossless', hbalanced.take_self hself hseq, ?_, ?_⟩
    · rw [postedOn_append, hone, List.pairwise_append]
      refine ⟨hpairwise, List.pairwise_singleton _ _, ?_⟩
      intro q hq r hr
      rw [List.mem_singleton.mp hr]
      exact hahead q hq p (harranged.once.mem_iff.mpr (List.mem_of_getElem? hk))
        ((came_eq_false hk).mp hcame)
    · intro q hq r hr hlate
      have hlate' : r ∉ arrived := fun hm => hlate (List.mem_append_left _ hm)
      rw [postedOn_append, hone, List.mem_append, List.mem_singleton] at hq
      rcases hq with hq | rfl
      · exact hahead q hq r hr hlate'
      · obtain ⟨j, hj⟩ := List.mem_iff_getElem?.mp (harranged.once.mem_iff.mp hr)
        rw [WithinWrap, hnumber, harranged.number hj]
        exact hall j ((came_eq_false hj).mpr hlate')
  · -- the frame is noted and lost, and one that is still to come shows that the order was to blame
    rw [hnone, List.append_nil]
    refine .inr ⟨hbalanced.take_lost hself hsame, ?_⟩
    intro hpair
    obtain ⟨q, rfl, hwithin⟩ := harranged.later hfirst hself hk hj hc hne hpair
    rw [WithinWrap, hnumber] at hwithin
    exact hbad hwithin

theorem sorted_takeAll (hposted : o.Posted qualities parcels)
    (hids : (drawn parcels).length ≤ 65535) (mode : AckMode)
    (hplace : qualities[place]? = some .reliableSequenced)
    (harriving : ∀ p ∈ arriving, p ∈ parcels) (harranged : Arranged place parcels arriving) :
    ((fresh qualities mode).takeAll place arriving).1.Sorted place (postedOn place parcels)
      (postedOn place arriving) arriving ((fresh qualities mode).takeAll place arriving).2 := by
  obtain ⟨hdistinct, hpositive⟩ := hposted.distinct hids
  have hstart : (fresh qualities mode).Sorted place (postedOn place parcels)
      (postedOn place arriving) [] [] :=
    .inl ⟨lossless_fresh mode hplace _, balanced_fresh mode hplace, by simp [postedOn],
      by simp [postedOn]⟩
  refine (takeAll_induction place arriving
    (P := fun arrived delivered b => b.Fed qualities arrived ∧
      b.Sorted place (postedOn place parcels) (postedOn place arriving) arrived delivered)
    ⟨fed_fresh qualities mode, hstart⟩ ?_).2
  rintro arrived p delivered b hfirst ⟨hfed, hsorted⟩
  have hp : p ∈ parcels := harriving p (hfirst.subset (by simp))
  have harrived : ∀ q ∈ arrived, q ∈ parcels := fun q hq =>
    harriving q (hfirst.subset (List.mem_append_left _ hq))
  obtain ⟨q, hq, hpart⟩ := hposted.fits p hp
  obtain ⟨hfed', hstays⟩ := hfed.take hq hpart
  refine ⟨hfed', ?_⟩
  by_cases hself : p.place = place
  · have hmem : p ∈ postedOn place parcels := List.mem_filter.mpr ⟨hp, by simpa using hself⟩
    obtain ⟨k, hk⟩ := List.mem_iff_getElem?.mp hmem
    have hnew : p.frame.messageId ≠ some b.window.latest := fun hlatest =>
      (came_eq_false hk).mp (harranged.not_came hfirst hself hk)
        (hfed.again hdistinct hpositive harrived hp hlatest)
    rw [if_pos hself]
    exact hsorted.take_self harranged hfirst hself hk (hposted.sequenced hplace hk) hnew
  · rw [if_neg hself, List.append_nil]
    apply hsorted.take_other hself (hstays place hself)
    intro k hk
    have hmem := List.mem_of_getElem? hk
    exact hself (by simpa using (List.mem_filter.mp hmem).2)

theorem Sorted.all_came (harranged : Arranged place parcels arriving)
    (h : b.Sorted place (postedOn place parcels) (postedOn place arriving) arriving delivered) :
    delivered = (postedOn place parcels).map Parcel.message ↔
      (postedOn place arriving).Pairwise (WithinWrap (postedOn place parcels)) := by
  rcases h with ⟨⟨inbound, nextOut, done, -, hawaits, hstops, rfl⟩, -, hpairwise, -⟩ |
    ⟨⟨inbound, nextOut, -, -, hsum⟩, hnot⟩
  · have hall : (postedOn place parcels).length ≤ done := by
      apply Nat.le_of_not_lt
      intro hlt
      have hq := List.getElem?_eq_getElem hlt
      have hmem := harranged.once.mem_iff.mpr (List.mem_of_getElem? hq)
      exact (came_eq_false hq).mp (hstops hlt) (List.mem_filter.mp hmem).1
    rw [List.take_of_length_le (by rwa [List.length_map])]
    exact iff_of_true rfl hpairwise
  · apply iff_of_false ?_ hnot
    intro heq
    have hlength := congrArg List.length heq
    rw [List.length_map, ← harranged.once.length_eq] at hlength
    omega

end

end Inbox

theorem Outbox.Posted.nodup {qualities : List Qos} {o : Outbox} {parcels : List Parcel}
    (h : o.Posted qualities parcels) (hids : (drawn parcels).length ≤ 65535) {place : Nat}
    (hplace : qualities[place]? = some .reliableSequenced) : (postedOn place parcels).Nodup := by
  have hdistinct : Distinct (postedOn place parcels) :=
    (h.distinct hids).1.sublist List.filter_sublist
  apply hdistinct.imp_of_mem
  rintro p q hp - hne rfl
  obtain ⟨k, hk⟩ := List.mem_iff_getElem?.mp hp
  obtain ⟨id, -, hframe⟩ := h.sequenced hplace hk
  have hid : p.frame.messageId = some id := by rw [hframe]
  exact hne id hid hid

theorem filterMap_getElem?_range {α : Type} (l : List α) :
    (List.range l.length).filterMap (fun k => l[k]?) = l := by
  induction l with
  | nil => rfl
  | cons a l ih =>
    rw [List.length_cons, List.range_succ_eq_map, List.filterMap_cons, List.filterMap_map]
    exact congrArg (a :: ·) ih

theorem pairwise_of_numbers {posted own : List Parcel} {order : List Nat} (hnodup : posted.Nodup)
    (horder : order.Perm (List.range posted.length))
    (hown : own = order.filterMap fun k => posted[k]?) (R : Nat → Nat → Prop) :
    own.Pairwise (fun p q => R (posted.idxOf p) (posted.idxOf q)) ↔ order.Pairwise R := by
  rw [hown, List.pairwise_filterMap]
  apply List.Pairwise.iff_of_mem
  intro i j hi hj
  have hilt := List.mem_range.mp (horder.mem_iff.mp hi)
  have hjlt := List.mem_range.mp (horder.mem_iff.mp hj)
  rw [List.getElem?_eq_getElem hilt, List.getElem?_eq_getElem hjlt]
  simp [hnodup.idxOf_getElem]

theorem arranged_of_numbers {place : Nat} {parcels arriving : List Parcel} {order : List Nat}
    (hnodup : (postedOn place parcels).Nodup)
    (horder : order.Perm (List.range (postedOn place parcels).length))
    (hown : postedOn place arriving = order.filterMap fun k => (postedOn place parcels)[k]?)
    (hspan : order.Pairwise fun j i => j < i + 32) : Arranged place parcels arriving where
  nodup := hnodup
  once := by
    rw [hown]
    have hperm := horder.filterMap fun k => (postedOn place parcels)[k]?
    rwa [filterMap_getElem?_range] at hperm
  span := (pairwise_of_numbers hnodup horder hown _).mpr hspan

/-- Of frames that come in an order of their numbers, all are delivered in the
order of posting if none comes from beyond a wrap too early, and only then. -/
theorem Outbox.Posted.all_delivered_iff {qualities : List Qos} {place : Nat}
    {parcels arriving : List Parcel} {o : Outbox} {order : List Nat}
    (hposted : o.Posted qualities parcels) (hids : (drawn parcels).length ≤ 65535) (mode : AckMode)
    (hplace : qualities[place]? = some .reliableSequenced)
    (harriving : ∀ p ∈ arriving, p ∈ parcels)
    (horder : order.Perm (List.range (postedOn place parcels).length))
    (hown : postedOn place arriving = order.filterMap fun k => (postedOn place parcels)[k]?)
    (hspan : order.Pairwise fun j i => j < i + 32) :
    ((Inbox.fresh qualities mode).takeAll place arriving).2 =
        (postedOn place parcels).map Parcel.message ↔
      order.Pairwise fun j i => (j + 1) / 256 ≤ (i + 2) / 256 := by
  have hnodup := hposted.nodup hids hplace
  have harranged := arranged_of_numbers hnodup horder hown hspan
  have hsorted := Inbox.sorted_takeAll hposted hids mode hplace harriving harranged
  rw [hsorted.all_came harranged]
  exact pairwise_of_numbers hnodup horder hown fun j i => (j + 1) / 256 ≤ (i + 2) / 256

theorem Outbox.Posted.delivered_in_order {qualities : List Qos} {place : Nat}
    {parcels : List Parcel} {o : Outbox} (hposted : o.Posted qualities parcels)
    (hids : (drawn parcels).length ≤ 65535) (mode : AckMode)
    (hplace : qualities[place]? = some .reliableSequenced)
    (hown : postedOn place parcels = parcels) :
    ((Inbox.fresh qualities mode).takeAll place parcels).2 = parcels.map Parcel.message := by
  have horder : (List.range parcels.length).Perm (List.range (postedOn place parcels).length) := by
    rw [hown]
  have hall := hposted.all_delivered_iff hids mode hplace (fun _ => id) horder
    (by rw [hown, filterMap_getElem?_range]) (List.pairwise_lt_range.imp (by omega))
  rw [hown] at hall
  exact hall.mpr (List.pairwise_lt_range.imp (by omega))

/-- Frames that each arrive once, none before one that was posted 32 or more places earlier, are all
delivered just if none comes from beyond a wrap of the positions too early. -/
theorem reordered_delivers_all_iff (qualities : List Qos) (mode : AckMode) {place : Nat}
    (hplace : qualities[place]? = some .reliableSequenced) (posts : List (Nat × Bytes))
    (hids : (drawn ((Outbox.fresh qualities).postAll posts).2).length ≤ 65535)
    {arriving : List Parcel}
    (harriving : ∀ p ∈ arriving, p ∈ ((Outbox.fresh qualities).postAll posts).2)
    {order : List Nat}
    (horder : order.Perm
      (List.range (postedOn place ((Outbox.fresh qualities).postAll posts).2).length))
    (hown : postedOn place arriving =
      order.filterMap fun k => (postedOn place ((Outbox.fresh qualities).postAll posts).2)[k]?)
    (hspan : order.Pairwise fun j i => j < i + 32) :
    ((Inbox.fresh qualities mode).takeAll place arriving).2 =
        (postedOn place ((Outbox.fresh qualities).postAll posts).2).map Parcel.message ↔
      order.Pairwise fun j i => (j + 1) / 256 ≤ (i + 2) / 256 := by
  have hposted := (Outbox.posted_fresh qualities).postAll posts
  rw [List.nil_append] at hposted
  exact hposted.all_delivered_iff hids mode hplace harriving horder hown hspan

theorem reordered_delivers_all_reversed :
    ∃ parcels arriving : List Parcel,
      ((Outbox.fresh [.reliableSequenced, .reliable]).postAll
        [(0, [10]), (1, [90]), (0, [20]), (0, [30])]).2 = parcels ∧
      [3, 2, 1, 0].filterMap (fun k : Nat => parcels[k]?) = arriving ∧
      ((Inbox.fresh [.reliableSequenced, .reliable] .short).takeAll 0 arriving).2 =
        [[10], [20], [30]] := by
  have hplace : ([.reliableSequenced, .reliable] : List Qos)[0]? = some .reliableSequenced := rfl
  have horder : [2, 1, 0].Perm (List.range (postedOn 0
      ((Outbox.fresh [.reliableSequenced, .reliable]).postAll
        [(0, [10]), (1, [90]), (0, [20]), (0, [30])]).2).length) := by decide +kernel
  refine ⟨_, _, rfl, rfl, ?_⟩
  refine ((reordered_delivers_all_iff [.reliableSequenced, .reliable] .short hplace
    [(0, [10]), (1, [90]), (0, [20]), (0, [30])] (by decide +kernel) (fun _ => mem_of_mem_picked)
    horder (by decide +kernel) (by decide +kernel)).mpr (by decide +kernel)).trans ?_
  decide +kernel

/-- The frame of message 256 comes two places too early, and is lost. -/
theorem overtaking_frame_lost :
    ∃ (parcels : List Parcel) (order : List Nat),
      ((Outbox.fresh [.reliableSequenced]).postAll (List.replicate 256 (0, []))).2 = parcels ∧
      order = List.range 253 ++ [255, 253, 254] ∧
      order.Perm (List.range parcels.length) ∧ order.Pairwise (fun j i => j < i + 32) ∧
      ((Inbox.fresh [.reliableSequenced] .short).takeAll 0
        (order.filterMap fun k => parcels[k]?)).2 ≠ parcels.map Parcel.message := by
  have hposted := (Outbox.posted_fresh [.reliableSequenced]).postAll (List.replicate 256 (0, []))
  rw [List.nil_append] at hposted
  refine ⟨_, _, rfl, rfl, ?_⟩
  have hsize : ((Outbox.fresh [.reliableSequenced]).postAll
      (List.replicate 256 (0, []))).2.length = 256 := by decide +kernel
  have hplaces : ∀ p ∈ ((Outbox.fresh [.reliableSequenced]).postAll
      (List.replicate 256 (0, []))).2, p.place = 0 := by decide +kernel
  have hids : (drawn ((Outbox.fresh [.reliableSequenced]).postAll
      (List.replicate 256 (0, []))).2).length ≤ 65535 := by decide +kernel
  generalize ((Outbox.fresh [.reliableSequenced]).postAll (List.replicate 256 (0, []))).2 =
    parcels at *
  have horder : (List.range 253 ++ [255, 253, 254]).Perm (List.range parcels.length) := by
    have hrange : List.range 256 = List.range 253 ++ [253, 254, 255] := by decide +kernel
    rw [hsize, hrange]
    exact .append_left _ (by decide)
  have hspan : (List.range 253 ++ [255, 253, 254]).Pairwise (fun j i => j < i + 32) := by
    refine List.pairwise_append.mpr ⟨List.pairwise_lt_range.imp (by omega), by decide, ?_⟩
    intro j hj i hi
    have hearly := List.mem_range.mp hj
    have hlate : 253 ≤ i := by
      revert i
      decide
    omega
  have hown : postedOn 0 parcels = parcels := List.filter_eq_self.mpr (by simpa using hplaces)
  have harrived : postedOn 0 ((List.range 253 ++ [255, 253, 254]).filterMap fun k => parcels[k]?) =
      (List.range 253 ++ [255, 253, 254]).filterMap fun k => parcels[k]? :=
    List.filter_eq_self.mpr fun p hp => by simpa using hplaces p (mem_of_mem_picked hp)
  have hall := hposted.all_delivered_iff hids .short rfl (fun _ => mem_of_mem_picked)
    (by rwa [hown]) (by rwa [hown]) hspan
  rw [hown] at hall
  refine ⟨horder, hspan, fun heq => ?_⟩
  have hlast := (List.pairwise_append.mp (hall.mp heq)).2.1
  revert hlast
  decide

end DatagramTransport
