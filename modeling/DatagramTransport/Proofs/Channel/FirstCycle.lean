import DatagramTransport.Proofs.Channel.Newest

/-!
# Before the positions wrap

The position 255 is the one behind which nothing counts as passed. A channel
that keeps the order without resending and posted at most 254 messages has
not come to it, and the position of each message is its whole number. Then
frames may come in any order and any number of times: one is delivered just
if its message was posted after those of all frames that came before it.
-/

set_option autoImplicit false

namespace DatagramTransport

section
variable {last n : Nat} {numbers : List Nat}

theorem newer_iff_lt (hlast : last < 255) (hn : n < 255) : Newer last n ↔ last < n := by
  unfold Newer
  omega

theorem getLastD_taken_lt_iff (hlast : last < 255) (hnumbers : ∀ m ∈ numbers, m < 255) :
    (taken last numbers).getLastD last < n ↔ last < n ∧ ∀ m ∈ numbers, m < n := by
  induction numbers generalizing last with
  | nil => simp [taken]
  | cons m numbers ih =>
    obtain ⟨hm, hrest⟩ := List.forall_mem_cons.mp hnumbers
    rw [List.forall_mem_cons]
    by_cases hnewer : Newer last m
    · have hlt : last < m := (newer_iff_lt hlast hm).mp hnewer
      rw [taken, if_pos hnewer, List.getLastD_cons, ih hm hrest]
      constructor
      · rintro ⟨hmn, hall⟩
        exact ⟨Nat.lt_trans hlt hmn, hmn, hall⟩
      · exact And.right
    · have hle : m ≤ last := Nat.le_of_not_lt ((newer_iff_lt hlast hm).not.mp hnewer)
      rw [taken, if_neg hnewer, ih hlast hrest]
      constructor
      · rintro ⟨hlt, hall⟩
        exact ⟨hlt, Nat.lt_of_le_of_lt hle hlt, hall⟩
      · rintro ⟨hlt, -, hall⟩
        exact ⟨hlt, hall⟩

/-- A number is taken just if it is above the one taken last. -/
theorem cons_taken_eq_destutter' (hlast : last < 255) (hnumbers : ∀ m ∈ numbers, m < 255) :
    last :: taken last numbers = numbers.destutter' (· < ·) last := by
  induction numbers generalizing last with
  | nil => rfl
  | cons m numbers ih =>
    obtain ⟨hm, hrest⟩ := List.forall_mem_cons.mp hnumbers
    have hiff := newer_iff_lt hlast hm
    by_cases hnewer : Newer last m
    · rw [taken, if_pos hnewer, List.destutter'_cons_pos _ (hiff.mp hnewer), ih hm hrest]
    · rw [taken, if_neg hnewer, List.destutter'_cons_neg _ (hiff.not.mp hnewer), ih hlast hrest]

theorem pairwise_taken (hlast : last < 255) (hnumbers : ∀ m ∈ numbers, m < 255) :
    (last :: taken last numbers).Pairwise (· < ·) := by
  rw [cons_taken_eq_destutter' hlast hnumbers]
  exact (List.isChain_destutter' _ numbers last).pairwise

theorem taken_sublist (hlast : last < 255) (hnumbers : ∀ m ∈ numbers, m < 255) :
    (taken last numbers).Sublist numbers := by
  have hsublist : (last :: taken last numbers).Sublist (last :: numbers) := by
    rw [cons_taken_eq_destutter' hlast hnumbers]
    exact numbers.destutter'_sublist (· < ·) last
  exact List.cons_sublist_cons.mp hsublist

theorem taken_ends (hnumbers : ∀ m ∈ numbers, m < 255) (hpos : 0 < n) (hn : n ∈ numbers)
    (htop : ∀ m ∈ numbers, m ≤ n) : ∃ earlier, taken 0 numbers = earlier ++ [n] := by
  have hreaches : ¬ (taken 0 numbers).getLastD 0 < n := by
    rw [getLastD_taken_lt_iff (by decide) hnumbers]
    exact fun h => Nat.lt_irrefl n (h.2 n hn)
  have hstays : (taken 0 numbers).getLastD 0 < n + 1 := by
    rw [getLastD_taken_lt_iff (by decide) hnumbers]
    exact ⟨Nat.succ_pos n, fun m hm => Nat.lt_succ_of_le (htop m hm)⟩
  have hlast : (taken 0 numbers).getLastD 0 = n := by omega
  rcases List.eq_nil_or_concat (taken 0 numbers) with hnone | ⟨earlier, m, htaken⟩
  · rw [hnone] at hlast
    exact absurd hlast (Nat.ne_of_lt hpos)
  · rw [List.concat_eq_append] at htaken
    rw [htaken, List.getLastD_concat] at hlast
    exact ⟨earlier, hlast ▸ htaken⟩

end

def numbersIn (posted parcels : List Parcel) : List Nat :=
  parcels.map fun p => posted.idxOf p + 1

section
variable {posted parcels : List Parcel} {p : Parcel}

theorem getElem?_number (hp : p ∈ posted) : posted[posted.idxOf p + 1 - 1]? = some p := by
  rw [Nat.add_sub_cancel, List.getElem?_idxOf hp]

theorem numbered_numbersIn (h : ∀ p ∈ parcels, p ∈ posted) :
    numbered posted (numbersIn posted parcels) = parcels := by
  induction parcels with
  | nil => rfl
  | cons p parcels ih =>
    obtain ⟨hp, hrest⟩ := List.forall_mem_cons.mp h
    have hnumber := numbered_cons (getElem?_number hp) (numbersIn posted parcels)
    rw [ih hrest] at hnumber
    exact hnumber

theorem numbersIn_append (posted before after : List Parcel) :
    numbersIn posted (before ++ after) = numbersIn posted before ++ numbersIn posted after :=
  List.map_append

theorem numbersIn_singleton (posted : List Parcel) (p : Parcel) :
    numbersIn posted [p] = [posted.idxOf p + 1] := rfl

theorem numbersIn_range (h : ∀ p ∈ parcels, p ∈ posted) :
    ∀ n ∈ numbersIn posted parcels, 1 ≤ n ∧ n ≤ posted.length := by
  intro n hn
  obtain ⟨p, hp, rfl⟩ := List.mem_map.mp hn
  exact ⟨Nat.succ_pos _, List.idxOf_lt_length_of_mem (h p hp)⟩

theorem Parcel.Stamped.position_eq {m n : Nat} (hm : p.Stamped m) (hn : p.Stamped n) :
    UInt8.ofNat m = .ofNat n := by
  have hframes := congrArg Frame.bytes (hm.2.symm.trans hn.2)
  simpa [Layout.frame, Layout.header] using hframes

theorem Outbox.Numbered.nodup {place : Nat} {o : Outbox} (h : o.Numbered place posted)
    (hcount : posted.length ≤ 254) : posted.Nodup := by
  rw [List.nodup_iff_getElem?_ne_getElem?]
  intro i j hij hj heq
  obtain ⟨q, hq⟩ : ∃ q, posted[j]? = some q := ⟨_, List.getElem?_eq_getElem hj⟩
  have hposition := congrArg UInt8.toNat
    ((h.stamped i q (heq.trans hq)).position_eq (h.stamped j q hq))
  have hsize : UInt8.size = 256 := rfl
  rw [UInt8.toNat_ofNat_of_lt' (by omega), UInt8.toNat_ofNat_of_lt' (by omega)] at hposition
  omega

end

namespace Inbox

theorem takeAll_concat (place : Nat) (b : Inbox) (before : List Parcel) (p : Parcel) :
    (b.takeAll place (before ++ [p])).2 = (b.takeAll place before).2 ++
      if p.place = place then ((b.takeAll place before).1.take p).2 else [] := by
  induction before generalizing b with
  | nil => simp [takeAll]
  | cons q before ih => simp [takeAll, ih]

end Inbox

section
variable {qualities : List Qos} {place : Nat} {o : Outbox} {posted : List Parcel}

/-- What a channel delivers of any frames of its own is known by their numbers. -/
theorem Outbox.Numbered.delivered_taken (h : o.Numbered place posted) (mode : AckMode)
    (hplace : qualities[place]? = some .unreliableSequenced) {arriving : List Parcel}
    (harriving : ∀ p ∈ postedOn place arriving, p ∈ posted) :
    ((Inbox.fresh qualities mode).takeAll place arriving).2 =
      (numbered posted (taken 0 (numbersIn posted (postedOn place arriving)))).map
        Parcel.message :=
  h.delivered mode hplace (numbersIn_range harriving) (numbered_numbersIn harriving).symm

theorem Outbox.Numbered.take_newest (h : o.Numbered place posted) (hcount : posted.length ≤ 254)
    (mode : AckMode) (hplace : qualities[place]? = some .unreliableSequenced)
    {before : List Parcel} (hbefore : ∀ p ∈ postedOn place before, p ∈ posted) {p : Parcel}
    (hself : p.place = place) (hp : p ∈ posted) :
    (((Inbox.fresh qualities mode).takeAll place before).1.take p).2 =
      if ∀ q ∈ before, q.place = place → posted.idxOf q < posted.idxOf p
      then [p.message] else [] := by
  have hown : postedOn place (before ++ [p]) = postedOn place before ++ [p] := by
    simp [postedOn, hself]
  have hall : ∀ q ∈ postedOn place (before ++ [p]), q ∈ posted := by
    rw [hown]
    simpa [or_imp, forall_and] using And.intro hbefore hp
  have hafter := h.delivered_taken mode hplace hall
  rw [Inbox.takeAll_concat, if_pos hself, h.delivered_taken mode hplace hbefore, hown,
    numbersIn_append, taken_append, numbered_append, List.map_append] at hafter
  rw [List.append_cancel_left hafter]
  have hsmall : ∀ n ∈ numbersIn posted (postedOn place before), n < 255 := fun n hn => by
    have hrange := numbersIn_range hbefore n hn
    omega
  have hplaceOf := List.idxOf_lt_length_of_mem hp
  have htop : (taken 0 (numbersIn posted (postedOn place before))).getLastD 0 < 255 :=
    (getLastD_taken_lt_iff (by decide) hsmall).mpr ⟨by decide, hsmall⟩
  have hnewer : Newer ((taken 0 (numbersIn posted (postedOn place before))).getLastD 0)
      (posted.idxOf p + 1) ↔
      ∀ q ∈ before, q.place = place → posted.idxOf q < posted.idxOf p := by
    rw [newer_iff_lt htop (by omega), getLastD_taken_lt_iff (by decide) hsmall, numbersIn,
      List.forall_mem_map]
    simp [postedOn]
  simp only [numbersIn_singleton, taken, hnewer]
  split
  · rw [numbered_cons (getElem?_number hp)]
    rfl
  · rfl

end

/-- Of at most 254 messages, in any order, a frame is delivered just if it was posted after all that
arrived before it. -/
theorem newest_so_far_delivered (qualities : List Qos) (mode : AckMode) {place : Nat}
    (hplace : qualities[place]? = some .unreliableSequenced) (posts : List (Nat × Bytes))
    {posted : List Parcel}
    (hposted : postedOn place ((Outbox.fresh qualities).postAll posts).2 = posted)
    (hcount : posted.length ≤ 254) {arriving : List Parcel}
    (harriving : ∀ p ∈ postedOn place arriving, p ∈ posted) :
    posted.Nodup ∧
    (∀ before p after, arriving = before ++ p :: after → p.place = place →
      (((Inbox.fresh qualities mode).takeAll place before).1.take p).2 =
        if ∀ q ∈ before, q.place = place → posted.idxOf q < posted.idxOf p
        then [p.message] else []) ∧
    ∃ news : List Parcel,
      ((Inbox.fresh qualities mode).takeAll place arriving).2 = news.map Parcel.message ∧
      news.Sublist (postedOn place arriving) ∧
      news.Pairwise (fun p q => posted.idxOf p < posted.idxOf q) ∧
      ∀ p ∈ postedOn place arriving,
        (∀ q ∈ postedOn place arriving, posted.idxOf q ≤ posted.idxOf p) →
        news.getLast? = some p := by
  have h := (Outbox.numbered_fresh hplace).postAll posts
  rw [List.nil_append, hposted] at h
  have hnodup := h.nodup hcount
  have hsmall : ∀ n ∈ numbersIn posted (postedOn place arriving), n < 255 := fun n hn => by
    have hrange := numbersIn_range harriving n hn
    omega
  have hsublist := taken_sublist (by decide : 0 < 255) hsmall
  refine ⟨hnodup, ?_, _, h.delivered_taken mode hplace harriving, ?_, ?_, ?_⟩
  · rintro before p after rfl hself
    have hp : p ∈ posted := harriving p (by simp [postedOn, hself])
    exact h.take_newest hcount mode hplace
      (fun q hq => harriving q (by rw [postedOn_append]; exact List.mem_append_left _ hq)) hself hp
  · have hnews : (numbered posted _).Sublist (numbered posted _) := hsublist.filterMap _
    rwa [numbered_numbersIn harriving] at hnews
  · rw [numbered, List.pairwise_filterMap]
    refine (List.pairwise_cons.mp (pairwise_taken (by decide) hsmall)).2.imp_of_mem ?_
    intro m n hm hn hlt p hp q hq
    have hmpos := (numbersIn_range harriving m (hsublist.subset hm)).1
    obtain ⟨hplt, rfl⟩ := List.getElem?_eq_some_iff.mp hp
    obtain ⟨hqlt, rfl⟩ := List.getElem?_eq_some_iff.mp hq
    rw [hnodup.idxOf_getElem, hnodup.idxOf_getElem]
    omega
  · intro p hp htop
    obtain ⟨earlier, htaken⟩ := taken_ends hsmall (Nat.succ_pos (posted.idxOf p))
      (List.mem_map_of_mem hp) (List.forall_mem_map.mpr fun q hq => Nat.succ_le_succ (htop q hq))
    have hlast : numbered posted [posted.idxOf p + 1] = [p] :=
      numbered_cons (getElem?_number (harriving p hp)) []
    rw [htaken, numbered_append, hlast, List.getLast?_concat]

theorem newest_so_far_delivered_reordered :
    ∃ posted arriving : List Parcel,
      postedOn 0 ((Outbox.fresh [.unreliableSequenced, .reliable]).postAll
        [(0, [10]), (1, [90]), (0, [20]), (0, [30])]).2 = posted ∧ posted.length = 3 ∧
      (∀ p ∈ postedOn 0 arriving, p ∈ posted) ∧ arriving.length = 6 ∧
      ((Inbox.fresh [.unreliableSequenced, .reliable] .short).takeAll 0 arriving).2 =
        [[20], [30]] ∧
      ∀ before p after, arriving = before ++ p :: after → p.place = 0 →
        (((Inbox.fresh [.unreliableSequenced, .reliable] .short).takeAll 0 before).1.take p).2 =
          if ∀ q ∈ before, q.place = 0 → posted.idxOf q < posted.idxOf p
          then [p.message] else [] := by
  refine ⟨_, [2, 1, 0, 2, 3, 0].filterMap fun k : Nat => ((Outbox.fresh
    [.unreliableSequenced, .reliable]).postAll
      [(0, [10]), (1, [90]), (0, [20]), (0, [30])]).2[k]?, rfl, by decide +kernel,
    by decide +kernel, by decide +kernel, by decide +kernel, ?_⟩
  exact (newest_so_far_delivered [.unreliableSequenced, .reliable] .short rfl
    [(0, [10]), (1, [90]), (0, [20]), (0, [30])] rfl (by decide +kernel) (by decide +kernel)).2.1

end DatagramTransport
