import DatagramTransport.Proofs.Channel.Arrivals
import DatagramTransport.Proofs.Channel.InStep
import Mathlib.Data.List.Chain
import Mathlib.Data.List.Destutter

/-!
# Messages that may be lost but not overtake

A channel that keeps the order without resending passes over what is not
newer than the last message it delivered. It sees eight bits of a message's
number, and where the last one ended in 255 it takes anything for newer. So
what it delivers of frames that come in the order of posting, some lost and
some repeated, is a function of their numbers alone, and the numbers tell
where a repeated frame comes through or a first one does not. Frames of the
other channels may arrive in between, in any way.
-/

set_option autoImplicit false

namespace DatagramTransport

/-- What eight bits show: where the last number ends in 255, all are newer. -/
def Newer (last n : Nat) : Prop :=
  last % 256 < n % 256 ∨ last % 256 = 255

instance (last n : Nat) : Decidable (Newer last n) :=
  inferInstanceAs (Decidable (_ ∨ _))

theorem newer_iff_not_passed {last n : Nat} :
    Newer last n ↔ ¬ (UInt8.ofNat n ≤ .ofNat last ∧ UInt8.ofNat last ≠ 255) := by
  have hmax : (255 : UInt8).toNat = 255 := rfl
  rw [UInt8.le_iff_toNat_le, ne_eq, ← UInt8.toNat_inj, UInt8.toNat_ofNat', UInt8.toNat_ofNat',
    hmax, Newer]
  omega

def taken : Nat → List Nat → List Nat
  | _, [] => []
  | last, n :: ns => if Newer last n then n :: taken n ns else taken last ns

theorem taken_append (last : Nat) (before after : List Nat) :
    taken last (before ++ after) =
      taken last before ++ taken ((taken last before).getLastD last) after := by
  induction before generalizing last with
  | nil => rfl
  | cons n before ih =>
    by_cases hn : Newer last n
    · simp only [List.cons_append, taken, if_pos hn, ih, List.getLastD_cons]
    · simp only [List.cons_append, taken, if_neg hn, ih]

theorem getLastD_taken_cons {last n : Nat} (hle : last ≤ n) (hn : Newer last n ↔ last < n)
    (numbers : List Nat) :
    (taken last (n :: numbers)).getLastD last = (taken n numbers).getLastD n := by
  rcases Nat.eq_or_lt_of_le hle with rfl | hlt
  · rw [taken, if_neg (hn.not.mpr (Nat.lt_irrefl _))]
  · rw [taken, if_pos (hn.mpr hlt), List.getLastD_cons]

/-- Numbers that ascend are each taken where they come first, and only there, if
and only if from each to the next one a higher is newer and an equal is not. -/
theorem isChain_iff_taken_first {last : Nat} {numbers : List Nat}
    (hsorted : (last :: numbers).Pairwise (· ≤ ·)) :
    (∀ before n after, numbers = before ++ n :: after →
        (Newer ((taken last before).getLastD last) n ↔ last < n ∧ n ∉ before)) ↔
      (last :: numbers).IsChain fun d n => Newer d n ↔ d < n := by
  induction numbers generalizing last with
  | nil => simp
  | cons next numbers ih =>
    obtain ⟨hlast, hrest⟩ := List.pairwise_cons.mp hsorted
    have hle : last ≤ next := hlast next (by simp)
    have habove : ∀ n ∈ numbers, next ≤ n := (List.pairwise_cons.mp hrest).1
    have hlater : ∀ {before n after}, numbers = before ++ n :: after →
        (last < n ∧ n ∉ next :: before ↔ next < n ∧ n ∉ before) := by
      rintro before n after rfl
      have hge := habove n (by simp)
      have hbeyond : last < n ∧ n ≠ next ↔ next < n := by omega
      rw [List.mem_cons, not_or, ← and_assoc, hbeyond]
    rw [List.isChain_cons_cons, ← ih hrest]
    constructor
    · intro hall
      have hnext : Newer last next ↔ last < next := by
        simpa [taken] using hall [] next numbers rfl
      refine ⟨hnext, fun before n after heq => ?_⟩
      rw [← getLastD_taken_cons hle hnext, ← hlater heq]
      exact hall (next :: before) n after (by rw [heq, List.cons_append])
    · rintro ⟨hnext, hall⟩ before n after heq
      cases before with
      | nil =>
        obtain ⟨rfl, -⟩ := List.cons.inj heq
        simpa [taken] using hnext
      | cons first before =>
        obtain ⟨rfl, hnumbers⟩ := List.cons.inj heq
        rw [getLastD_taken_cons hle hnext, hlater hnumbers]
        exact hall before n after hnumbers

theorem taken_eq_destutter {last : Nat} {numbers : List Nat}
    (hsorted : (last :: numbers).Pairwise (· ≤ ·))
    (hchain : (last :: numbers).IsChain fun d n => Newer d n ↔ d < n) :
    last :: taken last numbers = (last :: numbers).destutter (· ≠ ·) := by
  induction numbers generalizing last with
  | nil => rfl
  | cons next numbers ih =>
    obtain ⟨hlast, hrest⟩ := List.pairwise_cons.mp hsorted
    obtain ⟨hnext, hchain⟩ := List.isChain_cons_cons.mp hchain
    have hnumbers := ih hrest hchain
    rw [List.destutter_cons'] at hnumbers ⊢
    rcases Nat.eq_or_lt_of_le (hlast next (by simp)) with rfl | hlt
    · rw [List.destutter'_cons_neg _ (by simp), ← hnumbers, taken,
        if_neg (hnext.not.mpr (Nat.lt_irrefl _))]
    · rw [List.destutter'_cons_pos _ (Nat.ne_of_lt hlt), ← hnumbers, taken, if_pos (hnext.mpr hlt)]

def Parcel.Stamped (p : Parcel) (n : Nat) : Prop :=
  (Layout.unreliableSequenced (.ofNat n)).Valid p.message ∧
    p.frame = { messageId := none
                bytes := (Layout.unreliableSequenced (.ofNat n)).frame p.message }

namespace Channel

theorem prepare_unreliableSequenced {lastIn position : UInt8} {message : Bytes}
    {next : UInt16} {p : Prepared} :
    (unreliableSequenced lastIn position).prepare message next = .ok p ↔
      (Layout.unreliableSequenced position).Valid message ∧
      p = { channel := unreliableSequenced lastIn (position + 1), nextMessage := next
            frames := [{ messageId := none
                         bytes := (Layout.unreliableSequenced position).frame message }] } := by
  simp only [prepare, bind_eq_ok]
  constructor
  · rintro ⟨frames, hf, h⟩
    obtain ⟨hv, rfl⟩ := (wholeFrame_eq_ok (h := .unreliableSequenced position) trivial).mp hf
    cases h
    exact ⟨hv, rfl⟩
  · rintro ⟨hv, rfl⟩
    exact ⟨_, (wholeFrame_eq_ok (h := .unreliableSequenced position) trivial).mpr ⟨hv, rfl⟩, rfl⟩

end Channel

namespace Outbox

/-- The messages that a channel made frames of are numbered from one, and the
next position is the next number. -/
structure Numbered (place : Nat) (o : Outbox) (posted : List Parcel) : Prop where
  next : ∃ lastIn, o.channels[place]? =
    some (.unreliableSequenced lastIn (.ofNat (posted.length + 1)))
  stamped : ∀ (k : Nat) (p : Parcel), posted[k]? = some p → p.Stamped (k + 1)

section
variable {place : Nat} {o : Outbox} {parcels : List Parcel}

theorem numbered_fresh {qualities : List Qos}
    (hplace : qualities[place]? = some .unreliableSequenced) :
    (fresh qualities).Numbered place (postedOn place []) where
  next := ⟨0, by simp [fresh, hplace, Channel.ofQos, postedOn]⟩
  stamped := by simp [postedOn]

theorem Numbered.post (h : o.Numbered place (postedOn place parcels)) (other : Nat)
    (message : Bytes) :
    (o.post other message).1.Numbered place
      (postedOn place (parcels ++ (o.post other message).2)) := by
  obtain ⟨⟨lastIn, hc⟩, hstamped⟩ := h
  unfold Outbox.post
  cases ho : o.channels[other]? with
  | none => simpa using ⟨⟨lastIn, hc⟩, hstamped⟩
  | some c =>
    cases hp : c.prepare message o.next with
    | error e => simpa [hp] using ⟨⟨lastIn, hc⟩, hstamped⟩
    | ok p =>
      simp only [hp]
      by_cases hother : other = place
      case neg =>
        rw [postedOn_append, postedOn_other hother, List.append_nil]
        exact ⟨⟨lastIn, by rwa [List.getElem?_set_ne hother]⟩, hstamped⟩
      subst hother
      cases hc.symm.trans ho
      obtain ⟨hv, rfl⟩ := Channel.prepare_unreliableSequenced.mp hp
      obtain ⟨hlt, -⟩ := List.getElem?_eq_some_iff.mp hc
      rw [postedOn_append, postedOn_self, List.map_singleton]
      constructor
      · refine ⟨lastIn, ?_⟩
        rw [List.getElem?_set_self hlt, List.length_append, List.length_singleton]
        exact congrArg (fun next => some (Channel.unreliableSequenced lastIn next))
          (positionAt_succ _)
      · intro k q hq
        by_cases hk : k < (postedOn other parcels).length
        · rw [List.getElem?_append_left hk] at hq
          exact hstamped k q hq
        · rw [List.getElem?_append_right (Nat.le_of_not_lt hk), List.getElem?_singleton] at hq
          split at hq
          · rename_i hlast
            cases hq
            have heq : k = (postedOn other parcels).length := by omega
            subst heq
            exact ⟨hv, rfl⟩
          · cases hq

theorem Numbered.postAll (h : o.Numbered place (postedOn place parcels))
    (posts : List (Nat × Bytes)) :
    (o.postAll posts).1.Numbered place (postedOn place (parcels ++ (o.postAll posts).2)) := by
  induction posts generalizing o parcels with
  | nil => simpa [Outbox.postAll] using h
  | cons post posts ih =>
    have hall := ih (h.post post.1 post.2)
    rwa [List.append_assoc] at hall

end

end Outbox

def numbered (posted : List Parcel) (numbers : List Nat) : List Parcel :=
  numbers.filterMap fun n => posted[n - 1]?

theorem numbered_append (posted : List Parcel) (before after : List Nat) :
    numbered posted (before ++ after) = numbered posted before ++ numbered posted after :=
  List.filterMap_append

theorem numbered_cons {posted : List Parcel} {n : Nat} {p : Parcel}
    (hp : posted[n - 1]? = some p) (numbers : List Nat) :
    numbered posted (n :: numbers) = p :: numbered posted numbers :=
  List.filterMap_cons_some hp

namespace Inbox

section
variable {place : Nat} {posted arriving : List Parcel} {b : Inbox} {p : Parcel} {last n : Nat}
  {nextOut : UInt8}

theorem take_stamped
    (hc : b.channels[place]? = some (.unreliableSequenced (.ofNat last) nextOut))
    (hself : p.place = place) (hstamp : p.Stamped n) :
    b.take p =
      if Newer last n then
        ({ b with channels := b.channels.set place (.unreliableSequenced (.ofNat n) nextOut) },
          [p.message])
      else (b, []) := by
  obtain ⟨hv, hframe⟩ := hstamp
  have hprocess := Channel.process_frame (c := .unreliableSequenced (.ofNat last) nextOut)
    (w := b.window) rfl hv []
  rw [List.append_nil, Channel.accept_unreliableSequenced] at hprocess
  simp only [take, hself, hc, hframe, hprocess]
  by_cases hnewer : Newer last n
  · rw [if_pos hnewer, if_neg (newer_iff_not_passed.mp hnewer)]
  · obtain ⟨hlt, hat⟩ := List.getElem?_eq_some_iff.mp hc
    rw [if_neg hnewer, if_pos (not_not.mp (newer_iff_not_passed.not.mp hnewer)), ← hat,
      List.set_getElem_self]

theorem take_other (hother : p.place ≠ place) :
    (b.take p).1.channels[place]? = b.channels[place]? := by
  unfold take
  cases b.channels[p.place]? with
  | none => rfl
  | some c =>
    dsimp only
    split
    · rfl
    · exact List.getElem?_set_ne hother

theorem takeAll_numbered (hstamped : ∀ (k : Nat) (p : Parcel), posted[k]? = some p →
      p.Stamped (k + 1))
    (hc : b.channels[place]? = some (.unreliableSequenced (.ofNat last) nextOut))
    {numbers : List Nat} (hnumbers : ∀ n ∈ numbers, 1 ≤ n ∧ n ≤ posted.length)
    (hown : postedOn place arriving = numbered posted numbers) :
    (b.takeAll place arriving).2 = (numbered posted (taken last numbers)).map Parcel.message := by
  induction arriving generalizing b last numbers with
  | nil =>
    cases numbers with
    | nil => rfl
    | cons n numbers =>
      obtain ⟨hpos, hle⟩ := hnumbers n (by simp)
      rw [numbered_cons (List.getElem?_eq_getElem (by omega))] at hown
      cases hown
  | cons p arriving ih =>
    by_cases hself : p.place = place
    case neg =>
      have hrest : postedOn place arriving = numbered posted numbers := by
        rwa [postedOn, List.filter_cons_of_neg (by simpa using hself)] at hown
      have hafter := ih ((take_other hself).trans hc) hnumbers hrest
      simpa only [takeAll, if_neg hself, List.nil_append] using hafter
    rw [postedOn, List.filter_cons_of_pos (by simpa using hself)] at hown
    cases numbers with
    | nil => cases hown
    | cons n numbers =>
      obtain ⟨hpos, hle⟩ := hnumbers n (by simp)
      obtain ⟨q, hp⟩ : ∃ q, posted[n - 1]? = some q :=
        ⟨_, List.getElem?_eq_getElem (by omega)⟩
      have hlater : ∀ m ∈ numbers, 1 ≤ m ∧ m ≤ posted.length := fun m hm =>
        hnumbers m (List.mem_cons_of_mem n hm)
      rw [numbered_cons hp] at hown
      obtain ⟨rfl, hrest⟩ := List.cons.inj hown
      have hstamp := hstamped (n - 1) _ hp
      rw [Nat.sub_add_cancel hpos] at hstamp
      have htake := take_stamped hc hself hstamp
      by_cases hnewer : Newer last n
      · rw [if_pos hnewer] at htake
        obtain ⟨hlt, -⟩ := List.getElem?_eq_some_iff.mp hc
        have hset :=
          List.getElem?_set_self (a := Channel.unreliableSequenced (.ofNat n) nextOut) hlt
        have hafter := ih (b := { b with channels := b.channels.set place _ }) hset hlater hrest
        simp only [takeAll, htake, if_pos hself, taken, if_pos hnewer, numbered_cons hp,
          List.map_cons]
        exact congrArg (_ :: ·) hafter
      · rw [if_neg hnewer] at htake
        have hafter := ih hc hlater hrest
        simpa only [takeAll, htake, ite_self, List.nil_append, taken, if_neg hnewer] using hafter

end

end Inbox

theorem Outbox.Numbered.delivered {qualities : List Qos} {place : Nat} {o : Outbox}
    {posted arriving : List Parcel} (h : o.Numbered place posted) (mode : AckMode)
    (hplace : qualities[place]? = some .unreliableSequenced) {numbers : List Nat}
    (hnumbers : ∀ n ∈ numbers, 1 ≤ n ∧ n ≤ posted.length)
    (hown : postedOn place arriving = numbered posted numbers) :
    ((Inbox.fresh qualities mode).takeAll place arriving).2 =
      (numbered posted (taken 0 numbers)).map Parcel.message := by
  have hc : (Inbox.fresh qualities mode).channels[place]? =
      some (.unreliableSequenced (.ofNat 0) 1) := by
    simp [Inbox.fresh, List.getElem?_map, hplace, Channel.ofQos]
  exact Inbox.takeAll_numbered h.stamped hc hnumbers hown

theorem postedOn_numbered {place : Nat} {parcels : List Parcel} (numbers : List Nat) :
    postedOn place (numbered (postedOn place parcels) numbers) =
      numbered (postedOn place parcels) numbers := by
  apply List.filter_eq_self.mpr
  intro p hp
  obtain ⟨n, -, hn⟩ := List.mem_filterMap.mp hp
  exact (List.mem_filter.mp (List.mem_of_getElem? hn)).2

section
variable {qualities : List Qos} {place : Nat} {o : Outbox} {parcels : List Parcel}
  {before : List Nat} {n : Nat}

theorem Outbox.Numbered.delivered_append (h : o.Numbered place (postedOn place parcels))
    (mode : AckMode) (hplace : qualities[place]? = some .unreliableSequenced)
    (hnumbers : ∀ m ∈ before ++ [n], 1 ≤ m ∧ m ≤ (postedOn place parcels).length) :
    ((Inbox.fresh qualities mode).takeAll place
          (numbered (postedOn place parcels) (before ++ [n]))).2 =
        ((Inbox.fresh qualities mode).takeAll place
          (numbered (postedOn place parcels) before)).2 ++
        (if n ∈ before then [] else
          (numbered (postedOn place parcels) [n]).map Parcel.message) ↔
      (Newer ((taken 0 before).getLastD 0) n ↔ 0 < n ∧ n ∉ before) := by
  obtain ⟨hpos, hle⟩ := hnumbers n (by simp)
  have hbefore : ∀ m ∈ before, 1 ≤ m ∧ m ≤ (postedOn place parcels).length := fun m hm =>
    hnumbers m (List.mem_append_left _ hm)
  obtain ⟨q, hq⟩ : ∃ q, (postedOn place parcels)[n - 1]? = some q :=
    ⟨_, List.getElem?_eq_getElem (by omega)⟩
  rw [h.delivered mode hplace hnumbers (postedOn_numbered _),
    h.delivered mode hplace hbefore (postedOn_numbered _), taken_append, numbered_append,
    List.map_append, List.append_right_inj]
  have hone : (numbered (postedOn place parcels) [n]).map Parcel.message = [q.message] := by
    rw [numbered_cons hq]
    rfl
  have hnone : (numbered (postedOn place parcels) []).map Parcel.message = [] := rfl
  generalize (taken 0 before).getLastD 0 = last
  by_cases hnewer : Newer last n <;> by_cases hn : n ∈ before <;>
    simp [taken, hnewer, hn, hone, hnone, Nat.lt_of_lt_of_le Nat.one_pos hpos]

end

/-- A frame is delivered if its sequence is above that of the last one delivered, or that is 255. So
not every message is delivered where it first comes. -/
theorem delivered_where_first_iff (qualities : List Qos) (mode : AckMode) {place : Nat}
    (hplace : qualities[place]? = some .unreliableSequenced) (posts : List (Nat × Bytes))
    {posted : List Parcel}
    (hposted : postedOn place ((Outbox.fresh qualities).postAll posts).2 = posted)
    {numbers : List Nat} (hnumbers : ∀ n ∈ numbers, 1 ≤ n ∧ n ≤ posted.length)
    (horder : numbers.Pairwise (· ≤ ·)) :
    (∀ arriving, postedOn place arriving = numbered posted numbers →
      ((Inbox.fresh qualities mode).takeAll place arriving).2 =
        (numbered posted (taken 0 numbers)).map Parcel.message) ∧
    ((∀ before n after, numbers = before ++ n :: after →
      ((Inbox.fresh qualities mode).takeAll place (numbered posted (before ++ [n]))).2 =
        ((Inbox.fresh qualities mode).takeAll place (numbered posted before)).2 ++
          if n ∈ before then [] else (numbered posted [n]).map Parcel.message) ↔
      (0 :: numbers).IsChain fun d n => Newer d n ↔ d < n) ∧
    ((0 :: numbers).IsChain (fun d n => Newer d n ↔ d < n) →
      ∀ arriving, postedOn place arriving = numbered posted numbers →
        ((Inbox.fresh qualities mode).takeAll place arriving).2 =
          (numbered posted (numbers.destutter (· ≠ ·))).map Parcel.message) := by
  have h := (Outbox.numbered_fresh hplace).postAll posts
  rw [List.nil_append] at h
  have hsorted : (0 :: numbers).Pairwise (· ≤ ·) :=
    List.pairwise_cons.mpr ⟨fun n _ => Nat.zero_le n, horder⟩
  have hdelivered : ∀ arriving, postedOn place arriving = numbered posted numbers →
      ((Inbox.fresh qualities mode).takeAll place arriving).2 =
        (numbered posted (taken 0 numbers)).map Parcel.message := fun arriving hown =>
    (hposted ▸ h).delivered mode hplace hnumbers hown
  refine ⟨hdelivered, ?_, fun hchain arriving hown => ?_⟩
  · rw [← isChain_iff_taken_first hsorted]
    subst hposted
    have hearlier : ∀ {before n after}, numbers = before ++ n :: after →
        ∀ m ∈ before ++ [n],
          1 ≤ m ∧ m ≤ (postedOn place ((Outbox.fresh qualities).postAll posts).2).length := by
      rintro before n after rfl m hm
      exact hnumbers m (by simp at hm ⊢; tauto)
    constructor
    · intro hall before n after heq
      exact (h.delivered_append mode hplace (hearlier heq)).mp (hall before n after heq)
    · intro hall before n after heq
      exact (h.delivered_append mode hplace (hearlier heq)).mpr (hall before n after heq)
  · have hall := taken_eq_destutter hsorted hchain
    rw [hdelivered arriving hown]
    cases numbers with
    | nil => rfl
    | cons n numbers =>
      obtain ⟨hpos, -⟩ := hnumbers n (by simp)
      rw [List.destutter_cons', List.destutter'_cons_pos _ (by omega)] at hall
      rw [List.destutter_cons', (List.cons.inj hall).2]

theorem delivered_where_first_repeated :
    ∃ posted arriving : List Parcel,
      postedOn 0 ((Outbox.fresh [.unreliableSequenced, .reliable]).postAll
        [(0, [10]), (1, [90]), (0, [20]), (0, [30])]).2 = posted ∧
      postedOn 0 arriving = numbered posted [1, 1, 3] ∧ arriving.length = 4 ∧
      ((Inbox.fresh [.unreliableSequenced, .reliable] .short).takeAll 0 arriving).2 =
        [[10], [30]] := by
  have hplace : ([.unreliableSequenced, .reliable] : List Qos)[0]? =
      some .unreliableSequenced := rfl
  have hnumbers : ∀ n ∈ [1, 1, 3], 1 ≤ n ∧ n ≤ (postedOn 0
      ((Outbox.fresh [.unreliableSequenced, .reliable]).postAll
        [(0, [10]), (1, [90]), (0, [20]), (0, [30])]).2).length := by decide +kernel
  have hall := delivered_where_first_iff [.unreliableSequenced, .reliable] .short hplace
    [(0, [10]), (1, [90]), (0, [20]), (0, [30])] rfl hnumbers (by decide)
  refine ⟨_, [0, 1, 0, 3].filterMap fun k : Nat => ((Outbox.fresh
    [.unreliableSequenced, .reliable]).postAll
      [(0, [10]), (1, [90]), (0, [20]), (0, [30])]).2[k]?, rfl, by decide +kernel,
    by decide +kernel, ?_⟩
  refine (hall.2.2 (by decide) _ (by decide +kernel)).trans ?_
  decide +kernel

/-- Of 256 messages the last but one is lost: then the last one never comes
through. And the last but one comes through as often as it comes. -/
theorem newest_message_passed_over :
    ∃ posted : List Parcel,
      postedOn 0 ((Outbox.fresh [.unreliableSequenced]).postAll
        (List.replicate 256 (0, []))).2 = posted ∧ posted.length = 256 ∧
      ((Inbox.fresh [.unreliableSequenced] .short).takeAll 0 (numbered posted [254, 256])).2 ≠
        (numbered posted [254, 256]).map Parcel.message ∧
      ((Inbox.fresh [.unreliableSequenced] .short).takeAll 0 (numbered posted [255, 255])).2 ≠
        (numbered posted [255]).map Parcel.message := by
  refine ⟨_, rfl, by decide +kernel, by decide +kernel, by decide +kernel⟩

end DatagramTransport
