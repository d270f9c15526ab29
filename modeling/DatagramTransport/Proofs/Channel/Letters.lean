import DatagramTransport.Proofs.Channel.Bundle
import DatagramTransport.Proofs.Channel.Fragments

/-!
# Letters of a fragmenting channel

A message that is posted on a fragmenting channel becomes one parcel for each
of its parts. The parcels are numbered from the counter on, and share the
group id that the message's number on its channel gives; so the base and the
number of parts can be read off any of them.
-/

set_option autoImplicit false

namespace DatagramTransport

/-- A message that was posted, and its parcels. A refused one has none. -/
structure Letter where
  place : Nat
  message : Bytes
  parcels : List Parcel
  deriving DecidableEq, Repr

def Outbox.letters (o : Outbox) : List (Nat × Bytes) → List Letter
  | [] => []
  | (place, message) :: posts =>
    let (o, parcels) := o.post place message
    { place, message, parcels } :: o.letters posts

def lettersOn (place : Nat) (letters : List Letter) : List Letter :=
  letters.filter fun l => decide (l.place = place ∧ l.parcels ≠ [])

section
variable {place : Nat} {o : Outbox}

theorem flatMap_letters (o : Outbox) (posts : List (Nat × Bytes)) :
    (o.letters posts).flatMap Letter.parcels = (o.postAll posts).2 := by
  induction posts generalizing o with
  | nil => rfl
  | cons post posts ih =>
    rw [Outbox.letters, List.flatMap_cons, ih]
    rfl

theorem mem_posts_of_mem_letters {posts : List (Nat × Bytes)} {l : Letter}
    (hl : l ∈ o.letters posts) : (l.place, l.message) ∈ posts := by
  induction posts generalizing o with
  | nil => cases hl
  | cons post posts ih =>
    rcases List.mem_cons.mp hl with rfl | hl
    · exact List.mem_cons_self
    · exact List.mem_cons_of_mem _ (ih hl)

theorem place_of_mem_post {message : Bytes} {p : Parcel} (hp : p ∈ (o.post place message).2) :
    p.place = place := by
  unfold Outbox.post at hp
  split at hp
  · cases hp
  · split at hp
    · cases hp
    · obtain ⟨f, -, rfl⟩ := List.mem_map.mp hp
      rfl

theorem place_of_mem_letters {posts : List (Nat × Bytes)} {l : Letter}
    (hl : l ∈ o.letters posts) {p : Parcel} (hp : p ∈ l.parcels) : p.place = l.place := by
  induction posts generalizing o with
  | nil => cases hl
  | cons post posts ih =>
    rcases List.mem_cons.mp hl with rfl | hl
    · exact place_of_mem_post hp
    · exact ih hl

theorem exists_letter {posts : List (Nat × Bytes)} {p : Parcel}
    (hp : p ∈ (o.postAll posts).2) :
    ∃ (k : Nat) (l : Letter), (lettersOn p.place (o.letters posts))[k]? = some l ∧
      p ∈ l.parcels := by
  rw [← flatMap_letters, List.mem_flatMap] at hp
  obtain ⟨l, hl, hp⟩ := hp
  have hmem : l ∈ lettersOn p.place (o.letters posts) := by
    apply List.mem_filter.mpr
    simpa [place_of_mem_letters hl hp] using ⟨hl, List.ne_nil_of_mem hp⟩
  obtain ⟨k, hk⟩ := List.mem_iff_getElem?.mp hmem
  exact ⟨k, l, hk, hp⟩

end

def Letter.cut (l : Letter) : Cut where
  base := (l.parcels.head?.bind fun p => p.frame.messageId).getD 0
  parts := fragments (fragmentCount l.message.length) l.message

theorem Letter.flatten_cut (l : Letter) : l.cut.parts.flatten = l.message :=
  flatten_fragments_fragmentCount l.message

theorem Letter.length_cut (l : Letter) :
    l.cut.parts.length = fragmentCount l.message.length :=
  length_fragments _ _

def Letter.layout (l : Letter) (k i : Nat) : Layout :=
  .reliableFragmented (l.cut.base + .ofNat i) (groupAt k) (.ofNat i) (.ofNat l.cut.parts.length)

/-- The letter has a parcel for each part of its message, and is the one with
this number on its channel. -/
structure Letter.InParts (place k : Nat) (l : Letter) : Prop where
  size : l.cut.parts.length ≤ maxFragments
  length : l.parcels.length = l.cut.parts.length
  parcel : ∀ {i : Nat} {part : Bytes}, l.cut.parts[i]? = some part →
    (l.layout k i).Valid part ∧
      l.parcels[i]? = some
        { place, message := l.message
          frame := { messageId := (l.layout k i).messageId, bytes := (l.layout k i).frame part } }

structure Outbox.Numbers (place : Nat) (o : Outbox) (letters : List Letter) : Prop where
  group : ∃ inbound, o.channels[place]? =
    some (.reliableFragmented inbound (groupAt letters.length))
  inParts : ∀ {k : Nat} {l : Letter}, letters[k]? = some l → l.InParts place k

namespace Outbox

theorem numbers_fresh {qualities : List Qos} {place : Nat}
    (h : qualities[place]? = some .reliableFragmented) :
    (fresh qualities).Numbers place [] where
  group := ⟨.fresh, by simp [fresh, h, Channel.ofQos, groupAt]⟩
  inParts := by simp

section
variable {place : Nat} {o : Outbox} {letters : List Letter}

theorem Numbers.prepared (place : Nat) {message : Bytes} {inbound : FragmentInbox} {k : Nat}
    {next : UInt16} {p : Prepared}
    (hp : (Channel.reliableFragmented inbound (groupAt k)).prepare message next = .ok p) :
    p.channel = .reliableFragmented inbound (groupAt (k + 1)) ∧ p.frames ≠ [] ∧
      Letter.InParts place k
        { place, message, parcels := p.frames.map (Parcel.mk place · message) } := by
  obtain ⟨hcount, hchannel, -, hframes, hlengths⟩ := Channel.prepare_reliableFragmented hp
  have hlimit : maxFragments = 255 := rfl
  have hpos := fragmentCount_pos message.length
  have hsize := length_fragments (fragmentCount message.length) message
  have hat : ∀ i : Nat, p.frames[i]? =
      (fragments (fragmentCount message.length) message)[i]?.map fun part =>
        { messageId := some (next + .ofNat i)
          bytes := (Layout.reliableFragmented (next + .ofNat i) (groupAt k) (.ofNat i)
            (.ofNat (fragmentCount message.length))).frame part } := by
    intro i
    rw [hframes, List.getElem?_mapIdx]
  have hbase : Letter.cut { place, message, parcels := p.frames.map (Parcel.mk place · message) } =
      { base := next, parts := fragments (fragmentCount message.length) message } := by
    obtain ⟨part, hpart⟩ : ∃ part,
        (fragments (fragmentCount message.length) message)[0]? = some part :=
      ⟨_, List.getElem?_eq_getElem (by omega)⟩
    have hfirst := hat 0
    rw [hpart, Option.map_some, ← List.head?_eq_getElem?] at hfirst
    simp [Letter.cut, hfirst]
  refine ⟨by rw [hchannel, groupAt_succ], ?_, ?_⟩
  · intro hnil
    rw [hnil] at hframes
    have := congrArg List.length hframes
    rw [List.length_mapIdx] at this
    simp at this
    omega
  · constructor
    case size =>
      rw [hbase]
      simpa [hsize] using hcount
    case length =>
      rw [hbase]
      simp [hframes]
    case parcel =>
      intro i part hpart
      rw [hbase] at hpart
      obtain ⟨hlt, rfl⟩ := List.getElem?_eq_some_iff.mp hpart
      rw [Letter.layout, hbase, hsize]
      constructor
      · constructor
        · simpa [Layout.header] using hlengths _ (List.getElem_mem _)
        · simp only [Layout.InRange, UInt8.lt_iff_toNat_lt, UInt8.toNat_ofNat']
          simp only [hsize] at hlt
          omega
      · rw [List.getElem?_map, hat i, hpart]
        rfl

theorem Numbers.post (h : o.Numbers place letters) (other : Nat) (message : Bytes) :
    (o.post other message).1.Numbers place (letters ++ lettersOn place
      [{ place := other, message, parcels := (o.post other message).2 }]) := by
  obtain ⟨inbound, hc⟩ := h.group
  by_cases hother : other = place
  · subst hother
    unfold Outbox.post
    simp only [hc]
    cases hp : (Channel.reliableFragmented inbound (groupAt letters.length)).prepare message
        o.next with
    | error e => simpa [lettersOn] using h
    | ok p =>
      obtain ⟨hchannel, hsome, hparts⟩ := Numbers.prepared other hp
      have hon : lettersOn other
          [{ place := other, message, parcels := p.frames.map (Parcel.mk other · message) }] =
          [{ place := other, message, parcels := p.frames.map (Parcel.mk other · message) }] := by
        simp [lettersOn, hsome]
      rw [hon]
      obtain ⟨hlt, -⟩ := List.getElem?_eq_some_iff.mp hc
      constructor
      case group =>
        refine ⟨inbound, ?_⟩
        simp only [List.getElem?_set_self hlt, hchannel, List.length_append,
          List.length_singleton]
      case inParts =>
        intro k l hk
        by_cases hold : k < letters.length
        · rw [List.getElem?_append_left hold] at hk
          exact h.inParts hk
        · rw [List.getElem?_append_right (Nat.le_of_not_lt hold), List.getElem?_singleton] at hk
          split at hk
          · rename_i hlast
            cases hk
            obtain rfl : k = letters.length := by omega
            exact hparts
          · cases hk
  · have hnone : lettersOn place
        [{ place := other, message, parcels := (o.post other message).2 }] = [] := by
      simp [lettersOn, hother]
    rw [hnone, List.append_nil]
    refine ⟨⟨inbound, ?_⟩, h.inParts⟩
    unfold Outbox.post
    split
    · exact hc
    · split
      · exact hc
      · simpa only [List.getElem?_set_ne hother] using hc

theorem Numbers.postAll (h : o.Numbers place letters) (posts : List (Nat × Bytes)) :
    (o.postAll posts).1.Numbers place (letters ++ lettersOn place (o.letters posts)) := by
  induction posts generalizing o letters with
  | nil => simpa [Outbox.postAll, Outbox.letters, lettersOn] using h
  | cons post posts ih =>
    have hrest := ih (h.post post.1 post.2)
    rw [List.append_assoc, lettersOn, lettersOn, ← List.filter_append] at hrest
    exact hrest

end

end Outbox

end DatagramTransport
