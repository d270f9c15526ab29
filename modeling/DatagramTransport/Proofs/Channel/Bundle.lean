import DatagramTransport.Proofs.Channel.Prepared

/-!
# Channels that share a counter and a window

The reliable channels of a connection draw their ids from one counter, and
the other side notes them in one window. Here are both sides without the
connection around them: what is posted, and what arrives of it in any order
and any number of times.
-/

set_option autoImplicit false

namespace DatagramTransport

/-- A frame that was posted on the channel at a place, and what it was made of. -/
structure Parcel where
  place : Nat
  frame : Frame
  message : Bytes
  deriving DecidableEq, Repr

structure Outbox where
  channels : List Channel
  next : UInt16
  deriving DecidableEq

structure Inbox where
  channels : List Channel
  window : AckWindow
  deriving DecidableEq

namespace Outbox

def fresh (qualities : List Qos) : Outbox where
  channels := qualities.map .ofQos
  next := 1

def post (o : Outbox) (place : Nat) (message : Bytes) : Outbox × List Parcel :=
  match o.channels[place]? with
  | none => (o, [])
  | some c =>
    match c.prepare message o.next with
    | .error _ => (o, [])
    | .ok p => ({ channels := o.channels.set place p.channel, next := p.nextMessage },
        p.frames.map (Parcel.mk place · message))

def postAll (o : Outbox) : List (Nat × Bytes) → Outbox × List Parcel
  | [] => (o, [])
  | (place, message) :: posts =>
    let (o, parcels) := o.post place message
    let (o, later) := o.postAll posts
    (o, parcels ++ later)

end Outbox

namespace Inbox

def fresh (qualities : List Qos) (mode : AckMode) : Inbox where
  channels := qualities.map .ofQos
  window := .fresh mode

def take (b : Inbox) (p : Parcel) : Inbox × List Bytes :=
  match b.channels[p.place]? with
  | none => (b, [])
  | some c =>
    match (c.process b.window p.frame.bytes).2 with
    | .error _ => (b, [])
    | .ok r => ({ channels := b.channels.set p.place r.channel, window := r.window }, r.delivered)

def takeAll (place : Nat) (b : Inbox) : List Parcel → Inbox × List Bytes
  | [] => (b, [])
  | p :: parcels =>
    let (b, delivered) := b.take p
    let (b, later) := b.takeAll place parcels
    (b, (if p.place = place then delivered else []) ++ later)

end Inbox

section
variable (place : Nat) (parcels later : List Parcel)

def drawn : List UInt16 :=
  parcels.filterMap fun p => p.frame.messageId

def postedOn : List Parcel :=
  parcels.filter fun p => p.place = place

theorem drawn_append : drawn (parcels ++ later) = drawn parcels ++ drawn later :=
  List.filterMap_append

theorem postedOn_append :
    postedOn place (parcels ++ later) = postedOn place parcels ++ postedOn place later :=
  List.filter_append ..

end

theorem postedOn_self (place : Nat) (message : Bytes) (frames : List Frame) :
    postedOn place (frames.map (Parcel.mk place · message)) =
      frames.map (Parcel.mk place · message) := by
  simp [postedOn]

theorem postedOn_other {place other : Nat} (h : place ≠ other) (message : Bytes)
    (frames : List Frame) : postedOn other (frames.map (Parcel.mk place · message)) = [] := by
  simp [postedOn, h]

def positionAt (index : Nat) : UInt8 := .ofNat (index + 1)

theorem positionAt_succ (index : Nat) : positionAt index + 1 = positionAt (index + 1) :=
  (UInt8.ofNat_add _ 1).symm

/-- The frame of a channel that keeps its messages in order. -/
def Parcel.Sequenced (p : Parcel) (index : Nat) : Prop :=
  ∃ id, (Layout.reliableSequenced id (positionAt index)).Valid p.message ∧
    p.frame = { messageId := some id
                bytes := (Layout.reliableSequenced id (positionAt index)).frame p.message }

structure Outbox.Posted (qualities : List Qos) (o : Outbox) (parcels : List Parcel) : Prop where
  framing : o.channels.map Channel.framing = qualities.map Qos.framing
  fits : ∀ p ∈ parcels, ∃ q ∈ qualities[p.place]?, p.frame.PartOf q.framing p.message
  ids : drawn parcels = (List.range (drawn parcels).length).map idAt
  next : o.next = idAt (drawn parcels).length
  sequence : ∀ (place : Nat) (inbound : Reorder) (nextOut : UInt8),
    o.channels[place]? = some (.reliableSequenced inbound nextOut) →
      nextOut = positionAt (postedOn place parcels).length ∧
        ∀ (k : Nat) (p : Parcel), (postedOn place parcels)[k]? = some p → p.Sequenced k

namespace Outbox

section
variable {qualities : List Qos} {o : Outbox} {parcels : List Parcel}

theorem posted_fresh (qualities : List Qos) : (fresh qualities).Posted qualities [] where
  framing := by simp [fresh, List.map_map, Function.comp_def]
  fits := by simp
  ids := rfl
  next := rfl
  sequence := by
    intro place inbound nextOut h
    rw [fresh, List.getElem?_map] at h
    obtain ⟨q, -, hq⟩ := Option.map_eq_some_iff.mp h
    cases q <;> simp [Channel.ofQos] at hq
    obtain ⟨-, rfl⟩ := hq
    exact ⟨rfl, by simp [postedOn]⟩

theorem Posted.quality (h : o.Posted qualities parcels) {place : Nat} {c : Channel}
    (hc : o.channels[place]? = some c) : ∃ q ∈ qualities[place]?, q.framing = c.framing := by
  have hplace := congrArg (fun l => l[place]?) h.framing
  simp only [List.getElem?_map, hc, Option.map_some] at hplace
  obtain ⟨q, hq, hf⟩ := Option.map_eq_some_iff.mp hplace.symm
  exact ⟨q, hq, hf⟩

theorem Posted.prepared (h : o.Posted qualities parcels) {place : Nat} {c : Channel}
    (hc : o.channels[place]? = some c) {message : Bytes} {p : Prepared}
    (hp : c.prepare message o.next = .ok p) :
    Posted qualities { channels := o.channels.set place p.channel, next := p.nextMessage }
      (parcels ++ p.frames.map (Parcel.mk place · message)) := by
  obtain ⟨hframing, hparts, hdraws⟩ := Channel.prepare_spec hp
  rw [h.next] at hdraws
  obtain ⟨hids, hnext⟩ := hdraws.drawn
  have hdrawn : drawn (parcels ++ p.frames.map (Parcel.mk place · message)) =
      drawn parcels ++ p.frames.filterMap Frame.messageId := by
    rw [drawn_append, drawn, drawn, List.filterMap_map]
    rfl
  constructor
  case framing => exact (Channel.map_framing_set hc hframing).trans h.framing
  case fits =>
    intro f hf
    rcases List.mem_append.mp hf with hf | hf
    · exact h.fits f hf
    · obtain ⟨frame, hframe, rfl⟩ := List.mem_map.mp hf
      obtain ⟨q, hq, hqc⟩ := h.quality hc
      exact ⟨q, hq, hqc ▸ hparts frame hframe⟩
  case ids =>
    rw [hdrawn, List.length_append, List.range_add, List.map_append, ← h.ids, List.map_map,
      hids, List.length_map, List.length_range]
    rfl
  case next => rw [hdrawn, List.length_append, hnext]
  case sequence =>
    intro other inbound nextOut ho
    rw [postedOn_append]
    by_cases hother : place = other
    · subst hother
      obtain ⟨hlt, -⟩ := List.getElem?_eq_some_iff.mp hc
      rw [List.getElem?_set_self hlt] at ho
      have hafter : p.channel = .reliableSequenced inbound nextOut := Option.some.inj ho
      rw [hafter] at hframing
      cases c <;> simp only [Channel.framing, reduceCtorEq] at hframing
      case reliableSequenced before position =>
      obtain ⟨rfl, hall⟩ := h.sequence place before position hc
      obtain ⟨hv, rfl⟩ := Channel.prepare_reliableSequenced.mp hp
      cases hafter
      rw [postedOn_self, List.map_singleton, List.length_append, List.length_singleton]
      constructor
      · exact positionAt_succ _
      intro k q hq
      by_cases hk : k < (postedOn place parcels).length
      · rw [List.getElem?_append_left hk] at hq
        exact hall k q hq
      · rw [List.getElem?_append_right (Nat.le_of_not_lt hk), List.getElem?_singleton] at hq
        split at hq
        · rename_i hlast
          cases hq
          have heq : k = (postedOn place parcels).length := by omega
          subst heq
          exact ⟨o.next, hv, rfl⟩
        · cases hq
    · rw [List.getElem?_set_ne hother] at ho
      rw [postedOn_other hother, List.append_nil]
      exact h.sequence other inbound nextOut ho

theorem Posted.post (h : o.Posted qualities parcels) (place : Nat) (message : Bytes) :
    (o.post place message).1.Posted qualities (parcels ++ (o.post place message).2) := by
  unfold Outbox.post
  cases hc : o.channels[place]? with
  | none => simpa using h
  | some c =>
    cases hp : c.prepare message o.next with
    | error e => simpa [hp] using h
    | ok p =>
      simp only [hp]
      exact h.prepared hc hp

theorem Posted.postAll (h : o.Posted qualities parcels) (posts : List (Nat × Bytes)) :
    (o.postAll posts).1.Posted qualities (parcels ++ (o.postAll posts).2) := by
  induction posts generalizing o parcels with
  | nil => simpa [Outbox.postAll] using h
  | cons post posts ih =>
    have hall := ih (h.post post.1 post.2)
    rwa [List.append_assoc] at hall

end

end Outbox

def Distinct (parcels : List Parcel) : Prop :=
  parcels.Pairwise fun p q => ∀ id, p.frame.messageId = some id → q.frame.messageId ≠ some id

section
variable {parcels : List Parcel} {p q : Parcel} {id : UInt16}

theorem Distinct.place_eq (h : Distinct parcels) {i j : Nat} (hi : parcels[i]? = some p)
    (hj : parcels[j]? = some q) (hp : p.frame.messageId = some id)
    (hq : q.frame.messageId = some id) : i = j := by
  obtain ⟨hilt, rfl⟩ := List.getElem?_eq_some_iff.mp hi
  obtain ⟨hjlt, rfl⟩ := List.getElem?_eq_some_iff.mp hj
  have hall := List.pairwise_iff_getElem.mp h
  rcases Nat.lt_trichotomy i j with hlt | heq | hgt
  · exact absurd hq (hall i j hilt hjlt hlt id hp)
  · exact heq
  · exact absurd hp (hall j i hjlt hilt hgt id hq)

theorem Distinct.eq (h : Distinct parcels) (hpm : p ∈ parcels) (hqm : q ∈ parcels)
    (hp : p.frame.messageId = some id) (hq : q.frame.messageId = some id) : p = q := by
  obtain ⟨i, hi⟩ := List.mem_iff_getElem?.mp hpm
  obtain ⟨j, hj⟩ := List.mem_iff_getElem?.mp hqm
  obtain rfl := h.place_eq hi hj hp hq
  exact Option.some.inj (hi.symm.trans hj)

/-- As long as the counter has not wrapped, ids are distinct. -/
theorem Outbox.Posted.distinct {qualities : List Qos} {o : Outbox}
    (h : o.Posted qualities parcels) (hn : (drawn parcels).length ≤ 65535) :
    Distinct parcels ∧ ∀ id ∈ drawn parcels, id ≠ 0 := by
  constructor
  · have hnodup : (drawn parcels).Pairwise (· ≠ ·) := by
      rw [h.ids, List.pairwise_map]
      refine List.pairwise_lt_range.imp_of_mem fun _ hj hij heq => ?_
      rw [List.mem_range] at hj
      have := idAt_inj (by omega) (by omega) heq
      omega
    rw [drawn, List.pairwise_filterMap] at hnodup
    exact hnodup.imp fun hne id hp hq => hne id hp id hq rfl
  · intro id hid
    rw [h.ids] at hid
    obtain ⟨i, hi, rfl⟩ := List.mem_map.mp hid
    rw [List.mem_range] at hi
    exact idAt_ne_zero (by omega)

end

end DatagramTransport
