import DatagramTransport.Proofs.Channel.Bundle

/-!
# Parcels that arrive

Parcels of any channel come to an inbox, in any order and any number of
times. The window takes a parcel for a repetition only if it came before, and
a parcel leaves alone every channel but its own.
-/

set_option autoImplicit false

namespace DatagramTransport

theorem mem_of_mem_picked {parcels : List Parcel} {places : List Nat} {p : Parcel}
    (hp : p ∈ places.filterMap fun k : Nat => parcels[k]?) : p ∈ parcels := by
  obtain ⟨k, -, hk⟩ := List.mem_filterMap.mp hp
  exact List.mem_of_getElem? hk

/-- Whether the message at a place is among the arrivals. -/
def came (posted arrived : List Parcel) (k : Nat) : Bool :=
  posted[k]?.any fun p => decide (p ∈ arrived)

section
variable {posted arrived : List Parcel} {p : Parcel}

theorem came_append {k : Nat} (hnew : ∀ j : Nat, posted[j]? = some p → j = k)
    (hk : posted[k]? = some p) (j : Nat) :
    came posted (arrived ++ [p]) j = (came posted arrived j || decide (j = k)) := by
  unfold came
  cases hj : posted[j]? with
  | none =>
    have hne : j ≠ k := by
      rintro rfl
      rw [hk] at hj
      cases hj
    simp [hne]
  | some q =>
    by_cases hjk : j = k
    · subst hjk
      cases hk.symm.trans hj
      simp
    · have hne : q ≠ p := fun heq => hjk (hnew j (heq ▸ hj))
      simp [hjk, hne]

theorem came_append_other (hnew : ∀ j : Nat, posted[j]? ≠ some p) :
    came posted (arrived ++ [p]) = came posted arrived := by
  funext j
  unfold came
  cases hj : posted[j]? with
  | none => rfl
  | some q =>
    have hne : q ≠ p := fun heq => hnew j (heq ▸ hj)
    simp [hne]

theorem came_append_again (hp : p ∈ arrived) :
    came posted (arrived ++ [p]) = came posted arrived := by
  funext j
  unfold came
  cases posted[j]? with
  | none => rfl
  | some q =>
    by_cases hq : q = p
    · simp [hq, hp]
    · simp [hq]

end

namespace Inbox

theorem record_latest_cases (w : AckWindow) (id : UInt16) :
    (w.record id).1.latest = w.latest ∨ (w.record id).1.latest = id := by
  unfold AckWindow.record
  split
  · exact .inl rfl
  · split
    · exact .inr rfl
    · exact .inl rfl

/-- What every arrival keeps: the qualities of the channels, and a window that
has seen its highest id. -/
structure Fed (qualities : List Qos) (arrived : List Parcel) (b : Inbox) : Prop where
  framing : b.channels.map Channel.framing = qualities.map Qos.framing
  window : b.window.latest = 0 ∨ b.window.latest ∈ drawn arrived

section
variable {qualities : List Qos} {arrived : List Parcel} {b : Inbox} {p : Parcel}

theorem fed_fresh (qualities : List Qos) (mode : AckMode) :
    (fresh qualities mode).Fed qualities [] where
  framing := by simp [fresh, List.map_map, Function.comp_def]
  window := .inl rfl

theorem Fed.take_eq (h : b.Fed qualities arrived) {q : Qos} (hq : q ∈ qualities[p.place]?)
    (hp : p.frame.PartOf q.framing p.message) :
    ∃ (c d : Channel) (delivered : List Bytes), b.channels[p.place]? = some c ∧
      d.framing = c.framing ∧
      b.take p = ({ channels := b.channels.set p.place d
                    window := (b.window.note p.frame.messageId).1 }, delivered) := by
  have hplace := congrArg (fun l => l[p.place]?) h.framing
  simp only [List.getElem?_map, Option.mem_def.mp hq, Option.map_some] at hplace
  obtain ⟨c, hc, hcq⟩ := Option.map_eq_some_iff.mp hplace
  obtain ⟨layout, payload, hl, hv, hid, hbytes, -⟩ := hp
  have hf : layout.framing = c.framing := hl.trans hcq.symm
  obtain ⟨r, hr, hrc, hrw⟩ := Channel.accept_layout hf hv.inRange b.window payload
  have hprocess := Channel.process_frame (w := b.window) hf hv []
  rw [List.append_nil, hr] at hprocess
  have hwindow : r.window = (b.window.note p.frame.messageId).1 := by
    rw [hid]
    exact congrArg Prod.fst hrw
  refine ⟨c, r.channel, r.delivered, hc, hrc, ?_⟩
  simp only [Inbox.take, hc, hbytes, hprocess, hwindow]

theorem Fed.take (h : b.Fed qualities arrived) {q : Qos} (hq : q ∈ qualities[p.place]?)
    (hp : p.frame.PartOf q.framing p.message) :
    (b.take p).1.Fed qualities (arrived ++ [p]) ∧
      ∀ place, p.place ≠ place → (b.take p).1.channels[place]? = b.channels[place]? := by
  obtain ⟨c, d, delivered, hc, hd, htake⟩ := h.take_eq hq hp
  rw [htake]
  constructor
  · constructor
    case framing => exact (Channel.map_framing_set hc hd).trans h.framing
    case window =>
      rw [drawn_append, List.mem_append]
      cases hm : p.frame.messageId with
      | none => exact h.window.imp_right .inl
      | some id =>
        rcases record_latest_cases b.window id with heq | heq
        · rw [AckWindow.note_some, heq]
          exact h.window.imp_right .inl
        · rw [AckWindow.note_some, heq]
          exact .inr (.inr (by simp [drawn, hm]))
  · intro place hother
    exact List.getElem?_set_ne hother

/-- Where no id stands for two parcels, what seems to be a repetition is one. -/
theorem Fed.again (h : b.Fed qualities arrived) {parcels : List Parcel}
    (hdistinct : Distinct parcels) (hpositive : ∀ id ∈ drawn parcels, id ≠ 0)
    (harrived : ∀ q ∈ arrived, q ∈ parcels) (hp : p ∈ parcels)
    (hlatest : p.frame.messageId = some b.window.latest) : p ∈ arrived := by
  have hne := hpositive b.window.latest (List.mem_filterMap.mpr ⟨p, hp, hlatest⟩)
  obtain ⟨q, hq, hqid⟩ := List.mem_filterMap.mp (h.window.resolve_left hne)
  obtain rfl := hdistinct.eq (harrived q hq) hp hqid hlatest
  exact hq

end

section
variable {place : Nat} {b : Inbox} {p : Parcel} {k : Nat} {inbound : Reorder} {nextOut : UInt8}

theorem take_sequenced_latest
    (hc : b.channels[place]? = some (.reliableSequenced inbound nextOut)) (hself : p.place = place)
    (hseq : p.Sequenced k) (hlatest : p.frame.messageId = some b.window.latest) :
    b.take p = (b, []) := by
  obtain ⟨id, hv, hframe⟩ := hseq
  have hid : id = b.window.latest := by
    rw [hframe] at hlatest
    exact Option.some.inj hlatest
  have hprocess := Channel.process_frame (c := .reliableSequenced inbound nextOut)
    (h := .reliableSequenced id (positionAt k)) (w := b.window) rfl hv []
  have hsame : b.window.record b.window.latest = (b.window, false) := if_pos rfl
  obtain ⟨hlt, hat⟩ := List.getElem?_eq_some_iff.mp hc
  rw [List.append_nil, Channel.accept_reliableSequenced, hid, hsame] at hprocess
  have hset : b.channels.set place (.reliableSequenced inbound nextOut) = b.channels := by
    rw [← hat, List.set_getElem_self]
  simp only [take, hself, hc, hframe, hid, hprocess, Bool.false_eq_true, if_false, hset]

theorem take_sequenced
    (hc : b.channels[place]? = some (.reliableSequenced inbound nextOut)) (hself : p.place = place)
    (hseq : p.Sequenced k) (hnew : p.frame.messageId ≠ some b.window.latest) :
    ∃ id, p.frame.messageId = some id ∧
      b.take p =
        ({ channels := b.channels.set place
            (.reliableSequenced (inbound.accept (positionAt k) p.message).1 nextOut)
           window := (b.window.record id).1 },
          (inbound.accept (positionAt k) p.message).2) := by
  obtain ⟨id, hv, hframe⟩ := hseq
  have hid : p.frame.messageId = some id := by rw [hframe]
  have hrecord : (b.window.record id).2 = true := by
    rw [AckWindow.record_accepted]
    rintro rfl
    exact hnew hid
  have hprocess := Channel.process_frame (c := .reliableSequenced inbound nextOut)
    (h := .reliableSequenced id (positionAt k)) (w := b.window) rfl hv []
  rw [List.append_nil, Channel.accept_reliableSequenced, if_pos hrecord] at hprocess
  exact ⟨id, hid, by simp only [take, hself, hc, hframe, hprocess]⟩

end

/-- What holds before the first arrival, and is kept by each, holds after all. -/
theorem takeAll_induction {P : List Parcel → List Bytes → Inbox → Prop} (place : Nat)
    (arriving : List Parcel) {b : Inbox} (start : P [] [] b)
    (step : ∀ arrived p delivered b, arrived ++ [p] <+: arriving → P arrived delivered b →
      P (arrived ++ [p]) (delivered ++ if p.place = place then (b.take p).2 else [])
        (b.take p).1) :
    P arriving (b.takeAll place arriving).2 (b.takeAll place arriving).1 := by
  suffices h : ∀ (later arrived : List Parcel) (delivered : List Bytes) (b : Inbox),
      arrived ++ later = arriving → P arrived delivered b →
      P (arrived ++ later) (delivered ++ (b.takeAll place later).2) (b.takeAll place later).1 by
    exact h arriving [] [] b rfl start
  intro later
  induction later with
  | nil =>
    intro arrived delivered b _ hp
    simpa [takeAll] using hp
  | cons p later ih =>
    intro arrived delivered b heq hp
    have heq' : (arrived ++ [p]) ++ later = arriving := by simpa using heq
    have hnext := step arrived p delivered b ⟨later, heq'⟩ hp
    have hrest := ih _ _ _ heq' hnext
    rwa [List.append_assoc, List.append_assoc] at hrest

end Inbox

end DatagramTransport
