import DatagramTransport.Proofs.Channel.Arrivals

/-!
# What comes in and what goes out of a sequenced channel

Here nothing is assumed of what arrives: frames may be lost, repeated and
reordered without bound, and a byte may stand for many messages. The awaited
position still moves by exactly the number of payloads that are delivered,
and a frame adds at most one payload to those delivered and held.
-/

set_option autoImplicit false

namespace DatagramTransport

theorem positionAt_add (index n : Nat) : positionAt index + .ofNat n = positionAt (index + n) := by
  rw [positionAt, positionAt, ← UInt8.ofNat_add, Nat.add_right_comm]

namespace Reorder

theorem next_release (r : Reorder) :
    r.release.1.next = r.next + .ofNat r.release.2.length := by
  induction r using release.induct with
  | case1 r hnone =>
    rw [release_of_none hnone]
    exact (UInt8.add_zero _).symm
  | case2 r payload hheld after payloads hafter ih =>
    rw [release_of_some hheld]
    simp only [List.length_cons] at ih ⊢
    rw [ih, UInt8.ofNat_add, UInt8.add_assoc, UInt8.add_comm 1]
    rfl

theorem size_release (r : Reorder) :
    r.release.2.length + r.release.1.held.size = r.held.size := by
  induction r using release.induct with
  | case1 r hnone =>
    rw [release_of_none hnone]
    exact Nat.zero_add _
  | case2 r payload hheld after payloads hafter ih =>
    have hmem : r.next ∈ r.held := Std.ExtTreeMap.mem_iff_isSome_getElem?.mpr (by rw [hheld]; rfl)
    have hpos : r.held.size ≠ 0 := by
      intro hzero
      rw [← Std.ExtTreeMap.eq_empty_iff_size_eq_zero] at hzero
      simp [hzero] at hmem
    rw [Std.ExtTreeMap.size_erase, if_pos (Std.ExtTreeMap.contains_iff_mem.mpr hmem)] at ih
    rw [release_of_some hheld]
    simp only [List.length_cons] at ih ⊢
    omega

section
variable (r : Reorder) (position : UInt8) (payload : Bytes)

theorem next_accept :
    (r.accept position payload).1.next =
      r.next + .ofNat (r.accept position payload).2.length := by
  unfold accept
  split
  · have hrelease := next_release { r with next := r.next + 1 }
    simp only [List.length_cons] at hrelease ⊢
    rw [hrelease, UInt8.ofNat_add, UInt8.add_assoc, UInt8.add_comm 1]
    rfl
  · split <;> exact (UInt8.add_zero _).symm

theorem size_accept :
    (r.accept position payload).2.length + (r.accept position payload).1.held.size ≤
      r.held.size + 1 := by
  unfold accept
  split
  · have hrelease := size_release { r with next := r.next + 1 }
    simp only [List.length_cons] at hrelease ⊢
    omega
  · split
    · rw [List.length_nil, Nat.zero_add, Std.ExtTreeMap.size_insertIfNew]
      split <;> omega
    · simp

end

end Reorder

theorem Outbox.Posted.sequenced {qualities : List Qos} {o : Outbox} {parcels : List Parcel}
    (h : o.Posted qualities parcels) {place : Nat}
    (hplace : qualities[place]? = some .reliableSequenced) {k : Nat} {p : Parcel}
    (hk : (postedOn place parcels)[k]? = some p) : p.Sequenced k := by
  have hquality := congrArg (fun l => l[place]?) h.framing
  simp only [List.getElem?_map, hplace, Option.map_some] at hquality
  obtain ⟨c, hc, hframing⟩ := Option.map_eq_some_iff.mp hquality
  obtain ⟨inbound, nextOut, rfl⟩ := Channel.eq_reliableSequenced hframing
  exact (h.sequence place inbound nextOut hc).2 k p hk

namespace Inbox

/-- A sequenced channel has delivered and holds no more payloads than frames
came for it, and at least as many fewer as were lost to it. -/
def Balanced (place : Nat) (lost : Nat) (arrived : List Parcel) (delivered : List Bytes)
    (b : Inbox) : Prop :=
  ∃ inbound nextOut, b.channels[place]? = some (.reliableSequenced inbound nextOut) ∧
    inbound.next = positionAt delivered.length ∧
    delivered.length + inbound.held.size + lost ≤ (postedOn place arrived).length

section
variable {qualities : List Qos} {place lost : Nat} {arrived : List Parcel}
  {delivered : List Bytes} {b : Inbox} {p : Parcel}

theorem balanced_fresh (mode : AckMode) (hplace : qualities[place]? = some .reliableSequenced) :
    (fresh qualities mode).Balanced place 0 [] [] :=
  ⟨.fresh, 1, by simp [fresh, hplace, Channel.ofQos], rfl, Nat.le_refl _⟩

theorem Balanced.take_other (h : b.Balanced place lost arrived delivered)
    (hsame : (b.take p).1.channels[place]? = b.channels[place]?) (hother : p.place ≠ place) :
    (b.take p).1.Balanced place lost (arrived ++ [p]) delivered := by
  obtain ⟨inbound, nextOut, hc, hnext, hsum⟩ := h
  have hnone : postedOn place [p] = [] := by simp [postedOn, hother]
  refine ⟨inbound, nextOut, hsame.trans hc, hnext, ?_⟩
  rwa [postedOn_append, hnone, List.append_nil]

theorem Balanced.take_self (h : b.Balanced place lost arrived delivered) (hself : p.place = place)
    {k : Nat} (hseq : p.Sequenced k) :
    (b.take p).1.Balanced place lost (arrived ++ [p]) (delivered ++ (b.take p).2) := by
  obtain ⟨inbound, nextOut, hc, hnext, hsum⟩ := h
  have hone : (postedOn place (arrived ++ [p])).length = (postedOn place arrived).length + 1 := by
    simp [postedOn, hself]
  obtain ⟨hlt, -⟩ := List.getElem?_eq_some_iff.mp hc
  by_cases hlatest : p.frame.messageId = some b.window.latest
  · rw [take_sequenced_latest hc hself hseq hlatest, List.append_nil]
    exact ⟨inbound, nextOut, hc, hnext, by omega⟩
  · obtain ⟨id, -, htake⟩ := take_sequenced hc hself hseq hlatest
    have hsize := inbound.size_accept (positionAt k) p.message
    rw [htake]
    refine ⟨(inbound.accept (positionAt k) p.message).1, nextOut, List.getElem?_set_self hlt,
      ?_, ?_⟩
    · rw [Reorder.next_accept, hnext, positionAt_add, List.length_append]
    · simp only [hone, List.length_append]
      omega

theorem Balanced.take_lost (h : b.Balanced place lost arrived delivered) (hself : p.place = place)
    (hsame : (b.take p).1.channels[place]? = b.channels[place]?) :
    (b.take p).1.Balanced place (lost + 1) (arrived ++ [p]) delivered := by
  obtain ⟨inbound, nextOut, hc, hnext, hsum⟩ := h
  have hone : postedOn place [p] = [p] := by simp [postedOn, hself]
  refine ⟨inbound, nextOut, hsame.trans hc, hnext, ?_⟩
  rw [postedOn_append, hone, List.length_append, List.length_singleton]
  omega

end

end Inbox

end DatagramTransport
