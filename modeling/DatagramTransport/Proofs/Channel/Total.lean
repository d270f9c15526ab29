import DatagramTransport.Proofs.Channel.Grammar
import DatagramTransport.Proofs.Channel.KeyedParts
import DatagramTransport.Proofs.Connection.Room

/-!
# Frames that are never misread

What a peer puts into a datagram is arbitrary. The length of a frame is
compared with that of its header before anything is read, so that no field
is read past the end, no length goes below zero, and every datagram has
an outcome.
-/

set_option autoImplicit false

namespace DatagramTransport

def subtract? (n m : Nat) : Option Nat :=
  if m ≤ n then some (n - m) else none

def splitAt? {α : Type} (place : Nat) (l : List α) : Option (List α × List α) :=
  if place ≤ l.length then some (l.splitAt place) else none

def takeFrame? (headerLength : Nat) (bytes : Bytes) : Option (Bytes × Except Error Bytes) :=
  match readUInt16 bytes with
  | .error e => some (bytes, .error e)
  | .ok (length, rest) =>
    if length.toNat < headerLength then
      some (rest, .error (.frameShorterThanHeader length.toNat headerLength))
    else do
      let bodyLength ← subtract? length.toNat framePrefixLength
      if rest.length < bodyLength then
        some (rest, .error (.frameExceedsDatagram length.toNat (rest.length + framePrefixLength)))
      else
        let (body, rest) ← splitAt? bodyLength rest
        some (rest, .ok body)

theorem takeFrame?_eq {headerLength : Nat} (h : framePrefixLength ≤ headerLength)
    (bytes : Bytes) : takeFrame? headerLength bytes = some (takeFrame headerLength bytes) := by
  unfold takeFrame? takeFrame
  cases readUInt16 bytes with
  | error e => rfl
  | ok r =>
    obtain ⟨length, rest⟩ := r
    dsimp only
    by_cases hshort : length.toNat < headerLength
    · rw [if_pos hshort, if_pos hshort]
    have hprefix : framePrefixLength ≤ length.toNat := by omega
    rw [if_neg hshort, if_neg hshort, subtract?, if_pos hprefix]
    simp only [Option.bind_eq_bind, Option.bind_some, List.length_take]
    by_cases hlong : rest.length < length.toNat - framePrefixLength
    · rw [if_pos hlong, if_pos (by omega)]
    · rw [if_neg hlong, if_neg (by omega), splitAt?, if_pos (by omega), List.splitAt_eq]
      rfl

namespace Channel

/-- The messages that a channel puts together can be kept in maps of their parts. -/
def Keyed : Channel → Prop
  | reliableFragmented inbound _ => ∃ b : KeyedInbox, b.Within ∧ b.view = inbound
  | _ => True

theorem keyed_ofQos (q : Qos) : (ofQos q).Keyed := by
  cases q <;> first | trivial | exact ⟨.fresh, KeyedInbox.within_fresh, KeyedInbox.view_fresh⟩

theorem keyed_accept {c : Channel} {w : AckWindow} {body : Bytes} {p : Processed}
    (hp : c.accept w body = .ok p) (hkeyed : c.Keyed) : p.channel.Keyed := by
  have hframing := framing_accept hp
  cases c with
  | reliableFragmented inbound nextGroup =>
    obtain ⟨keyed, hwithin, rfl⟩ := hkeyed
    obtain ⟨⟨id, rest⟩, -, hp⟩ := bind_eq_ok.mp hp
    obtain ⟨⟨group, rest⟩, -, hp⟩ := bind_eq_ok.mp hp
    obtain ⟨⟨index, rest⟩, -, hp⟩ := bind_eq_ok.mp hp
    obtain ⟨⟨count, part⟩, -, hp⟩ := bind_eq_ok.mp hp
    obtain ⟨after, delivered, -, hafter, haccept⟩ :=
      hwithin.accept group (id - index.toUInt16) index count part
    simp only [haccept, orFault_ok] at hp
    split at hp
    · cases hp
    · split at hp
      · cases hp
        exact ⟨keyed, hwithin, rfl⟩
      · cases hp
        exact ⟨after, hafter, rfl⟩
  | _ =>
    cases hchannel : p.channel with
    | reliableFragmented inbound nextGroup =>
      rw [hchannel] at hframing
      cases hframing
    | _ => trivial

theorem keyed_process {c : Channel} {w : AckWindow} {bytes : Bytes} {p : Processed}
    (hp : (c.process w bytes).2 = .ok p) (hkeyed : c.Keyed) : p.channel.Keyed := by
  obtain ⟨body, -, haccept⟩ := bind_eq_ok.mp hp
  exact keyed_accept haccept hkeyed

theorem keyed_prepare {c : Channel} {message : Bytes} {next : UInt16} {p : Prepared}
    (hp : c.prepare message next = .ok p) (hkeyed : c.Keyed) : p.channel.Keyed := by
  cases c with
  | reliableFragmented inbound nextGroup =>
    simp only [prepare] at hp
    split at hp
    · cases hp
    · obtain ⟨frames, -, hp⟩ := bind_eq_ok.mp hp
      cases hp
      exact hkeyed
  | _ =>
    obtain ⟨frames, -, hp⟩ := bind_eq_ok.mp hp
    cases hp
    trivial

end Channel

theorem forall_mem_set {α : Type} {P : α → Prop} {l : List α} (h : ∀ a ∈ l, P a) (place : Nat)
    {a : α} (ha : P a) : ∀ b ∈ l.set place a, P b := by
  intro b hb
  rcases List.mem_or_eq_of_mem_set hb with hb | rfl
  · exact h b hb
  · exact ha

/-- Whatever the bytes are, the frame loop comes to its end without a fault. -/
theorem takeFrames_total {channels : List Channel} (window : AckWindow) (bytes : Bytes)
    (hkeyed : ∀ c ∈ channels, c.Keyed) :
    ∃ intake, takeFrames channels window bytes = .ok intake ∧ ∀ c ∈ intake.channels, c.Keyed := by
  fun_induction takeFrames channels window bytes with
  | case1 => exact ⟨_, rfl, hkeyed⟩
  | case2 => exact ⟨_, rfl, hkeyed⟩
  | case3 channels window id bytes channel hc taken f hf =>
    exact absurd rfl (Channel.not_fault_of_process hf f)
  | case4 => exact ⟨_, rfl, hkeyed⟩
  | case5 channels window id bytes channel hc taken p hp ih =>
    have hafter := Channel.keyed_process hp (hkeyed _ (List.mem_of_getElem? hc))
    obtain ⟨later, hlater, hall⟩ := ih (forall_mem_set hkeyed _ hafter)
    exact ⟨_, bind_eq_ok.mpr ⟨later, hlater, rfl⟩, hall⟩

end DatagramTransport
