import DatagramTransport.Channel.Prepare
import DatagramTransport.Proofs.Channel.Layout

/-!
# The frames of a message

What a channel makes of a message are frames of its own framing. A reliable
channel draws one id for each of them, from the counter on and in order; the
other channels leave the counter alone.
-/

set_option autoImplicit false

namespace DatagramTransport

def idAt (place : Nat) : UInt16 := .ofNat (place + 1)

theorem toNat_idAt {place : Nat} (h : place < 65535) : (idAt place).toNat = place + 1 :=
  UInt16.toNat_ofNat_of_lt' (Nat.succ_lt_succ h)

theorem idAt_inj {i j : Nat} (hi : i < 65535) (hj : j < 65535) (h : idAt i = idAt j) : i = j := by
  have hn := congrArg UInt16.toNat h
  rw [toNat_idAt hi, toNat_idAt hj] at hn
  omega

theorem idAt_ne_zero {place : Nat} (h : place < 65535) : idAt place ≠ 0 := by
  intro h0
  have hn := toNat_idAt h
  rw [h0] at hn
  cases hn

theorem idAt_lt {i j : Nat} (hij : i < j) (hj : j < 65535) : idAt i < idAt j := by
  rw [UInt16.lt_iff_toNat_lt, toNat_idAt (by omega), toNat_idAt hj]
  omega

theorem idAt_add (place i : Nat) : idAt place + .ofNat i = idAt (place + i) := by
  rw [idAt, idAt, ← UInt16.ofNat_add, Nat.add_right_comm]

/-- The frame is one that a channel with this framing makes of the message;
if the channel does not cut messages, it has all of it. -/
def Frame.PartOf (f : Frame) (q : Qos) (message : Bytes) : Prop :=
  ∃ (h : Layout) (payload : Bytes), h.framing = q ∧ h.Valid payload ∧
    f.messageId = h.messageId ∧ f.bytes = h.frame payload ∧
    (q ≠ .reliableFragmented → payload = message)

theorem fragmentCount_pos (length : Nat) : 0 < fragmentCount length :=
  Nat.lt_of_lt_of_le Nat.one_pos (Nat.le_max_left _ _)

theorem eq_of_narrowUInt8 {n : Nat} {byte : UInt8} (h : narrowUInt8 n = .ok byte) :
    byte = .ofNat n := by
  unfold narrowUInt8 at h
  split at h <;> cases h
  rfl

namespace Channel

theorem wholeFrame_eq_ok {h : Layout} (hr : h.InRange) {message : Bytes} {frames : List Frame} :
    wholeFrame h.messageId h.header message = .ok frames ↔
      h.Valid message ∧ frames = [{ messageId := h.messageId, bytes := h.frame message }] := by
  unfold wholeFrame
  by_cases hlong : 65535 < framePrefixLength + h.header.length + message.length
  · rw [if_pos hlong]
    constructor
    · intro he
      cases he
    · intro he
      have := he.1.fits
      omega
  · rw [if_neg hlong]
    have hfits : framePrefixLength + h.header.length + message.length < 65536 := by omega
    have he : encodeFrame h.header message = .ok (h.frame message) :=
      encodeFrame_eq_ok.mpr ⟨hfits, rfl⟩
    rw [he]
    constructor
    · intro hok
      cases hok
      exact ⟨⟨hfits, hr⟩, rfl⟩
    · rintro ⟨-, rfl⟩
      rfl

theorem wholeFrame_parts {h : Layout} (hr : h.InRange) {message : Bytes} {frames : List Frame}
    (hf : wholeFrame h.messageId h.header message = .ok frames) :
    (∀ f ∈ frames, f.PartOf h.framing message) ∧
      frames = [{ messageId := h.messageId, bytes := h.frame message }] := by
  obtain ⟨hv, rfl⟩ := (wholeFrame_eq_ok hr).mp hf
  constructor
  · intro f hm
    cases List.mem_singleton.mp hm
    exact ⟨h, message, rfl, hv, rfl, rfl, fun _ => rfl⟩
  · rfl

theorem fragmentFrames_eq {group : UInt8} {count index : Nat} {id : UInt16}
    {parts : List Bytes} {frames : List Frame}
    (h : fragmentFrames group count index id parts = .ok frames) :
    frames = parts.mapIdx (fun i part =>
      { messageId := some (id + .ofNat i)
        bytes := (Layout.reliableFragmented (id + .ofNat i) group (.ofNat (index + i))
          (.ofNat count)).frame part }) ∧
      ∀ part ∈ parts, framePrefixLength + 5 + part.length < 65536 := by
  induction parts generalizing index id frames with
  | nil =>
    cases h
    simp
  | cons part parts ih =>
    obtain ⟨i, hi, h⟩ := bind_eq_ok.mp h
    obtain ⟨n, hn, h⟩ := bind_eq_ok.mp h
    obtain ⟨bytes, hb, h⟩ := bind_eq_ok.mp h
    obtain ⟨rest, hrest, h⟩ := bind_eq_ok.mp h
    cases h
    obtain ⟨hfits, rfl⟩ := encodeFrame_eq_ok.mp hb
    obtain ⟨rfl, hlen⟩ := ih hrest
    obtain rfl := eq_of_narrowUInt8 hi
    obtain rfl := eq_of_narrowUInt8 hn
    constructor
    · rw [List.mapIdx_cons]
      congr 1
      · simp [Layout.frame, Layout.header]
      · congr 1
        funext j part
        have hid : id + 1 + .ofNat j = id + .ofNat (j + 1) := by
          rw [UInt16.ofNat_add, UInt16.add_assoc, UInt16.add_comm 1]
          rfl
        rw [hid, Nat.add_assoc, Nat.add_comm 1 j]
    · intro p hp
      rcases List.mem_cons.mp hp with rfl | hp
      · simpa using hfits
      · exact hlen p hp

theorem prepare_reliableFragmented {inbound : FragmentInbox} {group : UInt8} {message : Bytes}
    {next : UInt16} {p : Prepared}
    (h : (reliableFragmented inbound group).prepare message next = .ok p) :
    fragmentCount message.length ≤ maxFragments ∧
    p.channel = reliableFragmented inbound (group + 1) ∧
    p.nextMessage = next + .ofNat (fragmentCount message.length) ∧
    p.frames = (fragments (fragmentCount message.length) message).mapIdx (fun i part =>
      { messageId := some (next + .ofNat i)
        bytes := (Layout.reliableFragmented (next + .ofNat i) group (.ofNat i)
          (.ofNat (fragmentCount message.length))).frame part }) ∧
    ∀ part ∈ fragments (fragmentCount message.length) message,
      framePrefixLength + 5 + part.length < 65536 := by
  simp only [prepare] at h
  split at h
  · cases h
  · rename_i hc
    obtain ⟨frames, hf, h⟩ := bind_eq_ok.mp h
    cases h
    obtain ⟨rfl, hlen⟩ := fragmentFrames_eq (orFault_eq_ok.mp hf)
    exact ⟨by omega, rfl, rfl, by simp only [Nat.zero_add], hlen⟩

theorem prepare_reliable {message : Bytes} {next : UInt16} {p : Prepared} :
    reliable.prepare message next = .ok p ↔ (Layout.reliable next).Valid message ∧
      p = { channel := reliable, nextMessage := next + 1
            frames := [{ messageId := some next
                         bytes := (Layout.reliable next).frame message }] } := by
  simp only [prepare, bind_eq_ok]
  constructor
  · rintro ⟨frames, hf, h⟩
    obtain ⟨hv, rfl⟩ := (wholeFrame_eq_ok (h := .reliable next) trivial).mp hf
    cases h
    exact ⟨hv, rfl⟩
  · rintro ⟨hv, rfl⟩
    exact ⟨_, (wholeFrame_eq_ok (h := .reliable next) trivial).mpr ⟨hv, rfl⟩, rfl⟩

theorem prepare_reliableSequenced {inbound : Reorder} {position : UInt8} {message : Bytes}
    {next : UInt16} {p : Prepared} :
    (reliableSequenced inbound position).prepare message next = .ok p ↔
      (Layout.reliableSequenced next position).Valid message ∧
      p = { channel := reliableSequenced inbound (position + 1), nextMessage := next + 1
            frames := [{ messageId := some next
                         bytes := (Layout.reliableSequenced next position).frame message }] } := by
  simp only [prepare, bind_eq_ok]
  constructor
  · rintro ⟨frames, hf, h⟩
    obtain ⟨hv, rfl⟩ := (wholeFrame_eq_ok (h := .reliableSequenced next position) trivial).mp hf
    cases h
    exact ⟨hv, rfl⟩
  · rintro ⟨hv, rfl⟩
    exact ⟨_, (wholeFrame_eq_ok (h := .reliableSequenced next position) trivial).mpr
      ⟨hv, rfl⟩, rfl⟩

/-- The ids that a preparation draws, and the counter that it leaves. -/
def Draws (q : Qos) (next : UInt16) (p : Prepared) : Prop :=
  if q.isReliable then
    p.frames.map Frame.messageId =
        (List.range p.frames.length).map (fun i => some (next + .ofNat i)) ∧
      p.nextMessage = next + .ofNat p.frames.length
  else p.frames.map Frame.messageId = p.frames.map (fun _ => none) ∧ p.nextMessage = next

theorem prepare_spec {c : Channel} {message : Bytes} {next : UInt16} {p : Prepared}
    (h : c.prepare message next = .ok p) :
    p.channel.framing = c.framing ∧ (∀ f ∈ p.frames, f.PartOf c.framing message) ∧
      Draws c.framing next p := by
  cases c with
  | unreliable =>
    obtain ⟨frames, hf, h⟩ := bind_eq_ok.mp h
    cases h
    obtain ⟨hall, rfl⟩ := wholeFrame_parts (h := .unreliable) trivial hf
    exact ⟨rfl, hall, rfl, rfl⟩
  | unreliableSequenced lastIn nextOut =>
    obtain ⟨frames, hf, h⟩ := bind_eq_ok.mp h
    cases h
    obtain ⟨hall, rfl⟩ := wholeFrame_parts (h := .unreliableSequenced nextOut) trivial hf
    exact ⟨rfl, hall, rfl, rfl⟩
  | reliable =>
    obtain ⟨frames, hf, h⟩ := bind_eq_ok.mp h
    cases h
    obtain ⟨hall, rfl⟩ := wholeFrame_parts (h := .reliable next) trivial hf
    exact ⟨rfl, hall, by simp [Draws, framing, Qos.isReliable, Layout.messageId]⟩
  | reliableSequenced inbound nextOut =>
    obtain ⟨frames, hf, h⟩ := bind_eq_ok.mp h
    cases h
    obtain ⟨hall, rfl⟩ := wholeFrame_parts (h := .reliableSequenced next nextOut) trivial hf
    exact ⟨rfl, hall, by simp [Draws, framing, Qos.isReliable, Layout.messageId]⟩
  | reliableFragmented inbound group =>
    obtain ⟨hcount, hc, hn, hf, hlen⟩ := prepare_reliableFragmented h
    have hlength : p.frames.length = fragmentCount message.length := by
      rw [hf, List.length_mapIdx, length_fragments]
    refine ⟨by rw [hc]; rfl, ?_, ?_⟩
    · intro f hm
      rw [hf, List.mem_mapIdx] at hm
      obtain ⟨i, hi, rfl⟩ := hm
      rw [length_fragments] at hi
      refine ⟨_, _, rfl, ⟨?_, ?_⟩, rfl, rfl, fun hq => absurd rfl hq⟩
      · simpa [Layout.header] using hlen _ (List.getElem_mem _)
      · have hm : maxFragments = 255 := rfl
        simp only [Layout.InRange, UInt8.lt_iff_toNat_lt, UInt8.toNat_ofNat']
        omega
    · simp only [Draws, framing, Qos.isReliable, if_true]
      constructor
      · rw [hlength, hf]
        apply List.ext_getElem
        · simp [length_fragments]
        · intro i h1 h2
          simp
      · rw [hn, hlength]

section
variable {c : Channel} {message : Bytes} {next : UInt16} {p : Prepared}

theorem prepare_singleton (hwhole : c.isFragmenting = false)
    (hp : c.prepare message next = .ok p) : ∃ f, p.frames = [f] := by
  have hone {h : Layout} (hr : h.InRange) {frames : List Frame}
      (hf : wholeFrame h.messageId h.header message = .ok frames) : ∃ f, frames = [f] :=
    ⟨_, (wholeFrame_parts hr hf).2⟩
  cases c with
  | reliableFragmented inbound group => cases hwhole
  | unreliable =>
    obtain ⟨frames, hf, hp⟩ := bind_eq_ok.mp hp
    cases hp
    exact hone (h := .unreliable) trivial hf
  | unreliableSequenced lastIn position =>
    obtain ⟨frames, hf, hp⟩ := bind_eq_ok.mp hp
    cases hp
    exact hone (h := .unreliableSequenced position) trivial hf
  | reliable =>
    obtain ⟨-, rfl⟩ := prepare_reliable.mp hp
    exact ⟨_, rfl⟩
  | reliableSequenced inbound position =>
    obtain ⟨-, rfl⟩ := prepare_reliableSequenced.mp hp
    exact ⟨_, rfl⟩

theorem length_frames (hp : c.prepare message next = .ok p) :
    p.frames.length = if c.framing = .reliableFragmented then fragmentCount message.length
      else 1 := by
  by_cases hcut : c.framing = .reliableFragmented
  · obtain ⟨inbound, group, rfl⟩ := eq_reliableFragmented hcut
    obtain ⟨-, -, -, hframes, -⟩ := prepare_reliableFragmented hp
    rw [if_pos hcut, hframes, List.length_mapIdx, length_fragments]
  · obtain ⟨f, hf⟩ := prepare_singleton (isFragmenting_eq_false hcut) hp
    rw [if_neg hcut, hf]
    rfl

theorem length_frames_le (hp : c.prepare message next = .ok p) :
    p.frames.length ≤ maxFragments := by
  rw [length_frames hp]
  split
  · rename_i hcut
    obtain ⟨inbound, group, rfl⟩ := eq_reliableFragmented hcut
    exact (prepare_reliableFragmented hp).1
  · decide

theorem flatten_payloads (hp : c.prepare message next = .ok p) :
    (p.frames.map fun f => f.bytes.drop (c.headerLength - 1)).flatten = message := by
  by_cases hcut : c.framing = .reliableFragmented
  · obtain ⟨inbound, group, rfl⟩ := eq_reliableFragmented hcut
    obtain ⟨-, -, -, hframes, -⟩ := prepare_reliableFragmented hp
    have hparts : (p.frames.map fun f => f.bytes.drop 7) =
        fragments (fragmentCount message.length) message := by
      rw [hframes]
      apply List.ext_getElem
      · simp
      · intro i h1 h2
        rw [List.getElem_map, List.getElem_mapIdx]
        exact Layout.drop_frame (c := .reliableFragmented inbound group) rfl _
    exact (congrArg List.flatten hparts).trans (flatten_fragments_fragmentCount message)
  · obtain ⟨f, hf⟩ := prepare_singleton (isFragmenting_eq_false hcut) hp
    obtain ⟨h, payload, hframing, -, -, hbytes, hpayload⟩ :=
      (prepare_spec hp).2.1 f (by rw [hf]; exact List.mem_singleton_self f)
    rw [hf, List.map_singleton, List.flatten_singleton, hbytes, Layout.drop_frame hframing,
      hpayload hcut]

end

theorem add_ofNat_inj {next : UInt16} {i j : Nat} (hi : i < 65536) (hj : j < 65536)
    (h : next + .ofNat i = next + .ofNat j) : i = j := by
  have hnat := congrArg UInt16.toNat h
  rw [UInt16.toNat_add, UInt16.toNat_add, UInt16.toNat_ofNat_of_lt' hi,
    UInt16.toNat_ofNat_of_lt' hj] at hnat
  omega

section
variable {q : Qos} {next : UInt16} {p : Prepared}

theorem Draws.messageId (h : Draws q next p) {i : Nat} {f : Frame} (hf : p.frames[i]? = some f) :
    f.messageId = if q.isReliable then some (next + .ofNat i) else none := by
  unfold Draws at h
  have hlookup : (p.frames.map Frame.messageId)[i]? = some f.messageId := by
    rw [List.getElem?_map, hf, Option.map_some]
  obtain ⟨hlt, -⟩ := List.getElem?_eq_some_iff.mp hf
  split at h
  · rename_i hq
    rw [h.1, List.getElem?_map, List.getElem?_range hlt, Option.map_some] at hlookup
    rw [if_pos hq, Option.some.inj hlookup]
  · rename_i hq
    rw [h.1, List.getElem?_map, hf, Option.map_some] at hlookup
    rw [if_neg hq, Option.some.inj hlookup]

theorem Draws.nextMessage (h : Draws q next p) :
    p.nextMessage = if q.isReliable then next + .ofNat p.frames.length else next := by
  unfold Draws at h
  split at h
  · rename_i hq
    rw [if_pos hq, h.2]
  · rename_i hq
    rw [if_neg hq, h.2]

theorem Draws.messageIds (h : Draws q next p) : p.frames.filterMap Frame.messageId =
    if q.isReliable then (List.range p.frames.length).map fun i => next + .ofNat i else [] := by
  have hids : p.frames.filterMap Frame.messageId =
      (p.frames.map Frame.messageId).filterMap id := by
    rw [List.filterMap_map, Function.id_comp]
  unfold Draws at h
  split at h
  · rename_i hq
    rw [if_pos hq, hids, h.1, List.filterMap_map, ← List.filterMap_eq_map]
    rfl
  · rename_i hq
    rw [if_neg hq, hids, h.1, List.filterMap_map]
    simp

theorem Draws.nodup (h : Draws q next p) (hsize : p.frames.length ≤ maxFragments) :
    (p.frames.filterMap Frame.messageId).Nodup := by
  rw [h.messageIds]
  split
  · rw [List.Nodup, List.pairwise_map]
    refine List.Pairwise.imp_of_mem ?_ List.nodup_range
    intro i j hi hj hne heq
    have hlimit : maxFragments = 255 := rfl
    rw [List.mem_range] at hi hj
    exact hne (add_ofNat_inj (by omega) (by omega) heq)
  · exact List.nodup_nil

end

theorem Draws.drawn {q : Qos} {place : Nat} {p : Prepared} (h : Draws q (idAt place) p) :
    p.frames.filterMap Frame.messageId =
        (List.range (p.frames.filterMap Frame.messageId).length).map
          (fun i => idAt (place + i)) ∧
      p.nextMessage = idAt (place + (p.frames.filterMap Frame.messageId).length) := by
  rw [h.messageIds, h.nextMessage]
  split
  · simp only [List.length_map, List.length_range, idAt_add, and_self]
  · exact ⟨rfl, rfl⟩

end Channel

end DatagramTransport
