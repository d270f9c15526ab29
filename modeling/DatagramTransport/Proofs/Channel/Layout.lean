import DatagramTransport.Channel.Process
import DatagramTransport.Proofs.Codec

/-!
# The layouts of frames

A frame is its length, a header whose fields depend on the quality of the
channel, and the payload. A channel of that quality takes the frame as a
whole, and comes to the fields as they were written; what it then does
depends on nothing else. Frames of reliable channels are noted in the
window under their message id, the others not at all.
-/

set_option autoImplicit false

namespace DatagramTransport

/-- The quality that names a framing: all-cost delivery has that of reliable channels. -/
def Qos.framing : Qos → Qos
  | .allCostDelivery => .reliable
  | q => q

theorem Qos.isReliable_framing (q : Qos) : q.framing.isReliable = q.isReliable := by
  cases q <;> rfl

theorem Qos.framing_eq_reliable {q : Qos} :
    q.framing = .reliable ↔ q = .reliable ∨ q = .allCostDelivery := by
  cases q <;> simp [framing]

theorem Qos.framing_eq_reliableFragmented {q : Qos} :
    q.framing = .reliableFragmented ↔ q = .reliableFragmented := by
  cases q <;> simp [framing]

namespace Channel

def framing : Channel → Qos
  | unreliable => .unreliable
  | unreliableSequenced .. => .unreliableSequenced
  | reliable => .reliable
  | reliableSequenced .. => .reliableSequenced
  | reliableFragmented .. => .reliableFragmented

@[simp] theorem framing_ofQos (q : Qos) : (ofQos q).framing = q.framing := by
  cases q <;> rfl

theorem map_framing_set {channels : List Channel} {i : Nat} {c d : Channel}
    (hc : channels[i]? = some c) (hd : d.framing = c.framing) :
    (channels.set i d).map Channel.framing = channels.map Channel.framing := by
  rw [List.map_set, hd]
  apply List.ext_getElem?
  intro j
  by_cases hj : i = j
  · subst hj
    obtain ⟨hlt, rfl⟩ := List.getElem?_eq_some_iff.mp hc
    simp [hlt]
  · rw [List.getElem?_set_ne hj]

theorem eq_reliable {c : Channel} (h : c.framing = .reliable) : c = reliable := by
  cases c <;> simp_all [framing]

theorem eq_reliableSequenced {c : Channel} (h : c.framing = .reliableSequenced) :
    ∃ inbound nextOut, c = reliableSequenced inbound nextOut := by
  cases c <;> simp_all [framing]

theorem eq_reliableFragmented {c : Channel} (h : c.framing = .reliableFragmented) :
    ∃ inbound nextGroup, c = reliableFragmented inbound nextGroup := by
  cases c <;> simp_all [framing]

theorem isFragmenting_eq_false {c : Channel} (h : c.framing ≠ .reliableFragmented) :
    c.isFragmenting = false := by
  cases c <;> simp_all [framing, isFragmenting]

end Channel

inductive Layout where
  | unreliable
  | unreliableSequenced (position : UInt8)
  | reliable (id : UInt16)
  | reliableSequenced (id : UInt16) (position : UInt8)
  | reliableFragmented (id : UInt16) (group index count : UInt8)
  deriving DecidableEq, Repr

namespace Layout

def framing : Layout → Qos
  | unreliable => .unreliable
  | unreliableSequenced _ => .unreliableSequenced
  | reliable _ => .reliable
  | reliableSequenced .. => .reliableSequenced
  | reliableFragmented .. => .reliableFragmented

def header : Layout → Bytes
  | unreliable => []
  | unreliableSequenced position => [position]
  | reliable id => writeUInt16 id
  | reliableSequenced id position => writeUInt16 id ++ [position]
  | reliableFragmented id group index count => writeUInt16 id ++ [group, index, count]

def messageId : Layout → Option UInt16
  | unreliable | unreliableSequenced _ => none
  | reliable id | reliableSequenced id _ | reliableFragmented id .. => some id

def InRange : Layout → Prop
  | reliableFragmented _ _ index count => index < count
  | _ => True

def frame (h : Layout) (payload : Bytes) : Bytes :=
  writeUInt16 (.ofNat (framePrefixLength + h.header.length + payload.length)) ++
    h.header ++ payload

theorem length_frame (h : Layout) (payload : Bytes) :
    (h.frame payload).length = 2 + h.header.length + payload.length := by
  rw [frame, List.length_append, List.length_append, length_writeUInt16]

structure Valid (h : Layout) (payload : Bytes) : Prop where
  fits : framePrefixLength + h.header.length + payload.length < 65536
  inRange : h.InRange

theorem prefix_add_header {h : Layout} {c : Channel} (hf : h.framing = c.framing) :
    framePrefixLength + h.header.length = c.headerLength := by
  cases h <;> cases c <;> first | rfl | simp [framing, Channel.framing] at hf

/-- The channel id, which a header counts, stands in front of the frame. -/
theorem drop_frame {h : Layout} {c : Channel} (hf : h.framing = c.framing) (payload : Bytes) :
    (h.frame payload).drop (c.headerLength - 1) = payload := by
  have hlength : (writeUInt16 (.ofNat (framePrefixLength + h.header.length + payload.length)) ++
      h.header).length = c.headerLength - 1 := by
    rw [List.length_append, length_writeUInt16, ← prefix_add_header hf, framePrefixLength]
    omega
  exact List.drop_left' hlength

theorem messageId_isSome (h : Layout) : h.messageId.isSome = h.framing.isReliable := by
  cases h <;> rfl

theorem readUInt16_frame {h : Layout} {id : UInt16} (hid : h.messageId = some id)
    (payload : Bytes) :
    (readUInt16 ((h.frame payload).drop 2)).toOption.map Prod.fst = some id := by
  have hheader : ∃ rest, h.header = writeUInt16 id ++ rest := by
    cases h <;> cases hid
    · exact ⟨[], (List.append_nil _).symm⟩
    · exact ⟨_, rfl⟩
    · exact ⟨_, rfl⟩
  obtain ⟨rest, hrest⟩ := hheader
  rw [frame, List.append_assoc, drop_two_writeUInt16, hrest, List.append_assoc,
    readUInt16_writeUInt16]
  rfl

end Layout

theorem encodeFrame_eq_ok {header payload bytes : Bytes} :
    encodeFrame header payload = .ok bytes ↔
      framePrefixLength + header.length + payload.length < 65536 ∧
        bytes = writeUInt16 (.ofNat (framePrefixLength + header.length + payload.length)) ++
          header ++ payload := by
  unfold encodeFrame narrowUInt16
  by_cases h : framePrefixLength + header.length + payload.length < 65536
  · rw [if_pos h]
    exact ⟨fun he => ⟨h, (Except.ok.inj he).symm⟩, fun he => congrArg Except.ok he.2.symm⟩
  · rw [if_neg h]
    exact ⟨fun he => by simp [bind, Except.bind] at he, fun he => absurd he.1 h⟩

namespace AckWindow

def note (w : AckWindow) : Option UInt16 → AckWindow × Bool
  | none => (w, false)
  | some id => w.record id

@[simp] theorem note_some (w : AckWindow) (id : UInt16) : w.note (some id) = w.record id := rfl

end AckWindow

theorem FragmentInbox.accept_ok (b : FragmentInbox) (group : UInt8) (base : UInt16)
    (index count : UInt8) (part : Bytes) :
    ∃ r, b.accept group base index count part = .ok r := by
  unfold accept
  by_cases hd : b.delivered[group]? = some base
  · rw [if_pos hd]
    exact ⟨_, rfl⟩
  · rw [if_neg hd]
    by_cases hc : ((b.message group base count).add index part).isComplete = true
    · have ha := Reassembly.assemble_of_isComplete hc
      rw [if_pos hc, ha]
      exact ⟨_, rfl⟩
    · rw [if_neg hc]
      exact ⟨_, rfl⟩

theorem takeFrame_eq_ok {headerLength : Nat} {bytes rest body : Bytes} :
    takeFrame headerLength bytes = (rest, .ok body) ↔ ∃ length : UInt16,
      headerLength ≤ length.toNat ∧ body.length = length.toNat - framePrefixLength ∧
        bytes = writeUInt16 length ++ (body ++ rest) := by
  constructor
  · intro h
    unfold takeFrame at h
    cases hread : readUInt16 bytes with
    | error e =>
      rw [hread] at h
      cases h
    | ok r =>
      obtain ⟨length, behind⟩ := r
      obtain rfl := eq_of_readUInt16 hread
      rw [hread] at h
      dsimp only at h
      split at h
      · cases h
      · split at h
        · cases h
        · obtain ⟨rfl, hbody⟩ := Prod.mk.inj h
          obtain rfl := Except.ok.inj hbody
          have hshort := List.length_take_le (length.toNat - framePrefixLength) behind
          exact ⟨length, by omega, by omega, by rw [List.take_append_drop]⟩
  · rintro ⟨length, hheader, hbody, rfl⟩
    unfold takeFrame
    rw [readUInt16_writeUInt16]
    dsimp only
    rw [if_neg (by omega), ← hbody, List.take_left, List.drop_left, if_neg (by omega)]

namespace Channel

section
variable {c : Channel} {w : AckWindow} {h : Layout} {payload : Bytes}

theorem takeFrame_frame (hf : h.framing = c.framing) (hv : h.Valid payload) (rest : Bytes) :
    takeFrame c.headerLength (h.frame payload ++ rest) = (rest, .ok (h.header ++ payload)) := by
  have hlength : (UInt16.ofNat (framePrefixLength + h.header.length + payload.length)).toNat =
      framePrefixLength + h.header.length + payload.length := UInt16.toNat_ofNat_of_lt' hv.fits
  refine takeFrame_eq_ok.mpr
    ⟨.ofNat (framePrefixLength + h.header.length + payload.length), ?_, ?_, ?_⟩
  · rw [hlength, ← Layout.prefix_add_header hf]
    exact Nat.le_add_right _ _
  · rw [hlength, List.length_append, Nat.add_assoc, Nat.add_sub_cancel_left]
  · rw [Layout.frame, List.append_assoc, List.append_assoc, List.append_assoc]

theorem process_frame (hf : h.framing = c.framing) (hv : h.Valid payload) (rest : Bytes) :
    c.process w (h.frame payload ++ rest) = (rest, c.accept w (h.header ++ payload)) := by
  rw [process, takeFrame_frame hf hv]
  rfl

theorem accept_reliable (id : UInt16) :
    reliable.accept w ((Layout.reliable id).header ++ payload) =
      .ok { channel := reliable, window := (w.record id).1
            delivered := if (w.record id).2 then [payload] else []
            accepted := (w.record id).2 } := by
  simp only [accept, Layout.header, readInFrame, readUInt16_writeUInt16]
  rcases hr : w.record id with ⟨w', _ | _⟩ <;> simp [mapError_ok, bind, Except.bind, hr] <;> rfl

theorem accept_reliableSequenced (inbound : Reorder) (nextOut : UInt8) (id : UInt16)
    (position : UInt8) :
    (reliableSequenced inbound nextOut).accept w
        ((Layout.reliableSequenced id position).header ++ payload) =
      .ok (if (w.record id).2 then
        { channel := reliableSequenced (inbound.accept position payload).1 nextOut
          window := (w.record id).1
          delivered := (inbound.accept position payload).2, accepted := true }
      else { channel := reliableSequenced inbound nextOut, window := (w.record id).1
             delivered := [], accepted := false }) := by
  simp only [accept, Layout.header, readInFrame, List.append_assoc, readUInt16_writeUInt16]
  rcases hr : w.record id with ⟨w', _ | _⟩ <;>
    simp [mapError_ok, bind, Except.bind, hr] <;> rfl

theorem accept_reliableFragmented (inbound : FragmentInbox) (nextGroup : UInt8) (id : UInt16)
    (group : UInt8) {index count : UInt8} (hr : index < count) (w : AckWindow)
    (payload : Bytes) :
    ∃ r, inbound.accept group (id - index.toUInt16) index count payload = .ok r ∧
      (reliableFragmented inbound nextGroup).accept w
          ((Layout.reliableFragmented id group index count).header ++ payload) =
        .ok (if (w.record id).2 then
          { channel := reliableFragmented r.1 nextGroup, window := (w.record id).1
            delivered := r.2, accepted := true }
        else { channel := reliableFragmented inbound nextGroup, window := (w.record id).1
               delivered := [], accepted := false }) := by
  obtain ⟨r, hr'⟩ := inbound.accept_ok group (id - index.toUInt16) index count payload
  refine ⟨r, hr', ?_⟩
  have hn : ¬ count ≤ index := UInt8.not_le.mpr hr
  simp only [accept, Layout.header, readInFrame, List.append_assoc, readUInt16_writeUInt16,
    List.cons_append, List.nil_append]
  rcases hw : w.record id with ⟨w', _ | _⟩ <;>
    simp [mapError_ok, bind, Except.bind, hw, hn, hr'] <;> rfl

theorem accept_layout (hf : h.framing = c.framing) (hr : h.InRange) (w : AckWindow)
    (payload : Bytes) :
    ∃ p, c.accept w (h.header ++ payload) = .ok p ∧ p.channel.framing = c.framing ∧
      (p.window, p.accepted) = w.note h.messageId := by
  cases h <;> cases c <;> simp only [Layout.framing, framing, reduceCtorEq] at hf
  case unreliable.unreliable => exact ⟨_, rfl, rfl, rfl⟩
  case unreliableSequenced.unreliableSequenced position lastIn nextOut =>
    by_cases hd : position ≤ lastIn ∧ lastIn ≠ 255
    · exact ⟨_, if_pos hd, rfl, rfl⟩
    · exact ⟨_, if_neg hd, rfl, rfl⟩
  case reliable.reliable id => exact ⟨_, accept_reliable id, rfl, rfl⟩
  case reliableSequenced.reliableSequenced id position inbound nextOut =>
    refine ⟨_, accept_reliableSequenced inbound nextOut id position, ?_⟩
    rcases hw : w.record id with ⟨w', _ | _⟩ <;> exact ⟨rfl, hw.symm⟩
  case reliableFragmented.reliableFragmented id group index count inbound nextGroup =>
    obtain ⟨r, -, ha⟩ := accept_reliableFragmented inbound nextGroup id group hr w payload
    refine ⟨_, ha, ?_⟩
    rcases hw : w.record id with ⟨w', _ | _⟩ <;> exact ⟨rfl, hw.symm⟩

end

theorem framing_accept {c : Channel} {w : AckWindow} {body : Bytes} {p : Processed}
    (h : c.accept w body = .ok p) : p.channel.framing = c.framing := by
  cases c with
  | unreliable =>
    cases h
    rfl
  | unreliableSequenced lastIn nextOut =>
    obtain ⟨⟨position, payload⟩, -, h⟩ := bind_eq_ok.mp h
    dsimp only at h
    split at h <;> cases h <;> rfl
  | reliable =>
    obtain ⟨⟨id, payload⟩, -, h⟩ := bind_eq_ok.mp h
    dsimp only at h
    split at h <;> cases h <;> rfl
  | reliableSequenced inbound nextOut =>
    obtain ⟨⟨id, rest⟩, -, h⟩ := bind_eq_ok.mp h
    obtain ⟨⟨position, payload⟩, -, h⟩ := bind_eq_ok.mp h
    dsimp only at h
    split at h <;> cases h <;> rfl
  | reliableFragmented inbound nextGroup =>
    obtain ⟨⟨id, rest⟩, -, h⟩ := bind_eq_ok.mp h
    obtain ⟨⟨group, rest⟩, -, h⟩ := bind_eq_ok.mp h
    obtain ⟨⟨index, rest⟩, -, h⟩ := bind_eq_ok.mp h
    obtain ⟨⟨count, part⟩, -, h⟩ := bind_eq_ok.mp h
    dsimp only at h
    split at h
    · cases h
    · split at h
      · cases h
        rfl
      · obtain ⟨r, -, h⟩ := bind_eq_ok.mp h
        cases h
        rfl

theorem framing_process {c : Channel} {w : AckWindow} {bytes : Bytes} {p : Processed}
    (h : (c.process w bytes).2 = .ok p) : p.channel.framing = c.framing := by
  unfold process at h
  obtain ⟨body, -, h⟩ := bind_eq_ok.mp h
  exact framing_accept h

end Channel

end DatagramTransport
