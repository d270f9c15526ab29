import DatagramTransport.Proofs.Channel.Layout
import DatagramTransport.Proofs.InPlace

/-!
# What a channel takes for a frame

Whether a channel takes a frame is decided by the bytes alone: by the announced
length, by what it has to cover and how much is there, and by the index of a
fragment. The state of the channel and the window have no part in it, nor does
what follows the frame. Where the channel is changed in place, step by step,
nothing has been changed yet when a frame is refused.
-/

set_option autoImplicit false

namespace DatagramTransport

namespace Layout

theorem exists_of_room {c : Channel} {body : Bytes}
    (hroom : c.headerLength ≤ framePrefixLength + body.length) :
    ∃ (h : Layout) (payload : Bytes), h.framing = c.framing ∧ body = h.header ++ payload := by
  have hprefix : framePrefixLength = 3 := rfl
  cases c <;> simp only [Channel.headerLength] at hroom
  case unreliable => exact ⟨.unreliable, body, rfl, rfl⟩
  case unreliableSequenced lastIn nextOut =>
    obtain ⟨position, hposition⟩ := hasWidth_uint8 body (by omega)
    exact ⟨.unreliableSequenced position, _, rfl, eq_of_readUInt8 hposition⟩
  case reliable =>
    obtain ⟨id, hid⟩ := hasWidth_uint16 body (by omega)
    exact ⟨.reliable id, _, rfl, eq_of_readUInt16 hid⟩
  case reliableSequenced inbound nextOut =>
    obtain ⟨id, hid⟩ := hasWidth_uint16 body (by omega)
    obtain ⟨position, hposition⟩ := hasWidth_uint8 (body.drop 2) (by rw [List.length_drop]; omega)
    refine ⟨.reliableSequenced id position, (body.drop 2).drop 1, rfl, ?_⟩
    rw [header, List.append_assoc, List.singleton_append, ← eq_of_readUInt8 hposition]
    exact eq_of_readUInt16 hid
  case reliableFragmented inbound nextGroup =>
    obtain ⟨id, hid⟩ := hasWidth_uint16 body (by omega)
    have hfields : 3 ≤ (body.drop 2).length := by
      rw [List.length_drop]
      omega
    generalize body.drop 2 = fields at hid hfields
    obtain ⟨group, hgroup⟩ := hasWidth_uint8 fields (by omega)
    obtain ⟨index, hindex⟩ := hasWidth_uint8 (fields.drop 1) (by rw [List.length_drop]; omega)
    obtain ⟨count, hcount⟩ := hasWidth_uint8 ((fields.drop 1).drop 1)
      (by rw [List.length_drop, List.length_drop]; omega)
    refine ⟨.reliableFragmented id group index count, ((fields.drop 1).drop 1).drop 1, rfl, ?_⟩
    calc body
      _ = writeUInt16 id ++ fields := eq_of_readUInt16 hid
      _ = writeUInt16 id ++ group :: fields.drop 1 := by rw [← eq_of_readUInt8 hgroup]
      _ = writeUInt16 id ++ group :: index :: (fields.drop 1).drop 1 := by
        rw [← eq_of_readUInt8 hindex]
      _ = writeUInt16 id ++ group :: index :: count :: ((fields.drop 1).drop 1).drop 1 := by
        rw [← eq_of_readUInt8 hcount]
      _ = _ := by rw [header, List.append_assoc]; rfl

theorem inRange_iff {h : Layout} {c : Channel} (hf : h.framing = c.framing)
    (payload rest : Bytes) :
    h.InRange ↔ (c.isFragmenting = true → ∃ index count,
      (h.header ++ (payload ++ rest))[3]? = some index ∧
        (h.header ++ (payload ++ rest))[4]? = some count ∧ index < count) := by
  cases h <;> cases c <;> simp only [framing, Channel.framing, reduceCtorEq] at hf
  case reliableFragmented.reliableFragmented id group index count inbound nextGroup =>
    constructor
    · exact fun hlt _ => ⟨index, count, rfl, rfl, hlt⟩
    · intro hrange
      obtain ⟨_, _, hindex, hcount, hlt⟩ := hrange rfl
      cases hindex
      cases hcount
      exact hlt
  all_goals simp [InRange, Channel.isFragmenting]

end Layout

namespace Channel

def after (c : Channel) (w : AckWindow) (bytes : Bytes) : Channel :=
  match (c.process w bytes).2 with
  | .ok p => p.channel
  | .error _ => c

def given (c : Channel) (w : AckWindow) (bytes : Bytes) : List Bytes :=
  match (c.process w bytes).2 with
  | .ok p => p.delivered
  | .error _ => []

def afterAll (c : Channel) : List (AckWindow × Bytes) → Channel
  | [] => c
  | (w, bytes) :: arriving => (c.after w bytes).afterAll arriving

theorem afterAll_append (c : Channel) (arriving later : List (AckWindow × Bytes)) :
    c.afterAll (arriving ++ later) = (c.afterAll arriving).afterAll later := by
  induction arriving generalizing c with
  | nil => rfl
  | cons arrival arriving ih => exact ih _

/-- The bytes start with a length, that many bytes are there, less those that the length
counts in front of itself, and an index is below its count. -/
structure Framed (c : Channel) (length : Nat) (bytes : Bytes) : Prop where
  announced : ∃ high low : UInt8, bytes.take 2 = [high, low] ∧
    length = high.toNat * 256 + low.toNat
  header : c.headerLength ≤ length
  room : length - 3 ≤ (bytes.drop 2).length
  inRange : c.isFragmenting = true → ∃ index count, (bytes.drop 2)[3]? = some index ∧
    (bytes.drop 2)[4]? = some count ∧ index < count

section
variable {c : Channel} {w : AckWindow} {bytes : Bytes}

theorem framed_iff {length : Nat} : c.Framed length bytes ↔ ∃ (h : Layout) (payload rest : Bytes),
    h.framing = c.framing ∧ h.Valid payload ∧
      length = framePrefixLength + h.header.length + payload.length ∧
      bytes = h.frame payload ++ rest := by
  have hprefix : framePrefixLength = 3 := rfl
  constructor
  · rintro ⟨⟨high, low, htake, hlength⟩, hheader, hroom, hrange⟩
    have hhigh := high.toNat_lt
    have hlow := low.toNat_lt
    obtain ⟨behind, rfl⟩ : ∃ behind, bytes = high :: low :: behind :=
      ⟨bytes.drop 2, by rw [← List.take_append_drop 2 bytes, htake]; rfl⟩
    simp only [List.drop_succ_cons, List.drop_zero] at hroom hrange
    have hcovers : c.headerLength ≤ framePrefixLength + (behind.take (length - 3)).length := by
      rw [List.length_take]
      omega
    obtain ⟨h, payload, hf, hbody⟩ := Layout.exists_of_room hcovers
    have hcovered := congrArg List.length hbody
    rw [List.length_take, List.length_append] at hcovered
    have hparts := Layout.prefix_add_header hf
    obtain rfl : length = framePrefixLength + h.header.length + payload.length := by omega
    obtain ⟨rest, rfl⟩ : ∃ rest, behind = h.header ++ (payload ++ rest) :=
      ⟨behind.drop _, by rw [← List.append_assoc, ← hbody, List.take_append_drop]⟩
    refine ⟨h, payload, rest, hf, ⟨by omega, ?_⟩, rfl, ?_⟩
    · exact (Layout.inRange_iff hf payload rest).mpr hrange
    · have hjoin := writeUInt16_join high low
      rw [joinUInt16, ← hlength] at hjoin
      rw [Layout.frame, hjoin]
      simp only [List.cons_append, List.nil_append, List.append_assoc]
  · rintro ⟨h, payload, rest, hf, hv, rfl, rfl⟩
    have hfits := hv.fits
    refine ⟨⟨_, _, rfl, ?_⟩, ?_, ?_, ?_⟩
    · simp
      omega
    · rw [← Layout.prefix_add_header hf]
      exact Nat.le_add_right _ _
    · rw [Layout.frame, List.append_assoc, List.append_assoc, drop_two_writeUInt16]
      simp only [List.length_append]
      omega
    · rw [Layout.frame, List.append_assoc, List.append_assoc, drop_two_writeUInt16]
      exact (Layout.inRange_iff hf payload rest).mp hv.inRange

theorem accept_not_inRange {h : Layout} (hf : h.framing = c.framing) (hr : ¬ h.InRange)
    (payload : Bytes) :
    ∃ index count, c.accept w (h.header ++ payload) = .error (.fragmentOutOfRange index count) := by
  cases h <;> cases c <;> simp only [Layout.framing, framing, reduceCtorEq] at hf
  case reliableFragmented.reliableFragmented id group index count inbound nextGroup =>
    refine ⟨index, count, ?_⟩
    have hrange : count ≤ index := UInt8.not_lt.mp hr
    simp only [accept, Layout.header, readInFrame, List.append_assoc, readUInt16_writeUInt16,
      List.cons_append, List.nil_append]
    simp [bind, Except.bind, hrange]
    rfl
  all_goals exact absurd trivial hr

/-- What is taken for a frame is a frame of the channel's layout. -/
theorem process_eq_ok_iff {rest : Bytes} : (∃ p, c.process w bytes = (rest, .ok p)) ↔
    ∃ (h : Layout) (payload : Bytes), h.framing = c.framing ∧ h.Valid payload ∧
      bytes = h.frame payload ++ rest := by
  constructor
  · rintro ⟨p, hp⟩
    obtain ⟨hrest, hp⟩ := Prod.mk.inj hp
    obtain ⟨body, htaken, haccept⟩ := bind_eq_ok.mp hp
    obtain ⟨length, hheader, hbody, hbytes⟩ := takeFrame_eq_ok.mp (Prod.ext hrest htaken)
    have hprefix := c.framePrefixLength_le_headerLength
    have hsmall := length.toNat_lt
    have hcovers : c.headerLength ≤ framePrefixLength + body.length := by omega
    obtain ⟨h, payload, hf, rfl⟩ := Layout.exists_of_room hcovers
    rw [List.length_append] at hbody
    refine ⟨h, payload, hf, ⟨by omega, ?_⟩, ?_⟩
    · by_cases hr : h.InRange
      · exact hr
      · obtain ⟨index, count, hrefused⟩ := accept_not_inRange (w := w) hf hr payload
        cases hrefused.symm.trans haccept
    · have hlength : framePrefixLength + h.header.length + payload.length = length.toNat := by
        omega
      rw [hbytes, Layout.frame, hlength, UInt16.ofNat_toNat, List.append_assoc, List.append_assoc,
        List.append_assoc]
  · rintro ⟨h, payload, hf, hv, rfl⟩
    obtain ⟨p, hp, -, -⟩ := accept_layout hf hv.inRange w payload
    exact ⟨p, by rw [process_frame hf hv, hp]⟩

theorem process_isOk_iff : (∃ p, (c.process w bytes).2 = .ok p) ↔
    ∃ length, c.Framed length bytes := by
  constructor
  · rintro ⟨p, hp⟩
    obtain ⟨h, payload, hf, hv, hbytes⟩ := process_eq_ok_iff.mp ⟨p, Prod.ext rfl hp⟩
    exact ⟨_, framed_iff.mpr ⟨h, payload, _, hf, hv, rfl, hbytes⟩⟩
  · rintro ⟨length, hframed⟩
    obtain ⟨h, payload, rest, hf, hv, -, hbytes⟩ := framed_iff.mp hframed
    obtain ⟨p, hp⟩ := (process_eq_ok_iff (w := w)).mpr ⟨h, payload, hf, hv, hbytes⟩
    exact ⟨p, congrArg Prod.snd hp⟩

theorem not_fault_of_takeFrame {headerLength : Nat} {rest : Bytes} {e : Error}
    (h : takeFrame headerLength bytes = (rest, .error e)) (f : Fault) : e ≠ .fault f := by
  unfold takeFrame at h
  split at h
  · rename_i hread
    cases h
    unfold readUInt16 at hread
    split at hread <;> cases hread
    exact Error.noConfusion
  · dsimp only at h
    split at h
    · cases h
      exact Error.noConfusion
    · split at h <;> cases h
      exact Error.noConfusion

theorem not_fault_of_process {e : Error} (h : (c.process w bytes).2 = .error e) (f : Fault) :
    e ≠ .fault f := by
  rcases bind_eq_error.mp h with htake | ⟨body, htake, haccept⟩
  · exact not_fault_of_takeFrame (Prod.ext rfl htake) f
  · obtain ⟨length, hheader, hbody, -⟩ := takeFrame_eq_ok.mp (Prod.ext rfl htake)
    have hcovers : c.headerLength ≤ framePrefixLength + body.length := by omega
    obtain ⟨layout, payload, hf, rfl⟩ := Layout.exists_of_room hcovers
    by_cases hr : layout.InRange
    · obtain ⟨p, hp, -, -⟩ := accept_layout hf hr w payload
      cases hp.symm.trans haccept
    · obtain ⟨index, count, hrefused⟩ := accept_not_inRange (w := w) hf hr payload
      cases hrefused.symm.trans haccept
      exact Error.noConfusion

theorem Framed.process {length : Nat} (h : c.Framed length bytes) (w : AckWindow) :
    ∃ p, c.process w bytes = (bytes.drop (2 + (length - 3)), .ok p) ∧
      ∀ behind, c.process w (bytes.take (2 + (length - 3)) ++ behind) = (behind, .ok p) := by
  obtain ⟨layout, payload, rest, hf, hv, rfl, rfl⟩ := framed_iff.mp h
  have hend : 2 + (framePrefixLength + layout.header.length + payload.length - 3) =
      (layout.frame payload).length := by
    have hframe := layout.length_frame payload
    have hprefix : framePrefixLength = 3 := rfl
    omega
  obtain ⟨p, hp, -, -⟩ := accept_layout hf hv.inRange w payload
  rw [hend, List.take_left, List.drop_left]
  refine ⟨p, ?_, ?_⟩
  · rw [process_frame hf hv, hp]
  · intro behind
    rw [process_frame hf hv, hp]

end

end Channel

/-- A channel and the window that it notes frames in, in front of the bytes that come in. -/
structure Inlet where
  channel : Channel
  window : AckWindow
  input : Bytes

namespace Inlet

def readLength : InPlace Inlet UInt16 := do
  let (length, rest) ← ofExcept (readUInt16 (← get).input)
  modify fun s => { s with input := rest }
  return length

def cut (length : Nat) : InPlace Inlet Bytes :=
  modifyGet fun s => (s.input.take length, { s with input := s.input.drop length })

def note (id : UInt16) : InPlace Inlet Bool :=
  modifyGet fun s => ((s.window.record id).2, { s with window := (s.window.record id).1 })

def put (channel : Channel) : InPlace Inlet Unit :=
  modify fun s => { s with channel }

def collect (inbound : FragmentInbox) (nextGroup group : UInt8) (base : UInt16)
    (index count : UInt8) (part : Bytes) : InPlace Inlet (List Bytes × Bool) := do
  if inbound.delivered[group]? = some base then return ([], true)
  let message := (inbound.message group base count).add index part
  let partials := inbound.partials.insert group message
  put (.reliableFragmented { inbound with partials } nextGroup)
  if message.isComplete then
    let delivered := inbound.delivered.insert group base
    put (.reliableFragmented { partials := partials.erase group, delivered } nextGroup)
    return ([← ofExcept (orFault message.assemble)], true)
  return ([], true)

def act (body : Bytes) : Channel → InPlace Inlet (List Bytes × Bool)
  | .unreliable => return ([body], false)
  | .unreliableSequenced lastIn nextOut => do
    let (position, payload) ← ofExcept (orFault (readInFrame readUInt8 body))
    if position ≤ lastIn ∧ lastIn ≠ 255 then return ([], false)
    put (.unreliableSequenced position nextOut)
    return ([payload], false)
  | .reliable => do
    let (id, payload) ← ofExcept (orFault (readInFrame readUInt16 body))
    if ← note id then return ([payload], true)
    return ([], false)
  | .reliableSequenced inbound nextOut => do
    let (id, rest) ← ofExcept (orFault (readInFrame readUInt16 body))
    let (position, payload) ← ofExcept (orFault (readInFrame readUInt8 rest))
    if ← note id then
      let (inbound, delivered) := inbound.accept position payload
      put (.reliableSequenced inbound nextOut)
      return (delivered, true)
    return ([], false)
  | .reliableFragmented inbound nextGroup => do
    let (id, rest) ← ofExcept (orFault (readInFrame readUInt16 body))
    let (group, rest) ← ofExcept (orFault (readInFrame readUInt8 rest))
    let (index, rest) ← ofExcept (orFault (readInFrame readUInt8 rest))
    let (count, part) ← ofExcept (orFault (readInFrame readUInt8 rest))
    if count ≤ index then throw (.fragmentOutOfRange index count)
    if ← note id then
      collect inbound nextGroup group (id - index.toUInt16) index count part
    else return ([], false)

def take : InPlace Inlet (List Bytes × Bool) := do
  let length ← readLength
  let s ← get
  if length.toNat < s.channel.headerLength then
    throw (.frameShorterThanHeader length.toNat s.channel.headerLength)
  if s.input.length < length.toNat - framePrefixLength then
    throw (.frameExceedsDatagram length.toNat (s.input.length + framePrefixLength))
  let body ← cut (length.toNat - framePrefixLength)
  act body s.channel

def taken (rest : Bytes) (p : Processed) : (List Bytes × Bool) × Inlet :=
  ((p.delivered, p.accepted), { channel := p.channel, window := p.window, input := rest })

theorem erase_insert {α : Type} (m : Std.ExtTreeMap UInt8 α) (key : UInt8) (value : α) :
    (m.insert key value).erase key = m.erase key := by
  apply Std.ExtTreeMap.ext_getElem?
  intro other
  simp only [Std.ExtTreeMap.getElem?_erase, Std.ExtTreeMap.getElem?_insert]
  split <;> rfl

theorem collect_eq (s : Inlet) (inbound : FragmentInbox) (nextGroup group : UInt8)
    (base : UInt16) (index count : UInt8) (part : Bytes)
    (hs : s.channel = .reliableFragmented inbound nextGroup) :
    ∃ r, inbound.accept group base index count part = .ok r ∧
      collect inbound nextGroup group base index count part s =
        .ok (r.2, true) { s with channel := .reliableFragmented r.1 nextGroup } := by
  unfold collect FragmentInbox.accept
  by_cases hspent : inbound.delivered[group]? = some base
  · rw [if_pos hspent, if_pos hspent]
    exact ⟨_, rfl, by rw [← hs]; rfl⟩
  · rw [if_neg hspent, if_neg hspent]
    by_cases hcomplete :
        ((inbound.message group base count).add index part).isComplete = true
    · have hjoined := Reassembly.assemble_of_isComplete hcomplete
      dsimp only
      rw [if_pos hcomplete, if_pos hcomplete, hjoined, erase_insert]
      exact ⟨_, rfl, rfl⟩
    · dsimp only
      rw [if_neg hcomplete, if_neg hcomplete]
      exact ⟨_, rfl, rfl⟩

theorem act_eq (s : Inlet) (body : Bytes) : act body s.channel s =
    InPlace.settle s (taken s.input) (s.channel.accept s.window body) := by
  obtain ⟨channel, window, input⟩ := s
  cases channel with
  | unreliable => rfl
  | unreliableSequenced lastIn nextOut =>
    apply InPlace.ofExcept_settle
    rintro ⟨position, payload⟩
    dsimp only
    by_cases hpassed : position ≤ lastIn ∧ lastIn ≠ 255
    · rw [if_pos hpassed, if_pos hpassed]
      rfl
    · rw [if_neg hpassed, if_neg hpassed]
      rfl
  | reliable =>
    apply InPlace.ofExcept_settle
    rintro ⟨id, payload⟩
    dsimp only [note]
    rw [InPlace.modifyGet_bind]
    dsimp only
    rcases window.record id with ⟨after, _ | _⟩ <;> rfl
  | reliableSequenced inbound nextOut =>
    apply InPlace.ofExcept_settle
    rintro ⟨id, rest⟩
    apply InPlace.ofExcept_settle
    rintro ⟨position, payload⟩
    dsimp only [note]
    rw [InPlace.modifyGet_bind]
    dsimp only
    rcases window.record id with ⟨after, _ | _⟩ <;> rfl
  | reliableFragmented inbound nextGroup =>
    apply InPlace.ofExcept_settle
    rintro ⟨id, rest⟩
    apply InPlace.ofExcept_settle
    rintro ⟨group, rest⟩
    apply InPlace.ofExcept_settle
    rintro ⟨index, rest⟩
    apply InPlace.ofExcept_settle
    rintro ⟨count, part⟩
    dsimp only [note]
    by_cases hrange : count ≤ index
    · rw [if_pos hrange, if_pos hrange]
      rfl
    · rw [if_neg hrange, if_neg hrange, InPlace.modifyGet_bind]
      dsimp only
      rcases window.record id with ⟨after, _ | _⟩
      · rfl
      · obtain ⟨r, hr, hcollect⟩ := collect_eq
          { channel := .reliableFragmented inbound nextGroup, window := after, input } inbound
          nextGroup group (id - index.toUInt16) index count part rfl
        dsimp only
        rw [hr]
        exact hcollect

theorem readLength_error {s : Inlet} {e : Error} (h : readUInt16 s.input = .error e) :
    readLength s = .error e s := by
  rw [readLength, InPlace.get_bind, h]
  rfl

theorem readLength_ok {s : Inlet} {length : UInt16} {rest : Bytes}
    (h : readUInt16 s.input = .ok (length, rest)) :
    readLength s = .ok length { s with input := rest } := by
  rw [readLength, InPlace.get_bind, InPlace.ofExcept_bind h]
  rfl

/-- Changing channel and window in place comes to the same as giving new ones, and a refused
frame takes nothing with it but its length. -/
theorem take_eq (s : Inlet) : take s =
    InPlace.settle { s with input := (s.channel.process s.window s.input).1 }
      (taken (s.channel.process s.window s.input).1) (s.channel.process s.window s.input).2 := by
  obtain ⟨channel, window, input⟩ := s
  unfold take Channel.process takeFrame
  cases hread : readUInt16 input with
  | error e => exact InPlace.bind_refused (readLength_error hread) _
  | ok r =>
    obtain ⟨length, rest⟩ := r
    rw [InPlace.bind_done (readLength_ok hread), InPlace.get_bind]
    dsimp only
    by_cases hshort : length.toNat < channel.headerLength
    · rw [if_pos hshort, if_pos hshort]
      rfl
    rw [if_neg hshort, if_neg hshort, List.length_take]
    by_cases hlong : rest.length < length.toNat - framePrefixLength
    · rw [if_pos hlong, if_pos (by omega)]
      rfl
    · rw [if_neg hlong, if_neg (by omega)]
      exact act_eq { channel, window, input := rest.drop (length.toNat - framePrefixLength) }
        (rest.take (length.toNat - framePrefixLength))

end Inlet

/-- Exactly the bytes that start with a frame in the channel's layout are taken, up to the end of
that frame. A frame that is refused changes nothing. -/
theorem frame_taken_whole_or_refused (c : Channel) (w : AckWindow) (bytes : Bytes) :
    ((∃ p, (c.process w bytes).2 = .ok p) ↔ ∃ length, c.Framed length bytes) ∧
      (∀ length, c.Framed length bytes →
        ∃ p, c.process w bytes = (bytes.drop (2 + (length - 3)), .ok p) ∧
          ∀ behind, c.process w (bytes.take (2 + (length - 3)) ++ behind) = (behind, .ok p)) ∧
      (∀ rest p, c.process w bytes = (rest, .ok p) →
        Inlet.take { channel := c, window := w, input := bytes } = .ok (p.delivered, p.accepted)
          { channel := p.channel, window := p.window, input := rest }) ∧
      ∀ e, (c.process w bytes).2 = .error e → (∀ f, e ≠ .fault f) ∧
        ∃ left, Inlet.take { channel := c, window := w, input := bytes } = .error e left ∧
          left.channel = c ∧ left.window = w := by
  refine ⟨Channel.process_isOk_iff, fun length h => h.process w, ?_, ?_⟩
  · intro rest p hp
    rw [Inlet.take_eq]
    dsimp only
    rw [hp]
    rfl
  · intro e he
    refine ⟨Channel.not_fault_of_process he, ⟨c, w, (c.process w bytes).1⟩, ?_, rfl, rfl⟩
    rw [Inlet.take_eq]
    dsimp only
    rw [show c.process w bytes = ((c.process w bytes).1, .error e) from Prod.ext rfl he]
    rfl

end DatagramTransport
