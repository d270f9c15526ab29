import DatagramTransport.Proofs.Channel.Prepared
import DatagramTransport.Proofs.Connection.Emission

/-!
# The effect of sending

A message is refused and leaves no trace, or its frames go out in one
datagram each. The reliable ones are then kept under the ids they drew;
what was kept under other ids stays.
-/

set_option autoImplicit false

namespace DatagramTransport

def keepFrames (channel : UInt8) (pending : Std.ExtTreeMap UInt16 Transfer) :
    List Frame → Std.ExtTreeMap UInt16 Transfer
  | [] => pending
  | f :: fs => keepFrames channel
      (match f.messageId with
        | some id => pending.insert id { channel, frame := f.bytes }
        | none => pending) fs

section
variable {channel : UInt8} {pending : Std.ExtTreeMap UInt16 Transfer} {frames : List Frame}

theorem getElem?_keepFrames_of_not_mem {id : UInt16}
    (h : ∀ f ∈ frames, f.messageId ≠ some id) :
    (keepFrames channel pending frames)[id]? = pending[id]? := by
  induction frames generalizing pending with
  | nil => rfl
  | cons f fs ih =>
    rw [keepFrames, ih fun g hg => h g (List.mem_cons_of_mem _ hg)]
    cases hf : f.messageId with
    | none => rfl
    | some other =>
      have hne : other ≠ id := fun he => h f (by simp) (by rw [hf, he])
      simp [Std.ExtTreeMap.getElem?_insert, hne]

theorem getElem?_keepFrames_of_mem {f : Frame} {id : UInt16} (hf : f ∈ frames)
    (hid : f.messageId = some id) (hu : (frames.filterMap Frame.messageId).Nodup) :
    (keepFrames channel pending frames)[id]? = some { channel, frame := f.bytes } := by
  induction frames generalizing pending with
  | nil => cases hf
  | cons g fs ih =>
    rw [keepFrames]
    rcases List.mem_cons.mp hf with rfl | hf
    · rw [List.filterMap_cons_some hid] at hu
      have hlater : ∀ k ∈ fs, k.messageId ≠ some id := by
        intro k hk he
        exact (List.nodup_cons.mp hu).1 (List.mem_filterMap.mpr ⟨k, hk, he⟩)
      rw [getElem?_keepFrames_of_not_mem hlater, hid]
      simp
    · apply ih hf
      cases hg : g.messageId with
      | none => rwa [List.filterMap_cons_none hg] at hu
      | some other =>
        rw [List.filterMap_cons_some hg] at hu
        exact (List.nodup_cons.mp hu).2

theorem size_keepFrames (hu : (frames.filterMap Frame.messageId).Nodup)
    (hnew : ∀ f ∈ frames, ∀ id, f.messageId = some id → pending[id]? = none) :
    (keepFrames channel pending frames).size =
      pending.size + (frames.filterMap Frame.messageId).length := by
  induction frames generalizing pending with
  | nil => rfl
  | cons f fs ih =>
    rw [List.forall_mem_cons] at hnew
    rw [keepFrames]
    cases hf : f.messageId with
    | none =>
      rw [List.filterMap_cons_none hf] at hu ⊢
      exact ih hu hnew.2
    | some id =>
      rw [List.filterMap_cons_some hf] at hu ⊢
      obtain ⟨hid, hu⟩ := List.nodup_cons.mp hu
      have hout : ¬ pending.contains id = true := by
        rw [Std.ExtTreeMap.contains_eq_isSome_getElem?, hnew.1 id hf]
        exact Bool.false_ne_true
      dsimp only
      rw [ih hu ?_, Std.ExtTreeMap.size_insert, if_neg hout, List.length_cons]
      · omega
      · intro g hg other hother
        have hne : id ≠ other := by
          rintro rfl
          exact hid (List.mem_filterMap.mpr ⟨g, hg, hother⟩)
        simpa [Std.ExtTreeMap.getElem?_insert, hne] using hnew.2 g hg other hother

theorem eq_of_getElem?_keepFrames {id : UInt16} {t : Transfer}
    (h : (keepFrames channel pending frames)[id]? = some t) :
    (∃ f ∈ frames, f.messageId = some id ∧ t = { channel, frame := f.bytes }) ∨
      pending[id]? = some t := by
  induction frames generalizing pending with
  | nil => exact .inr h
  | cons f fs ih =>
    rcases ih h with ⟨g, hg, hid, rfl⟩ | hp
    · exact .inl ⟨g, List.mem_cons_of_mem _ hg, hid, rfl⟩
    · cases hf : f.messageId with
      | none =>
        rw [hf] at hp
        exact .inr hp
      | some other =>
        rw [hf] at hp
        by_cases he : other = id
        · subst he
          have ht : some { channel, frame := f.bytes } = some t := by simpa using hp
          exact .inl ⟨f, by simp, hf, (Option.some.inj ht).symm⟩
        · exact .inr (by simpa [Std.ExtTreeMap.getElem?_insert, he] using hp)

end

namespace Connection

def sent (c : Connection) (channel : UInt8) (p : Prepared) : Step (Except Error Unit) where
  connection :=
    { c with
      channels := c.channels.set channel.toNat p.channel
      nextMessage := p.nextMessage
      pending := keepFrames channel c.pending p.frames
      nextPacket := c.nextPacket + .ofNat p.frames.length }
  emitted := c.datagrams (p.frames.map fun f => some { channel, frame := f.bytes })
  answer := .ok ()

theorem filterMap_emitted_sent (c : Connection) (channel : UInt8) (p : Prepared) :
    (c.sent channel p).emitted.filterMap Transfer.ofDatagram? =
      p.frames.map fun f => { channel, frame := f.bytes } := by
  calc (c.sent channel p).emitted.filterMap Transfer.ofDatagram?
    _ = ((c.sent channel p).emitted.map Transfer.ofDatagram?).filterMap id := by
      rw [List.filterMap_map, Function.id_comp]
    _ = (p.frames.map fun f => some { channel, frame := f.bytes }).filterMap id := by
      rw [sent, map_ofDatagram?_datagrams]
    _ = p.frames.map fun f => { channel, frame := f.bytes } := by
      simp [List.filterMap_map]

theorem retain_eq (c : Connection) (channel : UInt8) (f : Frame) :
    c.retain channel f = { c with pending := keepFrames channel c.pending [f] } := by
  unfold retain
  split
  · rename_i id hid
    simp [keepFrames, hid]
  · rename_i hid
    simp [keepFrames, hid]

theorem transmit_eq {channel : UInt8} {c : Connection} (h : c.Short) {frames : List Frame}
    (hok : (transmit channel c frames).answer = .ok ()) :
    transmit channel c frames =
      { connection :=
          { c with
            pending := keepFrames channel c.pending frames
            nextPacket := c.nextPacket + .ofNat frames.length }
        emitted := c.datagrams (frames.map fun f => some { channel, frame := f.bytes })
        answer := .ok () } := by
  induction frames generalizing c with
  | nil => simp [transmit, keepFrames, datagrams]
  | cons f fs ih =>
    have hs : (c.retain channel f).Short := by
      rw [retain_eq]
      exact ⟨h.window, h.config⟩
    rw [transmit] at hok ⊢
    dsimp only at hok ⊢
    split at hok
    · cases hok
    · rename_i d datagram hd
      obtain ⟨rfl, rfl⟩ := packet_ok hs hd
      rw [ih (hs.advance 1) hok, retain_eq]
      simp only [List.map_cons, datagrams, Step.mk.injEq, and_true]
      constructor
      · simp [advance, keepFrames, UInt16.add_assoc, UInt16.add_comm 1]
      · congr 1
        apply datagrams_congr <;> rfl

theorem transmit_answer {channel : UInt8} {c : Connection} (h : c.Short) (frames : List Frame) :
    (transmit channel c frames).answer = .ok () ∨
      (transmit channel c frames).answer = .error (.fault .capacityOverflow) := by
  induction frames generalizing c with
  | nil => exact .inl rfl
  | cons f fs ih =>
    have hs : (c.retain channel f).Short := by
      rw [retain_eq]
      exact ⟨h.window, h.config⟩
    rw [transmit]
    dsimp only
    split
    · rename_i e he
      exact .inr (congrArg Except.error (packet_error hs he))
    · rename_i d datagram hd
      obtain ⟨rfl, -⟩ := packet_ok hs hd
      exact ih (hs.advance 1)

theorem send_cases {c : Connection} (h : c.Short) {channel : UInt8} {message : Bytes}
    (hf : ∀ f, (c.send channel message).answer ≠ .error (.fault f)) :
    (∃ e, c.send channel message = { connection := c, emitted := [], answer := .error e }) ∨
      ∃ p, c.checkSend (c.channelAt channel) message = .ok () ∧
        (c.channelAt channel).prepare message c.nextMessage = .ok p ∧
        c.send channel message = c.sent channel p := by
  unfold send at hf ⊢
  dsimp only at hf ⊢
  split at hf
  · exact .inl ⟨_, rfl⟩
  · exact .inl ⟨_, rfl⟩
  · rename_i p hc hp
    have hs : Short { c with
        channels := c.channels.set channel.toNat p.channel, nextMessage := p.nextMessage } :=
      ⟨h.window, h.config⟩
    rcases transmit_answer hs p.frames with hok | he
    · refine .inr ⟨p, hc, hp, ?_⟩
      rw [transmit_eq hs hok]
      simp only [sent, Step.mk.injEq, and_true, true_and]
      apply datagrams_congr <;> rfl
    · exact absurd he (hf _)

end Connection

end DatagramTransport
