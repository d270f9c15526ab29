import DatagramTransport.Proofs.Channel.Fragments
import DatagramTransport.Proofs.Channel.Prepared
import DatagramTransport.Proofs.Connection.Receiving

/-!
# Channels in step

If every frame arrives once and in order, the receiving channel awaits the
very position that the sending one gives next, holds nothing back, and has
delivered no message with a base that is yet to come. The window took note of
all ids that were drawn, and of no other. A message whose frames are taken
then comes out as it was, and leaves both sides in step again, also where
positions and group ids wrap.
-/

set_option autoImplicit false

namespace DatagramTransport

def takeBodies (channels : List Channel) (window : AckWindow) : List Bytes → Except Fault Intake
  | [] => .ok { channels, window, messages := [], accepted := false }
  | body :: bodies => do
    let first ← takeFrames channels window body
    let later ← takeBodies first.channels first.window bodies
    return { later with
      messages := first.messages ++ later.messages
      accepted := first.accepted || later.accepted }

section
variable {channels : List Channel} {window : AckWindow} {body : Bytes} {bodies later : List Bytes}
  {first last : Intake}

theorem takeBodies_cons (hfirst : takeFrames channels window body = .ok first)
    (hlast : takeBodies first.channels first.window bodies = .ok last) :
    takeBodies channels window (body :: bodies) =
      .ok { last with
        messages := first.messages ++ last.messages
        accepted := first.accepted || last.accepted } := by
  rw [takeBodies]
  exact bind_eq_ok.mpr ⟨first, hfirst, bind_eq_ok.mpr ⟨last, hlast, rfl⟩⟩

theorem takeBodies_singleton (h : takeFrames channels window body = .ok first) :
    takeBodies channels window [body] = .ok first := by
  have hnone : takeBodies first.channels first.window [] = .ok
      { channels := first.channels, window := first.window, messages := [], accepted := false } :=
    rfl
  rw [takeBodies_cons h hnone]
  simp

theorem takeBodies_append (hfirst : takeBodies channels window bodies = .ok first)
    (hlast : takeBodies first.channels first.window later = .ok last) :
    takeBodies channels window (bodies ++ later) =
      .ok { last with
        messages := first.messages ++ last.messages
        accepted := first.accepted || last.accepted } := by
  induction bodies generalizing channels window first with
  | nil =>
    cases hfirst
    simpa using hlast
  | cons body bodies ih =>
    obtain ⟨taken, htaken, hfirst⟩ := bind_eq_ok.mp hfirst
    obtain ⟨rest, hrest, hfirst⟩ := bind_eq_ok.mp hfirst
    cases hfirst
    rw [List.cons_append, takeBodies_cons htaken (ih hrest hlast)]
    simp only [List.append_assoc, Bool.or_assoc]

end

def firstIds (n : Nat) : List UInt16 :=
  (List.range n).map idAt

theorem firstIds_succ (n : Nat) : firstIds (n + 1) = firstIds n ++ [idAt n] := by
  rw [firstIds, List.range_succ, List.map_append]
  rfl

theorem mem_firstIds {n : Nat} {id : UInt16} : id ∈ firstIds n ↔ ∃ k < n, idAt k = id := by
  simp [firstIds]

theorem idAt_not_mem_firstIds {n : Nat} (h : n < 65535) : idAt n ∉ firstIds n := by
  intro hmem
  obtain ⟨k, hk, heq⟩ := mem_firstIds.mp hmem
  have := idAt_inj (by omega) h heq
  omega

theorem AckWindow.Tracks.record_idAt {w : AckWindow} {n : Nat} (h : w.Tracks (firstIds n))
    (hn : n < 65535) : (w.record (idAt n)).2 = true ∧
      (w.record (idAt n)).1.Tracks (firstIds (n + 1)) := by
  constructor
  · exact h.record_new (idAt_ne_zero hn) (idAt_not_mem_firstIds hn)
  · rw [firstIds_succ]
    exact tracks_record h _

namespace Channel

/-- The receiving channel awaits what the sending one gives next, when all
frames that were sent have been taken, of which this many had ids. -/
inductive InStep (n : Nat) : Channel → Channel → Prop
  | unreliable : InStep n unreliable unreliable
  | unreliableSequenced (lastIn position nextOut : UInt8) :
    InStep n (unreliableSequenced lastIn (position + 1)) (unreliableSequenced position nextOut)
  | reliable : InStep n reliable reliable
  | reliableSequenced (inbound : Reorder) (position nextOut : UInt8) :
    InStep n (reliableSequenced inbound position)
      (reliableSequenced { next := position, held := ∅ } nextOut)
  | reliableFragmented (inbound : FragmentInbox) (group nextGroup : UInt8)
    (delivered : Std.ExtTreeMap UInt8 UInt16)
    (past : ∀ (other : UInt8) (base : UInt16), delivered[other]? = some base →
      base ∈ firstIds n) :
    InStep n (reliableFragmented inbound group)
      (reliableFragmented { partials := ∅, delivered } nextGroup)

theorem inStep_ofQos (q : Qos) : (ofQos q).InStep 0 (ofQos q) := by
  cases q with
  | unreliable => exact .unreliable
  | unreliableSequenced => exact .unreliableSequenced 0 0 1
  | reliable => exact .reliable
  | reliableFragmented => exact .reliableFragmented _ _ _ _ (by simp)
  | reliableSequenced => exact .reliableSequenced _ _ _
  | allCostDelivery => exact .reliable

theorem InStep.mono {n m : Nat} {c d : Channel} (h : c.InStep n d) (hnm : n ≤ m) :
    c.InStep m d := by
  cases h with
  | unreliable => exact .unreliable
  | unreliableSequenced lastIn position nextOut => exact .unreliableSequenced _ _ _
  | reliable => exact .reliable
  | reliableSequenced inbound position nextOut => exact .reliableSequenced _ _ _
  | reliableFragmented inbound group nextGroup delivered past =>
    refine .reliableFragmented _ _ _ _ fun other base hbase => ?_
    obtain ⟨k, hk, heq⟩ := mem_firstIds.mp (past other base hbase)
    exact mem_firstIds.mpr ⟨k, by omega, heq⟩

theorem accept_unreliableSequenced (lastIn nextOut position : UInt8) (w : AckWindow)
    (payload : Bytes) :
    (unreliableSequenced lastIn nextOut).accept w
        ((Layout.unreliableSequenced position).header ++ payload) =
      .ok (if position ≤ lastIn ∧ lastIn ≠ 255 then
        { channel := unreliableSequenced lastIn nextOut, window := w, delivered := []
          accepted := false }
      else { channel := unreliableSequenced position nextOut, window := w
             delivered := [payload], accepted := false }) := by
  by_cases hpast : position ≤ lastIn ∧ lastIn ≠ 255
  · rw [if_pos hpast]
    exact if_pos hpast
  · rw [if_neg hpast]
    exact if_neg hpast

theorem not_passed (position : UInt8) : ¬ (position + 1 ≤ position ∧ position ≠ 255) := by
  rintro ⟨hle, hne⟩
  rw [UInt8.le_iff_toNat_le, UInt8.toNat_add] at hle
  rw [ne_eq, ← UInt8.toNat_inj] at hne
  have hlt := position.toNat_lt
  have hone : (1 : UInt8).toNat = 1 := rfl
  have hlast : (255 : UInt8).toNat = 255 := rfl
  omega

theorem accept_awaited (position : UInt8) (payload : Bytes) :
    Reorder.accept { next := position, held := ∅ } position payload =
      ({ next := position + 1, held := ∅ }, [payload]) := by
  have hrelease : Reorder.release { next := position + 1, held := ∅ } =
      ({ next := position + 1, held := ∅ }, []) :=
    Reorder.release_of_none Std.ExtTreeMap.getElem?_empty
  rw [Reorder.accept, if_pos rfl, hrelease]

section
variable {channels : List Channel} {window : AckWindow} {id : UInt8} {n : Nat}

variable {parts : List Bytes} {group nextGroup : UInt8} {i : Nat}
  {partials : Std.ExtTreeMap UInt8 Reassembly} {delivered : Std.ExtTreeMap UInt8 UInt16}

theorem takeFrames_fragment (hsize : parts.length ≤ maxFragments) {part : Bytes}
    (hpart : parts[i]? = some part) (hfits : framePrefixLength + 5 + part.length < 65536)
    (hn : n + parts.length ≤ 65535) (hnew : delivered[group]? ≠ some (idAt n))
    (hc : channels[id.toNat]? = some (reliableFragmented { partials, delivered } nextGroup))
    (hopen : FragmentInbox.message { partials, delivered } group (idAt n)
      (.ofNat parts.length) = .filled (idAt n) parts fun j => decide (j < i))
    (hw : window.Tracks (firstIds (n + i))) :
    takeFrames channels window (id :: (Layout.reliableFragmented (idAt n + .ofNat i) group
        (.ofNat i) (.ofNat parts.length)).frame part) =
      .ok { channels := channels.set id.toNat (reliableFragmented
              (if i + 1 = parts.length then
                { partials := partials.erase group
                  delivered := delivered.insert group (idAt n) }
              else
                { partials := partials.insert group
                    (.filled (idAt n) parts fun j => decide (j < i + 1))
                  delivered }) nextGroup)
            window := (window.record (idAt (n + i))).1
            messages := if i + 1 = parts.length then [⟨id, parts.flatten⟩] else []
            accepted := true } := by
  have hlimit : maxFragments = 255 := rfl
  obtain ⟨hlt, -⟩ := List.getElem?_eq_some_iff.mp hpart
  have hbyte : i < 256 := by omega
  have hindex : (UInt8.ofNat i).toNat = i := UInt8.toNat_ofNat_of_lt' hbyte
  have hv : (Layout.reliableFragmented (idAt n + .ofNat i) group (.ofNat i)
      (.ofNat parts.length)).Valid part := by
    refine ⟨by simpa [Layout.header] using hfits, ?_⟩
    simp only [Layout.InRange, UInt8.lt_iff_toNat_lt, UInt8.toNat_ofNat']
    omega
  obtain ⟨r, hr, haccept⟩ := accept_reliableFragmented { partials, delivered } nextGroup
    (idAt n + .ofNat i) group hv.inRange window part
  have hcame : (fun j => decide (j < i) || decide (j = (UInt8.ofNat i).toNat)) =
      fun j => decide (j < i + 1) := by
    funext j
    rw [hindex, ← Bool.decide_or]
    exact decide_eq_decide.mpr (by omega)
  have hlast : (∀ j < parts.length, (decide (j < i) || decide (j = (UInt8.ofNat i).toNat)) = true) ↔
      i + 1 = parts.length := by
    simp only [congrFun hcame, decide_eq_true_eq]
    constructor
    · intro hall
      have := hall (parts.length - 1) (by omega)
      omega
    · intro heq j hj
      omega
  rw [base_of_index _ hbyte, FragmentInbox.accept_part (by rwa [hindex]) hopen, if_neg hnew,
    hcame] at hr
  simp only [hlast] at hr
  cases hr
  rw [idAt_add, if_pos (hw.record_idAt (by omega)).1] at haccept
  rw [idAt_add] at hv ⊢
  rw [takeFrames_frame hc rfl hv haccept]
  split <;> simp

theorem takeBodies_fragments (hsize : parts.length ≤ maxFragments)
    (hparts : ∀ part ∈ parts, framePrefixLength + 5 + part.length < 65536)
    (hn : n + parts.length ≤ 65535) (hnew : delivered[group]? ≠ some (idAt n))
    (hi : i < parts.length)
    (hc : channels[id.toNat]? = some (reliableFragmented { partials, delivered } nextGroup))
    (hopen : FragmentInbox.message { partials, delivered } group (idAt n)
      (.ofNat parts.length) = .filled (idAt n) parts fun j => decide (j < i))
    (hw : window.Tracks (firstIds (n + i))) :
    ∃ window', takeBodies channels window ((parts.mapIdx fun k part =>
          id :: (Layout.reliableFragmented (idAt n + .ofNat k) group (.ofNat k)
            (.ofNat parts.length)).frame part).drop i) =
        .ok { channels := channels.set id.toNat (reliableFragmented
                { partials := partials.erase group
                  delivered := delivered.insert group (idAt n) } nextGroup)
              window := window', messages := [⟨id, parts.flatten⟩], accepted := true } ∧
      window'.Tracks (firstIds (n + parts.length)) := by
  have hlimit : maxFragments = 255 := rfl
  induction hleft : parts.length - i generalizing i partials channels window with
  | zero => omega
  | succ left ih =>
    obtain ⟨-, hw'⟩ := hw.record_idAt (by omega)
    have hfirst := takeFrames_fragment hsize (List.getElem?_eq_getElem hi)
      (hparts _ (List.getElem_mem hi)) hn hnew hc hopen hw
    rw [List.drop_eq_getElem_cons (by simpa using hi), List.getElem_mapIdx]
    by_cases hlast : i + 1 = parts.length
    · rw [List.drop_of_length_le (by simp [hlast]), takeBodies_singleton hfirst]
      simp only [hlast, if_true]
      refine ⟨_, rfl, ?_⟩
      rwa [Nat.add_assoc, hlast] at hw'
    · simp only [hlast, if_false] at hfirst
      obtain ⟨hlt, -⟩ := List.getElem?_eq_some_iff.mp hc
      have hbelongs : (Reassembly.filled (idAt n) parts fun j => decide (j < i + 1)).belongs
          (idAt n) (.ofNat parts.length) = true :=
        Reassembly.belongs_filled.mpr
          ⟨rfl, (UInt8.toNat_ofNat_of_lt' (Nat.lt_of_le_of_lt hsize (by decide))).symm⟩
      have hopen' : FragmentInbox.message
          { partials := partials.insert group (.filled (idAt n) parts fun j => decide (j < i + 1))
            delivered } group (idAt n) (.ofNat parts.length) =
          .filled (idAt n) parts fun j => decide (j < i + 1) := by
        simp only [FragmentInbox.message, Std.ExtTreeMap.getElem?_insert_self, hbelongs, if_true]
      obtain ⟨window', hrest, htracks⟩ := ih (i := i + 1) (by omega)
        (List.getElem?_set_self hlt) hopen' (by rwa [Nat.add_assoc] at hw') (by omega)
      refine ⟨window', ?_, htracks⟩
      rw [takeBodies_cons hfirst hrest]
      have herase : (partials.insert group
          (.filled (idAt n) parts fun j => decide (j < i + 1))).erase group =
            partials.erase group := by
        apply Std.ExtTreeMap.ext_getElem?
        intro other
        by_cases hother : group = other
        · simp [hother]
        · simp [Std.ExtTreeMap.getElem?_erase, Std.ExtTreeMap.getElem?_insert, hother]
      simp only [List.set_set, herase, List.nil_append, Bool.or_self]

theorem takeBodies_whole {d d' : Channel} {layout : Layout} {message : Bytes} {w : AckWindow}
    {accepted : Bool} (hc : channels[id.toNat]? = some d) (hf : layout.framing = d.framing)
    (hv : layout.Valid message) (haccept : d.accept window (layout.header ++ message) =
      .ok { channel := d', window := w, delivered := [message], accepted }) :
    takeBodies channels window ([{ messageId := layout.messageId
                                   bytes := layout.frame message }].map
        fun f : Frame => id :: f.bytes) =
      .ok { channels := channels.set id.toNat d', window := w, messages := [⟨id, message⟩]
            accepted } :=
  takeBodies_singleton (takeFrames_frame hc hf hv haccept)

/-- A fragmenting channel that has come through all that was sent takes the next
message in one go, whatever its length. -/
theorem message_fragmented {inbound : FragmentInbox} (past : ∀ (other : UInt8) (base : UInt16),
      delivered[other]? = some base → base ∈ firstIds n)
    (hc : channels[id.toNat]? = some (reliableFragmented { partials := ∅, delivered } nextGroup))
    (hw : window.Tracks (firstIds n)) {message : Bytes} {p : Prepared}
    (hp : (reliableFragmented inbound group).prepare message (idAt n) = .ok p)
    (hbound : n + p.frames.length ≤ 65535) :
    ∃ d' window' accepted, takeBodies channels window (p.frames.map fun f => id :: f.bytes) =
        .ok { channels := channels.set id.toNat d', window := window', messages := [⟨id, message⟩]
              accepted } ∧
      p.channel.InStep (n + p.frames.length) d' ∧
      window'.Tracks (firstIds (n + p.frames.length)) := by
  obtain ⟨hcount, hchannel, -, hframes, hparts⟩ := prepare_reliableFragmented hp
  have hpos := fragmentCount_pos message.length
  have hsize := length_fragments (fragmentCount message.length) message
  have hflatten := flatten_fragments_fragmentCount message
  generalize fragments (fragmentCount message.length) message = parts at *
  rw [← hsize] at hframes hcount hpos
  have hlength : p.frames.length = parts.length := by rw [hframes, List.length_mapIdx]
  rw [hlength] at hbound ⊢
  have hnew : delivered[group]? ≠ some (idAt n) := fun hold =>
    idAt_not_mem_firstIds (by omega) (past group _ hold)
  have hopen : FragmentInbox.message { partials := ∅, delivered } group (idAt n)
      (.ofNat parts.length) = .filled (idAt n) parts fun j => decide (j < 0) := by
    have hstart : Reassembly.start (idAt n) (.ofNat parts.length) =
        .filled (idAt n) parts fun _ => false :=
      Reassembly.start_eq_filled
        (UInt8.toNat_ofNat_of_lt' (Nat.lt_of_le_of_lt hcount (by decide)))
    simp [FragmentInbox.message, hstart]
  obtain ⟨window', htake, htracks⟩ :=
    takeBodies_fragments hcount hparts hbound hnew hpos hc hopen hw
  have hbodies : (p.frames.map fun f => id :: f.bytes) = (parts.mapIdx fun k part =>
      id :: (Layout.reliableFragmented (idAt n + .ofNat k) group (.ofNat k)
        (.ofNat parts.length)).frame part).drop 0 := by
    rw [hframes, List.drop_zero]
    apply List.ext_getElem?
    intro k
    simp [List.getElem?_mapIdx, Function.comp_def]
  have hempty : (∅ : Std.ExtTreeMap UInt8 Reassembly).erase group = ∅ := by
    apply Std.ExtTreeMap.ext_getElem?
    intro other
    simp
  rw [hbodies, htake, hempty, hflatten, hchannel]
  refine ⟨_, _, _, rfl, .reliableFragmented _ _ _ _ fun other base hbase => ?_, htracks⟩
  simp only [Std.ExtTreeMap.getElem?_insert] at hbase
  split at hbase
  · cases hbase
    exact mem_firstIds.mpr ⟨n, Nat.lt_add_of_pos_right hpos, rfl⟩
  · obtain ⟨k, hk, heq⟩ := mem_firstIds.mp (past other base hbase)
    exact mem_firstIds.mpr ⟨k, Nat.lt_add_right _ hk, heq⟩

/-- The frames of a message give the message, and leave the channels in step. -/
theorem InStep.message {c d : Channel} (h : c.InStep n d) (hc : channels[id.toNat]? = some d)
    (hw : window.Tracks (firstIds n)) {message : Bytes} {p : Prepared}
    (hp : c.prepare message (idAt n) = .ok p) {m : Nat}
    (hm : m = n + if c.framing.isReliable then p.frames.length else 0) (hbound : m ≤ 65535) :
    ∃ d' window' accepted, takeBodies channels window (p.frames.map fun f => id :: f.bytes) =
        .ok { channels := channels.set id.toNat d', window := window', messages := [⟨id, message⟩]
              accepted } ∧
      p.channel.InStep m d' ∧ window'.Tracks (firstIds m) := by
  subst hm
  cases h with
  | unreliable =>
    obtain ⟨frames, hf, h⟩ := bind_eq_ok.mp hp
    cases h
    obtain ⟨hv, rfl⟩ := (wholeFrame_eq_ok (h := .unreliable) trivial).mp hf
    exact ⟨_, _, _, takeBodies_whole hc rfl hv rfl, .unreliable, hw⟩
  | unreliableSequenced lastIn position nextOut =>
    obtain ⟨frames, hf, h⟩ := bind_eq_ok.mp hp
    cases h
    obtain ⟨hv, rfl⟩ := (wholeFrame_eq_ok (h := .unreliableSequenced (position + 1)) trivial).mp hf
    have haccept := accept_unreliableSequenced position nextOut (position + 1) window message
    rw [if_neg (not_passed position)] at haccept
    exact ⟨_, _, _, takeBodies_whole hc rfl hv haccept, .unreliableSequenced _ _ _, hw⟩
  | reliable =>
    obtain ⟨hv, rfl⟩ := prepare_reliable.mp hp
    obtain ⟨hrecord, hw'⟩ := hw.record_idAt (Nat.lt_of_lt_of_le (Nat.lt_succ_self n) hbound)
    have haccept : Channel.reliable.accept window
        ((Layout.reliable (idAt n)).header ++ message) = _ := accept_reliable (idAt n)
    rw [hrecord, if_pos rfl] at haccept
    exact ⟨_, _, _, takeBodies_whole hc rfl hv haccept, .reliable, hw'⟩
  | reliableSequenced inbound position nextOut =>
    obtain ⟨hv, rfl⟩ := prepare_reliableSequenced.mp hp
    obtain ⟨hrecord, hw'⟩ := hw.record_idAt (Nat.lt_of_lt_of_le (Nat.lt_succ_self n) hbound)
    have haccept : (Channel.reliableSequenced { next := position, held := ∅ } nextOut).accept window
        ((Layout.reliableSequenced (idAt n) position).header ++ message) = _ :=
      accept_reliableSequenced { next := position, held := ∅ } nextOut (idAt n) position
    rw [if_pos hrecord, accept_awaited] at haccept
    exact ⟨_, _, _, takeBodies_whole hc rfl hv haccept, .reliableSequenced _ _ _, hw'⟩
  | reliableFragmented inbound group nextGroup delivered past =>
    exact message_fragmented past hc hw hp hbound

end

end Channel

end DatagramTransport
