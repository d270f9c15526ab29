import DatagramTransport.Proofs.Channel.Grammar
import DatagramTransport.Proofs.Channel.Joining

/-!
# Messages that are being put together

What a peer writes into its fragments is arbitrary: counts and bases may
contradict each other, and group ids are used again at any time. Whatever
comes, a message that a fragmenting channel keeps has some of its parts but not
all, at least two are expected, none is kept under an index beyond the count,
and it is not the message that was delivered last under its group id.
-/

set_option autoImplicit false

namespace DatagramTransport

structure KeyedInbox.Open (b : KeyedInbox) (group : UInt8) (k : KeyedParts) : Prop where
  begun : ∃ index, index ∈ k.parts
  incomplete : k.isComplete = false
  several : 2 ≤ k.count
  within : k.Within
  undelivered : b.delivered[group]? ≠ some k.base

def KeyedInbox.Tidy (b : KeyedInbox) : Prop :=
  ∀ (group : UInt8) (k : KeyedParts), b.partials[group]? = some k → b.Open group k

structure FragmentInbox.Open (b : FragmentInbox) (group : UInt8) (r : Reassembly) : Prop where
  begun : ∃ part, some part ∈ r.parts
  incomplete : r.isComplete = false
  several : 2 ≤ r.parts.length
  undelivered : b.delivered[group]? ≠ some r.base

def FragmentInbox.Tidy (b : FragmentInbox) : Prop :=
  ∀ (group : UInt8) (r : Reassembly), b.partials[group]? = some r → b.Open group r

def Fragment.InRange (f : Fragment) : Prop := f.index < f.count

namespace KeyedParts

section
variable {k : KeyedParts}

theorem belongs_iff {base : UInt16} {count : UInt8} :
    k.belongs base count = true ↔ k.base = base ∧ k.count = count := by
  rw [belongs, Bool.and_eq_true, beq_iff_eq, beq_iff_eq]

theorem Within.size_le (h : k.Within) : k.parts.size ≤ k.count.toNat := by
  have hlength := ((nodup_keys _).subperm h.keys_subset).length_le
  rwa [Std.ExtTreeMap.length_keys, length_indices] at hlength

theorem Within.two_le_count (h : k.Within) (hbegun : ∃ index, index ∈ k.parts)
    (hincomplete : k.isComplete = false) : 2 ≤ k.count := by
  obtain ⟨index, hindex⟩ := hbegun
  have hpos : k.parts.size ≠ 0 := by
    rw [Ne, ← Std.ExtTreeMap.eq_empty_iff_size_eq_zero]
    rintro hempty
    simp [hempty] at hindex
  have hne : k.parts.size ≠ k.count.toNat := by simpa [isComplete] using hincomplete
  have hle := h.size_le
  rw [UInt8.le_iff_toNat_le]
  show 2 ≤ k.count.toNat
  omega

theorem mem_add {index : UInt8} (hindex : index < k.count) (part : Bytes) :
    index ∈ (k.add index part).parts := by
  rw [Std.ExtTreeMap.mem_iff_isSome_getElem?, getElem?_add hindex, lookup_cons_self]
  cases k.parts[index]? <;> rfl

theorem Within.mem_parts_view (h : k.Within) (hbegun : ∃ index, index ∈ k.parts) :
    ∃ part, some part ∈ k.view.parts := by
  obtain ⟨index, hindex⟩ := hbegun
  obtain ⟨part, hpart⟩ := Option.isSome_iff_exists.mp
    (Std.ExtTreeMap.mem_iff_isSome_getElem?.mp hindex)
  exact ⟨part, List.mem_map.mpr ⟨index, mem_indices.mpr (h index hindex), hpart⟩⟩

end

end KeyedParts

namespace KeyedInbox

section
variable {b after : KeyedInbox} {group index count : UInt8} {base : UInt16} {part : Bytes}
  {delivered : List Bytes}

theorem belongs_message (b : KeyedInbox) (group : UInt8) (base : UInt16) (count : UInt8) :
    (b.message group base count).belongs base count = true := by
  have hstart : (KeyedParts.start base count).belongs base count = true :=
    KeyedParts.belongs_iff.mpr ⟨rfl, rfl⟩
  unfold message
  cases b.partials[group]? with
  | none => exact hstart
  | some k =>
    dsimp only
    split
    · assumption
    · exact hstart

/-- Everything that a fragment can do: nothing, complete its message, or join those that came. -/
theorem accept_cases
    (haccept : b.accept group base index count part = some (after, delivered)) :
    after = b ∨ b.delivered[group]? ≠ some base ∧ ∃ k,
      k = (b.message group base count).add index part ∧
      (k.isComplete = true ∧ after = { partials := (b.partials.insert group k).erase group
                                       delivered := b.delivered.insert group base } ∨
        k.isComplete = false ∧ after = { b with partials := b.partials.insert group k }) := by
  unfold accept at haccept
  by_cases hspent : b.delivered[group]? = some base
  · rw [if_pos hspent] at haccept
    cases haccept
    exact .inl rfl
  rw [if_neg hspent] at haccept
  refine .inr ⟨hspent, _, rfl, ?_⟩
  dsimp only at haccept
  generalize (b.message group base count).add index part = k at haccept ⊢
  by_cases hcomplete : k.isComplete = true
  · rw [if_pos hcomplete, Std.ExtTreeMap.getElem?_insert_self] at haccept
    obtain ⟨message, -, hafter⟩ := Option.bind_eq_some_iff.mp haccept
    obtain ⟨given, -, hafter⟩ := Option.bind_eq_some_iff.mp hafter
    cases hafter
    exact .inl ⟨hcomplete, rfl⟩
  · rw [if_neg hcomplete] at haccept
    cases haccept
    exact .inr ⟨Bool.eq_false_iff.mpr hcomplete, rfl⟩

theorem Open.congr {k : KeyedParts} (h : b.Open group k)
    (hsame : after.delivered[group]? = b.delivered[group]?) : after.Open group k :=
  { h with undelivered := hsame ▸ h.undelivered }

theorem tidy_fresh : fresh.Tidy := by
  simp [Tidy, fresh]

theorem Tidy.within (h : b.Tidy) : b.Within := fun group k hk => (h group k hk).within

theorem Tidy.deliver (h : b.Tidy) (group : UInt8) (base : UInt16) (k : KeyedParts) :
    Tidy { partials := (b.partials.insert group k).erase group
           delivered := b.delivered.insert group base } := by
  intro other j hj
  dsimp only at hj
  rw [Std.ExtTreeMap.getElem?_erase, Std.ExtTreeMap.getElem?_insert] at hj
  by_cases hother : group = other
  · simp [hother] at hj
  · have hne : ¬ compare group other = .eq := by rwa [Std.compare_eq_iff_eq]
    rw [if_neg hne, if_neg hne] at hj
    refine (h other j hj).congr ?_
    rw [Std.ExtTreeMap.getElem?_insert, if_neg hne]

theorem Tidy.keep {k : KeyedParts} (h : b.Tidy) (hk : b.Open group k) :
    Tidy { b with partials := b.partials.insert group k } := by
  intro other j hj
  dsimp only at hj
  rw [Std.ExtTreeMap.getElem?_insert] at hj
  by_cases hother : group = other
  · subst hother
    rw [if_pos Std.ReflCmp.compare_self] at hj
    cases hj
    exact hk.congr rfl
  · have hne : ¬ compare group other = .eq := by rwa [Std.compare_eq_iff_eq]
    rw [if_neg hne] at hj
    exact (h other j hj).congr rfl

theorem Tidy.open_add (h : b.Tidy) (hindex : index < count)
    (hspent : b.delivered[group]? ≠ some base)
    (hincomplete : ((b.message group base count).add index part).isComplete = false) :
    b.Open group ((b.message group base count).add index part) := by
  obtain ⟨hbase, hcount⟩ := KeyedParts.belongs_iff.mp (belongs_message b group base count)
  have hwithin := (h.within.message group base count).add index part
  have hbegun : ∃ other, other ∈ ((b.message group base count).add index part).parts :=
    ⟨index, KeyedParts.mem_add (hcount.symm ▸ hindex) part⟩
  exact {
    begun := hbegun
    incomplete := hincomplete
    several := hwithin.two_le_count hbegun hincomplete
    within := hwithin
    undelivered := by rwa [KeyedParts.base_add, hbase] }

theorem Tidy.accept (h : b.Tidy) (hindex : index < count)
    (haccept : b.accept group base index count part = some (after, delivered)) : after.Tidy := by
  obtain rfl | ⟨hspent, k, rfl, ⟨-, rfl⟩ | ⟨hincomplete, rfl⟩⟩ := accept_cases haccept
  · exact h
  · exact h.deliver group base _
  · exact h.keep (h.open_add hindex hspent hincomplete)

theorem Tidy.acceptAll (h : b.Tidy) {fragments : List Fragment}
    (hrange : ∀ f ∈ fragments, f.InRange)
    (haccept : b.acceptAll fragments = some (after, delivered)) : after.Tidy := by
  induction fragments generalizing b delivered with
  | nil =>
    cases haccept
    exact h
  | cons f fragments ih =>
    obtain ⟨hf, hrange⟩ := List.forall_mem_cons.mp hrange
    obtain ⟨⟨next, given⟩, hnext, hrest⟩ := Option.bind_eq_some_iff.mp haccept
    obtain ⟨⟨last, later⟩, hlast, hlater⟩ := Option.bind_eq_some_iff.mp hrest
    cases hlater
    exact ih (h.accept hf hnext) hrange hlast

theorem Open.view {k : KeyedParts} (h : b.Open group k) : b.view.Open group k.view where
  begun := h.within.mem_parts_view h.begun
  incomplete := h.within.isComplete_view.trans h.incomplete
  several := by
    rw [KeyedParts.view, List.length_map, KeyedParts.length_indices]
    exact UInt8.le_iff_toNat_le.mp h.several
  undelivered := h.undelivered

theorem Tidy.view (h : b.Tidy) : b.view.Tidy := by
  intro group r hr
  obtain ⟨k, hk, rfl⟩ := Option.map_eq_some_iff.mp ((Std.ExtTreeMap.getElem?_map ..).symm.trans hr)
  exact (h group k hk).view

end

end KeyedInbox

def readFragment (bytes : Bytes) : Except Error (UInt16 × Fragment) := do
  let body ← (takeFrame (Channel.ofQos .reliableFragmented).headerLength bytes).2
  let (id, rest) ← orFault (readInFrame readUInt16 body)
  let (group, rest) ← orFault (readInFrame readUInt8 rest)
  let (index, rest) ← orFault (readInFrame readUInt8 rest)
  let (count, part) ← orFault (readInFrame readUInt8 rest)
  if count ≤ index then throw (.fragmentOutOfRange index count)
  return (id, { group, base := id - index.toUInt16, index, count, part })

/-- The fragment at the front of the bytes, unless it is refused, or its message
id is taken for a repetition. -/
def AckWindow.fragment? (w : AckWindow) (bytes : Bytes) : Option Fragment :=
  match readFragment bytes with
  | .ok (id, f) => if (w.record id).2 then some f else none
  | .error _ => none

def fragmentsOf (arriving : List (AckWindow × Bytes)) : List Fragment :=
  arriving.filterMap fun arrival => arrival.1.fragment? arrival.2

theorem inRange_of_readFragment {bytes : Bytes} {id : UInt16} {f : Fragment}
    (h : readFragment bytes = .ok (id, f)) : f.InRange := by
  obtain ⟨body, -, h⟩ := bind_eq_ok.mp h
  obtain ⟨⟨id, r1⟩, -, h⟩ := bind_eq_ok.mp h
  obtain ⟨⟨group, r2⟩, -, h⟩ := bind_eq_ok.mp h
  obtain ⟨⟨index, r3⟩, -, h⟩ := bind_eq_ok.mp h
  obtain ⟨⟨count, part⟩, -, h⟩ := bind_eq_ok.mp h
  obtain ⟨hindex, h⟩ := refuse_eq_ok.mp h
  cases h
  exact UInt8.not_le.mp hindex

theorem inRange_of_mem_fragmentsOf {arriving : List (AckWindow × Bytes)} {f : Fragment}
    (hf : f ∈ fragmentsOf arriving) : f.InRange := by
  obtain ⟨⟨w, bytes⟩, -, hf⟩ := List.mem_filterMap.mp hf
  dsimp only [AckWindow.fragment?] at hf
  cases hread : readFragment bytes with
  | error e => simp [hread] at hf
  | ok r =>
    obtain ⟨-, rfl⟩ : (w.record r.1).2 = true ∧ r.2 = f := by simpa [hread] using hf
    exact inRange_of_readFragment hread

namespace Channel

section
variable {inbound next : FragmentInbox} {nextGroup : UInt8} {delivered : List Bytes}

theorem process_eq_readFragment (inbound : FragmentInbox) (nextGroup : UInt8) (w : AckWindow)
    (bytes : Bytes) :
    ((reliableFragmented inbound nextGroup).process w bytes).2 = do
      let (id, f) ← readFragment bytes
      match w.record id with
      | (w, false) =>
        return { channel := reliableFragmented inbound nextGroup, window := w
                 delivered := [], accepted := false }
      | (w, true) =>
        let (inbound, delivered) ← orFault (inbound.accept f.group f.base f.index f.count f.part)
        return { channel := reliableFragmented inbound nextGroup, window := w
                 delivered, accepted := true } := by
  change (takeFrame _ bytes).2 >>= (reliableFragmented inbound nextGroup).accept w = _
  simp only [readFragment, bind_assoc]
  refine bind_congr fun body => ?_
  refine bind_congr fun ⟨id, rest⟩ => ?_
  refine bind_congr fun ⟨group, rest⟩ => ?_
  refine bind_congr fun ⟨index, rest⟩ => ?_
  refine bind_congr fun ⟨count, part⟩ => ?_
  dsimp only
  by_cases hrange : count ≤ index
  · rw [if_pos hrange, if_pos hrange]
    rfl
  · rw [if_neg hrange, if_neg hrange]
    rfl

theorem after_eq (inbound : FragmentInbox) (nextGroup : UInt8) (w : AckWindow) (bytes : Bytes) :
    (reliableFragmented inbound nextGroup).after w bytes =
      match w.fragment? bytes with
      | none => reliableFragmented inbound nextGroup
      | some f =>
        match inbound.accept f.group f.base f.index f.count f.part with
        | .ok (next, _) => reliableFragmented next nextGroup
        | .error _ => reliableFragmented inbound nextGroup := by
  rw [after, process_eq_readFragment, AckWindow.fragment?]
  cases readFragment bytes with
  | error e => rfl
  | ok r =>
    obtain ⟨id, f⟩ := r
    rw [bind_of_ok rfl]
    dsimp only
    rcases w.record id with ⟨later, _ | _⟩
    · rfl
    · cases hnext : inbound.accept f.group f.base f.index f.count f.part with
      | error e => simp [hnext, bind, Except.bind]
      | ok next => simp [hnext, bind, Except.bind, pure, Except.pure]

theorem afterAll_eq {arriving : List (AckWindow × Bytes)}
    (haccept : inbound.acceptAll (fragmentsOf arriving) = .ok (next, delivered)) :
    (reliableFragmented inbound nextGroup).afterAll arriving =
      reliableFragmented next nextGroup := by
  induction arriving generalizing inbound delivered with
  | nil =>
    cases haccept
    rfl
  | cons arrival arriving ih =>
    obtain ⟨w, bytes⟩ := arrival
    rw [afterAll]
    cases hfragment : w.fragment? bytes with
    | none =>
      simp only [fragmentsOf, List.filterMap_cons, hfragment] at haccept
      rw [after_eq, hfragment]
      exact ih haccept
    | some f =>
      simp only [fragmentsOf, List.filterMap_cons, hfragment] at haccept
      obtain ⟨⟨middle, given⟩, hfirst, hrest⟩ := bind_eq_ok.mp haccept
      obtain ⟨⟨last, later⟩, hlast, hlater⟩ := bind_eq_ok.mp hrest
      cases hlater
      rw [after_eq, hfragment]
      dsimp only
      rw [hfirst]
      exact ih hlast

end

end Channel

/-- Every message that is kept is begun and incomplete, has at least two parts, and is not the one
that its group id delivered last. -/
theorem open_messages_tidy (arriving : List (AckWindow × Bytes)) :
    ∃ inbound keyed delivered,
      (Channel.ofQos .reliableFragmented).afterAll arriving =
        .reliableFragmented inbound 0 ∧
      KeyedInbox.fresh.acceptAll (fragmentsOf arriving) = some (keyed, delivered) ∧
      keyed.view = inbound ∧ keyed.Tidy ∧ inbound.Tidy := by
  obtain ⟨keyed, delivered, hkeyed, hview⟩ :=
    KeyedInbox.within_fresh.acceptAll (fragmentsOf arriving)
  rw [KeyedInbox.view_fresh] at hview
  have htidy : keyed.Tidy := KeyedInbox.tidy_fresh.acceptAll
    (fun f => inRange_of_mem_fragmentsOf) hkeyed
  exact ⟨keyed.view, keyed, delivered, Channel.afterAll_eq hview, hkeyed, rfl, htidy, htidy.view⟩

example : (KeyedInbox.fresh.acceptAll [⟨1, 7, 0, 2, [5]⟩, ⟨1, 9, 1, 3, [6]⟩]).map (fun r =>
    r.1.partials[(1 : UInt8)]?.map fun k => (k.base, k.count, k.parts.keys)) =
      some (some (9, 3, [1])) := by decide

end DatagramTransport
