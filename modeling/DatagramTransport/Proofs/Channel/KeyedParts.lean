import Mathlib.Data.List.Nodup
import Mathlib.Data.List.Perm.Subperm
import DatagramTransport.Channel.FragmentInbox

/-!
# Parts under their index

The parts of a message can also be kept in a map that has only those that
came, so that a message is complete when the map has as many as expected.
Joining them takes each part out of the map, and delivering a message looks
its entry up again. No part that is looked for is ever missing, since only
indices below the count are kept.
-/

set_option autoImplicit false

namespace DatagramTransport

structure KeyedParts where
  base : UInt16
  count : UInt8
  parts : Std.ExtTreeMap UInt8 Bytes

namespace KeyedParts

def start (base : UInt16) (count : UInt8) : KeyedParts where
  base := base
  count := count
  parts := ∅

def belongs (k : KeyedParts) (base : UInt16) (count : UInt8) : Bool :=
  k.base == base && k.count == count

def isComplete (k : KeyedParts) : Bool :=
  k.parts.size == k.count.toNat

def add (k : KeyedParts) (index : UInt8) (part : Bytes) : KeyedParts :=
  if k.count ≤ index then k else { k with parts := k.parts.insertIfNew index part }

def join (parts : Std.ExtTreeMap UInt8 Bytes) : List UInt8 → Option Bytes
  | [] => some []
  | index :: indices => do
    let part ← parts[index]?
    let later ← join (parts.erase index) indices
    some (part ++ later)

def indices (count : UInt8) : List UInt8 :=
  (List.range count.toNat).map UInt8.ofNat

def assemble (k : KeyedParts) : Option Bytes :=
  if k.isComplete then join k.parts (indices k.count) else none

def view (k : KeyedParts) : Reassembly where
  base := k.base
  parts := (indices k.count).map fun index => k.parts[index]?

def Within (k : KeyedParts) : Prop :=
  ∀ index ∈ k.parts, index < k.count

theorem toNat_ofNat_below {count : UInt8} {n : Nat} (h : n < count.toNat) :
    (UInt8.ofNat n).toNat = n :=
  UInt8.toNat_ofNat_of_lt' (Nat.lt_trans h count.toNat_lt)

theorem mem_indices {count index : UInt8} : index ∈ indices count ↔ index < count := by
  rw [indices, List.mem_map, UInt8.lt_iff_toNat_lt]
  constructor
  · rintro ⟨n, hn, rfl⟩
    have hlt := List.mem_range.mp hn
    rwa [toNat_ofNat_below hlt]
  · intro hlt
    exact ⟨index.toNat, List.mem_range.mpr hlt, UInt8.ofNat_toNat⟩

theorem length_indices (count : UInt8) : (indices count).length = count.toNat := by
  rw [indices, List.length_map, List.length_range]

theorem getElem?_indices {count : UInt8} {n : Nat} (h : n < count.toNat) :
    (indices count)[n]? = some (.ofNat n) := by
  rw [indices, List.getElem?_map, List.getElem?_range h]
  rfl

theorem nodup_indices (count : UInt8) : (indices count).Nodup := by
  refine List.Nodup.map_on ?_ List.nodup_range
  intro m hm n hn heq
  have hnumber := congrArg UInt8.toNat heq
  rwa [toNat_ofNat_below (List.mem_range.mp hm), toNat_ofNat_below (List.mem_range.mp hn)]
    at hnumber

theorem nodup_keys (parts : Std.ExtTreeMap UInt8 Bytes) : parts.keys.Nodup := by
  refine Std.ExtTreeMap.distinct_keys.imp ?_
  rintro a b hne rfl
  exact hne Std.ReflCmp.compare_self

section
variable {k : KeyedParts}

theorem within_start (base : UInt16) (count : UInt8) : (start base count).Within := by
  simp [Within, start]

theorem view_start (base : UInt16) (count : UInt8) :
    (start base count).view = .start base count := by
  simp [view, start, Reassembly.start, length_indices]

theorem belongs_view (base : UInt16) (count : UInt8) :
    k.view.belongs base count = k.belongs base count := by
  simp only [Reassembly.belongs, view, belongs, List.length_map, length_indices]
  congr 1
  rw [Bool.eq_iff_iff, beq_iff_eq, beq_iff_eq, UInt8.toNat_inj]

theorem Within.add (h : k.Within) (index : UInt8) (part : Bytes) : (k.add index part).Within := by
  unfold KeyedParts.add
  by_cases hout : k.count ≤ index
  · rwa [if_pos hout]
  · rw [if_neg hout]
    intro other hother
    rw [Std.ExtTreeMap.mem_insertIfNew, Std.compare_eq_iff_eq] at hother
    rcases hother with rfl | hother
    · exact UInt8.not_le.mp hout
    · exact h other hother

theorem view_add (index : UInt8) (part : Bytes) :
    (k.add index part).view = k.view.add index part := by
  unfold KeyedParts.add
  by_cases hout : k.count ≤ index
  · have hfar : k.view.parts.length ≤ index.toNat := by
      simpa [view, length_indices] using UInt8.le_iff_toNat_le.mp hout
    rw [if_pos hout, Reassembly.add, List.modify_eq_self hfar]
  · rw [if_neg hout]
    simp only [view, Reassembly.add, Reassembly.mk.injEq, true_and]
    apply List.ext_getElem?
    intro n
    rw [List.getElem?_modify, List.getElem?_map, List.getElem?_map]
    by_cases hn : n < k.count.toNat
    · rw [getElem?_indices hn]
      have hat : index = .ofNat n ↔ index.toNat = n := by
        rw [← UInt8.toNat_inj, toNat_ofNat_below hn]
      simp only [Option.map_some, Std.ExtTreeMap.getElem?_insertIfNew, Std.compare_eq_iff_eq, hat,
        Std.ExtTreeMap.mem_iff_isSome_getElem?]
      by_cases hsame : index.toNat = n
      · rw [hat.mpr hsame]
        cases hk : k.parts[UInt8.ofNat n]? <;> simp
      · simp [hsame]
    · rw [List.getElem?_eq_none (by rw [length_indices]; omega)]
      split <;> rfl

theorem Within.keys_subset (h : k.Within) : k.parts.keys ⊆ indices k.count :=
  fun index hindex => mem_indices.mpr (h index (Std.ExtTreeMap.mem_keys.mp hindex))

/-- There are as many parts as expected just if none is missing. -/
theorem Within.isComplete_view (h : k.Within) : k.view.isComplete = k.isComplete := by
  have hsub := h.keys_subset
  have hsize : k.parts.keys.length = k.parts.size := Std.ExtTreeMap.length_keys
  rw [Bool.eq_iff_iff, isComplete, beq_iff_eq, ← length_indices, ← hsize]
  have hall : k.view.isComplete = true ↔ indices k.count ⊆ k.parts.keys := by
    simp only [Reassembly.isComplete, view, List.all_map, List.all_eq_true, Function.comp_apply,
      List.subset_def, Std.ExtTreeMap.mem_keys, Std.ExtTreeMap.mem_iff_isSome_getElem?]
  rw [hall]
  constructor
  · intro hback
    exact Nat.le_antisymm ((nodup_keys _).subperm hsub).length_le
      ((nodup_indices _).subperm hback).length_le
  · intro hlength
    exact (((nodup_keys _).subperm hsub).perm_of_length_le (Nat.le_of_eq hlength.symm)).symm.subset

theorem join_eq {parts : Std.ExtTreeMap UInt8 Bytes} {indices : List UInt8}
    (hnodup : indices.Nodup) (hmem : ∀ index ∈ indices, index ∈ parts) :
    join parts indices = some ((indices.filterMap fun index => parts[index]?).flatten) := by
  induction indices generalizing parts with
  | nil => rfl
  | cons index indices ih =>
    obtain ⟨hnot, hnodup⟩ := List.nodup_cons.mp hnodup
    obtain ⟨part, hpart⟩ := Option.isSome_iff_exists.mp
      (Std.ExtTreeMap.mem_iff_isSome_getElem?.mp (hmem index List.mem_cons_self))
    have hstays : ∀ other ∈ indices, (parts.erase index)[other]? = parts[other]? := by
      intro other hother
      have hne : index ≠ other := by
        rintro rfl
        exact hnot hother
      rw [Std.ExtTreeMap.getElem?_erase, if_neg (by rwa [Std.compare_eq_iff_eq])]
    have hothers : ∀ other ∈ indices, other ∈ parts.erase index := by
      intro other hother
      rw [Std.ExtTreeMap.mem_iff_isSome_getElem?, hstays other hother,
        ← Std.ExtTreeMap.mem_iff_isSome_getElem?]
      exact hmem other (List.mem_cons_of_mem _ hother)
    have hrest := ih hnodup hothers
    rw [List.filterMap_congr hstays] at hrest
    rw [join, hpart, List.filterMap_cons_some hpart, List.flatten_cons]
    simp only [Option.bind_eq_bind, Option.bind_some, hrest]

theorem Within.assemble (h : k.Within) (hcomplete : k.isComplete = true) :
    ∃ message, k.assemble = some message ∧ k.view.assemble = .ok message := by
  have hview : k.view.isComplete = true := h.isComplete_view.trans hcomplete
  have hall : ∀ index ∈ indices k.count, index ∈ k.parts := by
    intro index hindex
    have hplace := List.all_eq_true.mp hview _ (List.mem_map_of_mem hindex)
    exact Std.ExtTreeMap.mem_iff_isSome_getElem?.mpr hplace
  refine ⟨_, (if_pos hcomplete).trans (join_eq (nodup_indices _) hall), ?_⟩
  rw [Reassembly.assemble_of_isComplete hview, view, List.filterMap_map]
  rfl

end

end KeyedParts

structure Fragment where
  group : UInt8
  base : UInt16
  index : UInt8
  count : UInt8
  part : Bytes
  deriving DecidableEq, Repr

def FragmentInbox.acceptAll (b : FragmentInbox) :
    List Fragment → Except Fault (FragmentInbox × List Bytes)
  | [] => .ok (b, [])
  | f :: fragments => do
    let (b, delivered) ← b.accept f.group f.base f.index f.count f.part
    let (b, later) ← b.acceptAll fragments
    return (b, delivered ++ later)

structure KeyedInbox where
  partials : Std.ExtTreeMap UInt8 KeyedParts
  delivered : Std.ExtTreeMap UInt8 UInt16

namespace KeyedInbox

def fresh : KeyedInbox where
  partials := ∅
  delivered := ∅

def message (b : KeyedInbox) (group : UInt8) (base : UInt16) (count : UInt8) : KeyedParts :=
  match b.partials[group]? with
  | some k => if k.belongs base count then k else .start base count
  | none => .start base count

/-- Takes a fragment. The entry of a message that is complete is looked up once
more, and has to be there. -/
def accept (b : KeyedInbox) (group : UInt8) (base : UInt16) (index count : UInt8)
    (part : Bytes) : Option (KeyedInbox × List Bytes) :=
  if b.delivered[group]? = some base then some (b, [])
  else
    let k := (b.message group base count).add index part
    let partials := b.partials.insert group k
    if k.isComplete then do
      let found ← partials[group]?
      let message ← found.assemble
      some ({ partials := partials.erase group, delivered := b.delivered.insert group base },
        [message])
    else some ({ b with partials }, [])

def acceptAll (b : KeyedInbox) : List Fragment → Option (KeyedInbox × List Bytes)
  | [] => some (b, [])
  | f :: fragments => do
    let (b, delivered) ← b.accept f.group f.base f.index f.count f.part
    let (b, later) ← b.acceptAll fragments
    some (b, delivered ++ later)

def view (b : KeyedInbox) : FragmentInbox where
  partials := b.partials.map fun _ k => k.view
  delivered := b.delivered

def Within (b : KeyedInbox) : Prop :=
  ∀ (group : UInt8) (k : KeyedParts), b.partials[group]? = some k → k.Within

theorem within_fresh : fresh.Within := by
  simp [Within, fresh]

theorem view_fresh : fresh.view = .fresh := by
  simp only [view, fresh, FragmentInbox.fresh, FragmentInbox.mk.injEq, and_true]
  apply Std.ExtTreeMap.ext_getElem?
  simp

section
variable {b : KeyedInbox}

theorem Within.message (h : b.Within) (group : UInt8) (base : UInt16) (count : UInt8) :
    (b.message group base count).Within := by
  unfold KeyedInbox.message
  cases hk : b.partials[group]? with
  | none => exact KeyedParts.within_start base count
  | some k =>
    dsimp only
    split
    · exact h group k hk
    · exact KeyedParts.within_start base count

theorem view_message (group : UInt8) (base : UInt16) (count : UInt8) :
    (b.message group base count).view = b.view.message group base count := by
  unfold KeyedInbox.message FragmentInbox.message
  simp only [view, Std.ExtTreeMap.getElem?_map]
  cases hk : b.partials[group]? with
  | none => exact KeyedParts.view_start base count
  | some k =>
    simp only [Option.map_some, KeyedParts.belongs_view]
    split
    · rfl
    · exact KeyedParts.view_start base count

theorem views_insert (partials : Std.ExtTreeMap UInt8 KeyedParts) (group : UInt8)
    (k : KeyedParts) : (partials.insert group k).map (fun _ k => k.view) =
      (partials.map fun _ k => k.view).insert group k.view := by
  apply Std.ExtTreeMap.ext_getElem?
  intro other
  simp only [Std.ExtTreeMap.getElem?_map, Std.ExtTreeMap.getElem?_insert]
  split <;> rfl

theorem views_erase_insert (partials : Std.ExtTreeMap UInt8 KeyedParts) (group : UInt8)
    (k : KeyedParts) : ((partials.insert group k).erase group).map (fun _ k => k.view) =
      (partials.map fun _ k => k.view).erase group := by
  apply Std.ExtTreeMap.ext_getElem?
  intro other
  simp only [Std.ExtTreeMap.getElem?_map, Std.ExtTreeMap.getElem?_erase,
    Std.ExtTreeMap.getElem?_insert]
  split <;> rfl

/-- Whatever fragment comes, no entry and no part is missing. -/
theorem Within.accept (h : b.Within) (group : UInt8) (base : UInt16) (index count : UInt8)
    (part : Bytes) :
    ∃ after delivered, b.accept group base index count part = some (after, delivered) ∧
      after.Within ∧ b.view.accept group base index count part = .ok (after.view, delivered) := by
  unfold KeyedInbox.accept FragmentInbox.accept
  by_cases hspent : b.delivered[group]? = some base
  · refine ⟨b, [], if_pos hspent, h, ?_⟩
    have hspent' : b.view.delivered[group]? = some base := hspent
    rw [if_pos hspent']
    rfl
  have hspent' : ¬ b.view.delivered[group]? = some base := hspent
  rw [if_neg hspent, if_neg hspent', ← view_message, ← KeyedParts.view_add]
  have hk := (h.message group base count).add index part
  generalize (b.message group base count).add index part = k at hk ⊢
  have hothers : ∀ (other : UInt8) (j : KeyedParts),
      (b.partials.insert group k)[other]? = some j → j.Within := by
    intro other j hj
    rw [Std.ExtTreeMap.getElem?_insert] at hj
    split at hj
    · cases hj
      exact hk
    · exact h other j hj
  dsimp only
  rw [hk.isComplete_view]
  by_cases hcomplete : k.isComplete = true
  · obtain ⟨message, hmessage, hview⟩ := hk.assemble hcomplete
    refine ⟨{ partials := (b.partials.insert group k).erase group
              delivered := b.delivered.insert group base }, [message], ?_, ?_, ?_⟩
    · rw [if_pos hcomplete, Std.ExtTreeMap.getElem?_insert_self]
      simp only [Option.bind_eq_bind, Option.bind_some, hmessage]
    · intro other j hj
      rw [Std.ExtTreeMap.getElem?_erase] at hj
      split at hj
      · cases hj
      · exact hothers other j hj
    · rw [if_pos hcomplete, hview]
      simp only [view, views_erase_insert]
      rfl
  · refine ⟨{ b with partials := b.partials.insert group k }, [], if_neg hcomplete, hothers, ?_⟩
    rw [if_neg hcomplete]
    simp only [view, views_insert]
    rfl

theorem Within.acceptAll (h : b.Within) (fragments : List Fragment) :
    ∃ after delivered, b.acceptAll fragments = some (after, delivered) ∧
      b.view.acceptAll fragments = .ok (after.view, delivered) := by
  induction fragments generalizing b with
  | nil => exact ⟨b, [], rfl, rfl⟩
  | cons f fragments ih =>
    obtain ⟨next, delivered, hnext, hwithin, hview⟩ :=
      h.accept f.group f.base f.index f.count f.part
    obtain ⟨after, later, hafter, hviews⟩ := ih hwithin
    refine ⟨after, delivered ++ later, ?_, ?_⟩
    · rw [KeyedInbox.acceptAll, hnext]
      simp only [Option.bind_eq_bind, Option.bind_some, hafter]
    · rw [FragmentInbox.acceptAll, hview]
      simp only [bind, Except.bind, hviews]
      rfl

end

end KeyedInbox

end DatagramTransport
