import DatagramTransport.Proofs.Channel.KeyedParts

/-!
# Parts that are added in any order

Whatever parts are added to a message, under whatever indices: only the part
that was added first under each index below the count matters. The message is
complete as soon as there is one for each of them, and consists of them in the
order of the indices. That it is complete is found out by counting alone, where
the parts are kept in a map.
-/

set_option autoImplicit false

namespace DatagramTransport

def Covers (count : UInt8) (adds : List (UInt8 × Bytes)) : Prop :=
  ∀ index, index < count → index ∈ adds.map Prod.fst

theorem covers_iff {count : UInt8} {adds : List (UInt8 × Bytes)} :
    Covers count adds ↔ ∀ index ∈ KeyedParts.indices count, index ∈ adds.map Prod.fst := by
  simp only [Covers, KeyedParts.mem_indices]

instance (count : UInt8) (adds : List (UInt8 × Bytes)) : Decidable (Covers count adds) :=
  decidable_of_iff ((KeyedParts.indices count).all (adds.map Prod.fst).contains = true) (by
    simp only [covers_iff, List.all_eq_true, List.contains_iff_mem])

def joined (count : UInt8) (adds : List (UInt8 × Bytes)) : Bytes :=
  ((KeyedParts.indices count).filterMap fun index => adds.lookup index).flatten

def Reassembly.addAll (r : Reassembly) : List (UInt8 × Bytes) → Reassembly × List Bool
  | [] => (r, [])
  | (index, part) :: adds =>
    let next := r.add index part
    let (last, flags) := next.addAll adds
    (last, next.isComplete :: flags)

def KeyedParts.addAll (k : KeyedParts) : List (UInt8 × Bytes) → KeyedParts × List Bool
  | [] => (k, [])
  | (index, part) :: adds =>
    let next := k.add index part
    let (last, flags) := next.addAll adds
    (last, next.isComplete :: flags)

section
variable {adds others : List (UInt8 × Bytes)} {index other count : UInt8} {part : Bytes}

theorem isSome_lookup_iff : (adds.lookup index).isSome ↔ index ∈ adds.map Prod.fst := by
  simp [List.lookup_isSome_iff]

theorem lookup_cons_self (index : UInt8) (part : Bytes) (adds : List (UInt8 × Bytes)) :
    ((index, part) :: adds).lookup index = some part := by
  rw [List.lookup_cons, beq_self_eq_true]

theorem lookup_cons_ne (h : other ≠ index) (part : Bytes) (adds : List (UInt8 × Bytes)) :
    ((index, part) :: adds).lookup other = adds.lookup other := by
  rw [List.lookup_cons, beq_eq_false_iff_ne.mpr h]

theorem lookup_eq_some_iff_mem (hnodup : (adds.map Prod.fst).Nodup) :
    adds.lookup index = some part ↔ (index, part) ∈ adds := by
  induction adds with
  | nil => simp
  | cons add adds ih =>
    obtain ⟨i, p⟩ := add
    obtain ⟨hnot, hnodup⟩ := List.nodup_cons.mp hnodup
    by_cases h : index = i
    · subst h
      have hother : (index, part) ∉ adds := fun hin => hnot (List.mem_map.mpr ⟨_, hin, rfl⟩)
      rw [lookup_cons_self, List.mem_cons, or_iff_left hother]
      simp [eq_comm]
    · simp [lookup_cons_ne h, ih hnodup, h]

theorem lookup_perm (hperm : others.Perm adds) (hnodup : (adds.map Prod.fst).Nodup)
    (index : UInt8) : others.lookup index = adds.lookup index := by
  apply Option.ext
  intro part
  rw [lookup_eq_some_iff_mem hnodup, lookup_eq_some_iff_mem ((hperm.map _).nodup_iff.mpr hnodup),
    hperm.mem_iff]

/-- A part with an index beyond the count, or one that came before, is not the first one. -/
theorem lookup_drop {before after : List (UInt8 × Bytes)}
    (hdropped : count ≤ index ∨ index ∈ before.map Prod.fst) (hother : other < count) :
    (before ++ after).lookup other = (before ++ (index, part) :: after).lookup other := by
  rw [List.lookup_append, List.lookup_append]
  by_cases h : other = index
  · subst h
    have hbefore := hdropped.resolve_left (UInt8.not_le.mpr hother)
    obtain ⟨first, hfirst⟩ := Option.isSome_iff_exists.mp (isSome_lookup_iff.mpr hbefore)
    rw [hfirst, Option.some_or, Option.some_or]
  · rw [lookup_cons_ne h]

end

namespace KeyedParts

section
variable {k : KeyedParts}

@[simp] theorem base_add (k : KeyedParts) (index : UInt8) (part : Bytes) :
    (k.add index part).base = k.base := by
  unfold add
  split <;> rfl

@[simp] theorem count_add (k : KeyedParts) (index : UInt8) (part : Bytes) :
    (k.add index part).count = k.count := by
  unfold add
  split <;> rfl

theorem base_addAll (k : KeyedParts) (adds : List (UInt8 × Bytes)) :
    (k.addAll adds).1.base = k.base := by
  induction adds generalizing k with
  | nil => rfl
  | cons add adds ih => exact (ih _).trans (base_add k _ _)

theorem count_addAll (k : KeyedParts) (adds : List (UInt8 × Bytes)) :
    (k.addAll adds).1.count = k.count := by
  induction adds generalizing k with
  | nil => rfl
  | cons add adds ih => exact (ih _).trans (count_add k _ _)

theorem Within.addAll (h : k.Within) (adds : List (UInt8 × Bytes)) : (k.addAll adds).1.Within := by
  induction adds generalizing k with
  | nil => exact h
  | cons add adds ih => exact ih (h.add _ _)

theorem Within.view_addAll (h : k.Within) (adds : List (UInt8 × Bytes)) :
    k.view.addAll adds = ((k.addAll adds).1.view, (k.addAll adds).2) := by
  induction adds generalizing k with
  | nil => rfl
  | cons add adds ih =>
    have hnext := h.add add.1 add.2
    simp only [Reassembly.addAll, ← view_add, ih hnext, hnext.isComplete_view]
    rfl

theorem getElem?_add {index other : UInt8} (hindex : index < k.count) (part : Bytes) :
    (k.add other part).parts[index]? = k.parts[index]?.or ([(other, part)].lookup index) := by
  by_cases h : index = other
  · subst h
    rw [add, if_neg (UInt8.not_le.mpr hindex), lookup_cons_self]
    simp only [Std.ExtTreeMap.getElem?_insertIfNew, Std.compare_eq_iff_eq, true_and,
      Std.ExtTreeMap.mem_iff_isSome_getElem?]
    cases k.parts[index]? <;> rfl
  · rw [lookup_cons_ne h, List.lookup_nil, Option.or_none, add]
    split
    · rfl
    · rw [Std.ExtTreeMap.getElem?_insertIfNew, if_neg]
      rw [Std.compare_eq_iff_eq]
      exact fun hboth => h hboth.1.symm

theorem getElem?_addAll {index : UInt8} (hindex : index < k.count)
    (adds : List (UInt8 × Bytes)) :
    (k.addAll adds).1.parts[index]? = k.parts[index]?.or (adds.lookup index) := by
  induction adds generalizing k with
  | nil => exact Option.or_none.symm
  | cons add adds ih =>
    obtain ⟨other, part⟩ := add
    have hcount : index < (k.add other part).count := by rwa [count_add]
    calc (k.addAll ((other, part) :: adds)).1.parts[index]?
      _ = (k.add other part).parts[index]?.or (adds.lookup index) := ih hcount
      _ = (k.parts[index]?.or ([(other, part)].lookup index)).or (adds.lookup index) := by
        rw [getElem?_add hindex]
      _ = k.parts[index]?.or (((other, part) :: adds).lookup index) := by
        rw [Option.or_assoc, ← List.lookup_append, List.singleton_append]

theorem view_addAll_start (base : UInt16) (count : UInt8) (adds : List (UInt8 × Bytes)) :
    ((start base count).addAll adds).1.view =
      { base, parts := (indices count).map fun index => adds.lookup index } := by
  rw [view, base_addAll, count_addAll]
  refine congrArg (Reassembly.mk base) (List.map_congr_left fun index hindex => ?_)
  have hindex : index < (start base count).count := mem_indices.mp hindex
  rw [getElem?_addAll hindex]
  simp [start]

theorem isComplete_addAll (base : UInt16) (count : UInt8) (adds : List (UInt8 × Bytes)) :
    ((start base count).addAll adds).1.isComplete = decide (Covers count adds) := by
  rw [← ((within_start base count).addAll adds).isComplete_view, view_addAll_start,
    Bool.eq_iff_iff, decide_eq_true_iff, covers_iff]
  simp only [Reassembly.isComplete, List.all_map, List.all_eq_true, Function.comp_apply,
    isSome_lookup_iff]

theorem assemble_view_addAll (base : UInt16) (count : UInt8) (adds : List (UInt8 × Bytes)) :
    ((start base count).addAll adds).1.view.assemble =
      if Covers count adds then .ok (joined count adds) else .error .incompleteMessage := by
  have hcomplete := isComplete_addAll base count adds
  rw [← ((within_start base count).addAll adds).isComplete_view] at hcomplete
  rw [Reassembly.assemble, hcomplete, view_addAll_start]
  by_cases h : Covers count adds
  · rw [if_pos (decide_eq_true h), if_pos h, List.filterMap_map]
    rfl
  · rw [if_neg (by simpa using h), if_neg h]

theorem assemble_addAll (base : UInt16) (count : UInt8) (adds : List (UInt8 × Bytes)) :
    ((start base count).addAll adds).1.assemble =
      if Covers count adds then some (joined count adds) else none := by
  have hcomplete := isComplete_addAll base count adds
  by_cases h : Covers count adds
  · rw [decide_eq_true h] at hcomplete
    obtain ⟨message, hmessage, hview⟩ := ((within_start base count).addAll adds).assemble hcomplete
    rw [assemble_view_addAll, if_pos h] at hview
    cases hview
    rw [hmessage, if_pos h]
  · rw [assemble, hcomplete, if_neg (by simpa using h), if_neg h]

theorem getElem?_flags (k : KeyedParts) (before : List (UInt8 × Bytes)) (index : UInt8)
    (part : Bytes) (after : List (UInt8 × Bytes)) :
    (k.addAll (before ++ (index, part) :: after)).2[before.length]? =
      some (k.addAll (before ++ [(index, part)])).1.isComplete := by
  induction before generalizing k with
  | nil => rfl
  | cons add before ih => exact ih _

end

end KeyedParts

/-- After each part a message is complete just if every index was added by then. It is put together
of the parts that were added first, in the order of the indices. -/
theorem parts_joined_by_index (base : UInt16) (count : UInt8) (adds : List (UInt8 × Bytes)) :
    (∀ before index part after, adds = before ++ (index, part) :: after →
      ((Reassembly.start base count).addAll adds).2[before.length]? =
        some (decide (Covers count (before ++ [(index, part)])))) ∧
    ((Reassembly.start base count).addAll adds).1.assemble =
      (if Covers count adds then .ok (joined count adds) else .error .incompleteMessage) ∧
    (∀ others, (∀ index, index < count → others.lookup index = adds.lookup index) →
      ((Reassembly.start base count).addAll others).1 =
        ((Reassembly.start base count).addAll adds).1) ∧
    (∀ others, others.Perm adds → (adds.map Prod.fst).Nodup →
      ((Reassembly.start base count).addAll others).1 =
        ((Reassembly.start base count).addAll adds).1) ∧
    (∀ before index part after, adds = before ++ (index, part) :: after →
      count ≤ index ∨ index ∈ before.map Prod.fst →
      ((Reassembly.start base count).addAll (before ++ after)).1 =
        ((Reassembly.start base count).addAll adds).1) ∧
    ((KeyedParts.start base count).addAll adds).2 =
      ((Reassembly.start base count).addAll adds).2 ∧
    ((KeyedParts.start base count).addAll adds).1.assemble =
      if Covers count adds then some (joined count adds) else none := by
  have hviews : ∀ others, (Reassembly.start base count).addAll others =
      (((KeyedParts.start base count).addAll others).1.view,
        ((KeyedParts.start base count).addAll others).2) := by
    intro others
    rw [← KeyedParts.view_start, (KeyedParts.within_start base count).view_addAll]
  have hsame : ∀ others : List (UInt8 × Bytes),
      (∀ index, index < count → others.lookup index = adds.lookup index) →
      ((Reassembly.start base count).addAll others).1 =
        ((Reassembly.start base count).addAll adds).1 := by
    intro others hlookup
    rw [hviews, hviews, KeyedParts.view_addAll_start, KeyedParts.view_addAll_start]
    exact congrArg (Reassembly.mk base) (List.map_congr_left fun index hindex =>
      hlookup index (KeyedParts.mem_indices.mp hindex))
  refine ⟨?_, ?_, hsame, ?_, ?_, ?_, KeyedParts.assemble_addAll base count adds⟩
  · rintro before index part after rfl
    rw [hviews, KeyedParts.getElem?_flags, KeyedParts.isComplete_addAll]
  · rw [hviews, KeyedParts.assemble_view_addAll]
  · intro others hperm hnodup
    exact hsame others fun index _ => lookup_perm hperm hnodup index
  · rintro before index part after rfl hdropped
    exact hsame _ fun other hother => lookup_drop hdropped hother
  · rw [hviews]

example : ((Reassembly.start 7 2).addAll [(1, [2]), (5, [9]), (1, [7]), (0, [1])]).1.assemble =
    .ok [1, 2] := by decide

end DatagramTransport
