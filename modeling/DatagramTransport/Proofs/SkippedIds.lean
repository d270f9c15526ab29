import Std.Data.ExtTreeSet
import DatagramTransport.Proofs.AckWindow

/-!
# The ids that were skipped

A window can also be kept as its highest id and the set of those below it
that did not come. Here this is done with checked arithmetic: there is no id
after the last one, and a distance is only taken downwards. From the start
on neither check ever fails, and the report is that of the mask.
-/

set_option autoImplicit false

namespace DatagramTransport

def nextId? (id : UInt16) : Option UInt16 :=
  if id.toNat + 1 < 65536 then some (id + 1) else none

def distance? (upper lower : UInt16) : Option UInt16 :=
  if lower ≤ upper then some (upper - lower) else none

structure SkippedIds where
  latest : UInt16
  skipped : Std.ExtTreeSet UInt16

namespace SkippedIds

def fresh : SkippedIds where
  latest := 0
  skipped := ∅

def record (s : SkippedIds) (id : UInt16) : Option (SkippedIds × Bool) :=
  if id = s.latest then some (s, false)
  else if s.latest < id then do
    let first ← nextId? s.latest
    let gap := (List.range' first.toNat (id.toNat - first.toNat)).map UInt16.ofNat
    some ({ latest := id, skipped := (s.skipped.erase id).insertMany gap }, true)
  else some ({ s with skipped := s.skipped.erase id }, true)

def recordAll (s : SkippedIds) : List UInt16 → Option (SkippedIds × List Bool)
  | [] => some (s, [])
  | id :: ids => do
    let (next, isNew) ← s.record id
    let (last, flags) ← next.recordAll ids
    some (last, isNew :: flags)

def clear (latest : UInt16) (mask : BitVec ackSpan) (id : UInt16) : Option (BitVec ackSpan) := do
  let place ← distance? latest id
  some (if place.toNat < ackSpan then mask &&& ~~~ BitVec.twoPow ackSpan place.toNat else mask)

def report (s : SkippedIds) : Option (UInt16 × UInt32) := do
  let mask ← s.skipped.toList.foldlM (clear s.latest) (BitVec.allOnes ackSpan)
  some (s.latest, .ofBitVec mask)

/-- The set belongs to a window that took note of the given ids. -/
structure Mirrors (s : SkippedIds) (w : AckWindow) (ids : List UInt16) : Prop where
  tracks : w.Tracks ids
  latest : s.latest = w.latest
  mem : ∀ id, id ∈ s.skipped ↔ 0 < id.toNat ∧ id.toNat < w.latest.toNat ∧ id ∉ ids

theorem mirrors_fresh : fresh.Mirrors (.fresh .short) [] where
  tracks := AckWindow.tracks_fresh
  latest := rfl
  mem := by simp [fresh, AckWindow.fresh]

section
variable {s : SkippedIds} {w : AckWindow} {ids : List UInt16}

theorem mem_gap {first last id : UInt16} :
    id ∈ (List.range' first.toNat (last.toNat - first.toNat)).map UInt16.ofNat ↔
      first.toNat ≤ id.toNat ∧ id.toNat < last.toNat := by
  have hlast := last.toNat_lt
  rw [List.mem_map]
  constructor
  · rintro ⟨n, hn, rfl⟩
    rw [List.mem_range'_1] at hn
    rw [UInt16.toNat_ofNat_of_lt' (by omega : n < 65536)]
    omega
  · rintro ⟨hfirst, hlt⟩
    exact ⟨id.toNat, List.mem_range'_1.mpr (by omega), UInt16.ofNat_toNat⟩

theorem Mirrors.record_higher (h : s.Mirrors w ids) {id : UInt16} (hid : w.latest < id) :
    ∃ next, s.record id = some (next, (w.record id).2) ∧
      next.Mirrors (w.record id).1 (ids ++ [id]) := by
  have hlt := UInt16.lt_iff_toNat_lt.mp hid
  have htop := id.toNat_lt
  have hne : id ≠ w.latest := by
    rintro rfl
    omega
  have hnext : nextId? w.latest = some (w.latest + 1) := if_pos (by omega)
  have hfirst : (w.latest + 1).toNat = w.latest.toNat + 1 := by
    rw [UInt16.toNat_add]
    exact Nat.mod_eq_of_lt (by simp; omega)
  have hnow : (w.record id).2 = true := (w.record_accepted id).mpr hne
  have hmax := w.record_latest id
  have hlatest : (w.record id).1.latest = id := UInt16.toNat.inj (by omega)
  let gap := (List.range' (w.latest + 1).toNat (id.toNat - (w.latest + 1).toNat)).map UInt16.ofNat
  refine ⟨{ latest := id, skipped := (s.skipped.erase id).insertMany gap }, ?_,
    AckWindow.tracks_record h.tracks id, hlatest.symm, ?_⟩
  · rw [record, h.latest, if_neg hne, if_pos hid, hnext, hnow]
    rfl
  intro other
  have hcompare : compare id other ≠ .eq ↔ other ≠ id := by
    rw [ne_eq, Std.compare_eq_iff_eq, eq_comm]
  rw [Std.ExtTreeSet.mem_insertMany_list, List.contains_iff_mem, mem_gap, Std.ExtTreeSet.mem_erase,
    h.mem, hlatest, hfirst, hcompare, List.mem_append, List.mem_singleton]
  have habove : w.latest.toNat < other.toNat → other ∉ ids := by
    intro hover hmem
    have := h.tracks.bound other hmem
    omega
  have hsame : other.toNat = w.latest.toNat → other.toNat = 0 ∨ other ∈ ids := by
    intro heq
    rw [UInt16.toNat.inj heq]
    exact h.tracks.latest_mem.imp_left (congrArg UInt16.toNat)
  have htwo : other = id ↔ other.toNat = id.toNat := UInt16.toNat_inj.symm
  rw [ne_eq, htwo]
  by_cases hmem : other ∈ ids
  · have hlow : ¬ w.latest.toNat < other.toNat := fun hover => habove hover hmem
    simp only [hmem, not_true, and_false, false_or, true_or, iff_false]
    omega
  · have hzero : other.toNat = w.latest.toNat → other.toNat = 0 := fun heq =>
      (hsame heq).resolve_right hmem
    simp only [hmem, not_false_iff, and_true, false_or]
    omega

theorem Mirrors.record_lower (h : s.Mirrors w ids) {id : UInt16} (hne : id ≠ w.latest)
    (hid : ¬ w.latest < id) :
    ∃ next, s.record id = some (next, (w.record id).2) ∧
      next.Mirrors (w.record id).1 (ids ++ [id]) := by
  rw [UInt16.lt_iff_toNat_lt] at hid
  have hnow : (w.record id).2 = true := (w.record_accepted id).mpr hne
  have hmax := w.record_latest id
  have hlatest : (w.record id).1.latest = w.latest := UInt16.toNat.inj (by omega)
  refine ⟨{ s with skipped := s.skipped.erase id }, ?_, AckWindow.tracks_record h.tracks id,
    h.latest.trans hlatest.symm, ?_⟩
  · rw [record, h.latest, if_neg hne, if_neg (by rwa [UInt16.lt_iff_toNat_lt]), hnow]
  intro other
  rw [Std.ExtTreeSet.mem_erase, h.mem, hlatest, ne_eq, Std.compare_eq_iff_eq, List.mem_append,
    List.mem_singleton, not_or, eq_comm (a := id)]
  constructor
  · rintro ⟨hother, hpos, hlt, hnot⟩
    exact ⟨hpos, hlt, hnot, hother⟩
  · rintro ⟨hpos, hlt, hnot, hother⟩
    exact ⟨hother, hpos, hlt, hnot⟩

theorem Mirrors.record (h : s.Mirrors w ids) (id : UInt16) :
    ∃ next, s.record id = some (next, (w.record id).2) ∧
      next.Mirrors (w.record id).1 (ids ++ [id]) := by
  by_cases heq : id = w.latest
  · have hsame : w.record id = (w, false) := if_pos heq
    rw [SkippedIds.record, h.latest, if_pos heq, hsame]
    refine ⟨s, rfl, by rw [heq]; exact AckWindow.tracks_repeat h.tracks, h.latest, ?_⟩
    intro other
    rw [h.mem, List.mem_append, List.mem_singleton, heq]
    have hdiff : other.toNat < w.latest.toNat → other ≠ w.latest := by
      rintro hlt rfl
      omega
    constructor
    · rintro ⟨hpos, hlt, hnot⟩
      exact ⟨hpos, hlt, not_or.mpr ⟨hnot, hdiff hlt⟩⟩
    · rintro ⟨hpos, hlt, hnot⟩
      exact ⟨hpos, hlt, (not_or.mp hnot).1⟩
  · by_cases hid : w.latest < id
    · exact h.record_higher hid
    · exact h.record_lower heq hid

theorem Mirrors.recordAll (h : s.Mirrors w ids) (later : List UInt16) :
    ∃ last, s.recordAll later = some (last, (w.recordAll later).2) ∧
      last.Mirrors (w.recordAll later).1 (ids ++ later) := by
  induction later generalizing s w ids with
  | nil => exact ⟨s, rfl, by rwa [List.append_nil]⟩
  | cons id later ih =>
    obtain ⟨next, hnext, hmirrors⟩ := h.record id
    obtain ⟨last, hlast, hall⟩ := ih hmirrors
    refine ⟨last, ?_, by rwa [List.append_assoc] at hall⟩
    rw [SkippedIds.recordAll, hnext]
    simp only [Option.bind_eq_bind, Option.bind_some, hlast]
    rfl

theorem foldlM_clear {latest : UInt16} {skipped : List UInt16}
    (hbelow : ∀ id ∈ skipped, id.toNat < latest.toNat) (mask : BitVec ackSpan) :
    ∃ cleared, skipped.foldlM (clear latest) mask = some cleared ∧
      ∀ i < ackSpan, cleared.getLsbD i = false ↔
        mask.getLsbD i = false ∨ ∃ id ∈ skipped, latest.toNat = id.toNat + i := by
  induction skipped generalizing mask with
  | nil => exact ⟨mask, rfl, by simp⟩
  | cons id skipped ih =>
    have hlt := hbelow id List.mem_cons_self
    have hle : id ≤ latest := UInt16.le_iff_toNat_le.mpr (Nat.le_of_lt hlt)
    have hplace : distance? latest id = some (latest - id) := if_pos hle
    have hnumber : (latest - id).toNat = latest.toNat - id.toNat := UInt16.toNat_sub_of_le _ _ hle
    obtain ⟨cleared, hfold, hbits⟩ := ih (fun other hother => hbelow other (.tail _ hother))
      (if (latest - id).toNat < ackSpan then
        mask &&& ~~~ BitVec.twoPow ackSpan (latest - id).toNat else mask)
    refine ⟨cleared, ?_, ?_⟩
    · rw [List.foldlM_cons, clear, hplace]
      exact hfold
    · intro i hi
      have hhead : (if (latest - id).toNat < ackSpan then
          mask &&& ~~~ BitVec.twoPow ackSpan (latest - id).toNat else mask).getLsbD i = false ↔
            mask.getLsbD i = false ∨ latest.toNat = id.toNat + i := by
        by_cases hspan : (latest - id).toNat < ackSpan
        · have hat : (latest - id).toNat = i ↔ latest.toNat = id.toNat + i := by omega
          rw [if_pos hspan, BitVec.getLsbD_and, BitVec.getLsbD_not, BitVec.getLsbD_twoPow]
          simp only [hi, hspan, hat, decide_true, Bool.true_and, Bool.and_eq_false_iff,
            Bool.not_eq_false', decide_eq_true_eq]
        · rw [if_neg hspan]
          have hfar : latest.toNat ≠ id.toNat + i := by omega
          simp [hfar]
      simp only [hbits i hi, hhead, or_assoc, List.mem_cons, exists_eq_or_imp]

theorem Mirrors.report (h : s.Mirrors w ids) :
    s.report = some (w.latest, .ofBitVec w.mask) := by
  have hbelow : ∀ id ∈ s.skipped.toList, id.toNat < w.latest.toNat := fun id hid =>
    ((h.mem id).mp (Std.ExtTreeSet.mem_toList.mp hid)).2.1
  obtain ⟨mask, hmask, hbits⟩ := foldlM_clear hbelow (BitVec.allOnes ackSpan)
  have hsame : mask = w.mask := by
    apply BitVec.eq_of_getLsbD_eq
    intro i hi
    have hclear : mask.getLsbD i = false ↔ w.mask.getLsbD i = false := by
      rw [hbits i hi, h.tracks.bit i hi]
      constructor
      · rintro (hset | ⟨id, hid, hat⟩)
        · simp [hi] at hset
        · obtain ⟨hpos, hlt, hnot⟩ := (h.mem id).mp (Std.ExtTreeSet.mem_toList.mp hid)
          have hback : w.latest - .ofNat i = id := by
            rw [AckWindow.sub_ofNat_eq_iff (by omega)]
            exact hat
          exact ⟨by omega, hback ▸ hnot⟩
      · rintro ⟨hlt, hnot⟩
        have hback := AckWindow.toNat_sub_ofNat (Nat.le_of_lt hlt)
        have hzero : i ≠ 0 := by
          rintro rfl
          have hsame : w.latest - .ofNat 0 = w.latest := UInt16.sub_zero _
          rw [hsame] at hnot
          have hnone := h.tracks.latest_mem.resolve_right hnot
          simp [hnone] at hlt
        refine .inr ⟨w.latest - .ofNat i, Std.ExtTreeSet.mem_toList.mpr ((h.mem _).mpr ?_), ?_⟩
        · exact ⟨by omega, by omega, hnot⟩
        · omega
    cases hbit : w.mask.getLsbD i with
    | false => exact hclear.mpr hbit
    | true =>
      rw [← Bool.not_eq_false, hclear, hbit]
      decide
  rw [SkippedIds.report, h.latest, hmask, hsame]
  rfl

end

theorem recordAll_fresh (ids : List UInt16) :
    ∃ s, fresh.recordAll ids = some (s, ((AckWindow.fresh .short).recordAll ids).2) ∧
      s.Mirrors ((AckWindow.fresh .short).recordAll ids).1 ids :=
  mirrors_fresh.recordAll ids

end SkippedIds

end DatagramTransport
