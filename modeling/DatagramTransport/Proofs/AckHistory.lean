import DatagramTransport.Proofs.SkippedIds

/-!
# What a report says of a history

From the ids that a fresh window took note of, in any order and any number of
times, its flags, its report, and what a peer reads in the report are known in
closed form. Only the highest id and the ids that never came matter: a report
asks for those of the latter that lie in the span below the former, and counts
all other ids of the span as received, also those that wrap below zero.
-/

set_option autoImplicit false

namespace DatagramTransport.AckWindow

def highest (ids : List UInt16) : UInt16 :=
  ids.foldl max 0

theorem toNat_max (m n : UInt16) : (max m n).toNat = max m.toNat n.toNat := by
  change (if m ≤ n then n else m).toNat = max m.toNat n.toNat
  by_cases h : m ≤ n
  · rw [if_pos h, Nat.max_eq_right (UInt16.le_iff_toNat_le.mp h)]
  · rw [if_neg h]
    rw [UInt16.le_iff_toNat_le] at h
    omega

theorem latest_recordAll (w : AckWindow) (ids : List UInt16) :
    (w.recordAll ids).1.latest = ids.foldl max w.latest := by
  induction ids generalizing w with
  | nil => rfl
  | cons id ids ih =>
    have hstep : (w.record id).1.latest = max w.latest id := by
      rw [← UInt16.toNat_inj, record_latest, toNat_max]
    exact (ih _).trans (congrArg (ids.foldl max) hstep)

theorem latest_eq_highest (ids : List UInt16) :
    ((fresh .short).recordAll ids).1.latest = highest ids :=
  latest_recordAll _ ids

/-- An id is taken for a repetition if it is the highest one so far. -/
theorem getElem?_recordAll (w : AckWindow) (earlier : List UInt16) (id : UInt16)
    (later : List UInt16) : (w.recordAll (earlier ++ id :: later)).2[earlier.length]? =
      some (decide (id ≠ (w.recordAll earlier).1.latest)) := by
  have hflag : ((w.recordAll earlier).1.record id).2 =
      decide (id ≠ (w.recordAll earlier).1.latest) := by
    rw [Bool.eq_iff_iff, record_accepted, decide_eq_true_iff]
  have hplace := w.length_recordAll earlier
  rw [recordAll_append_flags, List.getElem?_append_right (Nat.le_of_eq hplace), hplace,
    Nat.sub_self, recordAll, List.getElem?_cons_zero, hflag]

def span (latest : UInt16) : List UInt16 :=
  (List.range ackSpan).map fun i => latest - .ofNat i

theorem sub_ofNat_inj {latest : UInt16} {i j : Nat} (hi : i < ackSpan) (hj : j < ackSpan)
    (h : latest - .ofNat i = latest - .ofNat j) : i = j := by
  have hspan : ackSpan = 32 := rfl
  have hsize : UInt16.size = 65536 := rfl
  have hplaces : UInt16.ofNat i = UInt16.ofNat j := (UInt16.sub_right_inj _).mp h
  have hnumbers := congrArg UInt16.toNat hplaces
  rwa [UInt16.toNat_ofNat_of_lt' (by omega), UInt16.toNat_ofNat_of_lt' (by omega)] at hnumbers

section
variable {latest : UInt16} {mask : UInt32}

theorem not_received_of_missing {id : UInt16} (h : id ∈ (reading latest mask).missing) :
    id ∉ (reading latest mask).received := by
  intro hreceived
  obtain ⟨i, hi, hclear, rfl⟩ := mem_missing.mp h
  obtain ⟨j, hj, hset, hsame⟩ := mem_received.mp hreceived
  rw [sub_ofNat_inj hj hi hsame, hclear] at hset
  cases hset

/-- What a report covers and does not ask for, it counts as received. -/
theorem received_eq_filter : (reading latest mask).received =
    (span latest).filter fun id => decide (id ∉ (reading latest mask).missing) := by
  rw [span, List.filter_map]
  simp only [reading, List.partition_eq_filter_filter]
  congr 1
  apply List.filter_congr
  intro i hi
  have hi := List.mem_range.mp hi
  rw [Bool.eq_iff_iff, Function.comp_apply, decide_eq_true_iff, List.mem_map, not_exists]
  constructor
  · rintro hset j ⟨hj, hsame⟩
    obtain ⟨hj, hclear⟩ := List.mem_filter.mp hj
    rw [sub_ofNat_inj (List.mem_range.mp hj) hi hsame, Function.comp_apply, hset] at hclear
    cases hclear
  · intro hnone
    cases hbit : mask.toBitVec.getLsbD i with
    | true => rfl
    | false =>
      refine absurd ⟨List.mem_filter.mpr ⟨List.mem_range.mpr hi, ?_⟩, rfl⟩ (hnone i)
      rw [Function.comp_apply, hbit]
      rfl

end

section
variable {w : AckWindow} {ids : List UInt16} (h : w.Tracks ids)
include h

theorem Tracks.mem_missing_iff {id : UInt16} :
    id ∈ (reading w.latest (.ofBitVec w.mask)).missing ↔
      id ∉ ids ∧ 1 ≤ id.toNat ∧ id.toNat < w.latest.toNat ∧
        w.latest.toNat - id.toNat < ackSpan := by
  constructor
  · intro hid
    obtain ⟨hnew, hpos, hlt, -⟩ := h.reports.missing hid
    obtain ⟨i, hi, -, rfl⟩ := mem_missing.mp hid
    rw [ne_eq, ← UInt16.toNat_inj, UInt16.toNat_zero] at hpos
    refine ⟨hnew, Nat.pos_of_ne_zero hpos, hlt, ?_⟩
    by_cases hle : i ≤ w.latest.toNat
    · rw [toNat_sub_ofNat hle]
      omega
    · have hspan : ackSpan = 32 := rfl
      rw [toNat_sub_ofNat_wrap (by omega) (by omega)] at hlt
      omega
  · rintro ⟨hnew, hpos, hlt, hspan⟩
    have hback : w.latest - .ofNat (w.latest.toNat - id.toNat) = id := by
      rw [sub_ofNat_eq_iff (by omega)]
      omega
    refine mem_missing.mpr ⟨w.latest.toNat - id.toNat, hspan, ?_, hback⟩
    exact (h.bit _ hspan).mpr ⟨by omega, by rwa [hback]⟩

theorem Tracks.missing_descending :
    (reading w.latest (.ofBitVec w.mask)).missing.Pairwise (· > ·) := by
  simp only [reading, List.partition_eq_filter_filter]
  rw [List.pairwise_map]
  refine (List.pairwise_lt_range.filter _).imp_of_mem ?_
  intro i j hi hj hij
  obtain ⟨hrange, hclear⟩ := List.mem_filter.mp hj
  have hclear : (!w.mask.getLsbD j) = true := hclear
  rw [Bool.not_eq_true', h.bit j (List.mem_range.mp hrange)] at hclear
  have hlt := hclear.1
  rw [gt_iff_lt, UInt16.lt_iff_toNat_lt, toNat_sub_ofNat (by omega), toNat_sub_ofNat (by omega)]
  omega

end

/-- Whatever ids a fresh window took note of: the flags, the report and what any window reads in it,
as the history determines them. -/
theorem history_reported (ids : List UInt16) :
    ∃ mask : UInt32,
      ((fresh .short).recordAll ids).1.report = .ok (highest ids, mask) ∧
      ((fresh .short).recordAll ids).2.length = ids.length ∧
      (∀ earlier id later, ids = earlier ++ id :: later →
        ((fresh .short).recordAll ids).2[earlier.length]? =
          some (decide (id ≠ highest earlier))) ∧
      (∀ i < ackSpan, mask.toBitVec.getLsbD i = false ↔
        1 ≤ (highest ids).toNat - i ∧ highest ids - .ofNat i ∉ ids) ∧
      (∀ w : AckWindow, w.mode = .short → ∃ r, w.read (highest ids) mask = .ok r ∧
        r.missing.Pairwise (· > ·) ∧
        (∀ m, m ∈ r.missing ↔ m ∉ ids ∧ 1 ≤ m.toNat ∧ m.toNat < (highest ids).toNat ∧
          (highest ids).toNat - m.toNat < ackSpan) ∧
        r.received = (span (highest ids)).filter (fun m => decide (m ∉ r.missing)) ∧
        ∀ m ∈ r.missing, m ∉ r.received) ∧
      ∃ s, SkippedIds.fresh.recordAll ids = some (s, ((fresh .short).recordAll ids).2) ∧
        (∀ m, m ∈ s.skipped ↔ m ∉ ids ∧ 1 ≤ m.toNat ∧ m.toNat < (highest ids).toNat) ∧
        s.report = some (highest ids, mask) := by
  have htracks := tracks_recordAll tracks_fresh ids
  rw [List.nil_append] at htracks
  have hlatest := latest_eq_highest ids
  obtain ⟨s, hs, hmirrors⟩ := SkippedIds.recordAll_fresh ids
  refine ⟨.ofBitVec ((fresh .short).recordAll ids).1.mask, ?_, length_recordAll _ ids, ?_, ?_,
    ?_, s, hs, ?_, ?_⟩
  · rw [report, htracks.short, hlatest]
  · rintro earlier id later rfl
    rw [getElem?_recordAll, latest_eq_highest]
  · intro i hi
    have hbit := htracks.bit i hi
    have hbelow : 1 ≤ (highest ids).toNat - i ↔ i < (highest ids).toNat := by omega
    rwa [hlatest, ← hbelow] at hbit
  · intro w hw
    refine ⟨_, read_short hw _ _, ?_⟩
    have hdescending := htracks.missing_descending
    have hmissing := fun m => (htracks.mem_missing_iff : m ∈ _ ↔ _)
    rw [hlatest] at hdescending
    simp only [hlatest] at hmissing
    exact ⟨hdescending, hmissing, received_eq_filter, fun m => not_received_of_missing⟩
  · intro m
    rw [hmirrors.mem, hlatest, ← and_assoc, and_comm]
    rfl
  · rw [hmirrors.report, hlatest]

theorem history_reported_with_gaps :
    ∃ mask r, ((fresh .short).recordAll [2, 5, 5, 3]).1.report = .ok (5, mask) ∧
      (fresh .short).mode = .short ∧ (fresh .short).read 5 mask = .ok r ∧
      4 ∈ r.missing ∧ 3 ∉ r.missing ∧ 0 ∈ r.received := by
  obtain ⟨mask, hreport, -, -, -, hread, -⟩ := history_reported [2, 5, 5, 3]
  have hmode : (fresh .short).mode = .short := rfl
  obtain ⟨r, hr, -, hmissing, hreceived, -⟩ := hread (fresh .short) hmode
  have hzero : (0 : UInt16) ∉ r.missing := by
    rw [hmissing]
    decide
  refine ⟨mask, r, hreport, hmode, hr, (hmissing 4).mpr (by decide), ?_, ?_⟩
  · rw [hmissing]
    decide
  · rw [hreceived, List.mem_filter]
    exact ⟨by decide, decide_eq_true hzero⟩

end DatagramTransport.AckWindow
