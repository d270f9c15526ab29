import DatagramTransport.AckWindow

/-!
# What a window knows of its history

A window keeps one id and 32 bits. They are determined by the ids that it
took note of: the highest id, and of each id in the span below it whether
it came. A bit is only ever clear for an id of at least one that did not
come, so a report never counts a missing message among the received ones,
except for ids that wrap below zero.
-/

set_option autoImplicit false

namespace DatagramTransport.AckWindow

/-- The window is what remains of taking note of the given ids. -/
structure Tracks (w : AckWindow) (ids : List UInt16) : Prop where
  short : w.mode = .short
  bound : ∀ id ∈ ids, id.toNat ≤ w.latest.toNat
  latest_mem : w.latest = 0 ∨ w.latest ∈ ids
  bit : ∀ i < ackSpan, w.mask.getLsbD i = false ↔
    i < w.latest.toNat ∧ w.latest - .ofNat i ∉ ids

theorem tracks_fresh : (fresh .short).Tracks [] where
  short := rfl
  bound := by simp
  latest_mem := .inl rfl
  bit := by
    intro i hi
    simp [fresh, hi]

theorem toNat_sub_ofNat {n : UInt16} {i : Nat} (h : i ≤ n.toNat) :
    (n - .ofNat i).toNat = n.toNat - i := by
  have hn := n.toNat_lt
  have hi : (UInt16.ofNat i).toNat = i := UInt16.toNat_ofNat_of_lt' (Nat.lt_of_le_of_lt h hn)
  rw [UInt16.toNat_sub_of_le _ _ (UInt16.le_iff_toNat_le.mpr (by omega)), hi]

theorem toNat_sub_ofNat_wrap {n : UInt16} {i : Nat} (h : n.toNat < i) (hi : i < 65536) :
    (n - .ofNat i).toNat = 65536 + n.toNat - i := by
  have hm : (UInt16.ofNat i).toNat = i := UInt16.toNat_ofNat_of_lt' hi
  rw [UInt16.toNat_sub, hm]
  omega

theorem sub_ofNat_eq_iff {n m : UInt16} {i : Nat} (h : i ≤ n.toNat) :
    n - .ofNat i = m ↔ n.toNat = m.toNat + i := by
  rw [← UInt16.toNat_inj, toNat_sub_ofNat h]
  omega

theorem tracks_repeat {w : AckWindow} {ids : List UInt16} (h : w.Tracks ids) :
    w.Tracks (ids ++ [w.latest]) where
  short := h.short
  bound := by
    intro id hid
    rcases List.mem_append.mp hid with hid | hid
    · exact h.bound id hid
    · simp_all
  latest_mem := .inr (by simp)
  bit := by
    intro i hi
    rw [h.bit i hi]
    by_cases h0 : i = 0
    · subst h0
      rcases h.latest_mem with hl | hl <;> simp [hl]
    · apply and_congr_right
      intro hlt
      have hne : w.latest - .ofNat i ≠ w.latest := by
        rw [ne_eq, sub_ofNat_eq_iff (by omega)]
        omega
      simp [hne]

theorem tracks_advance {w : AckWindow} {ids : List UInt16} (h : w.Tracks ids) {id : UInt16}
    (hid : w.latest < id) :
    Tracks { w with
      latest := id, mask := w.mask <<< (id - w.latest).toNat ||| .twoPow ackSpan 0 }
      (ids ++ [id]) where
  short := h.short
  bound := by
    have hlt := UInt16.lt_iff_toNat_lt.mp hid
    intro m hm
    rcases List.mem_append.mp hm with hm | hm
    · exact Nat.le_trans (h.bound m hm) (Nat.le_of_lt hlt)
    · simp_all
  latest_mem := .inr (by simp)
  bit := by
    intro i hi
    have hlt := UInt16.lt_iff_toNat_lt.mp hid
    have hd : (id - w.latest).toNat = id.toNat - w.latest.toNat :=
      UInt16.toNat_sub_of_le _ _ (UInt16.le_iff_toNat_le.mpr (Nat.le_of_lt hlt))
    by_cases h0 : i = 0
    · subst h0
      simp [hi]
    have hbit : (w.mask <<< (id - w.latest).toNat ||| BitVec.twoPow ackSpan 0).getLsbD i =
        (!decide (i < id.toNat - w.latest.toNat) &&
          w.mask.getLsbD (i - (id.toNat - w.latest.toNat))) := by
      rw [BitVec.getLsbD_or, BitVec.getLsbD_shiftLeft, BitVec.getLsbD_twoPow, hd]
      simp [hi, Ne.symm h0]
    rw [hbit]
    by_cases hs : i < id.toNat - w.latest.toNat
    · have hnew : id - .ofNat i ∉ ids ++ [id] := by
        intro hm
        rcases List.mem_append.mp hm with hm | hm
        · have hb := h.bound _ hm
          rw [toNat_sub_ofNat (by omega)] at hb
          omega
        · have he := (sub_ofNat_eq_iff (by omega)).mp (List.mem_singleton.mp hm)
          omega
      simp only [hs, decide_true, Bool.not_true, Bool.false_and, true_iff]
      exact ⟨by omega, hnew⟩
    · simp only [hs, decide_false, Bool.not_false, Bool.true_and]
      have hspan : i - (id.toNat - w.latest.toNat) < w.latest.toNat ↔ i < id.toNat := by omega
      rw [h.bit _ (by omega), hspan]
      apply and_congr_right
      intro hold
      have hsame : id - .ofNat i = w.latest - .ofNat (i - (id.toNat - w.latest.toNat)) := by
        rw [sub_ofNat_eq_iff (by omega), toNat_sub_ofNat (by omega)]
        omega
      have hne : id - .ofNat i ≠ id := by
        rw [ne_eq, sub_ofNat_eq_iff (by omega)]
        omega
      rw [← hsame, List.mem_append, List.mem_singleton, or_iff_left hne]

theorem tracks_late {w : AckWindow} {ids : List UInt16} (h : w.Tracks ids) {id : UInt16}
    (hid : id.toNat < w.latest.toNat) :
    Tracks { w with mask := w.mask ||| .twoPow ackSpan (w.latest - id).toNat }
      (ids ++ [id]) where
  short := h.short
  bound := by
    intro m hm
    rcases List.mem_append.mp hm with hm | hm
    · exact h.bound m hm
    · have he := List.mem_singleton.mp hm
      subst he
      exact Nat.le_of_lt hid
  latest_mem := h.latest_mem.imp_right fun hm => List.mem_append.mpr (.inl hm)
  bit := by
    intro i hi
    have hd : (w.latest - id).toNat = w.latest.toNat - id.toNat :=
      UInt16.toNat_sub_of_le _ _ (UInt16.le_iff_toNat_le.mpr (Nat.le_of_lt hid))
    have hbit : (w.mask ||| BitVec.twoPow ackSpan (w.latest - id).toNat).getLsbD i =
        (w.mask.getLsbD i || decide (w.latest.toNat = id.toNat + i)) := by
      rw [BitVec.getLsbD_or, BitVec.getLsbD_twoPow, hd]
      congr 1
      rw [← Bool.decide_and]
      exact decide_eq_decide.mpr (by omega)
    rw [hbit, Bool.or_eq_false_iff, h.bit i hi, decide_eq_false_iff_not, and_assoc]
    apply and_congr_right
    intro hlt
    rw [List.mem_append, List.mem_singleton, not_or,
      sub_ofNat_eq_iff (n := w.latest) (Nat.le_of_lt hlt)]

theorem tracks_record {w : AckWindow} {ids : List UInt16} (h : w.Tracks ids) (id : UInt16) :
    (w.record id).1.Tracks (ids ++ [id]) := by
  unfold record
  by_cases heq : id = w.latest
  · rw [if_pos heq, heq]
    exact tracks_repeat h
  · rw [if_neg heq]
    by_cases hlt : w.latest < id
    · rw [if_pos hlt]
      exact tracks_advance h hlt
    · rw [if_neg hlt]
      apply tracks_late h
      rw [UInt16.lt_iff_toNat_lt] at hlt
      have hne : id.toNat ≠ w.latest.toNat := fun he => heq (UInt16.toNat.inj he)
      omega

theorem tracks_recordAll {w : AckWindow} {ids : List UInt16} (h : w.Tracks ids)
    (later : List UInt16) : (w.recordAll later).1.Tracks (ids ++ later) := by
  induction later generalizing w ids with
  | nil => simpa [recordAll] using h
  | cons id later ih =>
    have hs := ih (tracks_record h id)
    rwa [List.append_assoc] at hs

theorem Tracks.record_new {w : AckWindow} {ids : List UInt16} (h : w.Tracks ids) {id : UInt16}
    (hpos : id ≠ 0) (hnew : id ∉ ids) : (w.record id).2 = true := by
  rw [record_accepted]
  rintro rfl
  rcases h.latest_mem with h0 | hm
  · exact hpos h0
  · exact hnew hm

/-- Among the ids that a fresh window took note of, this one was taken for new. -/
def Accepted (ids : List UInt16) (id : UInt16) : Prop :=
  (id, true) ∈ ids.zip ((fresh .short).recordAll ids).2

theorem recordAll_append_flags (w : AckWindow) (ids later : List UInt16) :
    (w.recordAll (ids ++ later)).2 =
      (w.recordAll ids).2 ++ ((w.recordAll ids).1.recordAll later).2 := by
  induction ids generalizing w with
  | nil => rfl
  | cons id ids ih => exact congrArg (_ :: ·) (ih _)

theorem accepted_of_mem {ids : List UInt16} {id : UInt16} (hpos : id ≠ 0) (hid : id ∈ ids) :
    Accepted ids id := by
  obtain ⟨earlier, later, rfl, hnew⟩ := List.eq_append_cons_of_mem hid
  have hflag := (tracks_recordAll tracks_fresh earlier).record_new hpos hnew
  have hlength := ((fresh .short).length_recordAll earlier).symm
  rw [Accepted, recordAll_append_flags, List.zip_append hlength]
  apply List.mem_append_right
  rw [recordAll, List.zip_cons_cons, hflag]
  exact List.mem_cons_self

def reading (latest : UInt16) (mask : UInt32) : AckReading :=
  let (received, missing) := (List.range ackSpan).partition mask.toBitVec.getLsbD
  let id (i : Nat) : UInt16 := latest - .ofNat i
  { missing := missing.map id, received := received.map id }

theorem read_short {w : AckWindow} (h : w.mode = .short) (latest : UInt16) (mask : UInt32) :
    w.read latest mask = .ok (reading latest mask) := by
  simp [read, h, reading]

theorem mem_missing {latest id : UInt16} {mask : UInt32} :
    id ∈ (reading latest mask).missing ↔
      ∃ i < ackSpan, mask.toBitVec.getLsbD i = false ∧ latest - .ofNat i = id := by
  simp [reading, and_assoc]

theorem mem_received {latest id : UInt16} {mask : UInt32} :
    id ∈ (reading latest mask).received ↔
      ∃ i < ackSpan, mask.toBitVec.getLsbD i = true ∧ latest - .ofNat i = id := by
  simp [reading, and_assoc]

/-- The report is the one of a window that took note of the given ids. -/
def Reports (ids : List UInt16) (latest : UInt16) (mask : UInt32) : Prop :=
  ∃ w : AckWindow, w.Tracks ids ∧ latest = w.latest ∧ mask = .ofBitVec w.mask

theorem Tracks.reports {w : AckWindow} {ids : List UInt16} (h : w.Tracks ids) :
    Reports ids w.latest (.ofBitVec w.mask) :=
  ⟨w, h, rfl, rfl⟩

/-- An id that a report counts as received was noted, or is one of those
that only the wrap below one brings into the span. -/
theorem Reports.received {ids : List UInt16} {latest id : UInt16} {mask : UInt32}
    (h : Reports ids latest mask) (hid : id ∈ (reading latest mask).received) :
    id ∈ ids ∨ id = 0 ∨ 65504 < id.toNat := by
  obtain ⟨w, hw, rfl, rfl⟩ := h
  obtain ⟨i, hi, hbit, rfl⟩ := mem_received.mp hid
  have hset : ¬ w.mask.getLsbD i = false := fun hclear => Bool.noConfusion (hbit.symm.trans hclear)
  rw [hw.bit i hi, not_and, Classical.not_not] at hset
  rcases Nat.lt_trichotomy i w.latest.toNat with hlt | heq | hgt
  · exact .inl (hset hlt)
  · right
    left
    rw [sub_ofNat_eq_iff (by omega), heq]
    simp
  · right
    right
    have hs : i < 32 := hi
    rw [toNat_sub_ofNat_wrap hgt (by omega)]
    omega

theorem Reports.missing {ids : List UInt16} {latest id : UInt16} {mask : UInt32}
    (h : Reports ids latest mask) (hid : id ∈ (reading latest mask).missing) :
    id ∉ ids ∧ id ≠ 0 ∧ id.toNat < latest.toNat ∧ latest ∈ ids := by
  obtain ⟨w, hw, rfl, rfl⟩ := h
  obtain ⟨i, hi, hbit, rfl⟩ := mem_missing.mp hid
  obtain ⟨hlt, hnew⟩ := (hw.bit i hi).mp hbit
  have hl : w.latest ∈ ids := by
    rcases hw.latest_mem with h0 | hm
    · simp [h0] at hlt
    · exact hm
  have h0 : i ≠ 0 := by
    rintro rfl
    exact hnew (by simpa using hl)
  refine ⟨hnew, ?_, ?_, hl⟩
  · rw [ne_eq, sub_ofNat_eq_iff (by omega)]
    simp only [UInt16.toNat_zero]
    omega
  · rw [toNat_sub_ofNat (by omega)]
    omega

theorem Reports.latest_eq {ids : List UInt16} {latest top : UInt16} {mask : UInt32}
    (h : Reports ids latest mask) (hmem : top ∈ ids)
    (hmax : ∀ id ∈ ids, id.toNat ≤ top.toNat) : latest = top := by
  obtain ⟨w, hw, rfl, -⟩ := h
  have hle := hw.bound top hmem
  rw [← UInt16.toNat_inj]
  rcases hw.latest_mem with h0 | hlatest
  · rw [h0] at hle ⊢
    rw [UInt16.toNat_zero] at hle ⊢
    omega
  · have := hmax _ hlatest
    omega

theorem mem_missing_of_span {latest id : UInt16} {mask : UInt32} (hle : id.toNat ≤ latest.toNat)
    (hspan : latest.toNat < id.toNat + ackSpan) (hid : id ∉ (reading latest mask).received) :
    id ∈ (reading latest mask).missing := by
  have hi : latest.toNat - id.toNat < ackSpan := by omega
  have heq : latest - .ofNat (latest.toNat - id.toNat) = id := by
    rw [sub_ofNat_eq_iff (by omega)]
    omega
  refine mem_missing.mpr ⟨_, hi, ?_, heq⟩
  by_cases hbit : mask.toBitVec.getLsbD (latest.toNat - id.toNat) = true
  · exact absurd (mem_received.mpr ⟨_, hi, hbit, heq⟩) hid
  · exact Bool.not_eq_true _ ▸ hbit

end DatagramTransport.AckWindow
