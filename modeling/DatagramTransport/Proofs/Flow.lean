import DatagramTransport.Proofs.AckWindow

/-!
# Ids in flight, in order

What is noted on one side and what waits for it on the other, when nothing
overtakes on the way. New ids wait in ascending order. The ids that wait
again were skipped, so a higher one came first; an id that came in order is
not asked for again, and came once.
-/

set_option autoImplicit false

namespace DatagramTransport

def Unseen (noted : List UInt16) (id : UInt16) : Prop :=
  ∀ n ∈ noted, n < id

/-- The id was noted before any higher one. -/
def InOrder (noted : List UInt16) (id : UInt16) : Prop :=
  ∃ earlier later, noted = earlier ++ id :: later ∧ Unseen earlier id

structure Flow (noted queued : List UInt16) : Prop where
  positive : ∀ id ∈ queued, id ≠ 0
  ascending : queued.Pairwise fun x y => Unseen noted x → Unseen noted y → x < y
  overtaken : ∀ id ∈ queued, ¬ InOrder noted id
  once : ∀ id, InOrder noted id → noted.count id = 1

section
variable {noted queued later : List UInt16} {id n : UInt16}

theorem Unseen.not_mem (h : Unseen noted id) : id ∉ noted := by
  intro hm
  exact UInt16.lt_irrefl id (h id hm)

theorem InOrder.mem (h : InOrder noted id) : id ∈ noted := by
  obtain ⟨earlier, later, rfl, -⟩ := h
  simp

theorem InOrder.of_snoc (h : InOrder (noted ++ [n]) id) :
    InOrder noted id ∨ id = n ∧ Unseen noted n := by
  obtain ⟨earlier, later, heq, hseen⟩ := h
  rcases List.eq_nil_or_concat later with rfl | ⟨later, last, rfl⟩
  · obtain ⟨rfl, hn⟩ := List.append_inj' heq rfl
    cases hn
    exact .inr ⟨rfl, hseen⟩
  · have heq' : noted ++ [n] = (earlier ++ id :: later) ++ [last] := by
      rw [heq, List.append_assoc, List.cons_append, List.concat_eq_append]
    obtain ⟨rfl, -⟩ := List.append_inj' heq' rfl
    exact .inl ⟨earlier, later, rfl, hseen⟩

theorem AckWindow.Tracks.inOrder_latest {w : AckWindow} (h : w.Tracks noted)
    (hm : w.latest ∈ noted) : InOrder noted w.latest := by
  obtain ⟨earlier, later, rfl, hnew⟩ := List.eq_append_cons_of_mem hm
  refine ⟨earlier, later, rfl, fun n hn => ?_⟩
  have hle := h.bound n (List.mem_append_left _ hn)
  have hne : n ≠ w.latest := fun he => hnew (he ▸ hn)
  rw [ne_eq, ← UInt16.toNat_inj] at hne
  rw [UInt16.lt_iff_toNat_lt]
  omega

/-- What a report asks for did not come in order, neither then nor later. -/
theorem AckWindow.Reports.not_inOrder {past : List UInt16} {latest : UInt16} {mask : UInt32}
    (h : Reports past latest mask) (hpast : past <+: noted)
    (hid : id ∈ (reading latest mask).missing) : ¬ InOrder noted id ∧ ¬ Unseen noted id := by
  obtain ⟨hnew, -, hlt, hlatest⟩ := h.missing hid
  obtain ⟨rest, rfl⟩ := hpast
  have hlt' : id < latest := UInt16.lt_iff_toNat_lt.mpr hlt
  constructor
  · rintro ⟨earlier, later, heq, hseen⟩
    rcases List.append_eq_append_iff.mp heq with ⟨gap, rfl, -⟩ | ⟨gap, rfl, hgap⟩
    · exact UInt16.lt_asymm hlt' (hseen latest (List.mem_append_left _ hlatest))
    · cases gap with
      | nil =>
        rw [List.append_nil] at hlatest
        exact UInt16.lt_asymm hlt' (hseen latest hlatest)
      | cons first gap =>
        obtain ⟨rfl, -⟩ := List.cons.inj hgap
        exact hnew (by simp)
  · intro hseen
    exact UInt16.lt_asymm hlt' (hseen latest (List.mem_append_left _ hlatest))

theorem flow_nil : Flow [] [] where
  positive := by simp
  ascending := .nil
  overtaken := by simp
  once := by
    intro id h
    cases h.mem

theorem Flow.sublist (h : Flow noted queued) (hs : later.Sublist queued) : Flow noted later where
  positive := fun id hid => h.positive id (hs.subset hid)
  ascending := h.ascending.sublist hs
  overtaken := fun id hid => h.overtaken id (hs.subset hid)
  once := h.once

theorem Flow.post (h : Flow noted queued) (hpos : ∀ id ∈ later, id ≠ 0)
    (hasc : later.Pairwise (· < ·)) (hnew : ∀ id ∈ later, Unseen noted id)
    (habove : ∀ id ∈ later, ∀ q ∈ queued, q < id) : Flow noted (queued ++ later) where
  positive := by
    intro id hid
    rcases List.mem_append.mp hid with hid | hid
    · exact h.positive id hid
    · exact hpos id hid
  ascending := by
    rw [List.pairwise_append]
    exact ⟨h.ascending, hasc.imp fun hlt _ _ => hlt, fun q hq id hid _ _ => habove id hid q hq⟩
  overtaken := by
    intro id hid
    rcases List.mem_append.mp hid with hid | hid
    · exact h.overtaken id hid
    · exact fun ho => (hnew id hid).not_mem ho.mem
  once := h.once

theorem Flow.resend (h : Flow noted queued) (hpos : ∀ id ∈ later, id ≠ 0)
    (hskipped : ∀ id ∈ later, ¬ InOrder noted id ∧ ¬ Unseen noted id) :
    Flow noted (queued ++ later) where
  positive := by
    intro id hid
    rcases List.mem_append.mp hid with hid | hid
    · exact h.positive id hid
    · exact hpos id hid
  ascending := by
    rw [List.pairwise_append]
    refine ⟨h.ascending, List.pairwise_of_forall_mem_list ?_, ?_⟩
    · intro x hx y _ hseen
      exact absurd hseen (hskipped x hx).2
    · intro x _ y hy _ hseen
      exact absurd hseen (hskipped y hy).2
  overtaken := by
    intro id hid
    rcases List.mem_append.mp hid with hid | hid
    · exact h.overtaken id hid
    · exact (hskipped id hid).1
  once := h.once

theorem Flow.arrive (h : Flow noted (n :: queued)) : Flow (noted ++ [n]) queued where
  positive := fun id hid => h.positive id (List.mem_cons_of_mem _ hid)
  ascending := by
    have hasc := (List.pairwise_cons.mp h.ascending).2
    refine hasc.imp fun hxy hx hy => ?_
    exact hxy (fun m hm => hx m (List.mem_append_left _ hm))
      (fun m hm => hy m (List.mem_append_left _ hm))
  overtaken := by
    intro id hid ho
    rcases ho.of_snoc with ho | ⟨rfl, hseen⟩
    · exact h.overtaken id (List.mem_cons_of_mem _ hid) ho
    · exact UInt16.lt_irrefl id ((List.pairwise_cons.mp h.ascending).1 id hid hseen hseen)
  once := by
    intro id ho
    rw [List.count_append]
    rcases ho.of_snoc with ho | ⟨rfl, hseen⟩
    · have hne : n ≠ id := fun he => h.overtaken n (by simp) (he ▸ ho)
      rw [h.once id ho, List.count_singleton, if_neg (by simpa using hne)]
    · rw [List.count_eq_zero_of_not_mem hseen.not_mem]
      simp

/-- What comes after all that waited before it is not taken for a repetition. -/
theorem Flow.record_accepted (h : Flow noted (n :: queued)) {w : AckWindow}
    (hw : w.Tracks noted) : (w.record n).2 = true := by
  rw [AckWindow.record_accepted]
  rintro rfl
  rcases hw.latest_mem with h0 | hm
  · exact h.positive _ (by simp) h0
  · exact h.overtaken _ (by simp) (hw.inOrder_latest hm)

end

end DatagramTransport
