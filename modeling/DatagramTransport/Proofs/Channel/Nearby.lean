import DatagramTransport.Proofs.Channel.Arrivals

/-!
# A reorder buffer with little to hold

Positions repeat after 256 messages, but messages that come once, and not too
far ahead of the awaited one, are known by them: the buffer holds exactly what
came too early. What it does not see is that a position beyond the wrap is a
later one, unless it awaits the last position before the wrap.
-/

set_option autoImplicit false

namespace DatagramTransport

theorem toNat_positionAt_mod (index : Nat) : (positionAt index).toNat = (index + 1) % 256 :=
  UInt8.toNat_ofNat'

theorem positionAt_inj_near {i j : Nat} (hij : i ≤ j) (hj : j < i + 256)
    (h : positionAt i = positionAt j) : i = j := by
  have hn := congrArg UInt8.toNat h
  rw [toNat_positionAt_mod, toNat_positionAt_mod] at hn
  omega

namespace Reorder

/-- The first messages are done. Of the others, those that came are held, each
at its position, and nothing else is. -/
structure Awaits (messages : List Bytes) (came : Nat → Bool) (r : Reorder) (done : Nat) :
    Prop where
  next : r.next = positionAt done
  done_le : done ≤ messages.length
  before : ∀ k < done, came k = true
  near : ∀ k, came k = true → k < done + 256
  held : ∀ position payload, r.held[position]? = some payload ↔
    ∃ k, done ≤ k ∧ came k = true ∧ position = positionAt k ∧ messages[k]? = some payload

section
variable {messages : List Bytes} {came : Nat → Bool} {r : Reorder} {done : Nat}

theorem awaits_fresh : fresh.Awaits messages (fun _ => false) 0 where
  next := rfl
  done_le := Nat.zero_le _
  before := by simp
  near := by simp
  held := by simp [fresh]

theorem Awaits.erase (h : r.Awaits messages came done) (hlt : done < messages.length)
    (hcame : came done = true) :
    Awaits messages came { next := r.next + 1, held := r.held.erase r.next } (done + 1) where
  next := (congrArg (· + 1) h.next).trans (positionAt_succ done)
  done_le := hlt
  before := by
    intro k hk
    by_cases heq : k = done
    · rw [heq]
      exact hcame
    · exact h.before k (by omega)
  near := by
    intro k hk
    have := h.near k hk
    omega
  held := by
    intro position payload
    simp only [Std.ExtTreeMap.getElem?_erase, h.next, Std.compare_eq_iff_eq]
    by_cases hpos : positionAt done = position
    · rw [if_pos hpos]
      simp only [reduceCtorEq, false_iff, not_exists, not_and]
      intro k hk hc hp
      have hnear := h.near k hc
      have := positionAt_inj_near (by omega) hnear (hpos.trans hp)
      omega
    · rw [if_neg hpos, h.held]
      apply exists_congr
      intro k
      have hne : k = done → position ≠ positionAt k := by
        rintro rfl heq
        exact hpos heq.symm
      constructor
      · rintro ⟨hk, hc, hp, hm⟩
        have hnot : k ≠ done := fun heq => hne heq hp
        exact ⟨by omega, hc, hp, hm⟩
      · rintro ⟨hk, hrest⟩
        exact ⟨by omega, hrest⟩

/-- Releasing goes on to the first message that did not come. -/
theorem Awaits.release (h : r.Awaits messages came done) :
    ∃ done', r.release.1.Awaits messages came done' ∧
      (done' < messages.length → came done' = false) ∧
      messages.take done ++ r.release.2 = messages.take done' := by
  induction r using release.induct generalizing done with
  | case1 r hnone =>
    have hstops : done < messages.length → came done = false := by
      intro hlt
      by_cases hc : came done = true
      · have hheld := (h.held r.next _).mpr
          ⟨done, Nat.le_refl _, hc, h.next, List.getElem?_eq_getElem hlt⟩
        rw [hnone] at hheld
        cases hheld
      · simpa using hc
    rw [release_of_none hnone]
    exact ⟨done, h, hstops, List.append_nil _⟩
  | case2 r payload hheld after payloads hafter ih =>
    obtain ⟨k, hk, hcame, hposition, hmessage⟩ := (h.held r.next payload).mp hheld
    obtain ⟨hlt, -⟩ := List.getElem?_eq_some_iff.mp hmessage
    rw [h.next] at hposition
    obtain rfl := positionAt_inj_near hk (h.near k hcame) hposition
    obtain ⟨done', hawaits, hstops, heq⟩ := ih (h.erase hlt hcame)
    rw [release_of_some hheld]
    refine ⟨done', hawaits, hstops, ?_⟩
    rw [← heq, List.take_add_one, hmessage, List.append_assoc]
    rfl

theorem Awaits.come_next (h : r.Awaits messages came done) (hlt : done < messages.length)
    (hnew : came done = false) :
    Awaits messages (fun j => came j || decide (j = done)) { r with next := r.next + 1 }
      (done + 1) where
  next := (congrArg (· + 1) h.next).trans (positionAt_succ done)
  done_le := hlt
  before := by
    intro k hk
    by_cases heq : k = done
    · simp [heq]
    · simp [h.before k (by omega)]
  near := by
    intro k hk
    by_cases heq : k = done
    · omega
    · have := h.near k (by simpa [heq] using hk)
      omega
  held := by
    intro position payload
    rw [h.held]
    apply exists_congr
    intro k
    by_cases heq : k = done
    · subst heq
      constructor
      · rintro ⟨-, hc, -⟩
        rw [hnew] at hc
        cases hc
      · rintro ⟨hk, -⟩
        omega
    · have hle : done ≤ k ↔ done + 1 ≤ k := by omega
      simp [heq, hle]

theorem Awaits.come_later (h : r.Awaits messages came done) {k : Nat} {payload : Bytes}
    (hk : messages[k]? = some payload) (hnew : came k = false) (hlate : done < k)
    (hnear : k < done + 256) :
    Awaits messages (fun j => came j || decide (j = k))
      { r with held := r.held.insertIfNew (positionAt k) payload } done where
  next := h.next
  done_le := h.done_le
  before := by
    intro j hj
    simp [h.before j hj]
  near := by
    intro j hj
    by_cases heq : j = k
    · rwa [heq]
    · exact h.near j (by simpa [heq] using hj)
  held := by
    have hfree : positionAt k ∉ r.held := by
      intro hmem
      obtain ⟨other, hother⟩ := Option.isSome_iff_exists.mp
        (Std.ExtTreeMap.mem_iff_isSome_getElem?.mp hmem)
      obtain ⟨j, hj, hc, hp, -⟩ := (h.held _ other).mp hother
      have hjnear := h.near j hc
      have hjk : j = k := by
        rcases Nat.le_total j k with hle | hle
        · exact positionAt_inj_near hle (by omega) hp.symm
        · exact (positionAt_inj_near hle (by omega) hp).symm
      rw [hjk, hnew] at hc
      cases hc
    intro position other
    simp only [Std.ExtTreeMap.getElem?_insertIfNew, Std.compare_eq_iff_eq]
    by_cases hpos : positionAt k = position
    · subst hpos
      rw [if_pos ⟨rfl, hfree⟩, Option.some.injEq]
      constructor
      · rintro rfl
        exact ⟨k, Nat.le_of_lt hlate, by simp, rfl, hk⟩
      · rintro ⟨j, hj, hc, hp, hm⟩
        by_cases heq : j = k
        · subst heq
          exact Option.some.inj (hk.symm.trans hm)
        · have hc' : came j = true := by simpa [heq] using hc
          have hheld := (h.held _ other).mpr ⟨j, hj, hc', hp, hm⟩
          exact absurd (Std.ExtTreeMap.mem_iff_isSome_getElem?.mpr (by rw [hheld]; rfl)) hfree
    · rw [if_neg fun hc => hpos hc.1, h.held]
      apply exists_congr
      intro j
      by_cases heq : j = k
      · subst heq
        simp [Ne.symm hpos]
      · simp [heq]

theorem Awaits.later (h : r.Awaits messages came done) {k : Nat} (hlate : done < k)
    (hspan : k < done + 32) :
    (r.next < positionAt k ∨ r.next = 255) ↔ (k + 1) / 256 ≤ (done + 2) / 256 := by
  have hlast : (255 : UInt8).toNat = 255 := rfl
  rw [← UInt8.toNat_inj, UInt8.lt_iff_toNat_lt, h.next, toNat_positionAt_mod,
    toNat_positionAt_mod, hlast]
  omega

theorem Awaits.accept (h : r.Awaits messages came done) {k : Nat} {payload : Bytes}
    (hk : messages[k]? = some payload) (hnew : came k = false)
    (hstops : done < messages.length → came done = false) (hspan : k < done + 32)
    (hside : (k + 1) / 256 ≤ (done + 2) / 256) :
    ∃ done', (r.accept (positionAt k) payload).1.Awaits messages
        (fun j => came j || decide (j = k)) done' ∧
      (done' < messages.length → (came done' || decide (done' = k)) = false) ∧
      messages.take done ++ (r.accept (positionAt k) payload).2 = messages.take done' := by
  obtain ⟨hlt, -⟩ := List.getElem?_eq_some_iff.mp hk
  have hle : done ≤ k := by
    apply Nat.le_of_not_lt
    intro hpast
    rw [h.before k hpast] at hnew
    cases hnew
  unfold Reorder.accept
  by_cases hnow : k = done
  · subst hnow
    rw [if_pos h.next.symm]
    obtain ⟨done', hawaits, hstops', heq⟩ := (h.come_next hlt hnew).release
    refine ⟨done', hawaits, hstops', ?_⟩
    rw [← heq, List.take_add_one, hk, List.append_assoc]
    rfl
  · have hlate : done < k := by omega
    have hpos : positionAt k ≠ r.next := by
      rw [h.next]
      intro heq
      exact hnow (positionAt_inj_near hle (by omega) heq.symm).symm
    rw [if_neg hpos, if_pos ((h.later hlate hspan).mpr hside)]
    refine ⟨done, h.come_later hk hnew hlate (by omega), ?_, List.append_nil _⟩
    intro hd
    simp [hstops hd, Ne.symm hnow]

/-- A payload that comes from beyond the wrap is dropped, unless the last
position before the wrap is awaited. -/
theorem Awaits.accept_beyond (h : r.Awaits messages came done) {k : Nat} (payload : Bytes)
    (hlate : done < k) (hspan : k < done + 32) (hside : ¬ (k + 1) / 256 ≤ (done + 2) / 256) :
    r.accept (positionAt k) payload = (r, []) := by
  have hpos : positionAt k ≠ r.next := by
    rw [h.next]
    intro heq
    have := positionAt_inj_near (Nat.le_of_lt hlate) (by omega) heq.symm
    omega
  rw [Reorder.accept, if_neg hpos, if_neg (mt (h.later hlate hspan).mp hside)]

end

end Reorder

end DatagramTransport
