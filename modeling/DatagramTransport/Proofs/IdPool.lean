import DatagramTransport.IdPool

/-!
# Where every issued id is

An id that was ever issued is held by somebody or free, and never both. Ids
above the mark were not issued yet. Issuing moves an id from the pool to its
holder, and releasing moves it back.
-/

set_option autoImplicit false

namespace DatagramTransport.IdPool

/-- The ids that were issued are those that are held and those that are free. -/
structure Accounts (p : IdPool) (issued held : List UInt16) : Prop where
  nodup : (held ++ p.free).Nodup
  issued_iff : ∀ id, id ∈ issued ↔ id ∈ held ++ p.free
  nonzero : 0 ∉ issued
  below : ∀ top, p.fresh = some top → top ≠ 0 ∧ ∀ id ∈ issued, id < top

section
variable {p q : IdPool} {issued held : List UInt16} {id : UInt16}

theorem accounts_full : full.Accounts [] [] where
  nodup := List.nodup_nil
  issued_iff := fun _ => Iff.rfl
  nonzero := by simp
  below := by
    rintro top ⟨⟩
    exact ⟨by decide, by simp⟩

theorem Accounts.perm (h : p.Accounts issued held) {others : List UInt16}
    (hperm : held.Perm others) : p.Accounts issued others where
  nodup := (hperm.append_right _).nodup_iff.mp h.nodup
  issued_iff := fun id => (h.issued_iff id).trans (hperm.append_right _).mem_iff
  nonzero := h.nonzero
  below := h.below

theorem successor?_eq_some {top : UInt16} (h : successor? id = some top) :
    top ≠ 0 ∧ top.toNat = id.toNat + 1 := by
  unfold successor? at h
  split at h
  · cases h
  · rename_i hlast
    cases h
    have hlt := id.toNat_lt
    have hne : id.toNat ≠ 65535 := fun heq => hlast (UInt16.toNat.inj heq)
    have hnext : (id + 1).toNat = id.toNat + 1 := by
      rw [UInt16.toNat_add]
      exact Nat.mod_eq_of_lt (by simp; omega)
    refine ⟨?_, hnext⟩
    intro hzero
    rw [hzero] at hnext
    simp at hnext

theorem Accounts.recycle {fresh : Option UInt16} {free : List UInt16}
    (h : Accounts { fresh, free := id :: free } issued held) :
    Accounts { fresh, free } (issued ++ [id]) (id :: held) := by
  have hmove : (held ++ id :: free).Perm (id :: held ++ free) := List.perm_middle
  -- an id that comes from the free ones was issued before, so that the issued ids stay the same
  have hold : id ∈ issued := (h.issued_iff id).mpr (by simp)
  have hagain : ∀ other, other ∈ issued ++ [id] ↔ other ∈ issued := by
    intro other
    rw [List.mem_append, List.mem_singleton, or_iff_left_iff_imp]
    rintro rfl
    exact hold
  constructor
  case nodup => exact hmove.nodup_iff.mp h.nodup
  case issued_iff =>
    intro other
    rw [hagain, ← hmove.mem_iff]
    exact h.issued_iff other
  case nonzero =>
    rw [hagain]
    exact h.nonzero
  case below =>
    intro top htop
    obtain ⟨hne, hall⟩ := h.below top htop
    exact ⟨hne, fun other hother => hall other ((hagain other).mp hother)⟩

theorem Accounts.issue (h : Accounts { fresh := some id, free := [] } issued held) :
    Accounts { fresh := successor? id, free := [] } (issued ++ [id]) (id :: held) := by
  obtain ⟨hne, hall⟩ := h.below id rfl
  have hnew : id ∉ issued := fun hmem => UInt16.lt_irrefl _ (hall id hmem)
  have hheld : ∀ other, other ∈ issued ↔ other ∈ held := fun other => by
    simpa using h.issued_iff other
  constructor
  case nodup =>
    have hnodup := h.nodup
    rw [List.append_nil] at hnodup ⊢
    exact List.nodup_cons.mpr ⟨fun hmem => hnew ((hheld id).mpr hmem), hnodup⟩
  case issued_iff =>
    intro other
    rw [List.append_nil, List.mem_append, List.mem_singleton, List.mem_cons, hheld, or_comm]
  case nonzero =>
    rw [List.mem_append, List.mem_singleton, not_or]
    exact ⟨h.nonzero, fun hzero => hne hzero.symm⟩
  case below =>
    intro top htop
    obtain ⟨hpos, hnext⟩ := successor?_eq_some htop
    refine ⟨hpos, fun other hother => ?_⟩
    rw [UInt16.lt_iff_toNat_lt, hnext]
    rcases List.mem_append.mp hother with hother | hother
    · have := UInt16.lt_iff_toNat_lt.mp (hall other hother)
      omega
    · rw [List.mem_singleton.mp hother]
      omega

theorem Accounts.allocate (h : p.Accounts issued held) (ha : p.allocate = (q, some id)) :
    q.Accounts (issued ++ [id]) (id :: held) := by
  obtain ⟨fresh, free⟩ := p
  cases free with
  | cons recycled free =>
    cases ha
    exact h.recycle
  | nil =>
    cases fresh with
    | none => cases ha
    | some mark =>
      cases ha
      exact h.issue

theorem Accounts.release (h : p.Accounts issued (id :: held)) :
    p.release id = .ok { p with free := id :: p.free } ∧
      Accounts { p with free := id :: p.free } issued held := by
  have hmove : (id :: held ++ p.free).Perm (held ++ id :: p.free) := List.perm_middle.symm
  have hmem : id ∈ issued := (h.issued_iff id).mpr (by simp)
  have hzero : id ≠ 0 := fun hzero => h.nonzero (hzero ▸ hmem)
  have hfree : id ∉ p.free := by
    have hnot := (List.nodup_cons.mp h.nodup).1
    exact fun hin => hnot (List.mem_append_right _ hin)
  constructor
  · rw [IdPool.release, if_neg hzero, if_neg hfree]
  · exact {
      nodup := hmove.nodup_iff.mp h.nodup
      issued_iff := fun other => (h.issued_iff other).trans hmove.mem_iff
      nonzero := h.nonzero
      below := h.below }

end

end DatagramTransport.IdPool
