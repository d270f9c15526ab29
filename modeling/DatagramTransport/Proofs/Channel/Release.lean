import DatagramTransport.Proofs.Channel.Balance
import DatagramTransport.Proofs.Channel.Grammar

/-!
# What a sequenced channel releases

A peer may write any position into its frames, and send them in any order and
as often as it likes. Whatever comes, nothing is ever held at the awaited
position. So one position out of 256 is free: what is held right behind a
payload that was awaited comes to an end before it comes round to that payload
again, and so does the loop that takes it out.
-/

set_option autoImplicit false

namespace DatagramTransport

namespace Reorder

/-- What is held at consecutive positions, modulo 256, from the first one up to
one at which nothing is. -/
structure HeldRun (held : Std.ExtTreeMap UInt8 Bytes) (first : UInt8) (run : List Bytes) :
    Prop where
  holds : ∀ i < run.length, held[first + .ofNat i]? = run[i]?
  stops : held[first + .ofNat run.length]? = none

def Settled (r : Reorder) : Prop := r.next ∉ r.held

/-- Takes out what is held at the awaited position, over and over. There is no result if the turns
do not suffice. -/
def drain? (turns : Nat) (r : Reorder) (delivered : List Bytes) :
    Option (Reorder × List Bytes) :=
  match r.held[r.next]?, turns with
  | none, _ => some (r, delivered)
  | some _, 0 => none
  | some payload, turns + 1 =>
    drain? turns { next := r.next + 1, held := r.held.erase r.next } (delivered ++ [payload])

def accept? (turns : Nat) (r : Reorder) (position : UInt8) (payload : Bytes) :
    Option (Reorder × List Bytes) :=
  if position = r.next then drain? turns { r with next := r.next + 1 } [payload]
  else if r.next < position ∨ r.next = 255 then
    some ({ r with held := r.held.insertIfNew position payload }, [])
  else some (r, [])

theorem add_ofNat_succ (first : UInt8) (i : Nat) :
    first + .ofNat (i + 1) = first + 1 + .ofNat i := by
  rw [UInt8.ofNat_add, UInt8.add_comm (.ofNat i), ← UInt8.add_assoc]
  rfl

theorem add_ofNat_sub (first position : UInt8) :
    first + .ofNat (position - first).toNat = position := by
  rw [UInt8.ofNat_toNat, UInt8.add_comm, UInt8.sub_add_cancel]

theorem toNat_sub_succ {first position : UInt8} (h : position ≠ first) :
    (position - first).toNat = (position - (first + 1)).toNat + 1 := by
  have hne := mt UInt8.toNat_inj.mp h
  have hfirst := first.toNat_lt
  have hposition := position.toNat_lt
  have hone : (1 : UInt8).toNat = 1 := rfl
  rw [UInt8.toNat_sub, UInt8.toNat_sub, UInt8.toNat_add, hone]
  omega

section
variable {held : Std.ExtTreeMap UInt8 Bytes} {first free other : UInt8} {run others : List Bytes}
  {payload : Bytes}

theorem getElem?_erase_ne (h : other ≠ first) : (held.erase first)[other]? = held[other]? := by
  rw [Std.ExtTreeMap.getElem?_erase, if_neg]
  rw [Std.compare_eq_iff_eq]
  exact h.symm

theorem getElem?_insertIfNew (position : UInt8) (payload : Bytes) (other : UInt8) :
    (held.insertIfNew position payload)[other]? =
      if other = position then held[other]?.or (some payload) else held[other]? := by
  by_cases hsame : other = position
  · subst hsame
    simp only [Std.ExtTreeMap.getElem?_insertIfNew, Std.compare_eq_iff_eq, true_and,
      Std.ExtTreeMap.mem_iff_isSome_getElem?]
    cases held[other]? <;> rfl
  · rw [Std.ExtTreeMap.getElem?_insertIfNew, if_neg hsame, if_neg]
    rw [Std.compare_eq_iff_eq]
    exact fun hboth => hsame hboth.1.symm

theorem HeldRun.length_le (h : HeldRun held first run) (hothers : HeldRun held first others) :
    run.length ≤ others.length := by
  apply Nat.le_of_not_lt
  intro hlt
  have hheld := h.holds others.length hlt
  rw [hothers.stops, List.getElem?_eq_getElem hlt] at hheld
  cases hheld

theorem HeldRun.unique (h : HeldRun held first run) (hothers : HeldRun held first others) :
    run = others := by
  have hlength := Nat.le_antisymm (h.length_le hothers) (hothers.length_le h)
  apply List.ext_getElem?
  intro i
  by_cases hi : i < run.length
  · rw [← h.holds i hi, hothers.holds i (hlength ▸ hi)]
  · rw [List.getElem?_eq_none (by omega), List.getElem?_eq_none (by omega)]

theorem HeldRun.iff_eq (h : HeldRun held first run) (others : List Bytes) :
    HeldRun held first others ↔ others = run :=
  ⟨fun hothers => hothers.unique h, fun heq => heq ▸ h⟩

theorem HeldRun.length_le_of_free (h : HeldRun held first run) (hfree : held[free]? = none) :
    run.length ≤ (free - first).toNat := by
  apply Nat.le_of_not_lt
  intro hlt
  have hheld := h.holds _ hlt
  rw [add_ofNat_sub, hfree, List.getElem?_eq_getElem hlt] at hheld
  cases hheld

theorem heldRun_nil (h : held[first]? = none) : HeldRun held first [] where
  holds := by simp
  stops := by
    change held[first + 0]? = none
    rwa [UInt8.add_zero]

/-- What is taken out in front of a run belongs to it. The run does not come round
to where it was, since some position is free. -/
theorem HeldRun.cons (h : HeldRun (held.erase first) (first + 1) run)
    (hfirst : held[first]? = some payload) (hfree : held[free]? = none) :
    HeldRun held first (payload :: run) := by
  have hne : free ≠ first := by
    rintro rfl
    cases hfree.symm.trans hfirst
  have hle := h.length_le_of_free ((getElem?_erase_ne hne).trans hfree)
  have hnear := toNat_sub_succ hne
  have hround := (free - first).toNat_lt
  -- A run of 255 payloads behind the position would have one at the free position too.
  have hback : ∀ i ≤ run.length, first + 1 + .ofNat i ≠ first := by
    intro i hi hback
    have hfirst := first.toNat_lt
    have hzero := congrArg UInt8.toNat hback
    rw [← add_ofNat_succ, UInt8.toNat_add, UInt8.toNat_ofNat'] at hzero
    omega
  constructor
  case holds =>
    intro i hi
    cases i with
    | zero =>
      change held[first + 0]? = some payload
      rwa [UInt8.add_zero]
    | succ i =>
      have hlt : i < run.length := Nat.lt_of_succ_lt_succ hi
      rw [add_ofNat_succ, List.getElem?_cons_succ, ← h.holds i hlt,
        getElem?_erase_ne (hback i (Nat.le_of_lt hlt))]
  case stops =>
    rw [List.length_cons, add_ofNat_succ, ← getElem?_erase_ne (hback _ (Nat.le_refl _)), h.stops]

end

section
variable {r : Reorder} {free position : UInt8}

theorem settled_release (r : Reorder) : r.release.1.Settled := by
  induction r using release.induct with
  | case1 r hnone =>
    rw [release_of_none hnone]
    exact (getElem?_eq_none_iff _ _).mp hnone
  | case2 r payload hheld after payloads hafter ih =>
    rw [release_of_some hheld]
    exact ih

theorem heldRun_release (hfree : r.held[free]? = none) : HeldRun r.held r.next r.release.2 := by
  induction r using release.induct with
  | case1 r hnone =>
    rw [release_of_none hnone]
    exact heldRun_nil hnone
  | case2 r payload hheld after payloads hafter ih =>
    have hne : free ≠ r.next := by
      rintro rfl
      cases hfree.symm.trans hheld
    rw [release_of_some hheld]
    exact (ih ((getElem?_erase_ne hne).trans hfree)).cons hheld hfree

theorem getElem?_release (r : Reorder) (other : UInt8) :
    r.release.1.held[other]? =
      if (other - r.next).toNat < r.release.2.length then none else r.held[other]? := by
  induction r using release.induct with
  | case1 r hnone =>
    rw [release_of_none hnone]
    rfl
  | case2 r payload hheld after payloads hafter ih =>
    rw [release_of_some hheld]
    dsimp only at ih ⊢
    rw [ih, List.length_cons]
    by_cases hnext : other = r.next
    · rw [hnext, Std.ExtTreeMap.getElem?_erase_self, ite_self, UInt8.sub_self]
      exact (if_pos (Nat.succ_pos _)).symm
    · rw [toNat_sub_succ hnext, getElem?_erase_ne hnext]
      simp only [Nat.succ_lt_succ_iff]

/-- The loop takes one turn for each payload that it releases. -/
theorem drain?_eq (turns : Nat) (r : Reorder) (delivered : List Bytes) :
    drain? turns r delivered =
      if r.release.2.length ≤ turns then some (r.release.1, delivered ++ r.release.2)
      else none := by
  fun_induction drain? turns r delivered with
  | case1 r delivered turns hnone => simp [release_of_none hnone]
  | case2 r delivered payload hheld => simp [release_of_some hheld]
  | case3 r delivered payload turns hheld ih =>
    rw [ih, release_of_some hheld]
    simp

theorem accept_next (r : Reorder) (payload : Bytes) :
    r.accept r.next payload =
      let after := release { r with next := r.next + 1 }
      (after.1, payload :: after.2) :=
  if_pos rfl

theorem accept_snd_of_ne (h : position ≠ r.next) (payload : Bytes) :
    (r.accept position payload).2 = [] := by
  rw [accept, if_neg h]
  split <;> rfl

theorem accept?_eq (turns : Nat) (r : Reorder) (position : UInt8) (payload : Bytes) :
    r.accept? turns position payload =
      if (r.accept position payload).2.length ≤ turns + 1 then some (r.accept position payload)
      else none := by
  by_cases hnow : position = r.next
  · rw [hnow, accept?, if_pos rfl, drain?_eq, accept_next]
    simp
  · have hnone : (r.accept position payload).2.length ≤ turns + 1 := by
      rw [accept_snd_of_ne hnow]
      exact Nat.zero_le _
    rw [if_pos hnone, accept?, Reorder.accept, if_neg hnow, if_neg hnow]
    split <;> rfl

theorem settled_fresh : fresh.Settled := Std.ExtTreeMap.not_mem_empty

theorem Settled.next_free (h : r.Settled) : r.held[r.next]? = none :=
  Std.ExtTreeMap.getElem?_eq_none h

theorem Settled.accept (h : r.Settled) (position : UInt8) (payload : Bytes) :
    (r.accept position payload).1.Settled := by
  by_cases hnow : position = r.next
  · rw [hnow, accept_next]
    exact settled_release _
  · rw [Reorder.accept, if_neg hnow]
    split
    · rw [Settled, Std.ExtTreeMap.mem_insertIfNew, Std.compare_eq_iff_eq]
      exact fun hin => hin.elim hnow h
    · exact h

theorem Settled.heldRun_accept (h : r.Settled) (payload : Bytes) :
    ∃ run, (r.accept r.next payload).2 = payload :: run ∧ HeldRun r.held (r.next + 1) run := by
  rw [accept_next]
  exact ⟨_, rfl, heldRun_release (r := { r with next := r.next + 1 }) h.next_free⟩

theorem Settled.length_accept_le (h : r.Settled) (position : UInt8) (payload : Bytes) :
    (r.accept position payload).2.length ≤ 256 := by
  by_cases hnow : position = r.next
  · obtain ⟨run, hrun, hheld⟩ := h.heldRun_accept payload
    have hle := hheld.length_le_of_free h.next_free
    have hround := (r.next - (r.next + 1)).toNat_lt
    rw [hnow, hrun, List.length_cons]
    omega
  · rw [accept_snd_of_ne hnow]
    exact Nat.zero_le _

theorem Settled.held_accept (h : r.Settled) (position : UInt8) (payload : Bytes)
    (other : UInt8) (waiting : Bytes) :
    (r.accept position payload).1.held[other]? = some waiting ↔
      r.held[other]? = some waiting ∧
          (r.accept position payload).2.length ≤ (other - r.next).toNat ∨
        r.held[other]? = none ∧ (other = position ∧ waiting = payload) ∧ other ≠ r.next ∧
          (r.next < other ∨ r.next = 255) := by
  by_cases hnow : position = r.next
  · subst hnow
    have hrest := getElem?_release { r with next := r.next + 1 } other
    rw [accept_next, hrest]
    by_cases hother : other = r.next
    · simp [hother, h.next_free]
    · simp [hother, toNat_sub_succ hother, and_comm]
  · rw [accept_snd_of_ne hnow, Reorder.accept, if_neg hnow]
    by_cases hlater : r.next < position ∨ r.next = 255
    · rw [if_pos hlater, getElem?_insertIfNew]
      by_cases hsame : other = position
      · subst hsame
        cases r.held[other]? <;> simp [hnow, hlater, eq_comm]
      · simp [hsame]
    · rw [if_neg hlater]
      have hnone : ¬ ((other = position ∧ waiting = payload) ∧ other ≠ r.next ∧
          (r.next < other ∨ r.next = 255)) := by
        rintro ⟨⟨rfl, -⟩, -, hother⟩
        exact hlater hother
      simp [hnone]

end

end Reorder

/-- The bytes start with a frame of a sequenced channel, and the window takes
its message id for new. -/
def AckWindow.Admits (w : AckWindow) (bytes : Bytes) (position : UInt8) (payload : Bytes) :
    Prop :=
  ∃ id rest, (Layout.reliableSequenced id position).Valid payload ∧
    bytes = (Layout.reliableSequenced id position).frame payload ++ rest ∧
    (w.record id).2 = true

/-- The bytes can be read in one way only. -/
theorem AckWindow.Admits.iff_eq {w : AckWindow} {bytes payload : Bytes} {position : UInt8}
    (h : w.Admits bytes position payload) (other : UInt8) (waiting : Bytes) :
    w.Admits bytes other waiting ↔ other = position ∧ waiting = payload := by
  constructor
  · rintro ⟨id', rest', hv', hbytes', -⟩
    obtain ⟨id, rest, hv, hbytes, -⟩ := h
    have hframe := Channel.takeFrame_frame (c := Channel.ofQos .reliableSequenced) rfl hv rest
    have hframe' := Channel.takeFrame_frame (c := Channel.ofQos .reliableSequenced) rfl hv' rest'
    rw [← hbytes'] at hframe'
    rw [← hbytes, hframe'] at hframe
    have hbody := Except.ok.inj (Prod.mk.inj hframe).2
    simp only [Layout.header, writeUInt16, List.cons_append, List.nil_append,
      List.cons.injEq] at hbody
    exact hbody.2.2
  · rintro ⟨rfl, rfl⟩
    exact h

namespace Channel

section
variable {r : Reorder} {nextOut position : UInt8} {w : AckWindow} {bytes payload : Bytes}

theorem sequenced_of_admits (h : w.Admits bytes position payload) :
    (reliableSequenced r nextOut).after w bytes =
        reliableSequenced (r.accept position payload).1 nextOut ∧
      (reliableSequenced r nextOut).given w bytes = (r.accept position payload).2 := by
  obtain ⟨id, rest, hv, rfl, hnew⟩ := h
  have hprocess := process_frame (c := reliableSequenced r nextOut) (w := w) rfl hv rest
  rw [accept_reliableSequenced, if_pos hnew] at hprocess
  rw [after, given, hprocess]
  exact ⟨rfl, rfl⟩

theorem sequenced_of_not_admits (h : ∀ position payload, ¬ w.Admits bytes position payload) :
    (reliableSequenced r nextOut).after w bytes = reliableSequenced r nextOut ∧
      (reliableSequenced r nextOut).given w bytes = [] := by
  rw [after, given]
  cases hprocess : ((reliableSequenced r nextOut).process w bytes).2 with
  | error e => exact ⟨rfl, rfl⟩
  | ok p =>
    obtain ⟨layout, payload, hf, hv, hbytes⟩ := process_eq_ok_iff.mp ⟨p, Prod.ext rfl hprocess⟩
    cases layout <;> cases hf
    rename_i id position
    have hold : ¬ (w.record id).2 = true :=
      fun hnew => h position payload ⟨id, _, hv, hbytes, hnew⟩
    rw [hbytes, process_frame rfl hv, accept_reliableSequenced, if_neg hold] at hprocess
    cases hprocess
    exact ⟨rfl, rfl⟩

theorem sequenced_cases (r : Reorder) (nextOut : UInt8) (w : AckWindow) (bytes : Bytes) :
    (∀ position payload, ¬ w.Admits bytes position payload) ∧
        (reliableSequenced r nextOut).after w bytes = reliableSequenced r nextOut ∧
        (reliableSequenced r nextOut).given w bytes = [] ∨
      ∃ position payload, w.Admits bytes position payload ∧
        (reliableSequenced r nextOut).after w bytes =
          reliableSequenced (r.accept position payload).1 nextOut ∧
        (reliableSequenced r nextOut).given w bytes = (r.accept position payload).2 := by
  by_cases h : ∃ position payload, w.Admits bytes position payload
  · obtain ⟨position, payload, hadmits⟩ := h
    exact .inr ⟨position, payload, hadmits, sequenced_of_admits hadmits⟩
  · have hnone : ∀ position payload, ¬ w.Admits bytes position payload :=
      fun position payload hadmits => h ⟨position, payload, hadmits⟩
    exact .inl ⟨hnone, sequenced_of_not_admits hnone⟩

/-- Only a frame for the awaited position has anything delivered, and then the whole run. -/
theorem given_cases (h : r.Settled) (nextOut : UInt8) (w : AckWindow) (bytes : Bytes) :
    (reliableSequenced r nextOut).given w bytes = [] ∧
        (∀ payload, ¬ w.Admits bytes r.next payload) ∨
      ∃ payload run, w.Admits bytes r.next payload ∧
        (reliableSequenced r nextOut).given w bytes = payload :: run ∧
        ∀ others, Reorder.HeldRun r.held (r.next + 1) others ↔ others = run := by
  by_cases hawaited : ∃ payload, w.Admits bytes r.next payload
  · obtain ⟨payload, hadmits⟩ := hawaited
    obtain ⟨run, hrun, hheld⟩ := h.heldRun_accept payload
    exact .inr
      ⟨payload, run, hadmits, (sequenced_of_admits hadmits).2.trans hrun, hheld.iff_eq⟩
  · have hnone : ∀ payload, ¬ w.Admits bytes r.next payload :=
      fun payload hadmits => hawaited ⟨payload, hadmits⟩
    refine .inl ⟨?_, hnone⟩
    obtain ⟨-, -, hgiven⟩ | ⟨position, payload, hadmits, -, hgiven⟩ :=
      sequenced_cases r nextOut w bytes
    · exact hgiven
    · have hother : position ≠ r.next := by
        rintro rfl
        exact hnone payload hadmits
      exact hgiven.trans (Reorder.accept_snd_of_ne hother payload)

theorem settled_after (h : r.Settled) (nextOut : UInt8) (w : AckWindow) (bytes : Bytes) :
    ∃ after, (reliableSequenced r nextOut).after w bytes = reliableSequenced after nextOut ∧
      after.Settled := by
  obtain ⟨-, hsame, -⟩ | ⟨position, payload, -, hnext, -⟩ := sequenced_cases r nextOut w bytes
  · exact ⟨r, hsame, h⟩
  · exact ⟨_, hnext, h.accept position payload⟩

theorem settled_afterAll (h : r.Settled) (nextOut : UInt8)
    (arriving : List (AckWindow × Bytes)) :
    ∃ after, (reliableSequenced r nextOut).afterAll arriving = reliableSequenced after nextOut ∧
      after.Settled := by
  induction arriving generalizing r with
  | nil => exact ⟨r, rfl, h⟩
  | cons arrival arriving ih =>
    obtain ⟨w, bytes⟩ := arrival
    obtain ⟨after, hnext, hsettled⟩ := settled_after h nextOut w bytes
    rw [afterAll, hnext]
    exact ih hsettled

end

end Channel

/-- Only a frame for the awaited position has anything delivered: its payload, and what is held at
the positions right after it up to the first one at which nothing is. -/
theorem awaited_run_released (arriving : List (AckWindow × Bytes)) (w : AckWindow)
    (bytes : Bytes) :
    ∃ (r after : Reorder) (delivered : List Bytes),
      (Channel.ofQos .reliableSequenced).afterAll arriving = .reliableSequenced r 1 ∧
      (Channel.ofQos .reliableSequenced).afterAll (arriving ++ [(w, bytes)]) =
        .reliableSequenced after 1 ∧
      (Channel.reliableSequenced r 1).given w bytes = delivered ∧
      r.next ∉ r.held ∧ after.next ∉ after.held ∧
      (delivered = [] ∧ (∀ payload, ¬ w.Admits bytes r.next payload) ∨
        ∃ payload run, w.Admits bytes r.next payload ∧ delivered = payload :: run ∧
          ∀ others, Reorder.HeldRun r.held (r.next + 1) others ↔ others = run) ∧
      (∀ other waiting, after.held[other]? = some waiting ↔
        r.held[other]? = some waiting ∧ delivered.length ≤ (other - r.next).toNat ∨
          r.held[other]? = none ∧ w.Admits bytes other waiting ∧ other ≠ r.next ∧
            (r.next < other ∨ r.next = 255)) ∧
      after.next = r.next + .ofNat delivered.length ∧ delivered.length ≤ 256 ∧
      ∀ position payload,
        r.accept? 255 position payload = some (r.accept position payload) := by
  obtain ⟨r, hbefore, hsettled⟩ :=
    Channel.settled_afterAll Reorder.settled_fresh 1 arriving
  have hlast : (Channel.ofQos .reliableSequenced).afterAll (arriving ++ [(w, bytes)]) =
      (Channel.reliableSequenced r 1).after w bytes := by
    rw [Channel.afterAll_append, Channel.ofQos, hbefore]
    rfl
  have hloop : ∀ position payload,
      r.accept? 255 position payload = some (r.accept position payload) := by
    intro position payload
    rw [Reorder.accept?_eq, if_pos (hsettled.length_accept_le position payload)]
  have hcases := Channel.given_cases hsettled 1 w bytes
  rw [hlast]
  obtain ⟨hnone, hsame, hgiven⟩ | ⟨position, payload, hadmits, hnext, hgiven⟩ :=
    Channel.sequenced_cases r 1 w bytes
  · refine ⟨r, r, [], hbefore, hsame, hgiven, hsettled, hsettled, hgiven ▸ hcases, ?_,
      (UInt8.add_zero _).symm, Nat.zero_le _, hloop⟩
    simp [hnone]
  · refine ⟨r, (r.accept position payload).1, (r.accept position payload).2, hbefore, hnext,
      hgiven, hsettled, hsettled.accept position payload, hgiven ▸ hcases, ?_,
      r.next_accept position payload, hsettled.length_accept_le position payload, hloop⟩
    intro other waiting
    rw [hadmits.iff_eq]
    exact hsettled.held_accept position payload other waiting

example :
    let held := Std.ExtTreeMap.ofList [((0 : UInt8), ([7] : Bytes)), (1, [8]), (3, [9])]
    (Reorder.accept? 255 { next := 255, held } 255 [6]).map
      (fun r => (r.1.next, r.1.held.toList, r.2)) = some (2, [(3, [9])], [[6], [7], [8]]) := by
  decide

end DatagramTransport
