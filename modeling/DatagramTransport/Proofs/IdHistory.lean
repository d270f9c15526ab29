import Mathlib.Data.Finset.Card
import Mathlib.Order.Bounds.Defs
import DatagramTransport.Proofs.IdPool
import DatagramTransport.Proofs.Runs

/-!
# What a pool of ids answers

Which id a pool answers with is determined by what was drawn and released
before, as an observer writes it down: the one released last of those that
were not handed out again, or else the lowest that was never issued. As long
as only held ids are released, no release is a fault, and no more ids are
ever issued than were held at one time.
-/

set_option autoImplicit false

namespace DatagramTransport.IdPool

inductive Demand where
  | allocate
  | release (id : UInt16)
  deriving DecidableEq, Repr

inductive Event where
  | answered (id : Option UInt16)
  | released (id : UInt16)
  deriving DecidableEq, Repr

def serve (p : IdPool) : Demand → Except Fault (IdPool × Event)
  | .allocate => .ok (p.allocate.1, .answered p.allocate.2)
  | .release id => do return (← p.release id, .released id)

def Event.hold (ids : Finset UInt16) : Event → Finset UInt16
  | .answered (some id) => insert id ids
  | .answered none => ids
  | .released id => ids.erase id

def held (log : List Event) : Finset UInt16 :=
  log.foldl Event.hold ∅

def Event.issued : Event → Option UInt16
  | .answered id => id
  | .released _ => none

def issued (log : List Event) : List UInt16 :=
  log.filterMap Event.issued

/-- Every id that was released was handed out again later. -/
def Settled : List Event → Prop
  | [] => True
  | .answered _ :: log => Settled log
  | .released id :: log => .answered (some id) ∈ log ∧ Settled log

/-- The id was released and not handed out again, and no id released later is so. -/
def LastReleased (log : List Event) (id : UInt16) : Prop :=
  ∃ before after, log = before ++ .released id :: after ∧ .answered (some id) ∉ after ∧
    Settled after

def LowestUnissued (log : List Event) (id : UInt16) : Prop :=
  id ≠ 0 ∧ id ∉ issued log ∧ ∀ other, other ≠ 0 → other < id → other ∈ issued log

structure Answers (log : List Event) (answer : Option UInt16) : Prop where
  none_iff : answer = none ↔ ∀ id, id ≠ 0 → id ∈ held log
  unheld : ∀ id ∈ answer, id ≠ 0 ∧ id ∉ held log
  recycled : ∀ id, LastReleased log id → answer = some id
  fresh : (∀ id, ¬ LastReleased log id) → ∀ id ∈ answer, LowestUnissued log id

section
variable {log after : List Event} {id other : UInt16}

theorem held_concat (log : List Event) (e : Event) : held (log ++ [e]) = e.hold (held log) := by
  simp [held]

theorem issued_concat (log : List Event) (e : Event) :
    issued (log ++ [e]) = issued log ++ e.issued.toList := by
  rw [issued, List.filterMap_append]
  cases h : e.issued <;> simp [issued, h]

theorem held_subset_issued (log : List Event) : held log ⊆ (issued log).toFinset := by
  induction log using List.reverseRecOn with
  | nil => exact Finset.empty_subset _
  | append_singleton log e ih =>
    intro id hid
    rw [List.mem_toFinset, issued_concat, List.mem_append]
    rw [held_concat] at hid
    have hearlier : id ∈ held log → id ∈ issued log := fun h => List.mem_toFinset.mp (ih h)
    cases e with
    | released other => exact .inl (hearlier (Finset.mem_of_mem_erase hid))
    | answered answer =>
      cases answer with
      | none => exact .inl (hearlier hid)
      | some other =>
        rcases Finset.mem_insert.mp hid with rfl | hid
        · exact .inr List.mem_cons_self
        · exact .inl (hearlier hid)

theorem issued_mono {before : List Event} (h : before <+: log) :
    (issued before).toFinset ⊆ (issued log).toFinset := by
  intro id hid
  rw [List.mem_toFinset] at hid ⊢
  exact (h.sublist.filterMap Event.issued).subset hid

theorem Settled.append (h : Settled log) (hafter : Settled after) : Settled (log ++ after) := by
  induction log with
  | nil => exact hafter
  | cons e log ih =>
    cases e with
    | answered answer => exact ih h
    | released id => exact ⟨List.mem_append_left _ h.1, ih h.2⟩

theorem Settled.handed_out (h : Settled (log ++ .released id :: after)) :
    .answered (some id) ∈ after := by
  induction log with
  | nil => exact h.1
  | cons e log ih =>
    cases e with
    | answered answer => exact ih h
    | released other => exact ih h.2

theorem Settled.not_lastReleased (h : Settled log) : ¬ LastReleased log id := by
  rintro ⟨before, after, rfl, hnot, -⟩
  exact hnot h.handed_out

theorem Settled.eq_of_not_handed_out {between later : List Event} (h : Settled after)
    (heq : .released id :: after = between ++ .released other :: later)
    (hnot : .answered (some other) ∉ later) : id = other := by
  cases between with
  | nil =>
    cases heq
    rfl
  | cons e between =>
    obtain ⟨-, rfl⟩ := List.cons.inj heq
    exact absurd h.handed_out hnot

theorem LastReleased.eq (h : LastReleased log id) (hother : LastReleased log other) :
    id = other := by
  obtain ⟨before, after, rfl, hnot, hsettled⟩ := h
  obtain ⟨before', after', hlog, hnot', hsettled'⟩ := hother
  rcases List.append_eq_append_iff.mp hlog with ⟨between, -, heq⟩ | ⟨between, -, heq⟩
  · exact hsettled.eq_of_not_handed_out heq hnot'
  · exact (hsettled'.eq_of_not_handed_out heq hnot).symm

end

/-- The free ids in the order in which they were released, the last one first. -/
def Stacked : List UInt16 → List Event → Prop
  | [], log => Settled log
  | id :: free, log => ∃ before after, log = before ++ .released id :: after ∧
      Stacked free before ∧ Settled after ∧
      ∀ other ∈ id :: free, .answered (some other) ∉ after

section
variable {log : List Event} {free : List UInt16} {id : UInt16}

theorem Stacked.release (h : Stacked free log) (id : UInt16) :
    Stacked (id :: free) (log ++ [.released id]) :=
  ⟨log, [], rfl, h, trivial, fun _ _ => List.not_mem_nil⟩

theorem Stacked.lastReleased (h : Stacked (id :: free) log) : LastReleased log id := by
  obtain ⟨before, after, rfl, -, hsettled, hnot⟩ := h
  exact ⟨before, after, rfl, hnot id List.mem_cons_self, hsettled⟩

theorem Stacked.recycle (h : Stacked (id :: free) log) (hnodup : (id :: free).Nodup) :
    Stacked free (log ++ [.answered (some id)]) := by
  obtain ⟨before, after, rfl, hfree, hsettled, hnot⟩ := h
  have htail : Settled (.released id :: (after ++ [.answered (some id)])) :=
    ⟨by simp, hsettled.append trivial⟩
  cases free with
  | nil =>
    have hall : Settled _ := Settled.append hfree htail
    rwa [← List.cons_append, ← List.append_assoc] at hall
  | cons next free =>
    obtain ⟨earlier, later, rfl, hrest, hlater, hnext⟩ := hfree
    refine ⟨earlier, later ++ .released id :: (after ++ [.answered (some id)]), by simp, hrest,
      hlater.append htail, ?_⟩
    intro other hother
    have hne : other ≠ id := by
      rintro rfl
      exact (List.nodup_cons.mp hnodup).1 hother
    simp [hnext other hother, hnot other (List.mem_cons_of_mem id hother), hne]

end

structure Recorded (p : IdPool) (log : List Event) : Prop where
  accounts : ∃ holding : List UInt16, p.Accounts (issued log) holding ∧
    ∀ id, id ∈ held log ↔ id ∈ holding
  filled : ∀ id, id ≠ 0 → (∀ top, p.fresh = some top → id < top) → id ∈ issued log
  stacked : Stacked p.free log
  answers : ∀ before answer after, log = before ++ .answered answer :: after →
    Answers before answer
  peak : ∃ before, before <+: log ∧ (held before).card = (issued log).toFinset.card

section
variable {p q : IdPool} {log : List Event} {answer : Option UInt16} {id : UInt16}

theorem recorded_full : full.Recorded [] where
  accounts := ⟨[], accounts_full, by simp [held]⟩
  filled := by
    intro id hne hlow
    have hlt := UInt16.lt_iff_toNat_lt.mp (hlow 1 rfl)
    exact absurd (UInt16.toNat.inj (Nat.lt_one_iff.mp hlt)) hne
  stacked := trivial
  answers := by simp
  peak := ⟨[], List.prefix_refl _, rfl⟩

theorem le_of_lt_successor? {other : UInt16}
    (h : ∀ top, successor? id = some top → other < top) : other ≤ id := by
  rw [UInt16.le_iff_toNat_le]
  cases hnext : successor? id with
  | none =>
    have hlast : id = 65535 := by
      by_contra hne
      rw [successor?, if_neg hne] at hnext
      cases hnext
    rw [hlast]
    exact Nat.le_of_lt_succ other.toNat_lt
  | some top =>
    have hlt := UInt16.lt_iff_toNat_lt.mp (h top hnext)
    rw [(successor?_eq_some hnext).2] at hlt
    exact Nat.le_of_lt_succ hlt

theorem answers_concat {e : Event} (h : ∀ before answer after,
      log = before ++ .answered answer :: after → Answers before answer)
    (hlast : ∀ answer, e = .answered answer → Answers log answer) :
    ∀ before answer after, log ++ [e] = before ++ .answered answer :: after →
      Answers before answer := by
  intro before answer after heq
  rcases List.eq_nil_or_concat after with rfl | ⟨after, last, rfl⟩
  · obtain ⟨rfl, hlasts⟩ := List.append_inj' heq rfl
    exact hlast answer (List.cons.inj hlasts).1
  · rw [List.concat_eq_append, ← List.cons_append, ← List.append_assoc] at heq
    exact h before answer after (List.append_inj' heq rfl).1

theorem peak_concat {e : Event}
    (h : ∃ before, before <+: log ∧ (held before).card = (issued log).toFinset.card)
    (hagain : ∀ id ∈ e.issued, id ∈ issued log) :
    ∃ before, before <+: log ++ [e] ∧
      (held before).card = (issued (log ++ [e])).toFinset.card := by
  obtain ⟨before, hbefore, hcard⟩ := h
  have hsame : (issued (log ++ [e])).toFinset = (issued log).toFinset := by
    rw [issued_concat, List.toFinset_append, Finset.union_eq_left]
    intro id hid
    exact List.mem_toFinset.mpr (hagain id (by simpa using hid))
  exact ⟨before, hbefore.trans (List.prefix_append _ _), hsame ▸ hcard⟩

theorem Recorded.recycle {fresh : Option UInt16} {free : List UInt16}
    (h : Recorded { fresh, free := id :: free } log) :
    Recorded { fresh, free } (log ++ [.answered (some id)]) := by
  obtain ⟨holding, haccounts, hheld⟩ := h.accounts
  have hissued : id ∈ issued log := (haccounts.issued_iff id).mpr (by simp)
  have hne : id ≠ 0 := fun hzero => haccounts.nonzero (hzero ▸ hissued)
  obtain ⟨-, hnodup, hapart⟩ := List.nodup_append'.mp haccounts.nodup
  have hnot : id ∉ held log := by
    rw [hheld]
    exact fun hin => hapart hin List.mem_cons_self
  have hlast := h.stacked.lastReleased
  constructor
  case accounts =>
    refine ⟨id :: holding, ?_, ?_⟩
    · rw [issued_concat]
      exact haccounts.recycle
    · intro other
      rw [held_concat, Event.hold, Finset.mem_insert, List.mem_cons, hheld]
  case filled =>
    intro other hother hlow
    rw [issued_concat]
    exact List.mem_append_left _ (h.filled other hother hlow)
  case stacked => exact h.stacked.recycle hnodup
  case answers =>
    refine answers_concat h.answers ?_
    rintro _ ⟨⟩
    constructor
    case none_iff => simpa using ⟨id, hne, hnot⟩
    case unheld =>
      rintro _ ⟨⟩
      exact ⟨hne, hnot⟩
    case recycled => exact fun other hother => congrArg some (hlast.eq hother)
    case fresh => exact fun hnone => absurd hlast (hnone id)
  case peak =>
    refine peak_concat h.peak ?_
    rintro _ ⟨⟩
    exact hissued

theorem Recorded.issue (h : Recorded { fresh := some id, free := [] } log) :
    Recorded { fresh := successor? id, free := [] } (log ++ [.answered (some id)]) := by
  obtain ⟨holding, haccounts, hheld⟩ := h.accounts
  obtain ⟨hne, hbelow⟩ := haccounts.below id rfl
  have hnew : id ∉ issued log := fun hin => UInt16.lt_irrefl _ (hbelow id hin)
  have hall : ∀ other, other ∈ issued log ↔ other ∈ held log := by
    intro other
    rw [hheld, haccounts.issued_iff, List.append_nil]
  constructor
  case accounts =>
    refine ⟨id :: holding, ?_, ?_⟩
    · rw [issued_concat]
      exact haccounts.issue
    · intro other
      rw [held_concat, Event.hold, Finset.mem_insert, List.mem_cons, hheld]
  case filled =>
    intro other hother hlow
    rw [issued_concat, List.mem_append]
    by_cases hlt : other < id
    · refine .inl (h.filled other hother ?_)
      rintro _ ⟨⟩
      exact hlt
    · have hle := le_of_lt_successor? hlow
      exact .inr (List.mem_singleton.mpr (UInt16.le_antisymm hle (UInt16.not_lt.mp hlt)))
  case stacked => exact Settled.append h.stacked trivial
  case answers =>
    refine answers_concat h.answers ?_
    rintro _ ⟨⟩
    constructor
    case none_iff => simpa using ⟨id, hne, (hall id).not.mp hnew⟩
    case unheld =>
      rintro _ ⟨⟩
      exact ⟨hne, (hall id).not.mp hnew⟩
    case recycled => exact fun other hother => absurd hother h.stacked.not_lastReleased
    case fresh =>
      rintro - _ ⟨⟩
      refine ⟨hne, hnew, fun other hother hlt => h.filled other hother ?_⟩
      rintro _ ⟨⟩
      exact hlt
  case peak =>
    refine ⟨_, List.prefix_refl _, congrArg Finset.card ?_⟩
    ext other
    rw [held_concat, issued_concat, Event.hold, Finset.mem_insert, List.mem_toFinset,
      List.mem_append, hall, or_comm]
    simp [Event.issued]

theorem Recorded.exhausted (h : Recorded { fresh := none, free := [] } log) :
    Recorded { fresh := none, free := [] } (log ++ [.answered none]) := by
  obtain ⟨holding, haccounts, hheld⟩ := h.accounts
  have hsame : issued (log ++ [.answered none]) = issued log := by
    rw [issued_concat]
    exact List.append_nil _
  constructor
  case accounts =>
    refine ⟨holding, hsame ▸ haccounts, ?_⟩
    rw [held_concat]
    exact hheld
  case filled =>
    rw [hsame]
    exact h.filled
  case stacked => exact Settled.append h.stacked trivial
  case answers =>
    refine answers_concat h.answers ?_
    rintro _ ⟨⟩
    constructor
    case none_iff =>
      refine ⟨fun _ id hne => ?_, fun _ => rfl⟩
      have hissued := h.filled id hne (by simp)
      rwa [haccounts.issued_iff, List.append_nil, ← hheld] at hissued
    case unheld => simp
    case recycled => exact fun other hother => absurd hother h.stacked.not_lastReleased
    case fresh => simp
  case peak =>
    refine peak_concat h.peak ?_
    simp [Event.issued]

theorem Recorded.allocate (h : p.Recorded log) :
    p.allocate.1.Recorded (log ++ [.answered p.allocate.2]) := by
  obtain ⟨fresh, free⟩ := p
  cases free with
  | cons id free => exact h.recycle
  | nil =>
    cases fresh with
    | some id => exact h.issue
    | none => exact h.exhausted

theorem Recorded.release (h : p.Recorded log) (hid : id ∈ held log) :
    ∃ q, p.release id = .ok q ∧ q.Recorded (log ++ [.released id]) := by
  obtain ⟨holding, haccounts, hheld⟩ := h.accounts
  have hmem : id ∈ holding := (hheld id).mp hid
  have hperm := List.perm_cons_erase hmem
  obtain ⟨hrelease, hafter⟩ := (haccounts.perm hperm).release
  have hsame : issued (log ++ [.released id]) = issued log := by
    rw [issued_concat]
    exact List.append_nil _
  refine ⟨_, hrelease, ?_⟩
  constructor
  case accounts =>
    refine ⟨holding.erase id, hsame ▸ hafter, fun other => ?_⟩
    have hnodup : holding.Nodup := (List.nodup_append'.mp haccounts.nodup).1
    rw [held_concat, Event.hold, Finset.mem_erase, hnodup.mem_erase_iff, hheld]
  case filled =>
    rw [hsame]
    exact h.filled
  case stacked => exact h.stacked.release id
  case answers =>
    refine answers_concat h.answers ?_
    rintro _ ⟨⟩
  case peak =>
    refine peak_concat h.peak ?_
    simp [Event.issued]

end

theorem recorded_serve {demands : List Demand}
    (hheld : ∀ before id after, demands = before ++ .release id :: after →
      ∀ p log, runAll serve full before = .ok (p, log) → id ∈ held log) :
    ∃ p log, runAll serve full demands = .ok (p, log) ∧ p.Recorded log := by
  induction demands using List.reverseRecOn with
  | nil => exact ⟨full, [], rfl, recorded_full⟩
  | append_singleton demands d ih =>
    obtain ⟨p, log, hrun, hrecorded⟩ := ih fun before id after heq =>
      hheld before id (after ++ [d]) (by rw [heq]; simp)
    have hstep : ∃ q e, serve p d = .ok (q, e) ∧ q.Recorded (log ++ [e]) := by
      cases d with
      | allocate => exact ⟨_, _, rfl, hrecorded.allocate⟩
      | release id =>
        obtain ⟨q, hq, hafter⟩ := hrecorded.release (hheld demands id [] rfl p log hrun)
        exact ⟨q, .released id, bind_eq_ok.mpr ⟨q, hq, rfl⟩, hafter⟩
    obtain ⟨q, e, hserve, hafter⟩ := hstep
    refine ⟨q, log ++ [e], ?_, hafter⟩
    exact runAll_append_eq_ok.mpr ⟨p, log, [e], hrun,
      runAll_cons_eq_ok.mpr ⟨q, e, [], hserve, rfl, rfl⟩, rfl⟩

/-- As long as only held ids are released, every answer is the right one after what came before it,
and as many ids were issued as were held at most at one time. -/
theorem answers_follow_history (demands : List Demand)
    (hheld : ∀ before id after, demands = before ++ .release id :: after →
      ∀ p log, runAll serve full before = .ok (p, log) → id ∈ held log) :
    ∃ p log, runAll serve full demands = .ok (p, log) ∧
      (∀ before answer after, log = before ++ .answered answer :: after →
        Answers before answer) ∧
      IsGreatest {n | ∃ before, before <+: log ∧ (held before).card = n}
        (issued log).toFinset.card := by
  obtain ⟨p, log, hrun, hrecorded⟩ := recorded_serve hheld
  refine ⟨p, log, hrun, hrecorded.answers, hrecorded.peak, ?_⟩
  rintro _ ⟨before, hbefore, rfl⟩
  exact Finset.card_le_card
    ((held_subset_issued before).trans (issued_mono hbefore))

theorem answers_follow_history_recycled :
    ∃ p log, runAll serve full [.allocate, .allocate, .allocate, .release 3, .release 1,
        .allocate, .allocate, .allocate] = .ok (p, log) ∧
      log.map Event.issued = [some 1, some 2, some 3, none, none, some 1, some 3, some 4] ∧
      (∀ before answer after, log = before ++ .answered answer :: after →
        Answers before answer) ∧
      IsGreatest {n | ∃ before, before <+: log ∧ (held before).card = n} 4 := by
  have hheld : ∀ before id after, ([.allocate, .allocate, .allocate, .release 3, .release 1,
      .allocate, .allocate, .allocate] : List Demand) = before ++ .release id :: after →
      ∀ p log, runAll serve full before = .ok (p, log) → id ∈ held log := by
    intro before id after heq p log hrun
    simp only [List.cons_eq_append_iff, List.cons.injEq, reduceCtorEq, false_and, and_false,
      false_or, Demand.release.injEq] at heq
    obtain ⟨_, rfl, _, rfl, _, rfl, ⟨rfl, rfl, -⟩ | ⟨_, rfl, ⟨rfl, rfl, -⟩ | hlater⟩⟩ := heq
    · cases hrun
      decide
    · cases hrun
      decide
    · simp at hlater
  obtain ⟨p, log, hrun, hanswers, hpeak⟩ := answers_follow_history _ hheld
  cases hrun
  exact ⟨_, _, rfl, by decide, hanswers, hpeak⟩

end DatagramTransport.IdPool
