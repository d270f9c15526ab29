import DatagramTransport.Channel.FragmentInbox
import DatagramTransport.Proofs.Codec

/-!
# Fragments of messages that share their group ids

A message that is being put together has the parts in their places that
came, whatever came between them. Its base tells it from every other message
with the same group id. As long as no fragment comes after one of a later
message of its group, an inbox knows of each message whether it is complete,
and delivers it when it becomes so.
-/

set_option autoImplicit false

namespace DatagramTransport

namespace Reassembly

/-- A message with those of its parts in their places that came. -/
def filled (base : UInt16) (parts : List Bytes) (came : Nat → Bool) : Reassembly where
  base := base
  parts := parts.mapIdx fun i part => if came i then some part else none

section
variable {base : UInt16} {parts : List Bytes} {came : Nat → Bool}

theorem start_eq_filled {count : UInt8} (h : count.toNat = parts.length) :
    start base count = filled base parts fun _ => false := by
  simp only [start, filled, h, mk.injEq, true_and]
  apply List.ext_getElem
  · simp
  · intro i _ _
    simp

theorem belongs_filled {other : UInt16} {count : UInt8} :
    (filled base parts came).belongs other count = true ↔
      base = other ∧ parts.length = count.toNat := by
  simp [belongs, filled]

theorem add_filled {index : UInt8} {part : Bytes} (h : parts[index.toNat]? = some part) :
    (filled base parts came).add index part =
      filled base parts fun i => came i || decide (i = index.toNat) := by
  simp only [add, filled, mk.injEq, true_and]
  apply List.ext_getElem?
  intro i
  rw [List.getElem?_modify, List.getElem?_mapIdx, List.getElem?_mapIdx]
  by_cases hi : index.toNat = i
  · subst hi
    by_cases hc : came index.toNat = true <;> simp [h, hc]
  · simp [hi, Ne.symm hi]

theorem isComplete_filled :
    (filled base parts came).isComplete = true ↔ ∀ i < parts.length, came i = true := by
  simp only [isComplete, filled, List.all_eq_true, List.mem_mapIdx]
  constructor
  · intro h i hi
    have hsome := h _ ⟨i, hi, rfl⟩
    by_cases hc : came i = true
    · exact hc
    · simp [hc] at hsome
  · rintro h _ ⟨i, hi, rfl⟩
    simp [h i hi]

theorem assemble_filled (h : ∀ i < parts.length, came i = true) :
    (filled base parts came).assemble = .ok parts.flatten := by
  have hparts : (filled base parts came).parts = parts.map some := by
    apply List.ext_getElem
    · simp [filled]
    · intro i hi _
      have hlt : i < parts.length := by simpa [filled] using hi
      simp [filled, h i hlt]
  rw [assemble_of_isComplete (isComplete_filled.mpr h), hparts, List.filterMap_map]
  simp

end

end Reassembly

structure Cut where
  base : UInt16
  parts : List Bytes
  deriving DecidableEq, Repr

/-- What identifies a message: no two have the same base, and the number of
parts fits its field. -/
structure Cut.Apart (cuts : List Cut) : Prop where
  bases : ∀ {j k : Nat} {c d : Cut}, cuts[j]? = some c → cuts[k]? = some d →
    c.base = d.base → j = k
  size : ∀ cut ∈ cuts, 0 < cut.parts.length ∧ cut.parts.length < 256

theorem Cut.Apart.toNat_size {cuts : List Cut} (h : Cut.Apart cuts) {k : Nat} {cut : Cut}
    (hk : cuts[k]? = some cut) : (UInt8.ofNat cut.parts.length).toNat = cut.parts.length :=
  UInt8.toNat_ofNat_of_lt' (h.size cut (List.mem_of_getElem? hk)).2

def groupAt (k : Nat) : UInt8 := .ofNat k

theorem groupAt_succ (k : Nat) : groupAt k + 1 = groupAt (k + 1) :=
  (UInt8.ofNat_add _ 1).symm

theorem groupAt_eq_iff {j k : Nat} : groupAt j = groupAt k ↔ j % 256 = k % 256 := by
  rw [groupAt, groupAt, ← UInt8.toNat_inj, UInt8.toNat_ofNat', UInt8.toNat_ofNat']

theorem base_of_index (base : UInt16) {i : Nat} (h : i < 256) :
    base + .ofNat i - (UInt8.ofNat i).toUInt16 = base := by
  have hindex : (UInt8.ofNat i).toUInt16 = .ofNat i := by
    apply UInt16.toNat.inj
    rw [UInt8.toNat_toUInt16, UInt8.toNat_ofNat_of_lt' h,
      UInt16.toNat_ofNat_of_lt' (Nat.lt_trans h (by decide))]
  rw [hindex, UInt16.add_sub_cancel]

def withPart (came : Nat → Nat → Bool) (k i : Nat) : Nat → Nat → Bool :=
  fun m j => came m j || decide (m = k ∧ j = i)

section
variable {came : Nat → Nat → Bool} {k i m : Nat}

@[simp] theorem withPart_self : withPart came k i k = fun j => came k j || decide (j = i) := by
  funext j
  simp [withPart]

theorem withPart_other (h : m ≠ k) : withPart came k i m = came m := by
  funext j
  simp [withPart, h]

theorem withPart_again (h : came k i = true) : withPart came k i = came := by
  funext m j
  by_cases hmj : m = k ∧ j = i
  · obtain ⟨rfl, rfl⟩ := hmj
    simp [withPart, h]
  · simp [withPart, hmj]

end

namespace FragmentInbox

theorem accept_part {b : FragmentInbox} {group index count : UInt8} {base : UInt16}
    {parts : List Bytes} {came : Nat → Bool} {part : Bytes}
    (hpart : parts[index.toNat]? = some part)
    (hopen : b.message group base count = .filled base parts came) :
    b.accept group base index count part = .ok
      (if b.delivered[group]? = some base then (b, [])
      else if ∀ i < parts.length, (came i || decide (i = index.toNat)) = true then
        ({ partials := b.partials.erase group
           delivered := b.delivered.insert group base }, [parts.flatten])
      else ({ b with
        partials := b.partials.insert group
          (.filled base parts fun i => came i || decide (i = index.toNat)) }, [])) := by
  unfold accept
  by_cases hd : b.delivered[group]? = some base
  · rw [if_pos hd, if_pos hd]
    rfl
  · rw [if_neg hd, if_neg hd]
    simp only [hopen, Reassembly.add_filled hpart]
    by_cases hall : ∀ i < parts.length, (came i || decide (i = index.toNat)) = true
    · rw [if_pos (Reassembly.isComplete_filled.mpr hall), if_pos hall,
        Reassembly.assemble_filled hall]
      rfl
    · rw [if_neg fun hc => hall (Reassembly.isComplete_filled.mp hc), if_neg hall]
      rfl

def Unmixed (cuts : List Cut) (came : Nat → Nat → Bool) (b : FragmentInbox) : Prop :=
  ∀ (group : UInt8) (r : Reassembly), b.partials[group]? = some r →
    ∃ (k : Nat) (cut : Cut) (present : Nat → Bool), cuts[k]? = some cut ∧
      r = .filled cut.base cut.parts present ∧ ∀ i, present i = true → came k i = true

section
variable {cuts : List Cut} {came : Nat → Nat → Bool} {b : FragmentInbox} {k i : Nat} {cut : Cut}
  {part : Bytes}

theorem unmixed_fresh (cuts : List Cut) (came : Nat → Nat → Bool) :
    FragmentInbox.fresh.Unmixed cuts came := by
  intro group r hr
  simp [fresh] at hr

theorem Unmixed.mono (h : b.Unmixed cuts came) {later : Nat → Nat → Bool}
    (hlater : ∀ m j, came m j = true → later m j = true) : b.Unmixed cuts later := by
  intro group r hr
  obtain ⟨m, c, present, hm, rfl, hcame⟩ := h group r hr
  exact ⟨m, c, present, hm, rfl, fun j hj => hlater m j (hcame j hj)⟩

theorem Unmixed.message (h : b.Unmixed cuts came) (hcuts : Cut.Apart cuts)
    (hk : cuts[k]? = some cut) (group : UInt8) :
    ∃ present, b.message group cut.base (.ofNat cut.parts.length) =
        .filled cut.base cut.parts present ∧ ∀ j, present j = true → came k j = true := by
  have hstart : Reassembly.start cut.base (.ofNat cut.parts.length) =
      .filled cut.base cut.parts fun _ => false :=
    Reassembly.start_eq_filled (hcuts.toNat_size hk)
  unfold FragmentInbox.message
  cases hp : b.partials[group]? with
  | none => exact ⟨fun _ => false, hstart, by simp⟩
  | some r =>
    obtain ⟨m, c, present, hm, rfl, hcame⟩ := h group r hp
    by_cases hb : (Reassembly.filled c.base c.parts present).belongs cut.base
        (.ofNat cut.parts.length) = true
    · obtain rfl := hcuts.bases hm hk (Reassembly.belongs_filled.mp hb).1
      cases hm.symm.trans hk
      exact ⟨present, by simp [hb], hcame⟩
    · exact ⟨fun _ => false, by simp [hb, hstart], by simp⟩

/-- Whatever came before it, a part completes its own message or none. -/
theorem Unmixed.accept (h : b.Unmixed cuts came) (hcuts : Cut.Apart cuts)
    (hk : cuts[k]? = some cut) (hpart : cut.parts[i]? = some part) (group : UInt8) :
    ∃ r, b.accept group cut.base (.ofNat i) (.ofNat cut.parts.length) part = .ok r ∧
      r.1.Unmixed cuts (withPart came k i) ∧
      ∀ payload ∈ r.2, payload = cut.parts.flatten ∧
        ∀ j < cut.parts.length, withPart came k i k j = true := by
  obtain ⟨hlt, -⟩ := List.getElem?_eq_some_iff.mp hpart
  have hi : (UInt8.ofNat i).toNat = i :=
    UInt8.toNat_ofNat_of_lt' (Nat.lt_trans hlt (hcuts.size cut (List.mem_of_getElem? hk)).2)
  obtain ⟨present, hopen, hcame⟩ := h.message hcuts hk group
  have hstays : b.Unmixed cuts (withPart came k i) :=
    h.mono fun m j hj => by simp [withPart, hj]
  have hmore : ∀ j, (present j || decide (j = i)) = true → withPart came k i k j = true := by
    intro j hj
    rw [withPart_self]
    rcases Bool.or_eq_true_iff.mp hj with hj | hj
    · simp [hcame j hj]
    · simp [hj]
  refine ⟨_, accept_part (by rwa [hi]) hopen, ?_⟩
  rw [hi]
  split
  · exact ⟨hstays, by simp⟩
  · split
    · rename_i hall
      constructor
      · intro g r hr
        simp only [Std.ExtTreeMap.getElem?_erase] at hr
        split at hr
        · cases hr
        · exact hstays g r hr
      · intro payload hpayload
        exact ⟨List.mem_singleton.mp hpayload, fun j hj => hmore j (hall j hj)⟩
    · constructor
      · intro g r hr
        simp only [Std.ExtTreeMap.getElem?_insert] at hr
        split at hr
        · cases hr
          exact ⟨k, cut, _, hk, rfl, hmore⟩
        · exact hstays g r hr
      · simp

end

def Current (came : Nat → Nat → Bool) (k : Nat) : Prop :=
  ∀ m > k, groupAt m = groupAt k → ∀ i, came m i = false

/-- All parts of the message came. -/
def Whole (came : Nat → Nat → Bool) (k : Nat) (cut : Cut) : Prop :=
  ∀ i < cut.parts.length, came k i = true

instance (came : Nat → Nat → Bool) (k : Nat) (cut : Cut) : Decidable (Whole came k cut) :=
  inferInstanceAs (Decidable (∀ i < cut.parts.length, came k i = true))

structure Knows (came : Nat → Nat → Bool) (b : FragmentInbox) (k : Nat) (cut : Cut) : Prop where
  whole : Whole came k cut → b.delivered[groupAt k]? = some cut.base
  fresh : ¬ Whole came k cut → b.delivered[groupAt k]? ≠ some cut.base
  partly : ¬ Whole came k cut → b.message (groupAt k) cut.base (.ofNat cut.parts.length) =
    .filled cut.base cut.parts (came k)

def Gathers (cuts : List Cut) (came : Nat → Nat → Bool) (b : FragmentInbox) : Prop :=
  ∀ (k : Nat) (cut : Cut), cuts[k]? = some cut → Current came k → b.Knows came k cut

section
variable {cuts : List Cut} {came : Nat → Nat → Bool} {b : FragmentInbox} {k i : Nat} {cut : Cut}
  {part : Bytes}

theorem not_whole_of_none (hcuts : Cut.Apart cuts) (hk : cuts[k]? = some cut)
    (hnone : ∀ i, came k i = false) : ¬ Whole came k cut := by
  intro hall
  have hfirst := hall 0 (hcuts.size cut (List.mem_of_getElem? hk)).1
  rw [hnone 0] at hfirst
  cases hfirst

theorem gathers_fresh (hcuts : Cut.Apart cuts) :
    FragmentInbox.fresh.Gathers cuts fun _ _ => false := by
  intro k cut hk _
  constructor
  case whole => exact fun hall => absurd hall (not_whole_of_none hcuts hk fun _ => rfl)
  case fresh => simp [FragmentInbox.fresh]
  case partly =>
    simp [message, FragmentInbox.fresh, Reassembly.start_eq_filled (hcuts.toNat_size hk)]

theorem Current.of_withPart {m : Nat} (hm : Current (withPart came k i) m)
    (hcur : Current came k) : Current came m ∧
      (m = k ∨ groupAt m ≠ groupAt k ∨ k < m ∧ groupAt m = groupAt k ∧ ∀ j, came m j = false) := by
  constructor
  · intro n hn hgroup j
    have hnone := hm n hn hgroup j
    exact (Bool.or_eq_false_iff.mp hnone).1
  · by_cases hgroup : groupAt m = groupAt k
    · rcases Nat.lt_trichotomy m k with hlt | heq | hgt
      · have hnone := hm k hlt hgroup.symm i
        simp at hnone
      · exact .inl heq
      · exact .inr (.inr ⟨hgt, hgroup, hcur m hgt hgroup⟩)
    · exact .inr (.inl hgroup)

theorem Knows.congr (h : b.Knows came k cut) {after : FragmentInbox} {later : Nat → Nat → Bool}
    (hcame : later k = came k) (hpartials : after.partials[groupAt k]? = b.partials[groupAt k]?)
    (hdelivered : after.delivered[groupAt k]? = b.delivered[groupAt k]?) :
    after.Knows later k cut where
  whole := by
    rw [Whole, hcame, hdelivered]
    exact h.whole
  fresh := by
    rw [Whole, hcame, hdelivered]
    exact h.fresh
  partly := by
    rw [Whole, hcame, FragmentInbox.message, hpartials]
    exact h.partly

theorem Gathers.update (h : b.Gathers cuts came) (hcuts : Cut.Apart cuts)
    (hk : cuts[k]? = some cut) (hcur : Current came k) {after : FragmentInbox}
    (hother : ∀ group, group ≠ groupAt k → after.partials[group]? = b.partials[group]? ∧
      after.delivered[group]? = b.delivered[group]?)
    (hself : after.Knows (withPart came k i) k cut)
    (hlater : ∀ c : Cut, c.base ≠ cut.base → b.delivered[groupAt k]? ≠ some c.base →
      after.delivered[groupAt k]? ≠ some c.base ∧
        after.message (groupAt k) c.base (.ofNat c.parts.length) =
          .start c.base (.ofNat c.parts.length)) :
    after.Gathers cuts (withPart came k i) := by
  intro m c hm hcurm
  obtain ⟨hold, rfl | hgroup | ⟨hgt, hgroup, hnone⟩⟩ := hcurm.of_withPart hcur
  · cases hm.symm.trans hk
    exact hself
  · have hne : m ≠ k := fun heq => hgroup (by rw [heq])
    obtain ⟨hpartials, hdelivered⟩ := hother _ hgroup
    exact (h m c hm hold).congr (withPart_other hne) hpartials hdelivered
  · have hne : m ≠ k := by omega
    have hbase : c.base ≠ cut.base := fun heq => hne (hcuts.bases hm hk heq)
    have hopen := not_whole_of_none hcuts hm hnone
    have hfresh := (h m c hm hold).fresh hopen
    rw [hgroup] at hfresh
    obtain ⟨hdelivered, hmessage⟩ := hlater c hbase hfresh
    rw [← hgroup] at hdelivered hmessage
    constructor
    case whole =>
      rw [Whole, withPart_other hne]
      exact fun hall => absurd hall hopen
    case fresh => exact fun _ => hdelivered
    case partly =>
      rw [hmessage, Reassembly.start_eq_filled (hcuts.toNat_size hm), withPart_other hne,
        funext hnone]
      exact fun _ => rfl

/-- A part delivers its message when it is the last one that was missing, and
nothing otherwise. -/
theorem Gathers.accept (h : b.Gathers cuts came) (hcuts : Cut.Apart cuts)
    (hk : cuts[k]? = some cut) (hcur : Current came k) (hpart : cut.parts[i]? = some part) :
    ∃ after, b.accept (groupAt k) cut.base (.ofNat i) (.ofNat cut.parts.length) part =
        .ok (after, if Whole (withPart came k i) k cut ∧ ¬ Whole came k cut
          then [cut.parts.flatten] else []) ∧
      after.Gathers cuts (withPart came k i) := by
  obtain ⟨hlt, -⟩ := List.getElem?_eq_some_iff.mp hpart
  have hi : (UInt8.ofNat i).toNat = i :=
    UInt8.toNat_ofNat_of_lt' (Nat.lt_trans hlt (hcuts.size cut (List.mem_of_getElem? hk)).2)
  obtain ⟨hwhole, hfresh, hpartly⟩ := h k cut hk hcur
  by_cases hdone : Whole came k cut
  · refine ⟨b, ?_, ?_⟩
    · rw [FragmentInbox.accept, if_pos (hwhole hdone), if_neg fun hnow => hnow.2 hdone]
      rfl
    · rw [withPart_again (hdone i hlt)]
      exact h
  have haccept := accept_part (by rwa [hi]) (hpartly hdone)
  rw [if_neg (hfresh hdone), hi] at haccept
  by_cases hnow : Whole (withPart came k i) k cut
  · have hall : ∀ j < cut.parts.length, (came k j || decide (j = i)) = true := by
      simpa [Whole] using hnow
    rw [if_pos hall] at haccept
    refine ⟨_, by rw [haccept, if_pos ⟨hnow, hdone⟩], h.update hcuts hk hcur ?_ ?_ ?_⟩
    · intro group hgroup
      simp [Std.ExtTreeMap.getElem?_erase, Std.ExtTreeMap.getElem?_insert, Ne.symm hgroup]
    · constructor
      case whole => simp
      case fresh => exact fun hopen => absurd hnow hopen
      case partly => exact fun hopen => absurd hnow hopen
    · intro c hbase _
      constructor
      · simpa using Ne.symm hbase
      · simp [FragmentInbox.message]
  · have hopen : ¬ ∀ j < cut.parts.length, (came k j || decide (j = i)) = true := by
      simpa [Whole] using hnow
    rw [if_neg hopen] at haccept
    refine ⟨_, by rw [haccept, if_neg fun hall => hnow hall.1], h.update hcuts hk hcur ?_ ?_ ?_⟩
    · intro group hgroup
      simp [Std.ExtTreeMap.getElem?_insert, Ne.symm hgroup]
    · constructor
      case whole => exact fun hall => absurd hall hnow
      case fresh => exact fun _ => hfresh hdone
      case partly =>
        intro _
        have hbelongs : (Reassembly.filled cut.base cut.parts fun j =>
            came k j || decide (j = i)).belongs cut.base (.ofNat cut.parts.length) = true :=
          Reassembly.belongs_filled.mpr ⟨rfl, (hcuts.toNat_size hk).symm⟩
        simp [FragmentInbox.message, hbelongs]
    · intro c hbase hd
      have hbelongs : ¬ (Reassembly.filled cut.base cut.parts fun j =>
          came k j || decide (j = i)).belongs c.base (.ofNat c.parts.length) = true :=
        fun hb => hbase (Reassembly.belongs_filled.mp hb).1.symm
      exact ⟨hd, by simp [FragmentInbox.message, hbelongs]⟩

end

end FragmentInbox

end DatagramTransport
