import DatagramTransport.Proofs.Codec

/-!
# Runs of a system that may fail

A system takes inputs one after another and writes down what it did at each.
The first fault ends the run. An invariant of states and logs under which
every input has an outcome shows that every run has one.
-/

set_option autoImplicit false

namespace DatagramTransport

section
variable {State Input Output : Type}

def runAll (step : State → Input → Except Fault (State × Output)) (s : State) :
    List Input → Except Fault (State × List Output)
  | [] => .ok (s, [])
  | input :: inputs => do
    let (next, output) ← step s input
    let (last, log) ← runAll step next inputs
    return (last, output :: log)

variable {step : State → Input → Except Fault (State × Output)} {s last : State}

theorem runAll_cons_eq_ok {input : Input} {inputs : List Input} {log : List Output} :
    runAll step s (input :: inputs) = .ok (last, log) ↔
      ∃ next output later, step s input = .ok (next, output) ∧
        runAll step next inputs = .ok (last, later) ∧ log = output :: later := by
  rw [runAll, bind_eq_ok]
  constructor
  · rintro ⟨⟨next, output⟩, hnext, h⟩
    obtain ⟨⟨last', later⟩, hlater, h⟩ := bind_eq_ok.mp h
    cases h
    exact ⟨next, output, later, hnext, hlater, rfl⟩
  · rintro ⟨next, output, later, hnext, hlater, rfl⟩
    exact ⟨_, hnext, bind_eq_ok.mpr ⟨_, hlater, rfl⟩⟩

theorem runAll_append_eq_ok {before after : List Input} {log : List Output} :
    runAll step s (before ++ after) = .ok (last, log) ↔
      ∃ middle earlier later, runAll step s before = .ok (middle, earlier) ∧
        runAll step middle after = .ok (last, later) ∧ log = earlier ++ later := by
  induction before generalizing s log with
  | nil =>
    constructor
    · exact fun h => ⟨s, [], log, rfl, h, rfl⟩
    · rintro ⟨middle, earlier, later, hearlier, hlater, rfl⟩
      cases hearlier
      exact hlater
  | cons input before ih =>
    rw [List.cons_append, runAll_cons_eq_ok]
    constructor
    · rintro ⟨next, output, rest, hnext, hrest, rfl⟩
      obtain ⟨middle, earlier, later, hearlier, hlater, rfl⟩ := ih.mp hrest
      exact ⟨middle, output :: earlier, later,
        runAll_cons_eq_ok.mpr ⟨next, output, earlier, hnext, hearlier, rfl⟩, hlater, rfl⟩
    · rintro ⟨middle, earlier, later, hearlier, hlater, rfl⟩
      obtain ⟨next, output, rest, hnext, hrest, rfl⟩ := runAll_cons_eq_ok.mp hearlier
      exact ⟨next, output, rest ++ later, hnext, ih.mpr ⟨middle, rest, later, hrest, hlater, rfl⟩,
        rfl⟩

theorem runAll_induction {P : State → List Output → Prop} {inputs : List Input}
    (hstep : ∀ s log, P s log → ∀ input ∈ inputs,
      ∃ next output, step s input = .ok (next, output) ∧ P next (log ++ [output]))
    (hstart : P s []) :
    ∃ last log, runAll step s inputs = .ok (last, log) ∧ P last log := by
  -- the log so far belongs to the invariant, so that the induction is on what is left
  suffices hall : ∀ (later : List Input) (s : State) (before : List Output),
      later ⊆ inputs → P s before →
      ∃ last log, runAll step s later = .ok (last, log) ∧ P last (before ++ log) by
    exact hall inputs s [] (List.Subset.refl _) hstart
  intro later
  induction later with
  | nil => exact fun s before _ h => ⟨s, [], rfl, by rwa [List.append_nil]⟩
  | cons input later ih =>
    intro s before hsub h
    obtain ⟨next, output, hnext, hholds⟩ := hstep s before h input (hsub List.mem_cons_self)
    obtain ⟨last, log, hlater, hlast⟩ := ih next _ (fun i hi => hsub (.tail _ hi)) hholds
    exact ⟨last, output :: log, runAll_cons_eq_ok.mpr ⟨next, output, log, hnext, hlater, rfl⟩,
      by rwa [List.append_assoc] at hlast⟩

theorem runAll_keeps {P : State → Prop}
    (hstep : ∀ s input next output, P s → step s input = .ok (next, output) → P next)
    (hstart : P s) {inputs : List Input} {log : List Output}
    (hrun : runAll step s inputs = .ok (last, log)) : P last := by
  induction inputs generalizing s log with
  | nil =>
    cases hrun
    exact hstart
  | cons input inputs ih =>
    obtain ⟨next, output, later, hnext, hlater, -⟩ := runAll_cons_eq_ok.mp hrun
    exact ih (hstep s input next output hstart hnext) hlater

/-- What holds at first, and is kept by every input that has an outcome, holds up to
the first input that has none. -/
theorem runAll_until_fault {P : State → List Output → Prop}
    (hstep : ∀ s log input next output, P s log → step s input = .ok (next, output) →
      P next (log ++ [output]))
    (hstart : P s []) (inputs : List Input) :
    ∃ done rest last log, inputs = done ++ rest ∧ runAll step s done = .ok (last, log) ∧
      P last log ∧ (rest = [] ∨ ∃ input later f, rest = input :: later ∧
        step last input = .error f) := by
  suffices hall : ∀ (inputs : List Input) (s : State) (before : List Output), P s before →
      ∃ done rest last log, inputs = done ++ rest ∧ runAll step s done = .ok (last, log) ∧
        P last (before ++ log) ∧ (rest = [] ∨ ∃ input later f, rest = input :: later ∧
          step last input = .error f) by
    exact hall inputs s [] hstart
  intro inputs
  induction inputs with
  | nil => exact fun s before h => ⟨[], [], s, [], rfl, rfl, by rwa [List.append_nil], .inl rfl⟩
  | cons input inputs ih =>
    intro s before h
    cases hinput : step s input with
    | error f =>
      exact ⟨[], input :: inputs, s, [], rfl, rfl, by rwa [List.append_nil],
        .inr ⟨input, inputs, f, rfl, hinput⟩⟩
    | ok r =>
      obtain ⟨next, output⟩ := r
      obtain ⟨done, rest, last, log, rfl, hdone, hlast, hrest⟩ :=
        ih next _ (hstep s before input next output h hinput)
      exact ⟨input :: done, rest, last, output :: log, rfl,
        runAll_cons_eq_ok.mpr ⟨next, output, log, hinput, hdone, rfl⟩,
        by rwa [List.append_assoc] at hlast, hrest⟩

end

end DatagramTransport
