import DatagramTransport.Proofs.Listener.Turns

/-!
# The life of a connection

A connection waits for its first ping, is connected, and ends; or it ends
before it was connected. It is ended by its peer, by the application, or by
the stop of the listener. What waits for a connection that has ended, and what
comes for it later, does nothing any more, and the application is told of no
connection twice that it was connected or that it ended.
-/

set_option autoImplicit false

namespace DatagramTransport

inductive Phase.Leads : Phase → Phase → Prop
  | stays (p : Phase) : Leads p p
  | connects : Leads .handshake .connected
  | ends {p : Phase} (alive : p ≠ .disconnected) : Leads p .disconnected

def Operation.TakesPing (operation : Operation) (member : Nat) (m : Member) : Prop :=
  ∃ now ping queue, operation = .work member now ∧ m.queue = .ping ping :: queue

def Operation.Closes (operation : Operation) (member : Nat) (m : Member)
    (reason : DisconnectReason) : Prop :=
  operation = .disconnect member reason ∨
    ∃ now queue, operation = .work member now ∧ m.queue = .disconnect reason :: queue

def Operation.Ends (operation : Operation) (member : Nat) (m : Member) : Prop :=
  operation = .stop ∨ ∃ reason, operation.Closes member m reason

inductive Passage (member : Nat) (m : Member) (operation : Operation) (n : Member) :
    List Event → Prop
  | stays {events : List Event} (phase : n.connection.phase = m.connection.phase)
      (told : ∀ e ∈ events, e ≠ .connected member ∧ e.ends member = false)
      (waits : m.connection.phase = .handshake → ¬operation.TakesPing member m)
      (lives : m.connection.phase ≠ .disconnected → ¬operation.Ends member m)
      (rests : m.connection.phase = .disconnected →
        n.connection = m.connection ∧ ∀ e ∈ events, e.member? ≠ some member) :
    Passage member m operation n events
  | connects (before : m.connection.phase = .handshake) (takes : operation.TakesPing member m)
      (after : n.connection.phase = .connected) :
    Passage member m operation n [.connected member]
  | ends {events : List Event} (before : m.connection.phase ≠ .disconnected)
      (after : n.connection = m.connection.markDisconnected.1)
      (told : operation = .stop ∧ events = [] ∨
        ∃ reason, operation.Closes member m reason ∧ events = [.disconnected member reason]) :
    Passage member m operation n events

/-- How an operation leads a connection on, and what the application hears of it. The stop
of the listener ends a connection without a word. -/
structure Stride (member : Nat) (m n : Member) (operation : Operation) (events : List Event) :
    Prop where
  forward : m.connection.phase.Leads n.connection.phase
  connected : .connected member ∈ events ↔
    m.connection.phase = .handshake ∧ operation.TakesPing member m
  established : .connected member ∈ events ↔
    m.connection.phase = .handshake ∧ n.connection.phase = .connected
  ended : n.connection.phase = .disconnected ↔
    m.connection.phase = .disconnected ∨ operation.Ends member m
  disconnected : ∀ reason, .disconnected member reason ∈ events ↔
    m.connection.phase ≠ .disconnected ∧ operation.Closes member m reason

theorem Event.ends_eq_false {e : Event} {member : Nat} (h : e.member? ≠ some member) :
    e.ends member = false := by
  cases e with
  | disconnected other reason =>
    simp only [Event.ends, beq_eq_false_iff_ne]
    rintro rfl
    exact h rfl
  | _ => rfl

section
variable {member : Nat} {m n : Member} {operation : Operation} {events : List Event}

theorem Operation.TakesPing.not_closes (h : operation.TakesPing member m)
    (reason : DisconnectReason) : ¬operation.Closes member m reason := by
  obtain ⟨now, ping, queue, rfl, hqueue⟩ := h
  simp [Operation.Closes, hqueue]

theorem Operation.TakesPing.not_ends (h : operation.TakesPing member m) :
    ¬operation.Ends member m := by
  rintro (rfl | ⟨reason, hcloses⟩)
  · obtain ⟨now, ping, queue, hwork, -⟩ := h
    cases hwork
  · exact h.not_closes reason hcloses

theorem Operation.Closes.unique {reason other : DisconnectReason}
    (h : operation.Closes member m reason) (hother : operation.Closes member m other) :
    other = reason := by
  rcases h with rfl | ⟨now, queue, rfl, hqueue⟩
  · simpa [Operation.Closes, eq_comm] using hother
  · simpa [Operation.Closes, hqueue, eq_comm] using hother

theorem Operation.not_closes_stop (reason : DisconnectReason) :
    ¬Operation.stop.Closes member m reason := by
  simp [Operation.Closes]

theorem Operation.Ends.of_told (h : operation = .stop ∧ events = [] ∨
    ∃ reason, operation.Closes member m reason ∧ events = [.disconnected member reason]) :
    operation.Ends member m :=
  h.imp And.left fun ⟨reason, hcloses, _⟩ => ⟨reason, hcloses⟩

theorem Operation.Spares.not_takesPing (h : operation.Spares member m) :
    ¬operation.TakesPing member m := by
  rintro ⟨now, ping, queue, rfl, hqueue⟩
  cases hqueue.symm.trans (h rfl)

theorem Operation.Spares.not_ends (h : operation.Spares member m) :
    ¬operation.Ends member m := by
  rintro (rfl | ⟨reason, rfl | ⟨now, queue, rfl, hqueue⟩⟩)
  · exact h
  · exact h rfl
  · cases hqueue.symm.trans (h rfl)

theorem Passage.apart (hquiet : ∀ e ∈ events, e.member? ≠ some member)
    (hspared : operation.Spares member m) : Passage member m operation m events := by
  refine .stays rfl ?_ (fun _ => hspared.not_takesPing) (fun _ => hspared.not_ends)
    fun _ => ⟨rfl, hquiet⟩
  intro e he
  refine ⟨?_, Event.ends_eq_false (hquiet e he)⟩
  rintro rfl
  exact hquiet _ he rfl

theorem Passage.closed {reason : DisconnectReason} (hcloses : operation.Closes member m reason)
    (hn : n.connection = m.connection.markDisconnected.1) :
    Passage member m operation n
      (if m.connection.phase = .disconnected then [] else [.disconnected member reason]) := by
  by_cases hended : m.connection.phase = .disconnected
  · rw [Connection.markDisconnected_ended hended] at hn
    rw [if_pos hended]
    exact .stays (by rw [hn]) (by simp) (fun _ hping => hping.not_closes reason hcloses)
      (absurd hended) fun _ => ⟨hn, by simp⟩
  · rw [if_neg hended]
    exact .ends hended hn (.inr ⟨reason, hcloses, rfl⟩)

theorem Turn.passage (hshort : m.connection.phase ≠ .disconnected → m.connection.Short)
    (h : Turn member m operation n events) : Passage member m operation n events := by
  cases h with
  | came address bytes item =>
    exact .stays rfl (by simp) (by simp [Operation.TakesPing])
      (by simp [Operation.Ends, Operation.Closes]) fun _ => ⟨rfl, by simp⟩
  | sent channel message hfaultless =>
    refine .stays ?_ (by simp) (by simp [Operation.TakesPing])
      (by simp [Operation.Ends, Operation.Closes]) ?_
    · by_cases hended : m.connection.phase = .disconnected
      · obtain ⟨e, -, hsend⟩ := Connection.send_ended hended channel message
        simp only [hsend]
      · exact Connection.send_phase (hshort hended) hfaultless
    · intro hended
      obtain ⟨e, -, hsend⟩ := Connection.send_ended hended channel message
      simp only [hsend]
      exact ⟨trivial, by simp⟩
  | data now hqueue hstep =>
    refine .stays ?_ ?_ (by simp [Operation.TakesPing, hqueue])
      (by simp [Operation.Ends, Operation.Closes, hqueue]) ?_
    · by_cases hended : m.connection.phase = .disconnected
      · cases (Connection.receive_ended hended _).symm.trans hstep
        rfl
      · exact Connection.receive_phase (hshort hended) hstep
    · intro e he
      obtain ⟨message, -, rfl⟩ := List.mem_map.mp he
      exact ⟨Event.noConfusion, rfl⟩
    · intro hended
      cases (Connection.receive_ended hended _).symm.trans hstep
      exact ⟨rfl, by simp⟩
  | @pinged now ping queue hqueue =>
    have htakes : (Operation.work member now).TakesPing member m :=
      ⟨now, ping, queue, rfl, hqueue⟩
    cases hphase : m.connection.phase with
    | handshake =>
      simp only [Connection.receivePing, hphase, if_true]
      exact .connects hphase htakes rfl
    | connected =>
      simp only [Connection.receivePing, hphase]
      exact .stays rfl (by simp) (by simp [hphase]) (fun _ => htakes.not_ends) (by simp [hphase])
    | disconnected =>
      simp only [Connection.receivePing_ended hphase]
      exact .stays rfl (by simp) (by simp [hphase]) (fun _ => htakes.not_ends)
        fun _ => ⟨rfl, by simp⟩
  | left now hqueue => exact .closed (.inr ⟨now, _, rfl, hqueue⟩) rfl
  | closed reason => exact .closed (.inl rfl) rfl

theorem Turn.about {e : Event} (h : Turn member m operation n events) (he : e ∈ events) :
    e.member? = some member := by
  cases h with
  | came => cases he
  | sent => cases he
  | data now hqueue hstep =>
    obtain ⟨message, -, rfl⟩ := List.mem_map.mp he
    rfl
  | pinged now hqueue =>
    split at he
    · cases List.mem_singleton.mp he
      rfl
    · cases he
  | left | closed =>
    split at he
    · cases he
    · cases List.mem_singleton.mp he
      rfl

theorem Turn.spares {other : Nat} (h : Turn member m operation n events) (hne : member ≠ other)
    (m' : Member) : operation.Spares other m' := by
  cases h with
  | came | sent => trivial
  | data | pinged | left => exact fun heq => absurd heq hne
  | closed => exact hne

variable {members after : List Member}

theorem Move.passage (h : Move members operation after events) (hm : members[member]? = some m)
    (hshort : m.connection.phase ≠ .disconnected → m.connection.Short) :
    ∃ n, after[member]? = some n ∧ Passage member m operation n events := by
  obtain ⟨hlt, -⟩ := List.getElem?_eq_some_iff.mp hm
  cases h with
  | still _ _ hquiet hspared =>
    exact ⟨m, hm, .apart (fun e he => by simp [hquiet e he]) (hspared member m hm)⟩
  | @one _ other m' n _ hfound hturn =>
    by_cases heq : other = member
    · subst heq
      cases hm.symm.trans hfound
      exact ⟨n, List.getElem?_set_self hlt, hturn.passage hshort⟩
    · refine ⟨m, (List.getElem?_set_ne heq).trans hm,
        .apart (fun e he hmember => ?_) (hturn.spares heq m)⟩
      exact heq (Option.some.inj ((hturn.about he).symm.trans hmember))
  | joined request session now n hwaits hempty =>
    exact ⟨m, (List.getElem?_append_left hlt).trans hm, .apart (by simp) trivial⟩
  | all =>
    refine ⟨m.ended, by rw [List.getElem?_map, hm]; rfl, ?_⟩
    by_cases hended : m.connection.phase = .disconnected
    · have hsame : m.ended.connection = m.connection := by
        simp only [Member.ended, Connection.markDisconnected_ended hended]
      exact .stays (by rw [hsame]) (by simp) (by simp [Operation.TakesPing]) (absurd hended)
        fun _ => ⟨hsame, by simp⟩
    · exact .ends hended rfl (.inl ⟨rfl, rfl⟩)

theorem Move.newcomer (h : Move members operation after events) (hnone : members[member]? = none) :
    (∀ e ∈ events, e.member? ≠ some member) ∧
      ∀ n, after[member]? = some n → n.connection.phase = .handshake := by
  cases h with
  | still _ _ hquiet =>
    refine ⟨fun e he => by simp [hquiet e he], fun n hn => ?_⟩
    cases hnone.symm.trans hn
  | @one _ other m' n _ hfound hturn =>
    have hne : other ≠ member := by
      rintro rfl
      cases hnone.symm.trans hfound
    refine ⟨fun e he hmember => ?_, fun n hn => ?_⟩
    · exact hne (Option.some.inj ((hturn.about he).symm.trans hmember))
    · cases hnone.symm.trans ((List.getElem?_set_ne hne).symm.trans hn)
  | joined request session now m hwaits hempty =>
    refine ⟨by simp, fun n hn => ?_⟩
    rw [List.getElem?_append_right (List.getElem?_eq_none_iff.mp hnone),
      List.getElem?_singleton] at hn
    split at hn
    · cases hn
      exact hwaits
    · cases hn
  | all =>
    refine ⟨by simp, fun n hn => ?_⟩
    rw [List.getElem?_map, hnone] at hn
    cases hn

end

/-- How often the application was told of a connection, in each phase of its life. -/
def Told (member : Nat) (events : List Event) : Phase → Prop
  | .handshake => events.count (.connected member) = 0 ∧ events.countP (Event.ends member) = 0
  | .connected => events.count (.connected member) = 1 ∧ events.countP (Event.ends member) = 0
  | .disconnected => events.count (.connected member) ≤ 1 ∧ events.countP (Event.ends member) ≤ 1

section
variable {member : Nat} {events earlier : List Event}

theorem Told.le_one {phase : Phase} (h : Told member earlier phase) :
    earlier.count (.connected member) ≤ 1 ∧ earlier.countP (Event.ends member) ≤ 1 := by
  cases phase <;> simp only [Told] at h <;> omega

theorem Told.append {phase : Phase} (h : Told member earlier phase)
    (hother : ∀ e ∈ events, e ≠ .connected member ∧ e.ends member = false) :
    Told member (earlier ++ events) phase := by
  have hconnected : events.count (.connected member) = 0 :=
    List.count_eq_zero.mpr fun he => (hother _ he).1 rfl
  have hends : events.countP (Event.ends member) = 0 :=
    List.countP_eq_zero.mpr fun e he => by simp [(hother e he).2]
  cases phase <;> simpa [Told, List.count_append, List.countP_append, hconnected, hends] using h

variable {m n : Member} {operation : Operation}

theorem Passage.told (h : Passage member m operation n events)
    (htold : Told member earlier m.connection.phase) :
    Told member (earlier ++ events) n.connection.phase := by
  cases h with
  | stays phase hother waits lives rests =>
    rw [phase]
    exact htold.append hother
  | connects before takes after =>
    rw [before] at htold
    rw [after]
    simpa [Told, Event.ends] using htold
  | ends before after hsaid =>
    rw [after, Connection.phase_markDisconnected]
    have hfirst : earlier.countP (Event.ends member) = 0 := by
      cases hphase : m.connection.phase with
      | disconnected => exact absurd hphase before
      | handshake | connected =>
        rw [hphase] at htold
        exact htold.2
    have hle := htold.le_one.1
    rcases hsaid with ⟨-, rfl⟩ | ⟨reason, -, rfl⟩ <;> simp [Told, Event.ends, hfirst, hle]

theorem Passage.rests (h : Passage member m operation n events)
    (hended : m.connection.phase = .disconnected) :
    n.connection = m.connection ∧ ∀ e ∈ events, e.member? ≠ some member := by
  cases h with
  | stays phase hother waits lives rests => exact rests hended
  | connects before takes after => cases hended.symm.trans before
  | ends before after hsaid => exact absurd hended before

theorem Passage.cleared (h : Passage member m operation n events)
    (hbefore : m.connection.phase = .disconnected → m.connection.pending = ∅)
    (hended : n.connection.phase = .disconnected) : n.connection.pending = ∅ := by
  cases h with
  | stays phase hother waits lives rests =>
    rw [phase] at hended
    rw [(rests hended).1]
    exact hbefore hended
  | connects before takes after =>
    rw [after] at hended
    cases hended
  | ends before after hsaid => rw [after, Connection.markDisconnected, if_neg before]

theorem Passage.forward (h : Passage member m operation n events) :
    m.connection.phase.Leads n.connection.phase := by
  cases h with
  | stays phase hother waits lives rests =>
    rw [phase]
    exact .stays _
  | connects before takes after =>
    rw [before, after]
    exact .connects
  | ends before after hsaid =>
    rw [after, Connection.phase_markDisconnected]
    exact .ends before

theorem Passage.connected_iff (h : Passage member m operation n events) :
    .connected member ∈ events ↔
      m.connection.phase = .handshake ∧ operation.TakesPing member m := by
  cases h with
  | stays phase hother waits lives rests =>
    exact iff_of_false (fun he => (hother _ he).1 rfl) fun hping => waits hping.1 hping.2
  | connects before takes after => simp [before, takes]
  | ends before after hsaid =>
    refine iff_of_false ?_ fun hping => hping.2.not_ends (.of_told hsaid)
    rcases hsaid with ⟨-, rfl⟩ | ⟨reason, -, rfl⟩ <;> simp

theorem Passage.established_iff (h : Passage member m operation n events) :
    .connected member ∈ events ↔
      m.connection.phase = .handshake ∧ n.connection.phase = .connected := by
  cases h with
  | stays phase hother waits lives rests =>
    refine iff_of_false (fun he => (hother _ he).1 rfl) fun hphases => ?_
    rw [phase, hphases.1] at hphases
    cases hphases.2
  | connects before takes after => simp [before, after]
  | ends before after hsaid =>
    rw [after, Connection.phase_markDisconnected]
    rcases hsaid with ⟨-, rfl⟩ | ⟨reason, -, rfl⟩ <;> simp

theorem Passage.ended_iff (h : Passage member m operation n events) :
    n.connection.phase = .disconnected ↔
      m.connection.phase = .disconnected ∨ operation.Ends member m := by
  cases h with
  | stays phase hother waits lives rests =>
    rw [phase]
    exact ⟨.inl, fun h => h.elim id fun hends => Decidable.of_not_not fun hne => lives hne hends⟩
  | connects before takes after => simp [before, after, takes.not_ends]
  | ends before after hsaid =>
    rw [after, Connection.phase_markDisconnected]
    exact iff_of_true rfl (.inr (.of_told hsaid))

theorem Passage.disconnected_iff (h : Passage member m operation n events)
    (reason : DisconnectReason) : .disconnected member reason ∈ events ↔
      m.connection.phase ≠ .disconnected ∧ operation.Closes member m reason := by
  cases h with
  | stays phase hother waits lives rests =>
    refine iff_of_false (fun he => ?_) fun hcloses =>
      lives hcloses.1 (.inr ⟨reason, hcloses.2⟩)
    have hends := (hother _ he).2
    simp [Event.ends] at hends
  | connects before takes after => simp [takes.not_closes]
  | ends before after hsaid =>
    rw [and_iff_right before]
    rcases hsaid with ⟨rfl, rfl⟩ | ⟨given, hcloses, rfl⟩
    · exact iff_of_false List.not_mem_nil (Operation.not_closes_stop reason)
    · rw [List.mem_singleton]
      constructor
      · rintro ⟨⟩
        exact hcloses
      · intro hother
        rw [hcloses.unique hother]

theorem Passage.stride (h : Passage member m operation n events) :
    Stride member m n operation events where
  forward := h.forward
  connected := h.connected_iff
  established := h.established_iff
  ended := h.ended_iff
  disconnected := h.disconnected_iff

end

namespace Listener

def phaseOf (l : Listener) (member : Nat) : Phase :=
  match l.members[member]? with
  | some m => m.connection.phase
  | none => .handshake

structure Lived (l : Listener) (told : List Event) : Prop where
  sound : l.Sound
  told : ∀ member, Told member told (l.phaseOf member)
  cleared : ∀ m ∈ l.members, m.connection.phase = .disconnected → m.connection.pending = ∅

theorem lived_bind {config : Config} {l : Listener} (h : bind config = .ok l) : l.Lived [] where
  sound := .inl ⟨[], accounted_bind h⟩
  told := by
    obtain ⟨⟨⟩, -, h⟩ := bind_eq_ok.mp h
    cases h
    simp [phaseOf, Told]
  cleared := by
    obtain ⟨⟨⟩, -, h⟩ := bind_eq_ok.mp h
    cases h
    simp

section
variable {l next : Listener} {operation : Operation} {outcome : Outcome}

theorem Sound.passage (h : l.Sound) (hoperate : l.operate operation = .ok (next, outcome))
    {member : Nat} {m : Member} (hm : l.members[member]? = some m) :
    ∃ n, next.members[member]? = some n ∧ Passage member m operation n outcome.events :=
  (operate_move h.listed hoperate).passage hm (h.short (List.mem_of_getElem? hm))

theorem Lived.operate {told : List Event} (h : l.Lived told)
    (hoperate : l.operate operation = .ok (next, outcome)) :
    next.Lived (told ++ outcome.events) := by
  obtain ⟨next', outcome', hoperate', hsound⟩ := h.sound.operate operation
  cases hoperate.symm.trans hoperate'
  have hmove := operate_move h.sound.listed hoperate
  refine ⟨hsound, fun member => ?_, fun n hn hended => ?_⟩
  · have htold := h.told member
    unfold phaseOf at htold ⊢
    cases hm : l.members[member]? with
    | none =>
      obtain ⟨hquiet, hnew⟩ := hmove.newcomer hm
      rw [hm] at htold
      have happart := htold.append fun e he =>
        ⟨fun heq => hquiet e he (heq ▸ rfl), Event.ends_eq_false (hquiet e he)⟩
      cases hn : next.members[member]? with
      | none => exact happart
      | some n =>
        simp only [hnew n hn]
        exact happart
    | some m =>
      obtain ⟨n, hn, hpassage⟩ := h.sound.passage hoperate hm
      rw [hm] at htold
      rw [hn]
      exact hpassage.told htold
  · obtain ⟨member, hn⟩ := List.mem_iff_getElem?.mp hn
    cases hm : l.members[member]? with
    | none =>
      rw [(hmove.newcomer hm).2 n hn] at hended
      cases hended
    | some m =>
      obtain ⟨n', hn', hpassage⟩ := h.sound.passage hoperate hm
      cases hn.symm.trans hn'
      exact hpassage.cleared (h.cleared m (List.mem_of_getElem? hm)) hended

theorem lived_run {config : Config} {start : Listener} (hbind : bind config = .ok start)
    (operations : List Operation) :
    ∃ last log, start.run operations = .ok (last, log) ∧
      last.Lived (log.flatMap Outcome.events) := by
  refine runAll_induction
    (P := fun (l : Listener) log => l.Lived (log.flatMap Outcome.events)) ?_ (lived_bind hbind)
  intro l log h operation _
  obtain ⟨next, outcome, hoperate, -⟩ := h.sound.operate operation
  refine ⟨next, outcome, hoperate, ?_⟩
  rw [List.flatMap_append, List.flatMap_singleton]
  exact h.operate hoperate

/-- Once a connection has ended, it stays as it is and is never heard of again. -/
theorem Sound.run_ended (h : l.Sound) {member : Nat} {m : Member}
    (hm : l.members[member]? = some m) (hended : m.connection.phase = .disconnected)
    {operations : List Operation} {last : Listener} {log : List Outcome}
    (hrun : l.run operations = .ok (last, log)) :
    (∃ n, last.members[member]? = some n ∧ n.connection = m.connection) ∧
      ∀ e ∈ log.flatMap Outcome.events, e.member? ≠ some member := by
  -- its queue may still grow and be emptied, so that the member changes along the run
  induction operations generalizing l m log with
  | nil =>
    cases hrun
    exact ⟨⟨m, hm, rfl⟩, by simp⟩
  | cons operation operations ih =>
    obtain ⟨next, outcome, later, hoperate, hlater, rfl⟩ := runAll_cons_eq_ok.mp hrun
    obtain ⟨next', outcome', hoperate', hsound⟩ := h.operate operation
    cases hoperate.symm.trans hoperate'
    obtain ⟨n, hn, hpassage⟩ := h.passage hoperate hm
    obtain ⟨hsame, hquiet⟩ := hpassage.rests hended
    obtain ⟨⟨o, ho, hstays⟩, hnever⟩ := ih hsound hn (hsame ▸ hended) hlater
    refine ⟨⟨o, ho, hstays.trans hsame⟩, fun e he => ?_⟩
    rw [List.flatMap_cons, List.mem_append] at he
    exact he.elim (hquiet e) (hnever e)

end

/-- Nothing of the connection waits for an acknowledgement, sending on it fails, what is left in its
queue is neither answered nor heard of, and it is not ended again. -/
structure Gone (l : Listener) (member : Nat) : Prop where
  ended : ∃ m, l.members[member]? = some m ∧ m.connection.phase = .disconnected ∧
    m.connection.pending.size = 0
  send : ∀ channel message, ∃ e, (∀ f, e ≠ .fault f) ∧
    l.send member channel message = l.unchanged (.error e)
  work : ∀ now, ∃ next : Listener, l.work member now = .ok (next.unchanged ())
  disconnect : ∀ reason notify, l.disconnect member reason notify = .ok (l.unchanged ())

theorem Lived.gone {l : Listener} {told : List Event} (h : l.Lived told) {member : Nat}
    {m : Member} (hm : l.members[member]? = some m)
    (hended : m.connection.phase = .disconnected) : l.Gone member where
  ended := by
    refine ⟨m, hm, hended, ?_⟩
    rw [h.cleared m (List.mem_of_getElem? hm) hended]
    exact Std.ExtTreeMap.size_empty
  send := send_ended hm hended
  work now := ⟨_, work_ended hm hended now⟩
  disconnect := disconnect_ended hm hended

theorem Halted.run {l last : Listener} (h : l.Halted) {operations : List Operation}
    {log : List Outcome} (hrun : l.run operations = .ok (last, log)) : last.Halted := by
  refine runAll_keeps (fun l operation next outcome h hoperate => ?_) h hrun
  obtain ⟨next', outcome', hoperate', hhalted⟩ := h.operate operation
  cases hoperate.symm.trans hoperate'
  exact hhalted

/-- Every operation leads a connection on, from its handshake to being connected and to its end, or
leaves it in its phase. Nothing is told twice, and nothing at all of a connection that has ended. -/
theorem connection_life_cycle {config : Config} {start : Listener} (hbind : bind config = .ok start)
    (operations : List Operation) :
    ∃ last log, start.run operations = .ok (last, log) ∧
      (∀ member, (log.flatMap Outcome.events).count (.connected member) ≤ 1 ∧
        (log.flatMap Outcome.events).countP (Event.ends member) ≤ 1) ∧
      (∀ before operation after, operations = before ++ operation :: after →
        ∃ middle earlier next outcome, start.run before = .ok (middle, earlier) ∧
          middle.operate operation = .ok (next, outcome) ∧
          (∀ member m, middle.members[member]? = some m →
            ∃ n, next.members[member]? = some n ∧ Stride member m n operation outcome.events) ∧
          ∀ member, middle.members[member]? = none →
            (∀ e ∈ outcome.events, e.member? ≠ some member) ∧
              ∀ n, next.members[member]? = some n → n.connection.phase = .handshake) ∧
      (.stop ∈ operations → last.Halted) ∧
      ∀ before after, operations = before ++ after →
        ∃ middle earlier later, start.run before = .ok (middle, earlier) ∧
          middle.run after = .ok (last, later) ∧ log = earlier ++ later ∧
          ∀ member m, middle.members[member]? = some m → m.connection.phase = .disconnected →
            last.Gone member ∧ ∀ e ∈ later.flatMap Outcome.events, e.member? ≠ some member := by
  obtain ⟨last, log, hrun, hlived⟩ := lived_run hbind operations
  refine ⟨last, log, hrun, fun member => (hlived.told member).le_one, ?_, fun hstop => ?_, ?_⟩
  · intro before operation after _
    obtain ⟨middle, earlier, hbefore, h⟩ := lived_run hbind before
    obtain ⟨next, outcome, hoperate, -⟩ := h.sound.operate operation
    refine ⟨middle, earlier, next, outcome, hbefore, hoperate, ?_, ?_⟩
    · intro member m hm
      obtain ⟨n, hn, hpassage⟩ := h.sound.passage hoperate hm
      exact ⟨n, hn, hpassage.stride⟩
    · exact fun member => (operate_move h.sound.listed hoperate).newcomer
  · obtain ⟨before, after, rfl⟩ := List.append_of_mem hstop
    obtain ⟨middle, earlier, later, hbefore, hafter, -⟩ := runAll_append_eq_ok.mp hrun
    obtain ⟨middle', earlier', hbefore', h⟩ := lived_run hbind before
    cases hbefore.symm.trans hbefore'
    obtain ⟨next, outcome, rest, hstopped, hrest, -⟩ := runAll_cons_eq_ok.mp hafter
    cases hstopped
    exact (halted_stop h.sound.listed).run hrest
  · rintro before after rfl
    obtain ⟨middle, earlier, later, hbefore, hafter, hlog⟩ := runAll_append_eq_ok.mp hrun
    refine ⟨middle, earlier, later, hbefore, hafter, hlog, fun member m hm hended => ?_⟩
    obtain ⟨middle', earlier', hbefore', h⟩ := lived_run hbind before
    cases hbefore.symm.trans hbefore'
    obtain ⟨⟨n, hn, hsame⟩, hnever⟩ := h.sound.run_ended hm hended hafter
    exact ⟨hlived.gone hn (hsame ▸ hended), hnever⟩

def endedEarly : List Operation :=
  let peer : Bytes → Operation := .datagram "10.0.0.2:7000"
  let connect := [0, 0, 1, 0, 0, 0, 7, 0, 3, 0, 0, 1, 0, 1, 0, 0, 0, 0, 0]
  let ping := [0, 0, 4, 0, 0, 0, 7, 0, 3, 0, 1, 0, 0, 0, 0, 0, 0, 0, 0, 0, 0, 0, 0, 0, 0, 0, 0]
  let disconnect := [0, 0, 3, 0, 0, 0, 7, 0, 3, 0, 1, 1, 0, 1, 0, 1]
  [peer connect, .accept 0 9 0, peer ping, peer ping, peer disconnect, .work 0 0,
    .disconnect 0 .timeout, peer connect]

def goneThrough : List Operation :=
  let peer : Bytes → Operation := .datagram "10.0.0.2:7000"
  let another : Bytes → Operation := .datagram "10.0.0.3:7000"
  let connect := [0, 0, 1, 0, 0, 0, 7, 0, 3, 0, 0, 1, 0, 1, 0, 0, 0, 0, 0]
  let ping := [0, 0, 4, 0, 0, 0, 7, 0, 3, 0, 2, 0, 0, 0, 0, 0, 0, 0, 0, 0, 0, 0, 0, 0, 0, 0, 0]
  let disconnect := [0, 0, 3, 0, 0, 0, 7, 0, 3, 0, 2, 1, 0, 1, 0, 1]
  [.accept 1 8 0, peer ping, peer disconnect, .work 0 0, .work 1 0, .work 1 0, .work 0 0,
    another connect, .accept 2 7 0, another ping, another ping, .work 2 0, .stop, .work 2 0,
    another ping]

theorem connection_life_cycle_stale :
    ∃ start last log, bind .standard = .ok start ∧
      start.run (endedEarly ++ goneThrough) = .ok (last, log) ∧
      log.flatMap Outcome.events =
        [.requested 0, .connected 0, .disconnected 0 .timeout, .requested 1, .connected 1,
          .disconnected 1 .wrongHost, .requested 2, .connected 2] ∧
      last.Gone 0 ∧ last.Gone 1 ∧ last.Gone 2 := by
  obtain ⟨start, hbind⟩ : ∃ start, bind .standard = .ok start := ⟨_, rfl⟩
  have hwhole : (bind .standard).toOption.bind (fun start =>
      (start.run (endedEarly ++ goneThrough)).toOption.map
        fun r => (r.1.members.length, r.2.flatMap Outcome.events)) =
      some (3, [.requested 0, .connected 0, .disconnected 0 .timeout, .requested 1,
        .connected 1, .disconnected 1 .wrongHost, .requested 2, .connected 2]) := by
    decide +kernel
  rw [hbind] at hwhole
  obtain ⟨⟨last, log⟩, hrun, heval⟩ := eq_ok_of_eval hwhole
  have hcount : last.members.length = 3 := congrArg Prod.fst heval
  obtain ⟨last', log', hrun', -, -, hstopped, hgone⟩ :=
    connection_life_cycle hbind (endedEarly ++ goneThrough)
  cases hrun.symm.trans hrun'
  have hhalted : last.Halted := hstopped (by decide +kernel)
  obtain ⟨middle, earlier, later, hbefore, hafter, -, hmember⟩ :=
    hgone _ [] (List.append_nil _).symm
  cases hbefore.symm.trans hrun
  have hall : ∀ member < 3, last.Gone member := by
    intro member hlt
    obtain ⟨m, hm⟩ : ∃ m, last.members[member]? = some m :=
      ⟨_, List.getElem?_eq_getElem (by omega)⟩
    exact (hmember member m hm (hhalted.ended m (List.mem_of_getElem? hm))).1
  exact ⟨start, last, log, hbind, hrun, congrArg Prod.snd heval, hall 0 (by decide),
    hall 1 (by decide), hall 2 (by decide)⟩

end Listener

end DatagramTransport
