import DatagramTransport.Link
import DatagramTransport.Proofs.Connection.Receiving
import DatagramTransport.Proofs.Connection.Sending

/-!
# Runs of a link

Messages are sent, datagrams handed over or lost, pings exchanged and
connections ended, in any order. A datagram that is kept when it is handed
over may come again, and any one that waits may be next. Pings and
disconnects do not travel in the queues: they may come at any time and say
anything. A fault ends the run. What an observer of both ends writes down
is the log; the messages that a side sent, the reliable frames that it
transmitted first, the ids that it noted and the messages that it returned
are read off it.
-/

set_option autoImplicit false

namespace DatagramTransport

@[simp] theorem Side.other_other (s : Side) : s.other.other = s := by
  cases s <;> rfl

@[simp] theorem Side.other_ne (s : Side) : s.other ≠ s := by
  cases s <;> simp [other]

@[simp] theorem Side.ne_other (s : Side) : s ≠ s.other := by
  cases s <;> simp [other]

theorem Side.eq_or_eq_other (s t : Side) : t = s ∨ t = s.other := by
  cases s <;> cases t <;> simp [other]

namespace Link

inductive Event where
  | send (s : Side) (channel : UInt8) (message : Bytes)
  | deliver (s : Side) (index : Nat) (keep : Bool)
  | lose (s : Side) (index : Nat)
  | greet (s : Side) (now : UInt32)
  | ping (s : Side) (now : UInt32) (ping : Ping)
  | disconnect (s : Side)
  deriving DecidableEq, Repr

inductive Entry where
  | sent (s : Side) (channel : UInt8) (message : Bytes) (emitted : List Bytes)
  | received (s : Side) (datagram : Bytes) (noted : List UInt16) (messages : List Message)
  deriving DecidableEq, Repr

def replace (l : Link) (s : Side) (c : Connection) : Link :=
  l.setSide s { l.side s with connection := c }

def next (l : Link) : Event → Except Fault (Link × List Entry)
  | .send s channel message =>
    let step := l.send s channel message
    match step.answer with
    | .ok () => .ok (step.link, [.sent s channel message (step.emitted s)])
    | .error (.fault f) => .error f
    | .error _ => .ok (step.link, [])
  | .deliver s index keep =>
    match (l.side s).queue.toList[index]? with
    | none => .ok (l, [])
    | some datagram => do
      let some step ← l.deliver s index keep | return (l, [])
      let noted := (l.side s.other).connection.noted datagram
      return (step.link, [.received s.other datagram noted step.answer])
  | .lose s index => .ok ((l.drop s index).getD l, [])
  | .greet s now => .ok (l.replace s ((l.side s).connection.initialPing now).connection, [])
  | .ping s now ping =>
    .ok (l.replace s ((l.side s).connection.receivePing now ping).connection, [])
  | .disconnect s => .ok (l.replace s (l.side s).connection.markDisconnected.1, [])

def run (l : Link) : List Event → Except Fault (Link × List Entry)
  | [] => .ok (l, [])
  | e :: es => do
    let (l, entries) ← l.next e
    let (l, later) ← run l es
    return (l, entries ++ later)

theorem run_cons_eq_ok {l l' : Link} {e : Event} {events : List Event} {log : List Entry} :
    l.run (e :: events) = .ok (l', log) ↔ ∃ m entries later, l.next e = .ok (m, entries) ∧
      m.run events = .ok (l', later) ∧ log = entries ++ later := by
  rw [run, bind_eq_ok]
  constructor
  · rintro ⟨⟨m, entries⟩, hnext, h⟩
    obtain ⟨⟨l', later⟩, hlater, h⟩ := bind_eq_ok.mp h
    cases h
    exact ⟨m, entries, later, hnext, hlater, rfl⟩
  · rintro ⟨m, entries, later, hnext, hlater, rfl⟩
    exact ⟨_, hnext, bind_eq_ok.mpr ⟨_, hlater, rfl⟩⟩

theorem run_append_eq_ok {l l' : Link} {before after : List Event} {log : List Entry} :
    l.run (before ++ after) = .ok (l', log) ↔ ∃ m earlier later, l.run before = .ok (m, earlier) ∧
      m.run after = .ok (l', later) ∧ log = earlier ++ later := by
  induction before generalizing l log with
  | nil =>
    constructor
    · exact fun h => ⟨l, [], log, rfl, h, rfl⟩
    · rintro ⟨m, earlier, later, hearlier, hlater, rfl⟩
      cases hearlier
      exact hlater
  | cons e before ih =>
    rw [List.cons_append, run_cons_eq_ok]
    constructor
    · rintro ⟨k, entries, rest, hnext, hrest, rfl⟩
      obtain ⟨m, earlier, later, hearlier, hlater, rfl⟩ := ih.mp hrest
      exact ⟨m, entries ++ earlier, later,
        run_cons_eq_ok.mpr ⟨k, entries, earlier, hnext, hearlier, rfl⟩, hlater,
        (List.append_assoc _ _ _).symm⟩
    · rintro ⟨m, earlier, later, hearlier, hlater, rfl⟩
      obtain ⟨k, entries, rest, hnext, hrest, rfl⟩ := run_cons_eq_ok.mp hearlier
      exact ⟨k, entries, rest ++ later, hnext, ih.mpr ⟨m, rest, later, hrest, hlater, rfl⟩,
        List.append_assoc _ _ _⟩

theorem run_induction {P : Link → List Entry → Prop} {l : Link} (ok : Event → Prop)
    (start : P l [])
    (step : ∀ l log e l' entries, P l log → ok e → l.next e = .ok (l', entries) →
      P l' (log ++ entries))
    {events : List Event} (hok : ∀ e ∈ events, ok e) {l' : Link} {log : List Entry}
    (hrun : l.run events = .ok (l', log)) : P l' log := by
  suffices h : ∀ (events : List Event) (l : Link) (before log : List Entry),
      (∀ e ∈ events, ok e) → P l before → l.run events = .ok (l', log) →
      P l' (before ++ log) from h events l [] log hok start hrun
  intro events
  induction events with
  | nil =>
    intro l before log _ hp hrun
    cases hrun
    simpa using hp
  | cons e es ih =>
    intro l before log hok hp hrun
    obtain ⟨m, entries, later, hn, hr, rfl⟩ := run_cons_eq_ok.mp hrun
    have hm := step l before e m entries hp (hok e (by simp)) hn
    have hk := ih m _ later (fun e he => hok e (List.mem_cons_of_mem _ he)) hm hr
    rwa [List.append_assoc] at hk

theorem run_of_eval {α : Type} (l : Link) (events : List Event) (f : Link × List Entry → α)
    (a : α) (h : (l.run events).toOption.map f = some a) :
    ∃ l' log, l.run events = .ok (l', log) ∧ f (l', log) = a := by
  obtain ⟨⟨l', log⟩, hrun, heval⟩ := eq_ok_of_eval h
  exact ⟨l', log, hrun, heval⟩

@[simp] theorem side_setSide_self (l : Link) (s : Side) (e : LinkEnd) :
    (l.setSide s e).side s = e := by
  cases s <;> rfl

@[simp] theorem side_setSide_other (l : Link) (s : Side) (e : LinkEnd) :
    (l.setSide s e).side s.other = l.side s.other := by
  cases s <;> rfl

@[simp] theorem side_other_setSide (l : Link) (s : Side) (e : LinkEnd) :
    (l.setSide s.other e).side s = l.side s := by
  cases s <;> rfl

/-- What one end of a link can do without the other. -/
inductive Act (s : Side) (e : LinkEnd) : LinkEnd → List Entry → Prop
  | rest : Act s e e []
  | sent (channel : UInt8) (message : Bytes) (p : Prepared)
      (fits : e.connection.checkSend (e.connection.channelAt channel) message = .ok ())
      (prepared : (e.connection.channelAt channel).prepare message
        e.connection.nextMessage = .ok p) :
      Act s e
        { connection := (e.connection.sent channel p).connection
          queue := e.queue.push (e.connection.sent channel p).emitted }
        [.sent s channel message (e.connection.sent channel p).emitted]
  | lost (queue : Backlog Bytes) (sub : queue.toList.Sublist e.queue.toList) :
      Act s e { e with queue } []
  | pinged (phase : Phase) (packet : UInt16)
      (alive : phase = .disconnected ↔ e.connection.phase = .disconnected) :
      Act s e { e with connection := { e.connection with phase, nextPacket := packet } } []
  | ended : Act s e
      { e with connection := { e.connection with phase := .disconnected, pending := ∅ } } []

structure Handover (s : Side) (index : Nat) (keep : Bool) (l l' : Link)
    (entries : List Entry) where
  datagram : Bytes
  step : Step (List Message)
  queue : Backlog Bytes
  waiting : (l.side s).queue.toList[index]? = some datagram
  left : queue.toList =
    if keep then (l.side s).queue.toList else (l.side s).queue.toList.eraseIdx index
  received : (l.side s.other).connection.receive datagram = .ok step
  near : l'.side s = { l.side s with queue }
  far : l'.side s.other =
    { connection := step.connection, queue := (l.side s.other).queue.push step.emitted }
  logged : entries = [.received s.other datagram
    ((l.side s.other).connection.noted datagram) step.answer]

theorem toList_drop (l : Link) (s : Side) {index : Nat}
    (h : index < (l.side s).queue.toList.length) :
    ∃ queue : Backlog Bytes, queue.toList = (l.side s).queue.toList.eraseIdx index ∧
      (l.drop s index).getD l = l.setSide s { l.side s with queue } := by
  rw [Backlog.length_toList] at h
  refine ⟨.ofList ((l.side s).queue.toList.eraseIdx index), Backlog.toList_ofList _, ?_⟩
  simp [drop, h]

theorem next_deliver {s : Side} {index : Nat} {keep : Bool} {l l' : Link}
    {entries : List Entry} (h : l.next (.deliver s index keep) = .ok (l', entries)) :
    ((l.side s).queue.toList[index]? = none ∧ l' = l ∧ entries = []) ∨
      Nonempty (Handover s index keep l l' entries) := by
  simp only [next] at h
  cases hd : (l.side s).queue.toList[index]? with
  | none =>
    rw [hd] at h
    cases h
    exact .inl ⟨rfl, rfl, rfl⟩
  | some datagram =>
    rw [hd] at h
    obtain ⟨hlt, -⟩ := List.getElem?_eq_some_iff.mp hd
    obtain ⟨dropped, hdropped, hdrop⟩ := l.toList_drop s hlt
    obtain ⟨found, hdeliver, h⟩ := bind_eq_ok.mp h
    simp only [deliver, hd] at hdeliver
    obtain ⟨step, hstep, hdeliver⟩ := bind_eq_ok.mp hdeliver
    cases hdeliver
    cases h
    refine .inr ⟨?_⟩
    cases keep with
    | true =>
      exact ⟨datagram, step, (l.side s).queue, hd, rfl, hstep, by simp [settle],
        by simp [settle], by simp [settle]⟩
    | false =>
      simp only [hdrop, Bool.false_eq_true, if_false, side_setSide_other] at hstep ⊢
      exact ⟨datagram, step, dropped, hd, by simpa using hdropped, hstep,
        by simp [settle], by simp [settle], by simp [settle]⟩

theorem setSide_side (l : Link) (s : Side) : l.setSide s (l.side s) = l := by
  cases s <;> rfl

theorem next_send {l l' : Link} {s : Side} {channel : UInt8} {message : Bytes}
    {entries : List Entry} (hs : (l.side s).connection.Short)
    (h : l.next (.send s channel message) = .ok (l', entries)) :
    (l' = l ∧ entries = []) ∨
      ∃ p, (l.side s).connection.checkSend ((l.side s).connection.channelAt channel) message =
          .ok () ∧
        ((l.side s).connection.channelAt channel).prepare message
          (l.side s).connection.nextMessage = .ok p ∧
        l' = l.setSide s
          { connection := ((l.side s).connection.sent channel p).connection
            queue := (l.side s).queue.push ((l.side s).connection.sent channel p).emitted } ∧
        entries = [.sent s channel message ((l.side s).connection.sent channel p).emitted] := by
  have hanswer : (l.send s channel message).answer =
      ((l.side s).connection.send channel message).answer := rfl
  simp only [next] at h
  split at h
  · rename_i hok
    cases h
    rw [hanswer] at hok
    have hf : ∀ f, ((l.side s).connection.send channel message).answer ≠ .error (.fault f) := by
      intro f hf
      rw [hok] at hf
      cases hf
    rcases Connection.send_cases hs hf with ⟨e, he⟩ | ⟨p, hc, hp, he⟩
    · rw [he] at hok
      cases hok
    · exact .inr ⟨p, hc, hp, by simp [send, settle, he], by simp [send, settle, he]⟩
  · cases h
  · rename_i e hne he'
    cases h
    rw [hanswer] at he'
    have hf : ∀ f, ((l.side s).connection.send channel message).answer ≠ .error (.fault f) := by
      intro f hf
      rw [he'] at hf
      cases hf
      exact hne f rfl
    rcases Connection.send_cases hs hf with ⟨e, he⟩ | ⟨p, hc, hp, he⟩
    · have hq : (l.side s).queue.push [] = (l.side s).queue := rfl
      refine .inl ⟨?_, rfl⟩
      simp only [send, settle, he, hq]
      exact l.setSide_side s
    · rw [he] at he'
      cases he'

theorem send_act {l l' : Link} {s : Side} {channel : UInt8} {message : Bytes}
    {entries : List Entry} (hs : (l.side s).connection.Short)
    (h : l.next (.send s channel message) = .ok (l', entries)) :
    Act s (l.side s) (l'.side s) entries ∧ l'.side s.other = l.side s.other ∧
      (l'.side s).connection.phase = (l.side s).connection.phase := by
  rcases next_send hs h with ⟨rfl, rfl⟩ | ⟨p, hc, hp, rfl, rfl⟩
  · exact ⟨.rest, rfl, rfl⟩
  · rw [side_setSide_self, side_setSide_other]
    exact ⟨.sent channel message p hc hp, rfl, rfl⟩

theorem replace_act {l : Link} {s : Side} {c : Connection}
    (h : Act s (l.side s) { l.side s with connection := c } []) :
    Act s (l.side s) ((l.replace s c).side s) [] ∧
      (l.replace s c).side s.other = l.side s.other := by
  simpa [replace] using h

theorem receivePing_act (s : Side) (e : LinkEnd) (now : UInt32) (ping : Ping) :
    Act s e { e with connection := (e.connection.receivePing now ping).connection } [] := by
  unfold Connection.receivePing
  split
  · exact .rest
  · rename_i hp
    exact .pinged .connected _ (by simp [hp])
  · exact .pinged _ _ Iff.rfl

theorem markDisconnected_act (s : Side) (e : LinkEnd) :
    Act s e { e with connection := e.connection.markDisconnected.1 } [] := by
  unfold Connection.markDisconnected
  split
  · exact .rest
  · exact .ended

theorem receivePing_phase (c : Connection) (now : UInt32) (ping : Ping)
    (h : (c.receivePing now ping).connection.phase = .disconnected) : c.phase = .disconnected := by
  unfold Connection.receivePing at h
  split at h
  · exact h
  · cases h
  · exact h

/-- All that an event can do to a link: one end acts by itself, and does not
end unless that is the event, or a datagram is handed over. -/
theorem next_cases {l l' : Link} {e : Event} {entries : List Entry}
    (hs : ∀ s, (l.side s).connection.Short) (h : l.next e = .ok (l', entries)) :
    (∃ s, Act s (l.side s) (l'.side s) entries ∧ l'.side s.other = l.side s.other ∧
        (e ≠ .disconnect s → (l'.side s).connection.phase = .disconnected →
          (l.side s).connection.phase = .disconnected)) ∨
      ∃ s index keep, e = .deliver s index keep ∧
        Nonempty (Handover s index keep l l' entries) := by
  cases e with
  | send s channel message =>
    obtain ⟨ha, hfar, hphase⟩ := send_act (hs s) h
    exact .inl ⟨s, ha, hfar, fun _ hd => hphase.symm.trans hd⟩
  | deliver s index keep =>
    rcases next_deliver h with ⟨-, rfl, rfl⟩ | hh
    · exact .inl ⟨s, .rest, rfl, fun _ hd => hd⟩
    · exact .inr ⟨s, index, keep, rfl, hh⟩
  | lose s index =>
    cases h
    by_cases hi : index < (l.side s).queue.toList.length
    · obtain ⟨queue, hq, hd⟩ := l.toList_drop s hi
      rw [hd]
      refine .inl ⟨s, ?_, side_setSide_other _ _ _, ?_⟩
      · rw [side_setSide_self]
        exact .lost queue (hq ▸ List.eraseIdx_sublist _ _)
      · rw [side_setSide_self]
        exact fun _ hd => hd
    · rw [Backlog.length_toList] at hi
      exact .inl ⟨s, by simpa [drop, hi] using Act.rest, by simp [drop, hi], by simp [drop, hi]⟩
  | greet s now =>
    cases h
    obtain ⟨ha, hfar⟩ := replace_act (l := l) (.pinged _ _ Iff.rfl)
    refine .inl ⟨s, ha, hfar, fun _ hd => ?_⟩
    rwa [replace, side_setSide_self] at hd
  | ping s now ping =>
    cases h
    obtain ⟨ha, hfar⟩ := replace_act (l := l) (receivePing_act s _ now ping)
    refine .inl ⟨s, ha, hfar, fun _ hd => ?_⟩
    rw [replace, side_setSide_self] at hd
    exact receivePing_phase _ now ping hd
  | disconnect s =>
    cases h
    obtain ⟨ha, hfar⟩ := replace_act (l := l) (markDisconnected_act s _)
    exact .inl ⟨s, ha, hfar, fun hne => absurd rfl hne⟩

end Link

/-- A reliable frame as it was first transmitted, and the message it was made of. -/
structure Posting where
  transfer : Transfer
  message : Bytes
  deriving DecidableEq, Repr

namespace Link

namespace Entry

def postings (config : Config) (s : Side) : Entry → List Posting
  | sent t channel message emitted =>
    if t = s ∧ (config.channelQos channel).isReliable then
      (emitted.filterMap Transfer.ofDatagram?).map fun transfer => { transfer, message }
    else []
  | received .. => []

def accepted (s : Side) : Entry → List Message
  | sent t channel message _ => if t = s then [⟨channel, message⟩] else []
  | received .. => []

def noted (s : Side) : Entry → List UInt16
  | received t _ ids _ => if t = s then ids else []
  | sent .. => []

def returned (s : Side) : Entry → List Message
  | received t _ _ messages => if t = s then messages else []
  | sent .. => []

end Entry

section
variable (config : Config) (s : Side) (log later : List Entry)

def minted : List Posting :=
  log.flatMap (Entry.postings config s)

def sentBy : List Message :=
  log.flatMap (Entry.accepted s)

def notedBy : List UInt16 :=
  log.flatMap (Entry.noted s)

def returnedBy : List Message :=
  log.flatMap (Entry.returned s)

theorem minted_append :
    minted config s (log ++ later) = minted config s log ++ minted config s later :=
  List.flatMap_append

theorem sentBy_append : sentBy s (log ++ later) = sentBy s log ++ sentBy s later :=
  List.flatMap_append

theorem notedBy_append : notedBy s (log ++ later) = notedBy s log ++ notedBy s later :=
  List.flatMap_append

theorem returnedBy_append :
    returnedBy s (log ++ later) = returnedBy s log ++ returnedBy s later :=
  List.flatMap_append

end

end Link

end DatagramTransport
