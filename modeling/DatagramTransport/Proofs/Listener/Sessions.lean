import DatagramTransport.Listener.Session
import DatagramTransport.Proofs.Listener.Isolation
import DatagramTransport.Proofs.Listener.LifeCycle

/-!
# Sessions drive their listener

All that an application with a fixed policy does, and all that its peers
send, comes to operations on the listener, one after another. So a step of a
session never faults, the peers receive what these operations send, and what
the application notes down of its connections is what it was told.
-/

set_option autoImplicit false

namespace DatagramTransport

def Note.event? : Note → Option Event
  | connected member => some (.connected member)
  | received member message => some (.received member message)
  | disconnected member reason => some (.disconnected member reason)
  | _ => none

def Event.ofMember (e : Event) : Bool := e.member?.isSome

def notedEvents (notes : List Note) : List Event := notes.filterMap Note.event?

def memberEvents (log : List Outcome) : List Event :=
  (log.flatMap Outcome.events).filter Event.ofMember

theorem notedEvents_append (notes more : List Note) :
    notedEvents (notes ++ more) = notedEvents notes ++ notedEvents more :=
  List.filterMap_append

theorem memberEvents_append (log more : List Outcome) :
    memberEvents (log ++ more) = memberEvents log ++ memberEvents more := by
  simp [memberEvents]

theorem memberEvents_singleton (outcome : Outcome) :
    memberEvents [outcome] = outcome.events.filter Event.ofMember := by
  simp [memberEvents]

namespace Listener

section
variable {l : Listener}

theorem accept_events {request : Nat} {session : UInt16} {now : UInt32} {e : Effect (Option Nat)}
    (h : l.accept request session now = .ok e) : e.events = [] := by
  cases hr : l.requests[request]? with
  | none =>
    cases (accept_of_none session now hr).symm.trans h
    rfl
  | some r =>
    cases hopen : r.handled with
    | true =>
      cases (Decided.accept session now ⟨r, hr, hopen⟩).symm.trans h
      rfl
    | false =>
      rcases accept_cases session now hr hopen with
        ⟨-, -, heq⟩ | ⟨-, ids, id, -, -, ⟨-, heq⟩ | ⟨issued, -, -, heq⟩ | ⟨issued, -, -, heq⟩⟩
      · cases heq.symm.trans h
        rfl
      · cases heq.symm.trans h
        rfl
      · obtain ⟨released, -, h⟩ := bind_eq_ok.mp (heq.symm.trans h)
        cases h
        rfl
      · cases heq.symm.trans h
        rfl

theorem reject_events (l : Listener) (request : Nat) (reason : DisconnectReason) :
    (l.reject request reason).events = [] := by
  unfold reject
  split
  · rfl
  · split <;> rfl

theorem send_events (l : Listener) (member : Nat) (channel : UInt8) (message : Bytes) :
    (l.send member channel message).events = [] := by
  unfold send
  split <;> rfl

theorem Kept.run {operations : List Operation} {last : Listener} {log : List Outcome} (h : l.Kept)
    (hrun : l.run operations = .ok (last, log)) : last.Kept :=
  (Later.now.run hrun).kept h

end

end Listener

namespace Session

/-- The listener went through operations in which the application was told `said` of its
connections, and of which it noted down `noted`. -/
def Drives (s next : Session) (said noted : List Event) : Prop :=
  ∃ operations log, s.listener.run operations = .ok (next.listener, log) ∧ memberEvents log = said ∧
    next.sent = s.sent ++ log.flatMap Outcome.sent ∧
    notedEvents next.notes = notedEvents s.notes ++ noted ∧ next.attached = s.attached

section
variable {s middle next : Session} {said noted later more : List Event}

theorem Drives.refl (s : Session) : s.Drives s [] [] :=
  ⟨[], [], rfl, rfl, (List.append_nil _).symm, (List.append_nil _).symm, rfl⟩

theorem Drives.trans (h : s.Drives middle said noted) (hlater : middle.Drives next later more) :
    s.Drives next (said ++ later) (noted ++ more) := by
  obtain ⟨operations, log, hrun, rfl, hsent, hnoted, hattached⟩ := h
  obtain ⟨operations', log', hrun', rfl, hsent', hnoted', hattached'⟩ := hlater
  refine ⟨operations ++ operations', log ++ log', ?_, memberEvents_append log log', ?_, ?_,
    hattached'.trans hattached⟩
  · exact runAll_append_eq_ok.mpr ⟨_, log, log', hrun, hrun', rfl⟩
  · rw [hsent', hsent, List.flatMap_append, List.append_assoc]
  · rw [hnoted', hnoted, List.append_assoc]

theorem Drives.kept (h : s.Drives next said noted) (hkept : s.listener.Kept) :
    next.listener.Kept := by
  obtain ⟨operations, log, hrun, -⟩ := h
  exact hkept.run hrun

theorem drives_note (s : Session) (n : Note) : s.Drives (s.note n) [] (notedEvents [n]) :=
  ⟨[], [], rfl, rfl, (List.append_nil _).symm, notedEvents_append s.notes [n], rfl⟩

theorem drives_silent (s : Session) {n : Note} (h : n.event? = none) :
    s.Drives (s.note n) [] [] := by
  have hnothing : notedEvents [n] = [] := List.filterMap_cons_none h
  exact hnothing ▸ s.drives_note n

theorem drives_absorb {α : Type} (s : Session) (e : Effect α) (operation : Operation)
    {issued : List UInt16} (h : s.listener.operate operation =
      .ok (e.listener, { sent := e.sent, events := e.events, issued })) :
    s.Drives (s.absorb e) (e.events.filter Event.ofMember) [] := by
  refine ⟨[operation], [_], runAll_cons_eq_ok.mpr ⟨_, _, [], h, rfl, rfl⟩,
    memberEvents_singleton _, ?_, (List.append_nil _).symm, rfl⟩
  rw [List.flatMap_singleton]
  rfl

end

def Leads (s : Session) (result : Except Fault Session) (said noted : List Event) : Prop :=
  ∃ next, result = .ok next ∧ s.Drives next said noted

def Settles (s : Session) (result : Except Fault Session) : Prop :=
  ∃ said, s.Leads result said said

section
variable {s : Session} {result : Except Fault Session} {rest : Session → Except Fault Session}

theorem Leads.bind {said noted later more : List Event} (h : s.Leads result said noted)
    (hkept : s.listener.Kept)
    (hrest : ∀ middle : Session, middle.listener.Kept → middle.Leads (rest middle) later more) :
    s.Leads (result >>= rest) (said ++ later) (noted ++ more) := by
  obtain ⟨middle, rfl, hmiddle⟩ := h
  obtain ⟨next, hnext, hlater⟩ := hrest middle (hmiddle.kept hkept)
  exact ⟨next, hnext, hmiddle.trans hlater⟩

theorem Settles.bind (h : s.Settles result) (hkept : s.listener.Kept)
    (hrest : ∀ middle : Session, middle.listener.Kept → middle.Settles (rest middle)) :
    s.Settles (result >>= rest) := by
  obtain ⟨said, middle, rfl, hmiddle⟩ := h
  obtain ⟨later, next, hnext, hlater⟩ := hrest middle (hmiddle.kept hkept)
  exact ⟨said ++ later, next, hnext, hmiddle.trans hlater⟩

theorem settles_self (s : Session) : s.Settles (.ok s) :=
  ⟨[], s, rfl, .refl s⟩

theorem accept_drives (h : s.listener.Kept) (request : Nat) :
    ∃ e, s.listener.accept request s.sessionId s.now = .ok e ∧ s.Drives (s.absorb e) [] [] := by
  obtain ⟨next, outcome, hoperate, -⟩ := h.operate (.accept request s.sessionId s.now)
  obtain ⟨e, he, -⟩ := bind_eq_ok.mp hoperate
  refine ⟨e, he, ?_⟩
  have hdrives := s.drives_absorb e (.accept request s.sessionId s.now)
    (bind_eq_ok.mpr ⟨e, he, rfl⟩)
  rwa [Listener.accept_events he] at hdrives

theorem reject_drives (s : Session) (request : Nat) (reason : DisconnectReason) :
    s.Drives (s.absorb (s.listener.reject request reason)) [] [] := by
  have hdrives := s.drives_absorb (s.listener.reject request reason) (.reject request reason) rfl
  rwa [Listener.reject_events] at hdrives

theorem send_drives (h : s.listener.Kept) (member : Nat) (channel : UInt8) (message : Bytes) :
    s.Drives (s.absorb (s.listener.send member channel message)) [] [] := by
  obtain ⟨next, outcome, hoperate, -⟩ := h.operate (.send member channel message)
  have hsent := hoperate
  simp only [Listener.operate] at hsent
  split at hsent
  · cases hsent
  · cases hsent
    have hdrives := s.drives_absorb (s.listener.send member channel message) _ hoperate
    rwa [Listener.send_events] at hdrives

theorem decide_leads (h : s.listener.Kept) (request : Nat) : s.Leads (s.decide request) [] [] := by
  unfold decide
  cases s.listener.requests[request]? with
  | none => exact ⟨s, rfl, .refl s⟩
  | some r =>
    dsimp only
    have hnoted : s.Drives (s.note (.requested r.address r.packet r.handled)) [] [] :=
      s.drives_silent rfl
    cases (s.note (.requested r.address r.packet r.handled)).policy with
    | accept =>
      obtain ⟨e, he, hdrives⟩ := accept_drives (hnoted.kept h) request
      refine ⟨_, bind_eq_ok.mpr ⟨e, he, rfl⟩, (hnoted.trans hdrives).trans ?_⟩
      exact drives_silent _ rfl
    | reject reason =>
      refine ⟨_, rfl, (hnoted.trans (reject_drives _ request reason)).trans ?_⟩
      exact drives_silent _ rfl
    | keep => exact ⟨_, rfl, hnoted⟩

theorem react_leads (h : s.listener.Kept) (event : Event) :
    s.Leads (s.react event) [] ([event].filter Event.ofMember) := by
  cases event with
  | requested request => exact decide_leads h request
  | connected member => exact ⟨_, rfl, s.drives_note _⟩
  | disconnected member reason => exact ⟨_, rfl, s.drives_note _⟩
  | received member message =>
    have hnoted := s.drives_note (.received member message)
    unfold react
    dsimp only
    split
    · have hsent := hnoted.trans
        (send_drives (hnoted.kept h) member message.channel message.payload)
      split
      · exact ⟨_, rfl, hsent⟩
      · exact ⟨_, rfl, hsent.trans (drives_silent _ rfl)⟩
    · exact ⟨_, rfl, hnoted⟩

theorem reactAll_leads (events : List Event) (h : s.listener.Kept) :
    s.Leads (events.foldlM react s) [] (events.filter Event.ofMember) := by
  induction events generalizing s with
  | nil => exact ⟨s, rfl, .refl s⟩
  | cons event events ih =>
    rw [List.foldlM_cons, ← List.singleton_append, List.filter_append]
    exact (react_leads h event).bind h fun _ => ih

theorem absorb_settles {e : Effect Unit} (operation : Operation) {issued : List UInt16}
    (h : s.listener.Kept) (hoperate : s.listener.operate operation =
      .ok (e.listener, { sent := e.sent, events := e.events, issued })) :
    s.Settles (e.events.foldlM react (s.absorb e)) := by
  have habsorbed := s.drives_absorb e operation hoperate
  obtain ⟨next, hnext, hdrives⟩ := reactAll_leads e.events (habsorbed.kept h)
  have hall := habsorbed.trans hdrives
  rw [List.append_nil, List.nil_append] at hall
  exact ⟨_, next, hnext, hall⟩

theorem work_settles (h : s.listener.Kept) (member : Nat) :
    ∃ e, s.listener.work member s.now = .ok e ∧
      s.Settles (e.events.foldlM react (s.absorb e)) := by
  obtain ⟨worked, outcome, hoperate, -⟩ := h.operate (.work member s.now)
  obtain ⟨e, he, -⟩ := bind_eq_ok.mp hoperate
  exact ⟨e, he, absorb_settles (.work member s.now) h
    (bind_eq_ok.mpr ⟨e, he, rfl⟩)⟩

theorem disconnect_settles (h : s.listener.Kept) (member : Nat) (reason : DisconnectReason) :
    ∃ e, s.listener.disconnect member reason true = .ok e ∧
      s.Settles (e.events.foldlM react (s.absorb e)) := by
  obtain ⟨ended, outcome, hoperate, -⟩ := h.operate (.disconnect member reason)
  obtain ⟨e, he, -⟩ := bind_eq_ok.mp hoperate
  exact ⟨e, he, absorb_settles (.disconnect member reason) h
    (bind_eq_ok.mpr ⟨e, he, rfl⟩)⟩

theorem workThrough_settles (member items : Nat) (h : s.listener.Kept) :
    s.Settles (s.workThrough member items) := by
  induction items generalizing s with
  | zero => exact s.settles_self
  | succ items ih =>
    obtain ⟨e, he, hworked⟩ := work_settles h member
    rw [workThrough, he]
    exact hworked.bind h fun _ => ih

theorem runTask_settles (h : s.listener.Kept) (task : Task) : s.Settles (s.runTask task) := by
  cases task with
  | decide request => exact ⟨[], react_leads h (.requested request)⟩
  | work member => exact workThrough_settles member _ h

theorem runTasks_settles (tasks : List Task) (h : s.listener.Kept) :
    s.Settles (tasks.foldlM runTask s) := by
  induction tasks generalizing s with
  | nil => exact s.settles_self
  | cons task tasks ih => exact (runTask_settles h task).bind h fun _ => ih

theorem drives_dispatch (s : Session) (address : String) (datagram : Bytes) :
    s.Drives { s with listener := (s.listener.dispatch address datagram).1 } [] [] := by
  refine ⟨[.datagram address datagram], [_],
    runAll_cons_eq_ok.mpr ⟨_, _, [], rfl, rfl, rfl⟩, ?_, (List.append_nil _).symm,
    (List.append_nil _).symm, rfl⟩
  rw [memberEvents_singleton]
  dsimp only
  split <;> rfl

theorem drives_dispatchAll (s : Session) (datagrams : List (String × Bytes)) (tasks : List Task) :
    s.Drives (s.dispatchAll datagrams tasks).1 [] [] := by
  induction datagrams generalizing s tasks with
  | nil => exact .refl s
  | cons first rest ih => exact (s.drives_dispatch first.1 first.2).trans (ih _ _)

/-- What an action leads to: it goes through operations on the listener, or gives the listener
up, or names a reason by a code that there is not. -/
inductive Follows (s : Session) : Action → Except Error (Session × Reply) → Prop
  | drives {action : Action} {next : Session} (reply : Reply) (said : List Event)
      (driven : s.Drives next said said) : Follows s action (.ok (next, reply))
  | abandoned : Follows s .abandon
      (.ok ({ s with listener := s.listener.abandon, attached := false }, .released))
  | refused {action : Action} (code : UInt8) :
      Follows s action (.error (.unknownCode .disconnectReason code))

theorem follows_absent (s : Session) (action : Action) : s.Follows action (.ok (s, .absent)) :=
  .drives .absent [] (.refl s)

theorem reasonOf_cases (code : UInt8) : (∃ reason, reasonOf code = .ok reason) ∨
    reasonOf code = .error (.unknownCode .disconnectReason code) := by
  unfold reasonOf
  split
  · exact .inl ⟨_, rfl⟩
  · exact .inr rfl

theorem drives_stop (s : Session) : s.Drives { s with listener := s.listener.stop } [] [] :=
  ⟨[.stop], [_], runAll_cons_eq_ok.mpr ⟨_, _, [], rfl, rfl, rfl⟩, rfl, (List.append_nil _).symm,
    (List.append_nil _).symm, rfl⟩

theorem drives_sendTo (h : s.listener.Kept) (address : String) (channel : UInt8)
    (message : Bytes) : s.Drives (s.absorb (s.listener.sendTo address channel message)) [] [] := by
  unfold Listener.sendTo
  cases s.listener.lookup address with
  | none => exact ⟨[], [], rfl, rfl, rfl, (List.append_nil _).symm, rfl⟩
  | some member => exact send_drives h member channel message

theorem burst_follows (h : s.listener.Kept) (datagrams : List (String × Bytes)) :
    s.Follows (.burst datagrams) (s.act (.burst datagrams)) := by
  have hsorted := s.drives_dispatchAll datagrams []
  obtain ⟨said, next, hnext, hdrives⟩ :=
    runTasks_settles (s.dispatchAll datagrams []).2 (hsorted.kept h)
  simp only [act, hnext, orFault_ok]
  exact .drives .done said (hsorted.trans hdrives)

theorem accept_follows (h : s.listener.Kept) (kept : Nat) :
    s.Follows (.accept kept) (s.act (.accept kept)) := by
  cases hrequest : s.kept[kept]? with
  | none =>
    simp only [act, hrequest]
    exact s.follows_absent _
  | some request =>
    obtain ⟨e, he, hdrives⟩ := accept_drives h request
    simp only [act, hrequest, he, orFault_ok]
    exact .drives _ [] hdrives

theorem reject_follows (s : Session) (kept : Nat) (code : UInt8) :
    s.Follows (.reject kept code) (s.act (.reject kept code)) := by
  cases hrequest : s.kept[kept]? with
  | none =>
    simp only [act, hrequest]
    exact s.follows_absent _
  | some request =>
    rcases reasonOf_cases code with ⟨reason, hreason⟩ | hreason
    · simp only [act, hrequest, hreason]
      exact .drives _ [] (s.reject_drives request reason)
    · simp only [act, hrequest, hreason]
      exact .refused code

theorem disconnect_follows (h : s.listener.Kept) (member : Nat) (code : UInt8) :
    s.Follows (.disconnect member code) (s.act (.disconnect member code)) := by
  simp only [act]
  split
  · split
    · exact s.follows_absent _
    · rcases reasonOf_cases code with ⟨reason, hreason⟩ | hreason
      · obtain ⟨e, he, said, next, hnext, hdrives⟩ := disconnect_settles h member reason
        simp only [hreason, bind, Except.bind, he, hnext, orFault_ok]
        exact .drives .done said hdrives
      · simp only [hreason]
        exact .refused code
  · exact s.follows_absent _

theorem act_follows (h : s.listener.Kept) (action : Action) :
    s.Follows action (s.act action) := by
  cases action with
  | burst datagrams => exact burst_follows h datagrams
  | accept kept => exact accept_follows h kept
  | reject kept code => exact s.reject_follows kept code
  | disconnect member code => exact disconnect_follows h member code
  | advance microseconds => exact .drives .done [] (.refl s)
  | abandon => exact .abandoned
  | send member channel message =>
    simp only [act]
    split
    · exact s.follows_absent _
    · exact .drives _ [] (send_drives h member channel message)
  | sendTo address channel message =>
    simp only [act]
    split
    · exact .drives _ [] (drives_sendTo h address channel message)
    · exact s.follows_absent _
  | lookup address =>
    simp only [act]
    split
    · exact .drives _ [] (.refl s)
    · exact s.follows_absent _
  | stop =>
    simp only [act]
    split
    · exact .drives .released [] s.drives_stop
    · exact s.follows_absent _

end

/-- What becomes of a session step by step, with all that was noted down and sent on the way. -/
inductive Reached (first : Session) : Session → List Note → List (String × Bytes) → Prop
  | now : Reached first first [] []
  | stepped {s next : Session} {notes : List Note} {sent : List (String × Bytes)} {action : Action}
      {reply : Reply} (before : Reached first s notes sent)
      (happened : s.step action = .ok (next, reply)) :
      Reached first next (notes ++ next.notes) (sent ++ next.sent)

section
variable {first s next : Session} {notes : List Note} {sent : List (String × Bytes)}
  {action : Action} {reply : Reply}

theorem step_follows (h : s.listener.Kept) (action : Action) :
    ({ s with notes := [], sent := [] } : Session).Follows action (s.step action) :=
  act_follows (s := { s with notes := [], sent := [] }) h action

theorem step_cases (h : s.listener.Kept) (hstep : s.step action = .ok (next, reply)) :
    (∃ operations log, s.listener.run operations = .ok (next.listener, log) ∧
        next.sent = log.flatMap Outcome.sent ∧ notedEvents next.notes = memberEvents log ∧
        next.attached = s.attached) ∨
      next.listener = s.listener.abandon ∧ next.attached = false := by
  have hfollows := step_follows h action
  rw [hstep] at hfollows
  cases hfollows with
  | drives reply said driven =>
    obtain ⟨operations, log, hrun, hsaid, hsent, hnoted, hattached⟩ := driven
    exact .inl ⟨operations, log, hrun, hsent, hnoted.trans hsaid.symm, hattached⟩
  | abandoned => exact .inr ⟨rfl, rfl⟩

/-- What becomes of the listener of a session is what may become of any listener. -/
theorem Reached.later (h : first.Reached s notes sent) (hkept : first.listener.Kept) :
    first.listener.Later s.listener := by
  induction h with
  | now => exact .now
  | stepped before happened ih =>
    rcases step_cases (ih.kept hkept) happened with ⟨operations, log, hrun, -⟩ | ⟨habandoned, -⟩
    · exact ih.run hrun
    · exact habandoned ▸ ih.abandoned

/-- As long as the application has the listener, a session is a run of it: the peers receive
what the run sends, and what is noted down of the connections is what the run tells. -/
theorem Reached.driven (h : first.Reached s notes sent) (hkept : first.listener.Kept)
    (hattached : s.attached = true) :
    ∃ operations log, first.listener.run operations = .ok (s.listener, log) ∧
      sent = log.flatMap Outcome.sent ∧ notedEvents notes = memberEvents log := by
  induction h with
  | now => exact ⟨[], [], rfl, rfl, rfl⟩
  | stepped before happened ih =>
    rcases step_cases ((before.later hkept).kept hkept) happened with
      ⟨operations, log, hrun, hsent, hnoted, hsame⟩ | ⟨-, hgone⟩
    · obtain ⟨earlier, told, hearlier, rfl, hbefore⟩ := ih (hsame ▸ hattached)
      refine ⟨earlier ++ operations, told ++ log, ?_, ?_, ?_⟩
      · exact runAll_append_eq_ok.mpr ⟨_, told, log, hearlier, hrun, rfl⟩
      · rw [hsent, List.flatMap_append]
      · rw [notedEvents_append, hbefore, hnoted, memberEvents_append]
    · cases hgone.symm.trans hattached

variable {sessionId : UInt16} {policy : Policy} {echo : Bool} {config : Config}

theorem kept_start (hstart : start sessionId policy echo config = .ok first) :
    first.listener.Kept := by
  obtain ⟨l, hbind, hfirst⟩ := bind_eq_ok.mp hstart
  cases hfirst
  exact Listener.kept_bind hbind

theorem Reached.step_refused (hstart : start sessionId policy echo config = .ok first)
    (h : first.Reached s notes sent) {error : Error} (hstep : s.step action = .error error) :
    ∃ code, error = .unknownCode .disconnectReason code := by
  have hkept := kept_start hstart
  have hfollows := step_follows ((h.later hkept).kept hkept) action
  rw [hstep] at hfollows
  cases hfollows with
  | refused code => exact ⟨code, rfl⟩

/-- An application notes down at most once that a connection is connected, and at most once
that it has ended. -/
theorem Reached.noted_once (hstart : start sessionId policy echo config = .ok first)
    (h : first.Reached s notes sent) (hattached : s.attached = true) (member : Nat) :
    (notedEvents notes).count (.connected member) ≤ 1 ∧
      (notedEvents notes).countP (Event.ends member) ≤ 1 := by
  obtain ⟨operations, log, hrun, -, hnoted⟩ := h.driven (kept_start hstart) hattached
  obtain ⟨l, hbind, hfirst⟩ := bind_eq_ok.mp hstart
  cases hfirst
  obtain ⟨last, log', hrun', hlived⟩ := Listener.lived_run hbind operations
  cases hrun.symm.trans hrun'
  have hfewer := List.filter_sublist (p := Event.ofMember) (l := log.flatMap Outcome.events)
  have hle := (hlived.told member).le_one
  rw [hnoted]
  exact ⟨Nat.le_trans (hfewer.count_le _) hle.1, Nat.le_trans hfewer.countP_le hle.2⟩

end

end Session

end DatagramTransport
