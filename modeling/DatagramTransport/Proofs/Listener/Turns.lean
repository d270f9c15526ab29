import DatagramTransport.Proofs.Connection.Ended
import DatagramTransport.Proofs.Listener.Ids

/-!
# What an operation does to the connections of a listener

An operation is about one connection at most, which takes a turn, or it adds
a connection, or it stops the listener and ends them all. As connections that
are alive are in the table, the stop finds them there. A listener that was
stopped has no connection that is alive, and goes on without any.
-/

set_option autoImplicit false

namespace DatagramTransport

def Event.member? : Event → Option Nat
  | requested _ => none
  | connected member | received member _ | disconnected member _ => some member

def Event.ends (member : Nat) : Event → Bool
  | disconnected other _ => other == member
  | _ => false

def Member.ended (m : Member) : Member :=
  { m with connection := m.connection.markDisconnected.1 }

/-- What an operation can do to the one connection that it is about, and what the application
is told of it. -/
inductive Turn (member : Nat) (m : Member) : Operation → Member → List Event → Prop
  | came (address : String) (bytes : Bytes) (item : Inbound) :
    Turn member m (.datagram address bytes) { m with queue := m.queue ++ [item] } []
  | sent (channel : UInt8) (message : Bytes)
      (faultless : Faultless (m.connection.send channel message).answer) :
    Turn member m (.send member channel message)
      { m with connection := (m.connection.send channel message).connection } []
  | data (now : UInt32) {datagram : Bytes} {queue : List Inbound} {step : Step (List Message)}
      (next : m.queue = .data datagram :: queue)
      (received : m.connection.receive datagram = .ok step) :
    Turn member m (.work member now) { connection := step.connection, queue }
      (step.answer.map (.received member))
  | pinged (now : UInt32) {ping : Ping} {queue : List Inbound}
      (next : m.queue = .ping ping :: queue) :
    Turn member m (.work member now)
      { connection := (m.connection.receivePing now ping).connection, queue }
      (if (m.connection.receivePing now ping).answer then [.connected member] else [])
  | left (now : UInt32) {reason : DisconnectReason} {queue : List Inbound}
      (next : m.queue = .disconnect reason :: queue) :
    Turn member m (.work member now) { m with queue }.ended
      (if m.connection.phase = .disconnected then [] else [.disconnected member reason])
  | closed (reason : DisconnectReason) :
    Turn member m (.disconnect member reason) m.ended
      (if m.connection.phase = .disconnected then [] else [.disconnected member reason])

def Operation.Spares (member : Nat) (m : Member) : Operation → Prop
  | work other _ => other = member → m.queue = []
  | disconnect other _ => other ≠ member
  | stop => False
  | datagram .. | accept .. | reject .. | send .. => True

/-- All that an operation can do to the connections of a listener. -/
inductive Move (members : List Member) : Operation → List Member → List Event → Prop
  | still (operation : Operation) (events : List Event) (quiet : ∀ e ∈ events, e.member? = none)
      (spared : ∀ member m, members[member]? = some m → operation.Spares member m) :
    Move members operation members events
  | one {operation : Operation} {member : Nat} {m after : Member} {events : List Event}
      (found : members[member]? = some m) (turn : Turn member m operation after events) :
    Move members operation (members.set member after) events
  | joined (request : Nat) (session : UInt16) (now : UInt32) (m : Member)
      (waits : m.connection.phase = .handshake) (empty : m.queue = []) :
    Move members (.accept request session now) (members ++ [m]) []
  | all : Move members .stop (members.map Member.ended) []

namespace Listener

section
variable {l : Listener}

theorem dispatch_move (l : Listener) (address : String) (bytes : Bytes) {next : Listener}
    {outcome : Outcome} (h : l.operate (.datagram address bytes) = .ok (next, outcome)) :
    Move l.members (.datagram address bytes) next.members outcome.events := by
  simp only [operate] at h
  cases h
  rcases l.dispatch_cases address bytes with
    hsame | ⟨-, packet, rest, -, hrequest⟩ | ⟨member, m, item, -, hm, hqueue⟩
  · rw [hsame]
    exact .still _ _ (by simp) fun _ _ _ => trivial
  · rw [hrequest]
    exact .still _ _ (by simp [handOut, Event.member?]) fun _ _ _ => trivial
  · rw [hqueue]
    exact .one hm (.came address bytes item)

theorem accept_move {request : Nat} {session : UInt16} {now : UInt32} {e : Effect (Option Nat)}
    (h : l.accept request session now = .ok e) :
    Move l.members (.accept request session now) e.listener.members e.events := by
  have hunmoved : Move l.members (.accept request session now) l.members [] :=
    .still _ _ (by simp) fun _ _ _ => trivial
  cases hr : l.requests[request]? with
  | none =>
    rw [accept_of_none session now hr] at h
    cases h
    exact hunmoved
  | some r =>
    cases hopen : r.handled with
    | true =>
      rw [Decided.accept session now ⟨r, hr, hopen⟩] at h
      cases h
      exact hunmoved
    | false =>
      rcases accept_cases session now hr hopen with
        ⟨-, -, heq⟩ | ⟨-, ids, id, -, -, ⟨-, heq⟩ | ⟨issued, -, -, heq⟩ | ⟨issued, -, -, heq⟩⟩
      · cases heq.symm.trans h
        exact hunmoved
      · cases heq.symm.trans h
        exact hunmoved
      · obtain ⟨released, -, h⟩ := bind_eq_ok.mp (heq.symm.trans h)
        cases h
        exact hunmoved
      · cases heq.symm.trans h
        exact .joined request session now _ rfl rfl

theorem reject_members (request : Nat) (reason : DisconnectReason) :
    (l.reject request reason).listener.members = l.members ∧
      (l.reject request reason).events = [] := by
  unfold reject
  cases l.requests[request]? with
  | none => exact ⟨rfl, rfl⟩
  | some r =>
    dsimp only
    split <;> exact ⟨rfl, rfl⟩

theorem disconnect_members {member : Nat} {m : Member} (hm : l.members[member]? = some m)
    {reason : DisconnectReason} {notify : Bool} {e : Effect Unit}
    (h : l.disconnect member reason notify = .ok e) :
    e.listener.members = l.members.set member m.ended ∧ e.events =
      if m.connection.phase = .disconnected then [] else [.disconnected member reason] := by
  rcases disconnect_cases hm reason notify with ⟨hended, heq⟩ | ⟨halive, heq⟩
  · cases heq.symm.trans h
    rw [if_pos hended, Member.ended, Connection.markDisconnected_ended hended]
    obtain ⟨hlt, rfl⟩ := List.getElem?_eq_some_iff.mp hm
    exact ⟨(List.set_getElem_self hlt).symm, rfl⟩
  · obtain ⟨ids, -, h⟩ := bind_eq_ok.mp (heq.symm.trans h)
    cases h
    rw [if_neg halive]
    exact ⟨rfl, rfl⟩

theorem work_move {member : Nat} {now : UInt32} {e : Effect Unit}
    (h : l.work member now = .ok e) :
    Move l.members (.work member now) e.listener.members e.events := by
  unfold work at h
  cases hm : l.members[member]? with
  | none =>
    simp only [hm] at h
    cases h
    refine .still _ _ (by simp [unchanged]) ?_
    rintro other m hother rfl
    cases hm.symm.trans hother
  | some m =>
    obtain ⟨hlt, -⟩ := List.getElem?_eq_some_iff.mp hm
    simp only [hm] at h
    cases hqueue : m.queue with
    | nil =>
      simp only [hqueue] at h
      cases h
      refine .still _ _ (by simp [unchanged]) ?_
      rintro other m' hother rfl
      cases hm.symm.trans hother
      exact hqueue
    | cons item queue =>
      simp only [hqueue] at h
      have hpopped : (l.members.set member { m with queue })[member]? = some { m with queue } :=
        List.getElem?_set_self hlt
      cases item with
      | data datagram =>
        obtain ⟨step, hstep, h⟩ := bind_eq_ok.mp h
        cases h
        rw [settle_of_member hpopped]
        simp only [List.set_set]
        exact .one hm (.data now hqueue hstep)
      | ping ping =>
        cases h
        rw [settle_of_member hpopped]
        simp only [List.set_set]
        exact .one hm (.pinged now hqueue)
      | disconnect reason =>
        obtain ⟨hmembers, hevents⟩ := disconnect_members hpopped h
        rw [hmembers, hevents]
        simp only [List.set_set]
        exact .one hm (.left now hqueue)

theorem getElem?_foldl_modify {α : Type} {f : α → α} (htwice : ∀ a, f (f a) = f a)
    (places : List Nat) (l : List α) (i : Nat) :
    (places.foldl (fun l place => l.modify place f) l)[i]? =
      if i ∈ places then l[i]?.map f else l[i]? := by
  induction places generalizing l with
  | nil => rfl
  | cons place places ih =>
    rw [List.foldl_cons, ih, List.getElem?_modify]
    by_cases hfirst : place = i
    · subst hfirst
      cases l[place]? <;> simp [htwice]
    · cases l[i]? <;> simp [hfirst, Ne.symm hfirst]

def Listed (l : Listener) : Prop :=
  ∀ (member : Nat) (m : Member), l.members[member]? = some m →
    m.connection.phase ≠ .disconnected → l.table[m.connection.endpoint.address]? = some member

theorem stop_members (hlisted : l.Listed) :
    l.stop.members = l.members.map Member.ended := by
  have htwice (m : Member) : m.ended.ended = m.ended := by
    simp only [Member.ended, Connection.markDisconnected_twice]
  have hfold : l.stop.members = (l.table.toList.map Prod.snd).foldl
      (fun ms place => ms.modify place Member.ended) l.members := by
    rw [List.foldl_map]
    rfl
  rw [hfold]
  apply List.ext_getElem?
  intro member
  rw [getElem?_foldl_modify htwice, List.getElem?_map]
  split
  · rfl
  · rename_i hmissing
    cases hm : l.members[member]? with
    | none => rfl
    | some m =>
      have hended : m.connection.phase = .disconnected := by
        refine Decidable.of_not_not fun halive => hmissing (List.mem_map.mpr ?_)
        have hentry := hlisted member m hm halive
        exact ⟨_, Std.ExtTreeMap.mem_toList_iff_getElem?_eq_some.mpr hentry, rfl⟩
      simp only [Option.map_some, Member.ended, Connection.markDisconnected_ended hended]

theorem operate_move (hlisted : l.Listed) {operation : Operation} {next : Listener}
    {outcome : Outcome} (h : l.operate operation = .ok (next, outcome)) :
    Move l.members operation next.members outcome.events := by
  cases operation with
  | datagram address bytes => exact dispatch_move l address bytes h
  | accept request session now =>
    obtain ⟨e, he, h⟩ := bind_eq_ok.mp h
    cases h
    exact accept_move he
  | reject request reason =>
    cases h
    obtain ⟨hmembers, hevents⟩ := reject_members (l := l) request reason
    rw [hmembers, hevents]
    exact .still _ _ (by simp) fun _ _ _ => trivial
  | work member now =>
    obtain ⟨e, he, h⟩ := bind_eq_ok.mp h
    cases h
    exact work_move he
  | disconnect member reason =>
    obtain ⟨e, he, h⟩ := bind_eq_ok.mp h
    cases h
    cases hm : l.members[member]? with
    | none =>
      cases (disconnect_of_none hm reason true).symm.trans he
      refine .still _ _ (by simp [unchanged]) ?_
      rintro other m hother rfl
      cases hm.symm.trans hother
    | some m =>
      obtain ⟨hmembers, hevents⟩ := disconnect_members hm he
      rw [hmembers, hevents]
      exact .one hm (.closed reason)
  | send member channel message =>
    simp only [operate] at h
    split at h
    · cases h
    · rename_i hanswer
      cases h
      cases hm : l.members[member]? with
      | none =>
        simp only [send, hm]
        exact .still _ _ (by simp [unchanged]) fun _ _ _ => trivial
      | some m =>
        simp only [send, hm, settle_of_member hm] at hanswer ⊢
        exact .one hm (.sent channel message hanswer)
  | stop =>
    cases h
    rw [stop_members hlisted]
    exact .all

end

theorem settle_same {α : Type} {l : Listener} {member : Nat} {m : Member}
    (hm : l.members[member]? = some m) (answer : α) :
    l.settle member { connection := m.connection, emitted := [], answer } = l.unchanged answer := by
  obtain ⟨hlt, heq⟩ := List.getElem?_eq_some_iff.mp hm
  have hsame : l.members.set member m = l.members := by
    rw [← heq, List.set_getElem_self]
  rw [settle_of_member hm]
  simp only [hsame]
  simp [unchanged, post]

section
variable {l : Listener} {member : Nat} {m : Member} (hm : l.members[member]? = some m)
  (hended : m.connection.phase = .disconnected)
include hm hended

theorem disconnect_ended (reason : DisconnectReason) (notify : Bool) :
    l.disconnect member reason notify = .ok (l.unchanged ()) := by
  rcases disconnect_cases hm reason notify with ⟨-, hsame⟩ | ⟨halive, -⟩
  · exact hsame
  · exact absurd hended halive

theorem send_ended (channel : UInt8) (message : Bytes) :
    ∃ e, (∀ f, e ≠ .fault f) ∧ l.send member channel message = l.unchanged (.error e) := by
  obtain ⟨e, hfaultless, hsend⟩ := Connection.send_ended hended channel message
  refine ⟨e, hfaultless, ?_⟩
  simp only [send, hm, hsend, settle_same hm]

theorem handle_ended (now : UInt32) (item : Inbound) :
    l.handle member m now item = .ok (l.unchanged ()) := by
  cases item with
  | data datagram =>
    refine bind_eq_ok.mpr ⟨_, Connection.receive_ended hended datagram, ?_⟩
    rw [settle_same hm]
    rfl
  | ping ping =>
    simp only [handle, Connection.receivePing_ended hended, settle_same hm]
    rfl
  | disconnect reason => exact disconnect_ended hm hended reason false

theorem work_ended (now : UInt32) : l.work member now =
    .ok (({ l with members := l.members.set member { m with queue := m.queue.tail } } :
      Listener).unchanged ()) := by
  obtain ⟨hlt, heq⟩ := List.getElem?_eq_some_iff.mp hm
  simp only [work, hm]
  cases hqueue : m.queue with
  | nil =>
    have hsame : ({ m with queue := ([] : List Inbound).tail } : Member) = l.members[member] := by
      rw [heq, List.tail_nil, ← hqueue]
    simp only [hsame, List.set_getElem_self]
  | cons item queue =>
    exact handle_ended (m := { m with queue }) (List.getElem?_set_self hlt) hended now item

end

/-- A listener that was stopped. -/
structure Halted (l : Listener) : Prop where
  stopped : l.running = false
  ended : ∀ m ∈ l.members, m.connection.phase = .disconnected

section
variable {l : Listener}

theorem halted_stop (hlisted : l.Listed) : l.stop.Halted := by
  refine ⟨rfl, ?_⟩
  rw [stop_members hlisted]
  intro m hm
  obtain ⟨m, -, rfl⟩ := List.mem_map.mp hm
  exact m.connection.phase_markDisconnected

theorem Halted.listed (h : l.Halted) : l.Listed :=
  fun _ m hm halive => absurd (h.ended m (List.mem_of_getElem? hm)) halive

theorem Halted.accept (h : l.Halted) (request : Nat) (session : UInt16) (now : UInt32) :
    ∃ e, l.accept request session now = .ok e ∧ e.listener.Halted := by
  cases hr : l.requests[request]? with
  | none => exact ⟨_, accept_of_none session now hr, h⟩
  | some r =>
    cases hopen : r.handled with
    | true => exact ⟨_, Decided.accept session now ⟨r, hr, hopen⟩, h⟩
    | false =>
      rcases accept_cases session now hr hopen with ⟨-, -, heq⟩ | ⟨hrunning, -⟩
      · exact ⟨_, heq, h.stopped, h.ended⟩
      · cases h.stopped.symm.trans hrunning

theorem Halted.reject (h : l.Halted) (request : Nat) (reason : DisconnectReason) :
    (l.reject request reason).listener.Halted := by
  unfold Listener.reject
  cases l.requests[request]? with
  | none => exact h
  | some r =>
    dsimp only
    split <;> exact ⟨h.stopped, h.ended⟩

theorem Halted.work (h : l.Halted) (member : Nat) (now : UInt32) :
    ∃ e, l.work member now = .ok e ∧ e.listener.Halted := by
  cases hm : l.members[member]? with
  | none =>
    refine ⟨l.unchanged (), ?_, h⟩
    simp only [Listener.work, hm]
  | some m =>
    have hended := h.ended m (List.mem_of_getElem? hm)
    exact ⟨_, work_ended hm hended now, h.stopped, forall_mem_set h.ended member hended⟩

theorem Halted.disconnect (h : l.Halted) (member : Nat) (reason : DisconnectReason)
    (notify : Bool) : l.disconnect member reason notify = .ok (l.unchanged ()) := by
  cases hm : l.members[member]? with
  | none => exact disconnect_of_none hm reason notify
  | some m => exact disconnect_ended hm (h.ended m (List.mem_of_getElem? hm)) reason notify

theorem Halted.operate (h : l.Halted) (operation : Operation) :
    ∃ next outcome, l.operate operation = .ok (next, outcome) ∧ next.Halted := by
  cases operation with
  | datagram address bytes =>
    have hdropped : l.dispatch address bytes = (l, none) := by
      simp [dispatch, h.stopped]
    simp only [Listener.operate, hdropped]
    exact ⟨_, _, rfl, h⟩
  | accept request session now =>
    obtain ⟨e, he, hafter⟩ := h.accept request session now
    exact ⟨_, _, bind_eq_ok.mpr ⟨e, he, rfl⟩, hafter⟩
  | reject request reason => exact ⟨_, _, rfl, h.reject request reason⟩
  | work member now =>
    obtain ⟨e, he, hafter⟩ := h.work member now
    exact ⟨_, _, bind_eq_ok.mpr ⟨e, he, rfl⟩, hafter⟩
  | disconnect member reason =>
    exact ⟨_, _, bind_eq_ok.mpr ⟨_, h.disconnect member reason true, rfl⟩, h⟩
  | send member channel message =>
    simp only [Listener.operate]
    cases hm : l.members[member]? with
    | none =>
      simp only [send, hm]
      exact ⟨_, _, rfl, h⟩
    | some m =>
      obtain ⟨e, hfaultless, hsend⟩ :=
        send_ended hm (h.ended m (List.mem_of_getElem? hm)) channel message
      rw [hsend]
      cases e with
      | fault f => exact absurd rfl (hfaultless f)
      | _ => exact ⟨_, _, rfl, h⟩
  | stop => exact ⟨_, _, rfl, halted_stop h.listed⟩

/-- What is true of a listener at any time: its books are in order until it is stopped. -/
def Sound (l : Listener) : Prop :=
  (∃ issued, l.Accounted issued) ∨ l.Halted

theorem Sound.operate (h : l.Sound) (operation : Operation) :
    ∃ next outcome, l.operate operation = .ok (next, outcome) ∧ next.Sound := by
  obtain ⟨issued, h⟩ | h := h
  · by_cases hstop : operation = .stop
    · rw [hstop]
      exact ⟨_, _, rfl, .inr (halted_stop h.alive)⟩
    · obtain ⟨next, outcome, hoperate, hnext⟩ := h.operate hstop
      exact ⟨next, outcome, hoperate, .inl ⟨_, hnext⟩⟩
  · obtain ⟨next, outcome, hoperate, hnext⟩ := h.operate operation
    exact ⟨next, outcome, hoperate, .inr hnext⟩

theorem Sound.listed (h : l.Sound) : l.Listed := by
  obtain ⟨issued, h⟩ | h := h
  · exact h.alive
  · exact h.listed

theorem Sound.short (h : l.Sound) {m : Member} (hm : m ∈ l.members)
    (halive : m.connection.phase ≠ .disconnected) : m.connection.Short := by
  obtain ⟨issued, h⟩ | h := h
  · obtain ⟨ids, hsturdy⟩ := h.sturdy m hm
    exact hsturdy.toShort
  · exact absurd (h.ended m hm) halive

end

end Listener

end DatagramTransport
