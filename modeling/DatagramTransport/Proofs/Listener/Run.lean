import DatagramTransport.Listener.Admission
import DatagramTransport.Listener.Dispatch
import DatagramTransport.Listener.Worker
import DatagramTransport.Proofs.Runs

/-!
# Runs of a listener

Datagrams come in, the application decides on requests, sends, ends
connections and stops the listener, and connections take what waits for
them, in any order. For each of these there is one lemma that says all it
can do to a listener.
-/

set_option autoImplicit false

namespace DatagramTransport

inductive Operation where
  | datagram (address : String) (bytes : Bytes)
  | accept (request : Nat) (session : UInt16) (now : UInt32)
  | reject (request : Nat) (reason : DisconnectReason)
  | work (member : Nat) (now : UInt32)
  | disconnect (member : Nat) (reason : DisconnectReason)
  | send (member : Nat) (channel : UInt8) (message : Bytes)
  | stop
  deriving DecidableEq, Repr

def Operation.request? : Operation → Option Nat
  | accept request .. | reject request _ => some request
  | _ => none

structure Outcome where
  sent : List (String × Bytes)
  events : List Event
  /-- The connection ids that were taken out of the pool. -/
  issued : List UInt16
  deriving DecidableEq, Repr

namespace Listener

/-- The id that accepting a request takes out of the pool, whatever becomes of it. -/
def drawFor (l : Listener) (request : Nat) : Option UInt16 :=
  match l.requests[request]? with
  | some r => if r.handled || !l.running then none else l.ids.allocate.2
  | none => none

def operate (l : Listener) : Operation → Except Fault (Listener × Outcome)
  | .datagram address bytes =>
    let (after, task) := l.dispatch address bytes
    let events := match task with
      | some (.decide request) => [.requested request]
      | _ => []
    .ok (after, { sent := [], events, issued := [] })
  | .accept request session now => do
    let e ← l.accept request session now
    return (e.listener,
      { sent := e.sent, events := e.events, issued := (l.drawFor request).toList })
  | .reject request reason =>
    let e := l.reject request reason
    .ok (e.listener, { sent := e.sent, events := e.events, issued := [] })
  | .work member now => do
    let e ← l.work member now
    return (e.listener, { sent := e.sent, events := e.events, issued := [] })
  | .disconnect member reason => do
    let e ← l.disconnect member reason true
    return (e.listener, { sent := e.sent, events := e.events, issued := [] })
  | .send member channel message =>
    let e := l.send member channel message
    match e.answer with
    | .error (.fault f) => .error f
    | _ => .ok (e.listener, { sent := e.sent, events := e.events, issued := [] })
  | .stop => .ok (l.stop, { sent := [], events := [], issued := [] })

def run (l : Listener) (operations : List Operation) :
    Except Fault (Listener × List Outcome) :=
  runAll operate l operations

theorem modify_of_getElem? {α : Type} {l : List α} {place : Nat} {a : α} (h : l[place]? = some a)
    (f : α → α) : l.modify place f = l.set place (f a) := by
  apply List.ext_getElem?
  intro other
  rw [List.getElem?_modify]
  by_cases heq : place = other
  · subst heq
    obtain ⟨hlt, -⟩ := List.getElem?_eq_some_iff.mp h
    rw [List.getElem?_set_self hlt, h]
    simp
  · rw [List.getElem?_set_ne heq]
    simp [heq]

def Queued (l : Listener) (address : String) (r : Listener × Option Task) : Prop :=
  ∃ member m item, l.table[address]? = some member ∧ l.members[member]? = some m ∧
    r = ({ l with members := l.members.set member { m with queue := m.queue ++ [item] } },
      some (.work member))

def HandedOut (l : Listener) (address : String) (datagram : Bytes)
    (r : Listener × Option Task) : Prop :=
  l.table[address]? = none ∧ ∃ packet rest, Connect.decode datagram = .ok (packet, rest) ∧
    r = l.handOut address packet

theorem enqueue_cases {l : Listener} {address : String} {member : Nat}
    (hentry : l.table[address]? = some member) (item : Inbound) :
    l.enqueue member item = (l, none) ∨ l.Queued address (l.enqueue member item) := by
  unfold enqueue
  cases hm : l.members[member]? with
  | none => exact .inl rfl
  | some m =>
    dsimp only
    split
    · exact .inr ⟨member, m, item, hentry, hm, rfl⟩
    · exact .inl rfl

theorem dispatchSystem_cases (l : Listener) (address : String) (datagram : Bytes) :
    l.dispatchSystem address datagram = (l, none) ∨
      l.HandedOut address datagram (l.dispatchSystem address datagram) ∨
      l.Queued address (l.dispatchSystem address datagram) := by
  unfold dispatchSystem lookup
  cases datagram[2]?.bind RequestType.ofCode? with
  | none => exact .inl rfl
  | some type =>
    cases hentry : l.table[address]? with
    | none =>
      cases type with
      | connectRequest =>
        cases hdecode : Connect.decode datagram with
        | error e => exact .inl rfl
        | ok r => exact .inr (.inl ⟨hentry, r.1, r.2, hdecode, rfl⟩)
      | disconnect => exact .inl rfl
      | ping => exact .inl rfl
    | some member =>
      cases type with
      | connectRequest => exact .inl rfl
      | disconnect =>
        cases Disconnect.decode datagram with
        | error e => exact .inl rfl
        | ok r => exact (enqueue_cases hentry _).imp_right .inr
      | ping =>
        cases Ping.decode datagram with
        | error e => exact .inl rfl
        | ok r => exact (enqueue_cases hentry _).imp_right .inr

/-- A datagram is dropped, handed out as a request, or waits for its connection. -/
theorem dispatch_cases (l : Listener) (address : String) (datagram : Bytes) :
    l.dispatch address datagram = (l, none) ∨
      l.HandedOut address datagram (l.dispatch address datagram) ∨
      l.Queued address (l.dispatch address datagram) := by
  unfold dispatch
  by_cases hrunning : l.running = true
  · rw [if_pos hrunning]
    cases peekConnection datagram with
    | error e => exact .inl rfl
    | ok id =>
      dsimp only
      split
      · exact l.dispatchSystem_cases address datagram
      · unfold dispatchData lookup
        cases hentry : l.table[address]? with
        | none => exact .inl rfl
        | some member =>
          dsimp only
          split
          · exact (enqueue_cases hentry _).imp_right .inr
          · exact .inl rfl
  · rw [if_neg hrunning]
    exact .inl rfl

section
variable {l : Listener} {request : Nat} {r : Request} (session : UInt16) (now : UInt32)

def Decided (l : Listener) (request : Nat) : Prop :=
  ∃ r, l.requests[request]? = some r ∧ r.handled = true

theorem Decided.accept (h : l.Decided request) :
    l.accept request session now = .ok (l.unchanged none) := by
  obtain ⟨r, hr, hhandled⟩ := h
  simp only [Listener.accept, hr, hhandled, if_true]

theorem accept_of_none (h : l.requests[request]? = none) :
    l.accept request session now = .ok (l.unchanged none) := by
  simp only [Listener.accept, h]

theorem Decided.reject (h : l.Decided request) (reason : DisconnectReason) :
    l.reject request reason = l.unchanged () := by
  obtain ⟨r, hr, hhandled⟩ := h
  simp only [Listener.reject, hr, hhandled, if_true]

theorem decided_markHandled (h : l.requests[request]? = some r) :
    (l.markHandled request).Decided request := by
  refine ⟨{ r with handled := true }, ?_, rfl⟩
  obtain ⟨hlt, -⟩ := List.getElem?_eq_some_iff.mp h
  rw [markHandled, modify_of_getElem? h]
  exact List.getElem?_set_self hlt

theorem Decided.markHandled (h : l.Decided request) (other : Nat) :
    (l.markHandled other).Decided request := by
  by_cases heq : other = request
  · subst heq
    obtain ⟨r, hr, -⟩ := h
    exact decided_markHandled hr
  · obtain ⟨r, hr, hhandled⟩ := h
    exact ⟨r, (List.getElem?_modify_ne _ _ heq).trans hr, hhandled⟩

def newcomer (l : Listener) (r : Request) (id session : UInt16) : Connection :=
  .start {
    config := l.config
    id
    address := r.address
    remoteId := r.packet.header.senderId
    session
    peerSession := r.packet.header.session }

def enrolled (l : Listener) (r : Request) (ids : IdPool) (id session : UInt16) (now : UInt32) :
    Effect (Option Nat) :=
  let greeted := (l.newcomer r id session).initialPing now
  { listener :=
      { l with
        ids
        table := l.table.insert r.address l.members.length
        members := l.members ++ [{ connection := greeted.connection, queue := [] }] }
    sent := l.post r.address greeted.emitted
    events := []
    answer := some l.members.length }

/-- An id is drawn, and given back if the address has got a connection in the meantime. -/
theorem accept_cases (hr : l.requests[request]? = some r) (hopen : r.handled = false) :
    (l.running = false ∧ l.drawFor request = none ∧
        l.accept request session now = .ok ((l.markHandled request).unchanged none)) ∨
      (l.running = true ∧ ∃ ids id, l.ids.allocate = (ids, id) ∧ l.drawFor request = id ∧
        ((id = none ∧ l.accept request session now =
            .ok ((l.markHandled request).turnAway r .noResources none)) ∨
          (∃ issued, id = some issued ∧ r.address ∈ l.table ∧
            l.accept request session now = ids.release issued >>= fun ids =>
              .ok (({ l.markHandled request with ids } : Listener).unchanged none)) ∨
          ∃ issued, id = some issued ∧ r.address ∉ l.table ∧
            l.accept request session now =
              .ok ((l.markHandled request).enrolled r ids issued session now))) := by
  cases hrunning : l.running with
  | false =>
    refine .inl ⟨rfl, ?_, ?_⟩
    · simp [drawFor, hr, hrunning]
    · have hstays : (l.markHandled request).running = false := hrunning
      simp [Listener.accept, hr, hopen, hstays]
  | true =>
    have hstays : (l.markHandled request).running = true := hrunning
    have haccept : l.accept request session now =
        (l.markHandled request).enroll r session now := by
      simp [Listener.accept, hr, hopen, hstays]
    refine .inr ⟨rfl, l.ids.allocate.1, l.ids.allocate.2, rfl, ?_, ?_⟩
    · simp [drawFor, hr, hopen, hrunning]
    rw [haccept, enroll]
    have hids : (l.markHandled request).ids = l.ids := rfl
    have htable : (l.markHandled request).table = l.table := rfl
    rw [hids, htable]
    cases hdraw : l.ids.allocate with
    | mk ids id =>
      cases id with
      | none => exact .inl ⟨rfl, rfl⟩
      | some issued =>
        right
        by_cases htaken : r.address ∈ l.table
        · refine .inl ⟨issued, rfl, htaken, ?_⟩
          simp only [Registry.putIfAbsent, if_pos htaken]
          rfl
        · refine .inr ⟨issued, rfl, htaken, ?_⟩
          simp only [Registry.putIfAbsent, if_neg htaken]
          rfl

end

def ended (l : Listener) (member : Nat) (m : Member) (ids : IdPool) (reason : DisconnectReason)
    (notify : Bool) : Effect Unit where
  listener :=
    { l with
      members := l.members.set member { m with connection := m.connection.markDisconnected.1 }
      ids
      table := if l.table[m.connection.endpoint.address]? = some member then
        l.table.erase m.connection.endpoint.address else l.table }
  sent := if notify then
    l.post m.connection.endpoint.address [m.connection.disconnectPacket reason] else []
  events := [.disconnected member reason]
  answer := ()

theorem disconnect_cases {l : Listener} {member : Nat} {m : Member}
    (hm : l.members[member]? = some m) (reason : DisconnectReason) (notify : Bool) :
    (m.connection.phase = .disconnected ∧
        l.disconnect member reason notify = .ok (l.unchanged ())) ∨
      (m.connection.phase ≠ .disconnected ∧ l.disconnect member reason notify =
        l.ids.release m.connection.endpoint.id >>= fun ids =>
          .ok (l.ended member m ids reason notify)) := by
  by_cases hended : m.connection.phase = .disconnected
  · left
    refine ⟨hended, ?_⟩
    simp only [Listener.disconnect, hm, Connection.markDisconnected, if_pos hended]
  · right
    refine ⟨hended, ?_⟩
    simp only [Listener.disconnect, hm, Connection.markDisconnected, if_neg hended, setConnection,
      modify_of_getElem? hm, ended]
    rfl

theorem disconnect_of_none {l : Listener} {member : Nat} (hm : l.members[member]? = none)
    (reason : DisconnectReason) (notify : Bool) :
    l.disconnect member reason notify = .ok (l.unchanged ()) := by
  simp only [Listener.disconnect, hm]

theorem disconnect_requests {l : Listener} {member : Nat} {reason : DisconnectReason}
    {notify : Bool} {e : Effect Unit} (h : l.disconnect member reason notify = .ok e) :
    e.listener.requests = l.requests := by
  cases hm : l.members[member]? with
  | none =>
    rw [disconnect_of_none hm] at h
    cases h
    rfl
  | some m =>
    rcases disconnect_cases hm reason notify with ⟨-, heq⟩ | ⟨-, heq⟩
    · cases heq.symm.trans h
      rfl
    · obtain ⟨ids, -, h⟩ := bind_eq_ok.mp (heq.symm.trans h)
      cases h
      rfl

theorem settle_of_member {α : Type} {l : Listener} {member : Nat} {m : Member}
    (hm : l.members[member]? = some m) (step : Step α) :
    l.settle member step =
      { listener := { l with
          members := l.members.set member { m with connection := step.connection } }
        sent := l.post step.connection.endpoint.address step.emitted
        events := []
        answer := step.answer } := by
  rw [settle, setConnection, modify_of_getElem? hm]

theorem work_cases (l : Listener) (member : Nat) (now : UInt32) :
    l.work member now = .ok (l.unchanged ()) ∨
      ∃ m item queue, l.members[member]? = some m ∧ m.queue = item :: queue ∧
        l.work member now =
          ({ l with members := l.members.set member { m with queue } } : Listener).handle member
            { m with queue } now item := by
  unfold work
  cases hm : l.members[member]? with
  | none => exact .inl rfl
  | some m =>
    dsimp only
    cases hqueue : m.queue with
    | nil => exact .inl rfl
    | cons item queue => exact .inr ⟨m, item, queue, rfl, hqueue, rfl⟩

theorem work_requests {l : Listener} {member : Nat} {now : UInt32} {e : Effect Unit}
    (h : l.work member now = .ok e) : e.listener.requests = l.requests := by
  rcases l.work_cases member now with hnone | ⟨m, item, queue, -, -, heq⟩
  · rw [hnone] at h
    cases h
    rfl
  rw [heq] at h
  cases item with
  | data datagram =>
    obtain ⟨step, -, h⟩ := bind_eq_ok.mp h
    cases h
    rfl
  | ping ping =>
    cases h
    rfl
  | disconnect reason =>
    have hsame := disconnect_requests h
    exact hsame

theorem accept_requests {l : Listener} {request : Nat} {session : UInt16} {now : UInt32}
    {e : Effect (Option Nat)} {r : Request} (hr : l.requests[request]? = some r)
    (hopen : r.handled = false) (h : l.accept request session now = .ok e) :
    e.listener.requests = (l.markHandled request).requests := by
  rcases accept_cases session now hr hopen with
    ⟨-, -, heq⟩ | ⟨-, ids, id, -, -, ⟨-, heq⟩ | ⟨issued, -, -, heq⟩ | ⟨issued, -, -, heq⟩⟩
  · cases heq.symm.trans h
    rfl
  · cases heq.symm.trans h
    rfl
  · obtain ⟨released, -, h⟩ := bind_eq_ok.mp (heq.symm.trans h)
    cases h
    rfl
  · cases heq.symm.trans h
    rfl

theorem operate_requests {l next : Listener} {operation : Operation} {outcome : Outcome}
    (h : l.operate operation = .ok (next, outcome)) :
    next.requests = l.requests ∨
      (∃ r : Request, r.handled = false ∧ next.requests = l.requests ++ [r]) ∨
      ∃ request, operation.request? = some request ∧
        next.requests = (l.markHandled request).requests := by
  cases operation with
  | datagram address bytes =>
    have hnext : (l.dispatch address bytes).1 = next := congrArg Prod.fst (Except.ok.inj h)
    rw [← hnext]
    rcases l.dispatch_cases address bytes with
      hsame | ⟨-, packet, rest, -, hrequest⟩ | ⟨member, m, item, -, -, hqueue⟩
    · exact .inl (by rw [hsame])
    · refine .inr (.inl ⟨{ address, packet, handled := false }, rfl, ?_⟩)
      rw [hrequest]
      rfl
    · exact .inl (by rw [hqueue])
  | accept request session now =>
    obtain ⟨e, he, h⟩ := bind_eq_ok.mp h
    cases h
    cases hr : l.requests[request]? with
    | none =>
      rw [accept_of_none session now hr] at he
      cases he
      exact .inl rfl
    | some r =>
      cases hopen : r.handled with
      | true =>
        rw [Decided.accept session now ⟨r, hr, hopen⟩] at he
        cases he
        exact .inl rfl
      | false => exact .inr (.inr ⟨request, rfl, accept_requests hr hopen he⟩)
  | reject request reason =>
    cases h
    unfold Listener.reject
    cases l.requests[request]? with
    | none => exact .inl rfl
    | some r =>
      dsimp only
      split
      · exact .inl rfl
      · exact .inr (.inr ⟨request, rfl, rfl⟩)
  | work member now =>
    obtain ⟨e, he, h⟩ := bind_eq_ok.mp h
    cases h
    exact .inl (work_requests he)
  | disconnect member reason =>
    obtain ⟨e, he, h⟩ := bind_eq_ok.mp h
    cases h
    exact .inl (disconnect_requests he)
  | send member channel message =>
    simp only [operate] at h
    split at h
    · cases h
    · cases h
      left
      unfold send
      split <;> rfl
  | stop =>
    cases h
    exact .inl rfl

theorem Decided.of_requests {l next : Listener} {request : Nat}
    (h : next.requests = l.requests) (hdecided : l.Decided request) : next.Decided request := by
  rwa [Decided, h]

/-- A decision is final. -/
theorem Decided.operate {l next : Listener} {request : Nat} (hdecided : l.Decided request)
    {operation : Operation} {outcome : Outcome}
    (h : l.operate operation = .ok (next, outcome)) : next.Decided request := by
  rcases operate_requests h with hsame | ⟨r, -, hadded⟩ | ⟨other, -, hmarked⟩
  · exact hdecided.of_requests hsame
  · obtain ⟨q, hq, hhandled⟩ := hdecided
    obtain ⟨hlt, -⟩ := List.getElem?_eq_some_iff.mp hq
    refine ⟨q, ?_, hhandled⟩
    rw [hadded]
    exact (List.getElem?_append_left hlt).trans hq
  · exact (hdecided.markHandled other).of_requests hmarked

theorem Decided.run {l last : Listener} {request : Nat} (hdecided : l.Decided request)
    {operations : List Operation} {log : List Outcome} (h : l.run operations = .ok (last, log)) :
    last.Decided request := by
  induction operations generalizing l log with
  | nil =>
    cases h
    exact hdecided
  | cons operation operations ih =>
    obtain ⟨next, outcome, later, hnext, hlater, -⟩ := runAll_cons_eq_ok.mp h
    exact ih (hdecided.operate hnext) hlater

theorem decided_of_operate {l next : Listener} {request : Nat} {operation : Operation}
    {outcome : Outcome} (hrequest : operation.request? = some request)
    (hlt : request < l.requests.length) (h : l.operate operation = .ok (next, outcome)) :
    next.Decided request := by
  have hr := List.getElem?_eq_getElem hlt
  by_cases hopen : l.requests[request].handled = true
  · have hdecided : l.Decided request := ⟨_, hr, hopen⟩
    exact hdecided.operate h
  have hfirst := Bool.not_eq_true _ ▸ hopen
  cases operation with
  | accept other session now =>
    cases hrequest
    obtain ⟨e, he, h⟩ := bind_eq_ok.mp h
    cases h
    exact (decided_markHandled hr).of_requests (accept_requests hr hfirst he)
  | reject other reason =>
    cases hrequest
    cases h
    have heq : l.reject request reason =
        (l.markHandled request).turnAway l.requests[request] reason () := by
      simp only [Listener.reject, hr, hfirst]
      rfl
    rw [heq]
    exact decided_markHandled hr
  | _ => cases hrequest

end Listener

end DatagramTransport
