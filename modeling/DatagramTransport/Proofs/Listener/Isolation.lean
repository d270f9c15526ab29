import DatagramTransport.Proofs.Listener.Later
import DatagramTransport.Proofs.Packets

/-!
# Peers do not disturb each other

A datagram is sorted by its first bytes and by where it came from. Whatever
they are, it finds its way to the connection of its sender at most, or becomes
a request of its sender; and nothing that is done about either leaves a trace
with anybody else. What a connection has no use for leaves no trace at all.
-/

set_option autoImplicit false

namespace DatagramTransport

/-- The lists agree on all that is not of one kind, and on its places. -/
def SameApart {α : Type} (kind : α → Prop) (l l' : List α) : Prop :=
  ∀ (place : Nat) (a : α), ¬kind a → (l'[place]? = some a ↔ l[place]? = some a)

section
variable {α : Type} {kind : α → Prop} {l l' l'' : List α} {place : Nat} {a b : α}

theorem SameApart.refl (l : List α) : SameApart kind l l :=
  fun _ _ _ => Iff.rfl

theorem SameApart.trans (h : SameApart kind l l') (h' : SameApart kind l' l'') :
    SameApart kind l l'' :=
  fun place a ha => (h' place a ha).trans (h place a ha)

theorem sameApart_set (hbefore : l[place]? = some a) (ha : kind a) (hb : kind b) :
    SameApart kind l (l.set place b) := by
  intro other c hc
  by_cases heq : place = other
  · subst heq
    obtain ⟨hlt, -⟩ := List.getElem?_eq_some_iff.mp hbefore
    rw [List.getElem?_set_self hlt, hbefore]
    constructor
    · rintro ⟨⟩
      exact absurd hb hc
    · rintro ⟨⟩
      exact absurd ha hc
  · rw [List.getElem?_set_ne heq]

theorem sameApart_append (hb : kind b) : SameApart kind l (l ++ [b]) := by
  intro place c hc
  by_cases hlt : place < l.length
  · rw [List.getElem?_append_left hlt]
  · have hnone : l[place]? = none := List.getElem?_eq_none (Nat.le_of_not_lt hlt)
    rw [List.getElem?_append_right (Nat.le_of_not_lt hlt), hnone, List.getElem?_singleton]
    constructor
    · intro h
      split at h
      · cases h
        exact absurd hb hc
      · cases h
    · exact fun h => nomatch h

end

def Member.Of (address : String) (m : Member) : Prop :=
  m.connection.endpoint.address = address

def Request.Of (address : String) (r : Request) : Prop :=
  r.address = address

namespace Listener

def addressOf (l : Listener) : Event → Option String
  | .requested request => l.requestAddresses[request]?
  | .connected member | .received member _ | .disconnected member _ => l.memberAddresses[member]?

structure SameFor (l : Listener) (address : String) (next : Listener) : Prop where
  config : next.config = l.config
  running : next.running = l.running
  socketOpen : next.socketOpen = l.socketOpen
  table : ∀ other, other ≠ address → next.table[other]? = l.table[other]?
  members : SameApart (Member.Of address) l.members next.members
  requests : SameApart (Request.Of address) l.requests next.requests

/-- All that is not of the address is as it was, whatever was sent went there, and the application
was told of nothing else. -/
structure Isolated (l : Listener) (address : String) (next : Listener)
    (sent : List (String × Bytes)) (events : List Event) : Prop
    extends l.SameFor address next where
  sent : ∀ d ∈ sent, d.1 = address
  events : ∀ e ∈ events, next.addressOf e = some address

section
variable {l next last : Listener} {address : String} {sent : List (String × Bytes)}
  {events : List Event}

theorem sameFor_with {members : List Member} {requests : List Request}
    (hmembers : SameApart (Member.Of address) l.members members)
    (hrequests : SameApart (Request.Of address) l.requests requests) :
    l.SameFor address { l with members, requests } where
  config := rfl
  running := rfl
  socketOpen := rfl
  table _ _ := rfl
  members := hmembers
  requests := hrequests

theorem SameFor.refl (l : Listener) (address : String) : l.SameFor address l :=
  sameFor_with (.refl l.members) (.refl l.requests)

theorem SameFor.trans (h : l.SameFor address next) (h' : next.SameFor address last) :
    l.SameFor address last where
  config := h'.config.trans h.config
  running := h'.running.trans h.running
  socketOpen := h'.socketOpen.trans h.socketOpen
  table other hother := (h'.table other hother).trans (h.table other hother)
  members := h.members.trans h'.members
  requests := h.requests.trans h'.requests

theorem SameFor.silent (h : l.SameFor address next) : l.Isolated address next [] [] where
  toSameFor := h
  sent := by simp
  events := by simp

theorem SameFor.abandon (h : l.SameFor address next) :
    l.abandon.SameFor address next.abandon where
  config := h.config
  running := rfl
  socketOpen := rfl
  table _ _ := rfl
  members := h.members
  requests := h.requests

theorem Isolated.after (h : next.Isolated address last sent events)
    (hbefore : l.SameFor address next) : l.Isolated address last sent events where
  toSameFor := hbefore.trans h.toSameFor
  sent := h.sent
  events := h.events

theorem Isolated.abandon (h : l.Isolated address next sent events) :
    l.abandon.Isolated address next.abandon [] events where
  toSameFor := h.toSameFor.abandon
  sent := by simp
  events e he := by
    have htold := h.events e he
    cases e <;> exact htold

theorem post_address {d : String × Bytes} {datagrams : List Bytes}
    (hd : d ∈ l.post address datagrams) : d.1 = address := by
  unfold post at hd
  split at hd
  · obtain ⟨datagram, -, rfl⟩ := List.mem_map.mp hd
    rfl
  · cases hd

end

section
variable {l : Listener} {address : String} {member : Nat} {m after : Member}

theorem memberAddresses_of_member (hm : l.members[member]? = some m) (hmine : m.Of address) :
    l.memberAddresses[member]? = some address := by
  rw [memberAddresses, List.getElem?_map, hm]
  exact congrArg some hmine

theorem addressOf_member {e : Event} (he : e.member? = some member)
    (haddress : l.memberAddresses[member]? = some address) : l.addressOf e = some address := by
  cases e <;> cases he <;> exact haddress

variable (hm : l.members[member]? = some m) (hmine : m.Of address)
include hm

theorem getElem?_set_member (after : Member) :
    ({ l with members := l.members.set member after } : Listener).members[member]? =
      some after := by
  obtain ⟨hlt, -⟩ := List.getElem?_eq_some_iff.mp hm
  exact List.getElem?_set_self hlt

include hmine

theorem sameFor_member (hafter : after.Of address) :
    l.SameFor address { l with members := l.members.set member after } :=
  sameFor_with (sameApart_set hm hmine hafter) (.refl l.requests)

theorem isolated_settle {α : Type} {step : Step α}
    (hendpoint : step.connection.endpoint = m.connection.endpoint) {events : List Event}
    (hevents : ∀ e ∈ events, e.member? = some member) :
    l.Isolated address (l.settle member step).listener (l.settle member step).sent events := by
  have hafter : Member.Of address { m with connection := step.connection } :=
    (congrArg Endpoint.address hendpoint).trans hmine
  rw [settle_of_member hm]
  constructor
  case toSameFor => exact sameFor_member hm hmine hafter
  case sent => exact fun d hd => (post_address hd).trans hafter
  case events =>
    intro e he
    exact addressOf_member (hevents e he)
      (memberAddresses_of_member (getElem?_set_member hm _) hafter)

theorem isolated_disconnect {reason : DisconnectReason} {notify : Bool} {e : Effect Unit}
    (h : l.disconnect member reason notify = .ok e) :
    l.Isolated address e.listener e.sent e.events := by
  rcases disconnect_cases hm reason notify with ⟨-, hsame⟩ | ⟨-, heq⟩
  · cases hsame.symm.trans h
    exact (SameFor.refl l address).silent
  · obtain ⟨ids, -, h⟩ := bind_eq_ok.mp (heq.symm.trans h)
    cases h
    have hafter : m.ended.Of address :=
      (congrArg Endpoint.address m.connection.endpoint_markDisconnected).trans hmine
    constructor
    case toSameFor =>
      obtain ⟨hconfig, hrunning, hopen, -, hmembers, hrequests⟩ := sameFor_member hm hmine hafter
      refine ⟨hconfig, hrunning, hopen, fun other hother => ?_, hmembers, hrequests⟩
      simp only [ended]
      split
      · rw [Std.ExtTreeMap.getElem?_erase, if_neg]
        rw [Std.compare_eq_iff_eq, hmine]
        exact fun heq => hother heq.symm
      · rfl
    case sent =>
      intro d hd
      cases notify with
      | true => exact (post_address hd).trans hmine
      | false => cases hd
    case events =>
      intro e he
      cases List.mem_singleton.mp he
      exact memberAddresses_of_member (getElem?_set_member hm _) hafter

theorem isolated_handle (hshort : m.connection.phase ≠ .disconnected → m.connection.Short)
    {now : UInt32} {item : Inbound} {e : Effect Unit} (h : l.handle member m now item = .ok e) :
    l.Isolated address e.listener e.sent e.events := by
  cases item with
  | data datagram =>
    obtain ⟨step, hstep, h⟩ := bind_eq_ok.mp h
    cases h
    refine isolated_settle hm hmine (Connection.receive_endpoint hshort hstep) fun e he => ?_
    obtain ⟨message, -, rfl⟩ := List.mem_map.mp he
    rfl
  | ping ping =>
    cases h
    refine isolated_settle hm hmine (m.connection.receivePing_endpoint now ping) fun e he => ?_
    split at he
    · cases List.mem_singleton.mp he
      rfl
    · cases he
  | disconnect reason => exact isolated_disconnect hm hmine h

theorem isolated_work (hshort : m.connection.phase ≠ .disconnected → m.connection.Short)
    {now : UInt32} {e : Effect Unit} (h : l.work member now = .ok e) :
    l.Isolated address e.listener e.sent e.events := by
  rcases l.work_cases member now with hnone | ⟨n, item, queue, hn, -, heq⟩
  · cases hnone.symm.trans h
    exact (SameFor.refl l address).silent
  · cases hm.symm.trans hn
    have hpopped := getElem?_set_member hm { m with queue }
    have hafter : Member.Of address { m with queue } := hmine
    have hsame := sameFor_member hm hmine hafter
    exact (isolated_handle hpopped hmine hshort (heq.symm.trans h)).after hsame

end

section
variable {address : String} {r : Request} (hmine : r.Of address)
include hmine

theorem isolated_turnAway {α : Type} (l : Listener) (reason : DisconnectReason) (answer : α) :
    l.Isolated address (l.turnAway r reason answer).listener (l.turnAway r reason answer).sent
      (l.turnAway r reason answer).events where
  toSameFor := .refl l address
  sent _ hd := (post_address hd).trans hmine
  events := by simp [turnAway, unchanged]

theorem isolated_enrolled (l : Listener) (ids : IdPool) (id session : UInt16) (now : UInt32) :
    l.Isolated address (l.enrolled r ids id session now).listener
      (l.enrolled r ids id session now).sent (l.enrolled r ids id session now).events where
  config := rfl
  running := rfl
  socketOpen := rfl
  table other hother := by
    simp only [enrolled, Std.ExtTreeMap.getElem?_insert, Std.compare_eq_iff_eq]
    rw [if_neg]
    exact fun heq => hother (heq.symm.trans hmine)
  members := sameApart_append hmine
  requests := .refl _
  sent _ hd := (post_address hd).trans hmine
  events := by simp [enrolled]

variable {l : Listener} {request : Nat} (hr : l.requests[request]? = some r)
include hr

theorem sameFor_markHandled : l.SameFor address (l.markHandled request) := by
  rw [markHandled, modify_of_getElem? hr]
  exact sameFor_with (.refl l.members) (sameApart_set hr hmine hmine)

theorem isolated_accept {session : UInt16} {now : UInt32} {e : Effect (Option Nat)}
    (h : l.accept request session now = .ok e) :
    l.Isolated address e.listener e.sent e.events := by
  have hmark := sameFor_markHandled hmine hr
  cases hopen : r.handled with
  | true =>
    cases (Decided.accept session now ⟨r, hr, hopen⟩).symm.trans h
    exact (SameFor.refl l address).silent
  | false =>
    rcases accept_cases session now hr hopen with
      ⟨-, -, heq⟩ | ⟨-, ids, id, -, -, ⟨-, heq⟩ | ⟨issued, -, -, heq⟩ | ⟨issued, -, -, heq⟩⟩
    · cases heq.symm.trans h
      exact hmark.silent
    · cases heq.symm.trans h
      exact (isolated_turnAway hmine _ _ _).after hmark
    · obtain ⟨released, -, h⟩ := bind_eq_ok.mp (heq.symm.trans h)
      cases h
      obtain ⟨hconfig, hrunning, hsocket, htable, hmembers, hrequests⟩ := hmark
      exact SameFor.silent ⟨hconfig, hrunning, hsocket, htable, hmembers, hrequests⟩
    · cases heq.symm.trans h
      exact (isolated_enrolled hmine _ ids issued session now).after hmark

theorem isolated_reject (reason : DisconnectReason) :
    l.Isolated address (l.reject request reason).listener (l.reject request reason).sent
      (l.reject request reason).events := by
  unfold reject
  rw [hr]
  dsimp only
  split
  · exact (SameFor.refl l address).silent
  · exact (isolated_turnAway hmine _ reason ()).after (sameFor_markHandled hmine hr)

end

def taskAddress (l : Listener) : Task → Option String
  | .decide request => l.requestAddresses[request]?
  | .work member => l.memberAddresses[member]?

/-- The operations that are about an address: a datagram comes from it, a request of it is
decided on, or one of its connections takes an item. -/
inductive Concerns (l : Listener) (address : String) : Operation → Prop
  | datagram (bytes : Bytes) : Concerns l address (.datagram address bytes)
  | accept {request : Nat} (mine : l.requestAddresses[request]? = some address)
      (session : UInt16) (now : UInt32) : Concerns l address (.accept request session now)
  | reject {request : Nat} (mine : l.requestAddresses[request]? = some address)
      (reason : DisconnectReason) : Concerns l address (.reject request reason)
  | work {member : Nat} (mine : l.memberAddresses[member]? = some address) (now : UInt32) :
      Concerns l address (.work member now)

/-- The operation has an outcome, and that is about one address only. -/
def Isolates (l : Listener) (address : String) (operation : Operation) : Prop :=
  ∃ next outcome, l.operate operation = .ok (next, outcome) ∧
    l.Isolated address next outcome.sent outcome.events

/-- A datagram changes nothing, sets nothing in motion and is not heard of. -/
def Ignores (l : Listener) (address : String) (bytes : Bytes) : Prop :=
  l.dispatch address bytes = (l, none) ∧
    l.operate (.datagram address bytes) = .ok (l, .silent)

section
variable {l : Listener} {address : String}

theorem Sound.entry (h : l.Sound) (hrunning : l.running = true) {member : Nat}
    (hentry : l.table[address]? = some member) :
    ∃ m, l.members[member]? = some m ∧ m.Of address := by
  obtain ⟨issued, h⟩ | h := h
  · obtain ⟨m, hm, -, haddress⟩ := h.entry address member hentry
    exact ⟨m, hm, haddress⟩
  · cases h.stopped.symm.trans hrunning

theorem sameFor_handOut (l : Listener) (address : String) (packet : Connect) :
    l.SameFor address (l.handOut address packet).1 :=
  sameFor_with (.refl l.members) (sameApart_append rfl)

def SortedFor (l : Listener) (address : String) (r : Listener × Option Task) : Prop :=
  l.SameFor address r.1 ∧ ∀ task, r.2 = some task → r.1.taskAddress task = some address

theorem sortedFor_dropped (l : Listener) (address : String) : l.SortedFor address (l, none) :=
  ⟨.refl l address, fun _ htask => nomatch htask⟩

theorem Sound.dispatch (h : l.Sound) (address : String) (bytes : Bytes) :
    l.SortedFor address (l.dispatch address bytes) := by
  by_cases hrunning : l.running = true
  · rcases l.dispatch_cases address bytes with
      heq | ⟨-, packet, rest, -, heq⟩ | ⟨member, m, item, hentry, hm, heq⟩
    · rw [heq]
      exact sortedFor_dropped l address
    · rw [heq]
      refine ⟨sameFor_handOut l address packet, ?_⟩
      rintro task ⟨⟩
      simp [handOut, taskAddress, requestAddresses]
    · obtain ⟨n, hn, hmine⟩ := h.entry hrunning hentry
      cases hm.symm.trans hn
      have hafter : Member.Of address { m with queue := m.queue ++ [item] } := hmine
      rw [heq]
      refine ⟨sameFor_member hm hmine hafter, ?_⟩
      rintro task ⟨⟩
      exact memberAddresses_of_member (getElem?_set_member hm _) hafter
  · rw [Listener.dispatch, if_neg hrunning]
    exact sortedFor_dropped l address

theorem Concerns.of_abandon {operation : Operation}
    (h : l.abandon.Concerns address operation) : l.Concerns address operation := by
  cases h with
  | datagram bytes => exact .datagram bytes
  | accept mine session now => exact .accept (l := l) mine session now
  | reject mine reason => exact .reject (l := l) mine reason
  | work mine now => exact .work (l := l) mine now

theorem Concerns.request {operation : Operation} (h : l.Concerns address operation)
    {request : Nat} (hrequest : operation.request? = some request) :
    ∃ r, l.requests[request]? = some r ∧ r.Of address := by
  cases h with
  | accept mine | reject mine =>
    cases hrequest
    exact Option.map_eq_some_iff.mp (List.getElem?_map.symm.trans mine)
  | datagram | work => cases hrequest

theorem Sound.isolates (h : l.Sound) {operation : Operation}
    (hconcerns : l.Concerns address operation) : l.Isolates address operation := by
  obtain ⟨next, outcome, hoperate, -⟩ := h.operate operation
  refine ⟨next, outcome, hoperate, ?_⟩
  cases hconcerns with
  | datagram bytes =>
    obtain ⟨hsame, htask⟩ := h.dispatch address bytes
    cases hoperate
    refine ⟨hsame, by simp, fun e he => ?_⟩
    dsimp only at he
    split at he
    · rename_i request heq
      cases List.mem_singleton.mp he
      exact htask _ heq
    · cases he
  | accept mine session now =>
    obtain ⟨r, hr, hmine⟩ := (Concerns.accept mine session now).request rfl
    obtain ⟨e, he, hoperate⟩ := bind_eq_ok.mp hoperate
    cases hoperate
    exact isolated_accept hmine hr he
  | reject mine reason =>
    obtain ⟨r, hr, hmine⟩ := (Concerns.reject mine reason).request rfl
    cases hoperate
    exact isolated_reject hmine hr reason
  | work mine now =>
    obtain ⟨m, hm, hmine⟩ := Option.map_eq_some_iff.mp (List.getElem?_map.symm.trans mine)
    obtain ⟨e, he, hoperate⟩ := bind_eq_ok.mp hoperate
    cases hoperate
    exact isolated_work hm hmine (h.short (List.mem_of_getElem? hm)) he

theorem Kept.isolates (h : l.Kept) {operation : Operation}
    (hconcerns : l.Concerns address operation) : l.Isolates address operation := by
  obtain h | ⟨before, h, rfl⟩ := h
  · exact h.isolates hconcerns
  · rcases before.operate_abandon operation with heq | ⟨request, hrequest, heq⟩ | heq
    · exact ⟨_, _, heq, (SameFor.refl _ address).silent⟩
    · obtain ⟨r, hr, hmine⟩ := hconcerns.of_abandon.request hrequest
      exact ⟨_, _, heq, (sameFor_markHandled hmine hr).abandon.silent⟩
    · obtain ⟨next, outcome, hoperate, hisolated⟩ := h.isolates hconcerns.of_abandon
      rw [hoperate] at heq
      exact ⟨_, _, heq, hisolated.abandon⟩

theorem Kept.dispatch (h : l.Kept) (address : String) (bytes : Bytes) :
    l.SortedFor address (l.dispatch address bytes) := by
  obtain h | ⟨before, h, rfl⟩ := h
  · exact h.dispatch address bytes
  · exact sortedFor_dropped before.abandon address

theorem Extends.taskAddress {later : Listener} (h : l.Extends later) {task : Task}
    (htask : l.taskAddress task = some address) : later.taskAddress task = some address := by
  cases task with
  | decide request => exact getElem?_of_prefix h.requests htask
  | work member => exact getElem?_of_prefix h.members htask

end

end Listener

inductive Task.DoneBy : Task → Operation → Prop
  | accept (request : Nat) (session : UInt16) (now : UInt32) :
      DoneBy (.decide request) (.accept request session now)
  | reject (request : Nat) (reason : DisconnectReason) :
      DoneBy (.decide request) (.reject request reason)
  | work (member : Nat) (now : UInt32) : DoneBy (.work member) (.work member now)

theorem Task.DoneBy.concerns {task : Task} {operation : Operation} (h : task.DoneBy operation)
    {l : Listener} {address : String} (htask : l.taskAddress task = some address) :
    l.Concerns address operation := by
  cases h with
  | accept request session now => exact .accept htask session now
  | reject request reason => exact .reject htask reason
  | work member now => exact .work htask now

def readable (bytes : Bytes) : RequestType → Bool
  | .connectRequest => (Connect.decode bytes).isOk
  | .disconnect => (Disconnect.decode bytes).isOk
  | .ping => (Ping.decode bytes).isOk

/-- The datagrams that the connection with this id has no use for. -/
inductive Useless (id : UInt16) (bytes : Bytes) : Prop
  | short {e : Error} (unpeeked : peekConnection bytes = .error e)
  | stranger {other : UInt16} (peeked : peekConnection bytes = .ok other)
      (data : other ≠ systemConnection) (different : other ≠ id)
  | request (peeked : peekConnection bytes = .ok systemConnection)
      (type : bytes[2]? = some RequestType.connectRequest.code)
  | malformed (peeked : peekConnection bytes = .ok systemConnection)
      (unread : ∀ type : RequestType, bytes[2]? = some type.code → readable bytes type = false)

section
variable {id : UInt16} {bytes : Bytes}

theorem useless_data_iff {other : UInt16} (hpeek : peekConnection bytes = .ok other)
    (hdata : other ≠ systemConnection) : Useless id bytes ↔ other ≠ id := by
  constructor
  · intro h
    cases h with
    | short unpeeked => cases hpeek.symm.trans unpeeked
    | stranger peeked data different =>
      cases hpeek.symm.trans peeked
      exact different
    | request peeked | malformed peeked =>
      cases hpeek.symm.trans peeked
      exact absurd rfl hdata
  · exact .stranger hpeek hdata

theorem type_of_code {type other : RequestType} (h : bytes[2]? = some type.code)
    (hother : bytes[2]? = some other.code) : type = other := by
  have hcode := congrArg RequestType.ofCode? (Option.some.inj (h.symm.trans hother))
  rw [RequestType.ofCode?_code, RequestType.ofCode?_code] at hcode
  exact Option.some.inj hcode

theorem useless_system_iff (hpeek : peekConnection bytes = .ok systemConnection)
    {type : RequestType} (htype : bytes[2]? = some type.code) :
    Useless id bytes ↔ type = .connectRequest ∨ readable bytes type = false := by
  constructor
  · intro h
    cases h with
    | short unpeeked => cases hpeek.symm.trans unpeeked
    | stranger peeked data different =>
      cases hpeek.symm.trans peeked
      exact absurd rfl data
    | request peeked other => exact .inl (type_of_code htype other)
    | malformed peeked unread => exact .inr (unread type htype)
  · rintro (rfl | hunread)
    · exact .request hpeek htype
    · refine .malformed hpeek fun other hother => ?_
      rwa [type_of_code hother htype]

theorem useless_of_no_type (hpeek : peekConnection bytes = .ok systemConnection)
    (hnone : bytes[2]?.bind RequestType.ofCode? = none) : Useless id bytes := by
  refine .malformed hpeek fun type htype => ?_
  rw [htype, Option.bind_some, RequestType.ofCode?_code] at hnone
  cases hnone

end

namespace Listener

section
variable {l : Listener} {address : String} {bytes : Bytes}

theorem ignores_iff_dispatch : l.Ignores address bytes ↔ l.dispatch address bytes = (l, none) := by
  refine ⟨And.left, fun h => ⟨h, ?_⟩⟩
  simp only [operate, h]
  rfl

theorem dispatch_stopped (h : l.running = false) : l.dispatch address bytes = (l, none) := by
  simp [dispatch, h]

theorem dispatch_request (hrunning : l.running = true) (hnone : l.lookup address = none)
    {packet : Connect} {rest : Bytes} (hdecode : Connect.decode bytes = .ok (packet, rest)) :
    l.dispatch address bytes = l.handOut address packet := by
  obtain ⟨hpeek, htype⟩ := Connect.peek_of_decode hdecode
  rw [dispatch, if_pos hrunning, hpeek]
  dsimp only
  rw [if_pos rfl, dispatchSystem, htype, hnone, Option.bind_some, RequestType.ofCode?_code]
  simp only [hdecode]

theorem ignores_unknown_iff (hnone : l.lookup address = none) :
    l.Ignores address bytes ↔
      l.running = false ∨ ∀ r, Connect.decode bytes ≠ .ok r := by
  rw [ignores_iff_dispatch]
  constructor
  · intro hdropped
    cases hrunning : l.running with
    | false => exact .inl rfl
    | true =>
      refine .inr fun r hdecode => ?_
      have hhanded := hdropped.symm.trans (dispatch_request hrunning hnone hdecode)
      cases congrArg Prod.snd hhanded
  · rintro (hstopped | hnot)
    · exact dispatch_stopped hstopped
    · rcases l.dispatch_cases address bytes with
        heq | ⟨-, packet, rest, hdecode, -⟩ | ⟨member, m, item, hentry, -⟩
      · exact heq
      · exact absurd hdecode (hnot _)
      · cases hentry.symm.trans hnone

theorem dispatchSystem_known {member : Nat} (hentry : l.lookup address = some member)
    (hpeek : peekConnection bytes = .ok systemConnection) (id : UInt16) :
    (Useless id bytes ∧ l.dispatchSystem address bytes = (l, none)) ∨
      (¬Useless id bytes ∧
        ∃ item, l.dispatchSystem address bytes = l.enqueue member item) := by
  unfold dispatchSystem
  rw [hentry]
  cases htype : bytes[2]?.bind RequestType.ofCode? with
  | none => exact .inl ⟨useless_of_no_type hpeek htype, rfl⟩
  | some type =>
    obtain ⟨code, hcode, hofCode⟩ := Option.bind_eq_some_iff.mp htype
    rw [← RequestType.code_of_ofCode? hofCode] at hcode
    rw [useless_system_iff hpeek hcode]
    cases type with
    | connectRequest => exact .inl ⟨.inl rfl, rfl⟩
    | disconnect =>
      cases hdecode : Disconnect.decode bytes with
      | error e => exact .inl ⟨.inr (by rw [readable, hdecode]; rfl), rfl⟩
      | ok r => exact .inr ⟨by simp [readable, hdecode, Except.isOk, Except.toBool], _, rfl⟩
    | ping =>
      cases hdecode : Ping.decode bytes with
      | error e => exact .inl ⟨.inr (by rw [readable, hdecode]; rfl), rfl⟩
      | ok r => exact .inr ⟨by simp [readable, hdecode, Except.isOk, Except.toBool], _, rfl⟩

section
variable {member : Nat} {m : Member} (hm : l.members[member]? = some m)
include hm

theorem enqueue_eq_iff (item : Inbound) :
    l.enqueue member item = (l, none) ↔ l.config.maxQueued ≤ m.queue.length := by
  unfold enqueue
  rw [hm]
  dsimp only
  split
  · rename_i hroom
    refine ⟨fun heq => ?_, fun hfull => absurd hroom (Nat.not_lt.mpr hfull)⟩
    cases congrArg Prod.snd heq
  · rename_i hfull
    exact ⟨fun _ => Nat.le_of_not_lt hfull, fun _ => rfl⟩

variable (hentry : l.lookup address = some member)
include hentry

theorem dispatch_known (hrunning : l.running = true) (bytes : Bytes) :
    (Useless m.connection.endpoint.id bytes ∧ l.dispatch address bytes = (l, none)) ∨
      (¬Useless m.connection.endpoint.id bytes ∧
        ∃ item, l.dispatch address bytes = l.enqueue member item) := by
  unfold dispatch
  rw [if_pos hrunning]
  cases hpeek : peekConnection bytes with
  | error e => exact .inl ⟨.short hpeek, rfl⟩
  | ok id =>
    dsimp only
    by_cases hsystem : id = systemConnection
    · rw [if_pos hsystem]
      exact dispatchSystem_known hentry (hpeek.trans (congrArg Except.ok hsystem)) _
    · rw [if_neg hsystem, useless_data_iff hpeek hsystem, dispatchData, hentry]
      dsimp only
      rw [hm]
      by_cases hown : m.connection.endpoint.id = id
      · right
        exact ⟨fun hne => hne hown.symm, .data bytes, if_pos (congrArg some hown)⟩
      · left
        exact ⟨fun heq => hown heq.symm, if_neg fun heq => hown (Option.some.inj heq)⟩

theorem ignores_known_iff : l.Ignores address bytes ↔ l.running = false ∨
    Useless m.connection.endpoint.id bytes ∨ l.config.maxQueued ≤ m.queue.length := by
  rw [ignores_iff_dispatch]
  cases hrunning : l.running with
  | false => simp [dispatch_stopped hrunning]
  | true =>
    rcases dispatch_known hm hentry hrunning bytes with
      ⟨huseless, heq⟩ | ⟨huseful, item, heq⟩
    · simp [heq, huseless]
    · simp [heq, huseful, enqueue_eq_iff hm item]

end

theorem kept_bind {config : Config} {start : Listener} (h : bind config = .ok start) :
    start.Kept :=
  .inl (.inl ⟨[], accounted_bind h⟩)

end

/-- Whatever comes from an address, and whatever is done about a request or a connection of it,
concerns that address only, however much later that is done. -/
theorem peers_isolated {config : Config} {start l : Listener} (hbind : bind config = .ok start)
    (hlater : start.Later l) (address : String) :
    (∀ operation, l.Concerns address operation → l.Isolates address operation) ∧
      (∀ bytes task, (l.dispatch address bytes).2 = some task →
        ∀ later, (l.dispatch address bytes).1.Later later →
        ∀ operation, task.DoneBy operation → later.Isolates address operation) ∧
      (l.lookup address = none → ∀ bytes, l.Ignores address bytes ↔
        l.running = false ∨ ∀ r, Connect.decode bytes ≠ .ok r) ∧
      ∀ member m, l.lookup address = some member → l.members[member]? = some m →
        ∀ bytes, l.Ignores address bytes ↔ l.running = false ∨
          Useless m.connection.endpoint.id bytes ∨ l.config.maxQueued ≤ m.queue.length := by
  have hkept := hlater.kept (kept_bind hbind)
  refine ⟨fun operation => hkept.isolates, ?_, fun hnone bytes => ignores_unknown_iff hnone,
    fun member m hentry hm bytes => ignores_known_iff hm hentry⟩
  intro bytes task htask later hafter operation hdone
  have hdispatched : (l.dispatch address bytes).1.Kept := by
    obtain ⟨next, outcome, hoperate, hnext⟩ := hkept.operate (.datagram address bytes)
    cases hoperate
    exact hnext
  have hsorted := (hkept.dispatch address bytes).2 task htask
  have hmine := (hafter.extends hdispatched).taskAddress hsorted
  exact (hafter.kept hdispatched).isolates (hdone.concerns hmine)

def twoPeers : List Operation :=
  let connect := [0, 0, 1, 0, 0, 0, 7, 0, 3, 0, 0, 1, 0, 1, 0, 0, 0, 0, 0]
  let ping := [0, 0, 4, 0, 0, 0, 7, 0, 3, 0, 1, 0, 0, 0, 0, 0, 0, 0, 0, 0, 0, 0, 0, 0, 0, 0, 0]
  [.datagram "10.0.0.2:7000" connect, .accept 0 9 0, .datagram "10.0.0.3:7000" connect,
    .accept 1 8 0, .datagram "10.0.0.2:7000" ping]

theorem peers_isolated_two :
    let disconnect : Bytes := [0, 0, 3, 0, 0, 0, 7, 0, 3, 0, 1, 1, 0, 1, 0, 1]
    ∃ start l log, bind .standard = .ok start ∧ start.run twoPeers = .ok (l, log) ∧
      l.Isolates "10.0.0.2:7000" (.work 0 0) ∧
      (l.dispatch "10.0.0.2:7000" disconnect).1.abandon.Isolates "10.0.0.2:7000" (.work 0 0) ∧
      l.Ignores "10.0.0.2:7000" [0, 2, 0, 0, 0, 7, 0, 0, 255, 255, 255, 255] ∧
      l.Ignores "10.0.0.4:7000" disconnect := by
  intro disconnect
  obtain ⟨start, hbind⟩ : ∃ start, bind .standard = .ok start := ⟨_, rfl⟩
  have hpeers : (bind .standard).toOption.bind (fun start => (start.run twoPeers).toOption.map
      fun r => (r.1.memberAddresses, r.1.members.map fun m => m.connection.endpoint.id)) =
        some (["10.0.0.2:7000", "10.0.0.3:7000"], [1, 2]) := by
    decide +kernel
  have hplaces : (bind .standard).toOption.bind (fun start => (start.run twoPeers).toOption.map
      fun r => (r.1.lookup "10.0.0.2:7000", r.1.lookup "10.0.0.4:7000",
        (r.1.dispatch "10.0.0.2:7000" disconnect).2)) =
        some (some 0, none, some (.work 0)) := by
    decide +kernel
  rw [hbind] at hpeers hplaces
  obtain ⟨⟨l, log⟩, hrun, hpeers⟩ := eq_ok_of_eval hpeers
  obtain ⟨⟨l', log'⟩, hrun', hplaces⟩ := eq_ok_of_eval hplaces
  cases hrun.symm.trans hrun'
  obtain ⟨haddresses, hids⟩ := Prod.mk.inj hpeers
  obtain ⟨hfirst, hrest⟩ := Prod.mk.inj hplaces
  obtain ⟨hthird, htask⟩ := Prod.mk.inj hrest
  have hlater : start.Later l := Later.now.run hrun
  obtain ⟨hisolates, htasks, -, huseless⟩ := peers_isolated hbind hlater "10.0.0.2:7000"
  obtain ⟨-, -, hunknown, -⟩ := peers_isolated hbind hlater "10.0.0.4:7000"
  refine ⟨start, l, log, hbind, hrun, hisolates _ (.work ?_ 0), ?_, ?_, ?_⟩
  · rw [haddresses]
    rfl
  · exact htasks disconnect (.work 0) htask _ (.abandoned .now) _ (.work 0 0)
  · obtain ⟨m, rest, hmembers, hid, -⟩ := List.map_eq_cons_iff.mp hids
    have hm : l.members[0]? = some m := by
      rw [hmembers]
      rfl
    have hpeeked : peekConnection [0, 2, 0, 0, 0, 7, 0, 0, 255, 255, 255, 255] = .ok 2 := rfl
    refine (huseless 0 m hfirst hm _).mpr (.inr (.inl (.stranger hpeeked (by decide) ?_)))
    rw [hid]
    decide
  · refine (hunknown hthird disconnect).mpr (.inr fun r hr => ?_)
    cases hr

end Listener

end DatagramTransport
