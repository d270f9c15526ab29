import DatagramTransport.Proofs.Listener.Turns

/-!
# What becomes of a listener

A listener that was given up goes on as it would have without that, except
that it takes neither datagrams nor connections and that nothing goes out: what
is done with it is what would have been done, muted. So every operation has an
outcome then as well. Whatever becomes of a listener, its requests and its
connections stay under their numbers, with the addresses they have.
-/

set_option autoImplicit false

namespace DatagramTransport

section
variable {α β : Type} {f : α → β} {l : List α} {place : Nat}

theorem map_set_same {a b : α} (ha : l[place]? = some a) (hsame : f b = f a) :
    (l.set place b).map f = l.map f := by
  have hfilter := filterMap_set_same (f := some ∘ f) ha (congrArg some hsame)
  rwa [List.filterMap_eq_map] at hfilter

theorem map_modify_same {g : α → α} (hsame : ∀ a, f (g a) = f a) (l : List α) (place : Nat) :
    (l.modify place g).map f = l.map f := by
  cases ha : l[place]? with
  | none => rw [List.modify_eq_self (List.getElem?_eq_none_iff.mp ha)]
  | some a => rw [Listener.modify_of_getElem? ha, map_set_same ha (hsame a)]

theorem prefix_of_eq {l l' : List α} (h : l = l') : l <+: l' :=
  h ▸ List.prefix_rfl

theorem getElem?_of_prefix {l l' : List α} (h : l <+: l') {a : α} (ha : l[place]? = some a) :
    l'[place]? = some a := by
  obtain ⟨hlt, rfl⟩ := List.getElem?_eq_some_iff.mp ha
  exact List.prefix_iff_getElem?.mp h place hlt

end

/-- What an operation leaves behind of a listener that was given up. -/
def Effect.muted {α : Type} (e : Effect α) : Effect α :=
  { e with listener := e.listener.abandon, sent := [] }

namespace Listener

section
variable (l : Listener)

theorem send_abandon (member : Nat) (channel : UInt8) (message : Bytes) :
    l.abandon.send member channel message = (l.send member channel message).muted := by
  have hmembers : l.abandon.members = l.members := rfl
  unfold send
  rw [hmembers]
  cases l.members[member]? <;> rfl

theorem disconnect_abandon (member : Nat) (reason : DisconnectReason) (notify : Bool) :
    l.abandon.disconnect member reason notify =
      (l.disconnect member reason notify).map Effect.muted := by
  cases hm : l.members[member]? with
  | none =>
    rw [disconnect_of_none hm, disconnect_of_none (l := l.abandon) hm]
    rfl
  | some m =>
    rcases disconnect_cases hm reason notify with ⟨hended, heq⟩ | ⟨halive, heq⟩
    · rw [heq]
      exact disconnect_ended (l := l.abandon) hm hended reason notify
    · rcases disconnect_cases (l := l.abandon) hm reason notify with ⟨hended, -⟩ | ⟨-, heq'⟩
      · exact absurd hended halive
      · have hids : l.abandon.ids = l.ids := rfl
        rw [heq, heq', hids]
        cases l.ids.release m.connection.endpoint.id with
        | error f => rfl
        | ok ids =>
          refine congrArg Except.ok ?_
          cases notify <;> simp [ended, Effect.muted, abandon, post]

theorem handle_abandon (member : Nat) (m : Member) (now : UInt32) (item : Inbound) :
    l.abandon.handle member m now item = (l.handle member m now item).map Effect.muted := by
  cases item with
  | data datagram =>
    simp only [handle]
    cases m.connection.receive datagram <;> rfl
  | ping ping => rfl
  | disconnect reason => exact l.disconnect_abandon member reason false

theorem work_abandon (member : Nat) (now : UInt32) :
    l.abandon.work member now = (l.work member now).map Effect.muted := by
  have hmembers : l.abandon.members = l.members := rfl
  unfold work
  rw [hmembers]
  cases l.members[member]? with
  | none => rfl
  | some m =>
    dsimp only
    cases m.queue with
    | nil => rfl
    | cons item queue =>
      exact handle_abandon { l with members := l.members.set member { m with queue } } member _
        now item

theorem stop_abandon : l.abandon.stop = l.abandon := by
  have hnone : (∅ : Registry String Nat).toList = [] := rfl
  simp only [stop, endAll, abandon, hnone, List.foldl_nil]

theorem accept_abandon (request : Nat) (session : UInt16) (now : UInt32) :
    l.abandon.accept request session now = .ok (l.abandon.unchanged none) ∨
      l.abandon.accept request session now =
        .ok ((l.markHandled request).abandon.unchanged none) := by
  unfold accept
  cases l.abandon.requests[request]? with
  | none => exact .inl rfl
  | some r =>
    dsimp only
    split
    · exact .inl rfl
    · exact .inr rfl

theorem reject_abandon (request : Nat) (reason : DisconnectReason) :
    l.abandon.reject request reason = l.abandon.unchanged () ∨
      l.abandon.reject request reason = (l.markHandled request).abandon.unchanged () := by
  unfold reject
  cases l.abandon.requests[request]? with
  | none => exact .inl rfl
  | some r =>
    dsimp only
    split
    · exact .inl rfl
    · exact .inr rfl

theorem drawFor_abandon (request : Nat) : l.abandon.drawFor request = none := by
  have hstopped : l.abandon.running = false := rfl
  unfold drawFor
  cases l.abandon.requests[request]? with
  | none => rfl
  | some r => simp [hstopped]

end

end Listener

def Outcome.silent : Outcome where
  sent := []
  events := []
  issued := []

namespace Listener

/-- Nothing, or it takes note of a decision, or it does what it would have done otherwise and sends
nothing. -/
theorem operate_abandon (l : Listener) (operation : Operation) :
    l.abandon.operate operation = .ok (l.abandon, .silent) ∨
      (∃ request, operation.request? = some request ∧
        l.abandon.operate operation = .ok ((l.markHandled request).abandon, .silent)) ∨
      l.abandon.operate operation =
        (l.operate operation).map fun r => (r.1.abandon, { r.2 with sent := [] }) := by
  cases operation with
  | datagram address bytes => exact .inl rfl
  | accept request session now =>
    simp only [operate, drawFor_abandon]
    rcases l.accept_abandon request session now with heq | heq
    · left
      rw [heq]
      rfl
    · refine .inr (.inl ⟨request, rfl, ?_⟩)
      rw [heq]
      rfl
  | reject request reason =>
    simp only [operate]
    rcases l.reject_abandon request reason with heq | heq
    · left
      rw [heq]
      rfl
    · refine .inr (.inl ⟨request, rfl, ?_⟩)
      rw [heq]
      rfl
  | work member now =>
    right; right
    simp only [operate, work_abandon]
    cases l.work member now <;> rfl
  | disconnect member reason =>
    right; right
    simp only [operate, disconnect_abandon]
    cases l.disconnect member reason true <;> rfl
  | send member channel message =>
    right; right
    simp only [operate, send_abandon, Effect.muted]
    split <;> rfl
  | stop =>
    left
    simp only [operate, stop_abandon]
    rfl

/-- What may become of a listener, by whatever is done with it and also by being given up. -/
inductive Later (l : Listener) : Listener → Prop
  | now : Later l l
  | operated {middle next : Listener} {operation : Operation} {outcome : Outcome}
      (before : Later l middle) (happened : middle.operate operation = .ok (next, outcome)) :
      Later l next
  | abandoned {middle : Listener} (before : Later l middle) : Later l middle.abandon

theorem Later.run {l middle last : Listener} (hbefore : l.Later middle)
    {operations : List Operation} {log : List Outcome}
    (h : middle.run operations = .ok (last, log)) : l.Later last := by
  induction operations generalizing middle log with
  | nil =>
    cases h
    exact hbefore
  | cons operation operations ih =>
    obtain ⟨next, outcome, rest, hnext, hrest, -⟩ := runAll_cons_eq_ok.mp h
    exact ih (hbefore.operated hnext) hrest

/-- What is true of a listener at any time, also after it was given up. -/
def Kept (l : Listener) : Prop :=
  l.Sound ∨ ∃ before : Listener, before.Sound ∧ l = before.abandon

section
variable {l : Listener}

theorem Sound.markHandled (h : l.Sound) (request : Nat) : (l.markHandled request).Sound := by
  obtain ⟨issued, h⟩ | h := h
  · exact .inl ⟨issued, h.markHandled request⟩
  · exact .inr ⟨h.stopped, h.ended⟩

theorem Kept.operate (h : l.Kept) (operation : Operation) :
    ∃ next outcome, l.operate operation = .ok (next, outcome) ∧ next.Kept := by
  obtain h | ⟨before, h, rfl⟩ := h
  · obtain ⟨next, outcome, hoperate, hnext⟩ := h.operate operation
    exact ⟨next, outcome, hoperate, .inl hnext⟩
  · rcases before.operate_abandon operation with heq | ⟨request, -, heq⟩ | heq
    · exact ⟨_, _, heq, .inr ⟨before, h, rfl⟩⟩
    · exact ⟨_, _, heq, .inr ⟨before.markHandled request, h.markHandled request, rfl⟩⟩
    · obtain ⟨next, outcome, hoperate, hnext⟩ := h.operate operation
      rw [hoperate] at heq
      exact ⟨_, _, heq, .inr ⟨next, hnext, rfl⟩⟩

theorem Kept.abandon (h : l.Kept) : l.abandon.Kept := by
  obtain h | ⟨before, h, rfl⟩ := h
  · exact .inr ⟨l, h, rfl⟩
  · exact .inr ⟨before, h, rfl⟩

theorem Later.kept {later : Listener} (hlater : l.Later later) (h : l.Kept) : later.Kept := by
  induction hlater with
  | now => exact h
  | operated before happened ih =>
    obtain ⟨next, outcome, hoperate, hnext⟩ := ih.operate _
    cases hoperate.symm.trans happened
    exact hnext
  | abandoned before ih => exact ih.abandon

end

def requestAddresses (l : Listener) : List String :=
  l.requests.map Request.address

def memberAddresses (l : Listener) : List String :=
  l.members.map fun m => m.connection.endpoint.address

structure Extends (l next : Listener) : Prop where
  requests : l.requestAddresses <+: next.requestAddresses
  members : l.memberAddresses <+: next.memberAddresses

section
variable {l next last : Listener}

theorem Extends.refl (l : Listener) : l.Extends l :=
  ⟨List.prefix_rfl, List.prefix_rfl⟩

theorem Extends.trans (h : l.Extends next) (hlater : next.Extends last) : l.Extends last :=
  ⟨h.requests.trans hlater.requests, h.members.trans hlater.members⟩

theorem requestAddresses_markHandled (l : Listener) (request : Nat) :
    (l.markHandled request).requestAddresses = l.requestAddresses := by
  have hsame (r : Request) : ({ r with handled := true } : Request).address = r.address := rfl
  exact map_modify_same hsame l.requests request

end

end Listener

section
variable {l : Listener} {operation : Operation}

theorem Turn.endpoint {member : Nat} {m after : Member} {events : List Event}
    (hshort : m.connection.phase ≠ .disconnected → m.connection.Short)
    (h : Turn member m operation after events) :
    after.connection.endpoint = m.connection.endpoint := by
  cases h with
  | came address bytes item => rfl
  | sent channel message faultless => exact Connection.send_endpoint hshort faultless
  | data now next received => exact Connection.receive_endpoint hshort received
  | pinged now next => exact Connection.receivePing_endpoint m.connection now _
  | left now next => exact Connection.endpoint_markDisconnected m.connection
  | closed reason => exact Connection.endpoint_markDisconnected m.connection

theorem Move.addresses {members next : List Member} {events : List Event}
    (hshort : ∀ m ∈ members, m.connection.phase ≠ .disconnected → m.connection.Short)
    (h : Move members operation next events) :
    members.map (fun m => m.connection.endpoint.address) <+:
      next.map (fun m => m.connection.endpoint.address) := by
  cases h with
  | still => exact List.prefix_rfl
  | one found turn =>
    have hendpoint := turn.endpoint (hshort _ (List.mem_of_getElem? found))
    exact prefix_of_eq (map_set_same found (congrArg Endpoint.address hendpoint)).symm
  | joined request session now m waits empty =>
    rw [List.map_append]
    exact List.prefix_append _ _
  | all =>
    refine prefix_of_eq ?_
    rw [List.map_map]
    refine List.map_congr_left fun m _ => ?_
    exact (congrArg Endpoint.address m.connection.endpoint_markDisconnected).symm

end

namespace Listener

section
variable {l next later : Listener} {operation : Operation} {outcome : Outcome}

theorem Sound.extends (h : l.Sound) (hoperate : l.operate operation = .ok (next, outcome)) :
    l.Extends next where
  requests := by
    rcases operate_requests hoperate with hsame | ⟨r, -, hadded⟩ | ⟨request, -, hmarked⟩
    · exact prefix_of_eq (congrArg (List.map Request.address) hsame).symm
    · rw [requestAddresses, requestAddresses, hadded, List.map_append]
      exact List.prefix_append _ _
    · have hsame : next.requestAddresses = l.requestAddresses := by
        rw [← l.requestAddresses_markHandled request, requestAddresses, hmarked]
        rfl
      exact prefix_of_eq hsame.symm
  members := (operate_move h.listed hoperate).addresses fun _ hm => h.short hm

theorem Kept.extends (h : l.Kept) (hoperate : l.operate operation = .ok (next, outcome)) :
    l.Extends next := by
  obtain h | ⟨before, h, rfl⟩ := h
  · exact h.extends hoperate
  · rcases before.operate_abandon operation with heq | ⟨request, -, heq⟩ | heq
    · cases heq.symm.trans hoperate
      exact .refl _
    · cases heq.symm.trans hoperate
      have hsame := before.requestAddresses_markHandled request
      exact ⟨prefix_of_eq hsame.symm, List.prefix_rfl⟩
    · obtain ⟨next, outcome, hbefore, -⟩ := h.operate operation
      rw [hbefore] at heq
      cases heq.symm.trans hoperate
      obtain ⟨hrequests, hmembers⟩ := h.extends hbefore
      exact ⟨hrequests, hmembers⟩

theorem Later.extends (hlater : l.Later later) (h : l.Kept) : l.Extends later := by
  induction hlater with
  | now => exact .refl l
  | operated before happened ih => exact ih.trans ((before.kept h).extends happened)
  | abandoned before ih => exact ⟨ih.requests, ih.members⟩

end

end Listener

end DatagramTransport
