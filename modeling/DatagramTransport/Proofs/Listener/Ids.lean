import DatagramTransport.Proofs.Connection.Calls
import DatagramTransport.Proofs.IdPool
import DatagramTransport.Proofs.Listener.Run

/-!
# Connection ids of a running listener

As long as a listener was not stopped, its table has exactly the connections
that have not ended, each under its own address. These hold the ids that were
issued and are not free, so that no id is given back that nobody holds.
-/

set_option autoImplicit false

namespace DatagramTransport

section
variable {α β : Type} {f : α → Option β} {l : List α} {place : Nat} {a b : α}

theorem filterMap_set_same (ha : l[place]? = some a) (hsame : f b = f a) :
    (l.set place b).filterMap f = l.filterMap f := by
  induction l generalizing place with
  | nil => cases ha
  | cons c l ih =>
    cases place with
    | zero =>
      cases ha
      simp only [List.set_cons_zero, List.filterMap_cons, hsame]
    | succ place => simp only [List.set_cons_succ, List.filterMap_cons, @ih place ha]

theorem filterMap_set_none {x : β} (ha : l[place]? = some a) (hbefore : f a = some x)
    (hafter : f b = none) : (l.filterMap f).Perm (x :: (l.set place b).filterMap f) := by
  induction l generalizing place with
  | nil => cases ha
  | cons c l ih =>
    cases place with
    | zero =>
      cases ha
      rw [List.set_cons_zero, List.filterMap_cons_some hbefore, List.filterMap_cons_none hafter]
    | succ place =>
      rw [List.set_cons_succ, List.filterMap_cons, List.filterMap_cons]
      have hrest := @ih place ha
      cases f c with
      | none => exact hrest
      | some y => exact (hrest.cons y).trans (.swap x y _)

theorem eq_of_nodup_filterMap {i j : Nat} {x : β} (hnodup : (l.filterMap f).Nodup)
    (hi : l[i]? = some a) (hj : l[j]? = some b) (ha : f a = some x) (hb : f b = some x) :
    i = j := by
  obtain ⟨hilt, rfl⟩ := List.getElem?_eq_some_iff.mp hi
  obtain ⟨hjlt, rfl⟩ := List.getElem?_eq_some_iff.mp hj
  have hall := List.pairwise_iff_getElem.mp (List.pairwise_filterMap.mp hnodup)
  rcases Nat.lt_trichotomy i j with hlt | heq | hgt
  · exact absurd rfl (hall i j hilt hjlt hlt x ha x hb)
  · exact heq
  · exact absurd rfl (hall j i hjlt hilt hgt x hb x ha)

end

def Member.heldId (m : Member) : Option UInt16 :=
  if m.connection.phase = .disconnected then none else some m.connection.endpoint.id

namespace Listener

def heldIds (l : Listener) : List UInt16 :=
  l.members.filterMap Member.heldId

structure Accounted (l : Listener) (issued : List UInt16) : Prop where
  config : l.config.validate = .ok ()
  running : l.running = true
  pool : l.ids.Accounts issued l.heldIds
  entry : ∀ (address : String) (member : Nat), l.table[address]? = some member →
    ∃ m : Member, l.members[member]? = some m ∧ m.connection.phase ≠ .disconnected ∧
      m.connection.endpoint.address = address
  alive : ∀ (member : Nat) (m : Member), l.members[member]? = some m →
    m.connection.phase ≠ .disconnected → l.table[m.connection.endpoint.address]? = some member
  sturdy : ∀ m ∈ l.members, ∃ ids, m.connection.Sturdy ids

theorem accounted_bind {config : Config} {l : Listener} (h : bind config = .ok l) :
    l.Accounted [] := by
  obtain ⟨⟨⟩, hvalid, h⟩ := bind_eq_ok.mp h
  cases h
  exact {
    config := hvalid
    running := rfl
    pool := IdPool.accounts_full
    entry := by simp
    alive := by simp
    sturdy := by simp }

section
variable {l : Listener} {issued : List UInt16} {member : Nat} {m : Member}

theorem Accounted.markHandled (h : l.Accounted issued) (request : Nat) :
    (l.markHandled request).Accounted issued :=
  ⟨h.config, h.running, h.pool, h.entry, h.alive, h.sturdy⟩

theorem Accounted.touch (h : l.Accounted issued) (hm : l.members[member]? = some m) (after : Member)
    (hendpoint : after.connection.endpoint = m.connection.endpoint)
    (hphase : after.connection.phase = .disconnected ↔ m.connection.phase = .disconnected)
    (hsturdy : ∃ ids, after.connection.Sturdy ids) :
    Accounted { l with members := l.members.set member after } issued := by
  obtain ⟨hlt, -⟩ := List.getElem?_eq_some_iff.mp hm
  have hheld : after.heldId = m.heldId := by
    simp only [Member.heldId, hphase, hendpoint]
  constructor
  case config => exact h.config
  case running => exact h.running
  case pool =>
    have hids := filterMap_set_same hm hheld
    have hpool := h.pool
    rwa [heldIds, ← hids] at hpool
  case entry =>
    intro address other hentry
    obtain ⟨n, hn, halive, haddress⟩ := h.entry address other hentry
    by_cases heq : member = other
    · subst heq
      cases hm.symm.trans hn
      exact ⟨after, List.getElem?_set_self hlt, fun hended => halive (hphase.mp hended),
        by rwa [hendpoint]⟩
    · exact ⟨n, (List.getElem?_set_ne heq).trans hn, halive, haddress⟩
  case alive =>
    intro other n hn halive
    by_cases heq : member = other
    · subst heq
      cases (List.getElem?_set_self hlt).symm.trans hn
      rw [hendpoint]
      exact h.alive member m hm fun hended => halive (hphase.mpr hended)
    · exact h.alive other n ((List.getElem?_set_ne heq).symm.trans hn) halive
  case sturdy => exact forall_mem_set h.sturdy member hsturdy

theorem Accounted.call (h : l.Accounted issued) (hm : l.members[member]? = some m) (call : Call)
    (halive : call ≠ .markDisconnected) :
    ∃ next called, m.connection.call call = .ok (next, called) ∧ Accounted
      { l with members := l.members.set member { m with connection := next } } issued := by
  obtain ⟨ids, hsturdy⟩ := h.sturdy m (List.mem_of_getElem? hm)
  obtain ⟨next, called, hcall, hnext⟩ := hsturdy.call call
  obtain ⟨hendpoint, hphase⟩ := Connection.call_keeps hsturdy.toShort hcall halive
  exact ⟨next, called, hcall, h.touch hm _ hendpoint hphase ⟨_, hnext⟩⟩

theorem Accounted.enrolled (h : l.Accounted issued) {r : Request} {ids : IdPool} {id : UInt16}
    (hdraw : l.ids.allocate = (ids, some id)) (hfree : r.address ∉ l.table) (session : UInt16)
    (now : UInt32) : (l.enrolled r ids id session now).listener.Accounted (issued ++ [id]) := by
  have hnone : l.table[r.address]? = none := Std.ExtTreeMap.getElem?_eq_none hfree
  constructor
  case config => exact h.config
  case running => exact h.running
  case pool =>
    refine (h.pool.allocate hdraw).perm ?_
    simp only [heldIds, Listener.enrolled, List.filterMap_append]
    exact (List.perm_append_singleton id _).symm
  case entry =>
    intro address other hentry
    simp only [Listener.enrolled, Std.ExtTreeMap.getElem?_insert, Std.compare_eq_iff_eq] at hentry ⊢
    split at hentry
    · rename_i heq
      cases hentry
      refine ⟨_, List.getElem?_concat_length, ?_, heq⟩
      exact Phase.noConfusion
    · obtain ⟨n, hn, halive, haddress⟩ := h.entry address other hentry
      obtain ⟨hlt, -⟩ := List.getElem?_eq_some_iff.mp hn
      exact ⟨n, (List.getElem?_append_left hlt).trans hn, halive, haddress⟩
  case alive =>
    intro other n hn halive
    simp only [Listener.enrolled, Std.ExtTreeMap.getElem?_insert, Std.compare_eq_iff_eq] at hn ⊢
    by_cases hlt : other < l.members.length
    · rw [List.getElem?_append_left hlt] at hn
      have hentry := h.alive other n hn halive
      rw [if_neg, hentry]
      intro heq
      rw [← heq, hnone] at hentry
      cases hentry
    · rw [List.getElem?_append_right (Nat.le_of_not_lt hlt), List.getElem?_singleton] at hn
      split at hn
      · cases hn
        have haddress : r.address =
            ((l.newcomer r id session).initialPing now).connection.endpoint.address := rfl
        have heq : l.members.length = other := by omega
        rw [if_pos haddress, heq]
      · cases hn
  case sturdy =>
    intro n hn
    rcases List.mem_append.mp hn with hn | hn
    · exact h.sturdy n hn
    · rw [List.mem_singleton.mp hn]
      have hnew : (l.newcomer r id session).Sturdy [] :=
        (Connection.roomy_start h.config).sturdy_start
      obtain ⟨next, called, hcall, hnext⟩ := hnew.call (.greet now)
      cases hcall
      exact ⟨_, hnext⟩

theorem Accounted.lost (h : l.Accounted issued) {ids : IdPool} {id : UInt16}
    (hdraw : l.ids.allocate = (ids, some id)) :
    ids.release id = .ok { ids with free := id :: ids.free } ∧
      Accounted { l with ids := { ids with free := id :: ids.free } } (issued ++ [id]) := by
  obtain ⟨hrelease, hpool⟩ := (h.pool.allocate hdraw).release
  exact ⟨hrelease, h.config, h.running, hpool, h.entry, h.alive, h.sturdy⟩

theorem Accounted.ended (h : l.Accounted issued) (hm : l.members[member]? = some m)
    (halive : m.connection.phase ≠ .disconnected) (reason : DisconnectReason) (notify : Bool) :
    ∃ ids, l.ids.release m.connection.endpoint.id = .ok ids ∧
      (l.ended member m ids reason notify).listener.Accounted issued := by
  obtain ⟨hlt, -⟩ := List.getElem?_eq_some_iff.mp hm
  -- it has not ended, so that the entry of its address is its own and not a successor's
  have hentry := h.alive member m hm halive
  let after : Member := { m with connection := m.connection.markDisconnected.1 }
  have hafter : after.connection.phase = .disconnected := by
    simp only [after, Connection.markDisconnected, if_neg halive]
  have hperm : l.heldIds.Perm
      (m.connection.endpoint.id :: (l.members.set member after).filterMap Member.heldId) :=
    filterMap_set_none hm (if_neg halive) (if_pos hafter)
  obtain ⟨hrelease, hpool⟩ := (h.pool.perm hperm).release
  refine ⟨_, hrelease, h.config, h.running, hpool, ?_, ?_, ?_⟩
  · intro address other hother
    simp only [Listener.ended, if_pos hentry, Std.ExtTreeMap.getElem?_erase,
      Std.compare_eq_iff_eq] at hother ⊢
    split at hother
    · cases hother
    · rename_i hne
      obtain ⟨n, hn, hlives, haddress⟩ := h.entry address other hother
      have hdiff : member ≠ other := by
        rintro rfl
        cases hm.symm.trans hn
        exact hne haddress
      exact ⟨n, (List.getElem?_set_ne hdiff).trans hn, hlives, haddress⟩
  · intro other n hn hlives
    by_cases heq : member = other
    · subst heq
      cases (List.getElem?_set_self hlt).symm.trans hn
      exact absurd hafter hlives
    · have hn' := (List.getElem?_set_ne heq).symm.trans hn
      have hothers := h.alive other n hn' hlives
      simp only [Listener.ended, if_pos hentry, Std.ExtTreeMap.getElem?_erase,
        Std.compare_eq_iff_eq]
      rw [if_neg, hothers]
      intro hsame
      rw [← hsame, hentry] at hothers
      exact heq (Option.some.inj hothers)
  · apply forall_mem_set h.sturdy
    obtain ⟨ids, hsturdy⟩ := h.sturdy m (List.mem_of_getElem? hm)
    obtain ⟨next, called, hcall, hnext⟩ := hsturdy.call .markDisconnected
    cases hcall
    exact ⟨_, hnext⟩

theorem Accounted.disconnect (h : l.Accounted issued) (member : Nat) (reason : DisconnectReason)
    (notify : Bool) :
    ∃ e, l.disconnect member reason notify = .ok e ∧ e.listener.Accounted issued := by
  cases hm : l.members[member]? with
  | none => exact ⟨_, disconnect_of_none hm reason notify, h⟩
  | some m =>
    rcases disconnect_cases hm reason notify with ⟨-, hsame⟩ | ⟨halive, heq⟩
    · exact ⟨_, hsame, h⟩
    · obtain ⟨ids, hrelease, hafter⟩ := h.ended hm halive reason notify
      refine ⟨_, ?_, hafter⟩
      rw [heq, hrelease]
      rfl

theorem Accounted.handle (h : l.Accounted issued) (hm : l.members[member]? = some m) (now : UInt32)
    (item : Inbound) :
    ∃ e, l.handle member m now item = .ok e ∧ e.listener.Accounted issued := by
  cases item with
  | data datagram =>
    obtain ⟨next, called, hcall, hafter⟩ := h.call hm (.receive datagram) Call.noConfusion
    obtain ⟨step, hstep, hcall⟩ := bind_eq_ok.mp hcall
    cases hcall
    refine ⟨_, bind_eq_ok.mpr ⟨step, hstep, rfl⟩, ?_⟩
    rw [settle_of_member hm]
    exact hafter
  | ping ping =>
    obtain ⟨next, called, hcall, hafter⟩ := h.call hm (.ping now ping) Call.noConfusion
    cases hcall
    refine ⟨_, rfl, ?_⟩
    rw [settle_of_member hm]
    exact hafter
  | disconnect reason => exact h.disconnect member reason false

theorem Accounted.work (h : l.Accounted issued) (member : Nat) (now : UInt32) :
    ∃ e, l.work member now = .ok e ∧ e.listener.Accounted issued := by
  rcases l.work_cases member now with hnone | ⟨m, item, queue, hm, -, heq⟩
  · exact ⟨_, hnone, h⟩
  · obtain ⟨hlt, -⟩ := List.getElem?_eq_some_iff.mp hm
    have hpopped := h.touch hm { m with queue } rfl Iff.rfl (h.sturdy m (List.mem_of_getElem? hm))
    rw [heq]
    exact hpopped.handle (List.getElem?_set_self hlt) now item

theorem Accounted.send (h : l.Accounted issued) (member : Nat) (channel : UInt8)
    (message : Bytes) :
    Faultless (l.send member channel message).answer ∧
      (l.send member channel message).listener.Accounted issued := by
  unfold Listener.send
  cases hm : l.members[member]? with
  | none => exact ⟨faultless_ok (), h⟩
  | some m =>
    obtain ⟨ids, hsturdy⟩ := h.sturdy m (List.mem_of_getElem? hm)
    have hfaultless := hsturdy.send_faultless channel message
    obtain ⟨next, called, hcall, hafter⟩ :=
      h.call hm (.send channel message) Call.noConfusion
    dsimp only
    rw [settle_of_member hm]
    refine ⟨hfaultless, ?_⟩
    simp only [Connection.call] at hcall
    split at hcall
    · cases hcall
    · cases hcall
      exact hafter

theorem Accounted.accept (h : l.Accounted issued) (request : Nat) (session : UInt16)
    (now : UInt32) :
    ∃ e, l.accept request session now = .ok e ∧
      e.listener.Accounted (issued ++ (l.drawFor request).toList) := by
  cases hr : l.requests[request]? with
  | none =>
    have hdraw : l.drawFor request = none := by simp only [drawFor, hr]
    rw [hdraw, Option.toList_none, List.append_nil]
    exact ⟨_, accept_of_none session now hr, h⟩
  | some r =>
    cases hopen : r.handled with
    | true =>
      have hdraw : l.drawFor request = none := by simp [drawFor, hr, hopen]
      rw [hdraw, Option.toList_none, List.append_nil]
      exact ⟨_, Decided.accept session now ⟨r, hr, hopen⟩, h⟩
    | false =>
      rcases accept_cases session now hr hopen with
        ⟨-, hdraw, heq⟩ | ⟨-, ids, id, hids, hdraw, hcases⟩
      · rw [hdraw, Option.toList_none, List.append_nil]
        exact ⟨_, heq, h.markHandled request⟩
      · rw [hdraw]
        rcases hcases with ⟨rfl, heq⟩ | ⟨drawn, rfl, -, heq⟩ | ⟨drawn, rfl, hfree, heq⟩
        · rw [Option.toList_none, List.append_nil]
          exact ⟨_, heq, h.markHandled request⟩
        · obtain ⟨hrelease, hafter⟩ := (h.markHandled request).lost hids
          exact ⟨_, heq.trans (bind_eq_ok.mpr ⟨_, hrelease, rfl⟩), hafter⟩
        · exact ⟨_, heq, (h.markHandled request).enrolled hids hfree session now⟩

theorem Accounted.dispatch (h : l.Accounted issued) (address : String) (datagram : Bytes) :
    (l.dispatch address datagram).1.Accounted issued := by
  rcases l.dispatch_cases address datagram with
    hsame | ⟨-, packet, rest, -, hrequest⟩ | ⟨member, m, item, -, hm, hqueue⟩
  · rw [hsame]
    exact h
  · rw [hrequest]
    exact ⟨h.config, h.running, h.pool, h.entry, h.alive, h.sturdy⟩
  · rw [hqueue]
    exact h.touch hm _ rfl Iff.rfl (h.sturdy m (List.mem_of_getElem? hm))

theorem Accounted.reject (h : l.Accounted issued) (request : Nat) (reason : DisconnectReason) :
    (l.reject request reason).listener.Accounted issued := by
  unfold Listener.reject
  cases l.requests[request]? with
  | none => exact h
  | some r =>
    dsimp only
    split
    · exact h
    · exact h.markHandled request

theorem Accounted.operate (h : l.Accounted issued) {operation : Operation}
    (hrunning : operation ≠ .stop) :
    ∃ next outcome, l.operate operation = .ok (next, outcome) ∧
      next.Accounted (issued ++ outcome.issued) := by
  cases operation with
  | datagram address bytes =>
    refine ⟨_, _, rfl, ?_⟩
    rw [List.append_nil]
    exact h.dispatch address bytes
  | accept request session now =>
    obtain ⟨e, he, hafter⟩ := h.accept request session now
    exact ⟨_, _, bind_eq_ok.mpr ⟨e, he, rfl⟩, hafter⟩
  | reject request reason =>
    refine ⟨_, _, rfl, ?_⟩
    rw [List.append_nil]
    exact h.reject request reason
  | work member now =>
    obtain ⟨e, he, hafter⟩ := h.work member now
    exact ⟨_, _, bind_eq_ok.mpr ⟨e, he, rfl⟩, by rwa [List.append_nil]⟩
  | disconnect member reason =>
    obtain ⟨e, he, hafter⟩ := h.disconnect member reason true
    exact ⟨_, _, bind_eq_ok.mpr ⟨e, he, rfl⟩, by rwa [List.append_nil]⟩
  | send member channel message =>
    obtain ⟨hfaultless, hafter⟩ := h.send member channel message
    simp only [Listener.operate]
    cases ha : (l.send member channel message).answer with
    | ok => exact ⟨_, _, rfl, by rwa [List.append_nil]⟩
    | error e =>
      cases e
      case fault f => exact absurd ha (hfaultless f)
      all_goals exact ⟨_, _, rfl, by rwa [List.append_nil]⟩
  | stop => exact absurd rfl hrunning

end

def tableIds (l : Listener) : List UInt16 :=
  l.table.toList.filterMap fun entry =>
    (l.members[entry.2]?).map fun m => m.connection.endpoint.id

/-- Every connection in the table has the address that it is found under, and an id that is neither
free nor zero nor another one's. -/
structure Consistent (l : Listener) (issued : List UInt16) : Prop where
  address : ∀ (address : String) (member : Nat), l.table[address]? = some member →
    ∃ m : Member, l.members[member]? = some m ∧ m.connection.endpoint.address = address
  nodup : (l.tableIds ++ l.ids.free).Nodup
  nonzero : 0 ∉ l.tableIds ++ l.ids.free
  issued_iff : ∀ id, id ∈ issued ↔ id ∈ l.tableIds ++ l.ids.free

section
variable {l : Listener} {issued : List UInt16}

theorem Accounted.perm_tableIds (h : l.Accounted issued) : l.heldIds.Perm l.tableIds := by
  have hheld : l.heldIds.Nodup := h.pool.nodup.sublist (List.sublist_append_left _ _)
  have hmember : ∀ entry ∈ l.table.toList, ∃ m, l.members[entry.2]? = some m ∧
      m.heldId = some m.connection.endpoint.id ∧ m.connection.endpoint.address = entry.1 := by
    intro entry hentry
    obtain ⟨m, hm, halive, haddress⟩ :=
      h.entry entry.1 entry.2 (Std.ExtTreeMap.mem_toList_iff_getElem?_eq_some.mp hentry)
    exact ⟨m, hm, if_neg halive, haddress⟩
  refine (List.perm_ext_iff_of_nodup hheld ?_).mpr ?_
  · rw [tableIds, List.Nodup, List.pairwise_filterMap]
    refine Std.ExtTreeMap.distinct_keys_toList.imp_of_mem ?_
    intro a b ha hb hkeys x hx y hy heq
    obtain ⟨m, hm, hid, haddress⟩ := hmember a ha
    obtain ⟨n, hn, hid', haddress'⟩ := hmember b hb
    simp only [hm, hn, Option.map_some, Option.some.injEq] at hx hy
    subst hx hy
    rw [heq] at hid
    have hsame := eq_of_nodup_filterMap hheld hm hn hid hid'
    rw [hsame] at hm
    cases hm.symm.trans hn
    exact hkeys (Std.compare_eq_iff_eq.mpr (haddress.symm.trans haddress'))
  · intro id
    simp only [heldIds, tableIds, List.mem_filterMap]
    constructor
    · rintro ⟨m, hm, hid⟩
      obtain ⟨member, hmember⟩ := List.mem_iff_getElem?.mp hm
      by_cases hended : m.connection.phase = .disconnected
      · rw [Member.heldId, if_pos hended] at hid
        cases hid
      · rw [Member.heldId, if_neg hended] at hid
        refine ⟨(m.connection.endpoint.address, member), ?_, ?_⟩
        · exact Std.ExtTreeMap.mem_toList_iff_getElem?_eq_some.mpr (h.alive member m hmember hended)
        · rw [hmember]
          exact hid
    · rintro ⟨entry, hentry, hid⟩
      obtain ⟨m, hm, hheldId, -⟩ := hmember entry hentry
      rw [hm] at hid
      exact ⟨m, List.mem_of_getElem? hm, hheldId.trans hid⟩

theorem Accounted.consistent (h : l.Accounted issued) : l.Consistent issued := by
  have hpool := h.pool.perm h.perm_tableIds
  constructor
  case address =>
    intro address member hentry
    obtain ⟨m, hm, -, haddress⟩ := h.entry address member hentry
    exact ⟨m, hm, haddress⟩
  case nodup => exact hpool.nodup
  case nonzero => exact fun hzero => hpool.nonzero ((hpool.issued_iff 0).mpr hzero)
  case issued_iff => exact hpool.issued_iff

/-- An accepted request that comes too late for its address leaves a free id behind. -/
theorem Accounted.accept_late (h : l.Accounted issued) {request : Nat} {r : Request}
    (hr : l.requests[request]? = some r) (hopen : r.handled = false) (hlate : r.address ∈ l.table)
    {ids : IdPool} {id : UInt16} (hdraw : l.ids.allocate = (ids, some id)) (session : UInt16)
    (now : UInt32) :
    ∃ ids, id ∈ ids.free ∧ l.accept request session now =
      .ok (({ l.markHandled request with ids } : Listener).unchanged none) := by
  rcases accept_cases session now hr hopen with
    ⟨hstopped, -⟩ | ⟨-, ids', id', hids, -, ⟨rfl, -⟩ | ⟨drawn, rfl, -, heq⟩ | ⟨drawn, -, hfree, -⟩⟩
  · rw [h.running] at hstopped
    cases hstopped
  · rw [hdraw] at hids
    cases hids
  · cases hdraw.symm.trans hids
    obtain ⟨hrelease, -⟩ := h.lost hdraw
    exact ⟨_, List.mem_cons_self, heq.trans (bind_eq_ok.mpr ⟨_, hrelease, rfl⟩)⟩
  · exact absurd hlate hfree

theorem accounted_run {config : Config} (hbind : bind config = .ok l)
    {operations : List Operation} (hrunning : .stop ∉ operations) :
    ∃ last log, l.run operations = .ok (last, log) ∧
      last.Accounted (log.flatMap Outcome.issued) := by
  refine runAll_induction
    (P := fun (l : Listener) log => l.Accounted (log.flatMap Outcome.issued)) ?_
    (accounted_bind hbind)
  intro l log h operation hmem
  have hother : operation ≠ .stop := fun heq => hrunning (heq ▸ hmem)
  obtain ⟨next, outcome, hoperate, hnext⟩ := h.operate hother
  refine ⟨next, outcome, hoperate, ?_⟩
  rwa [List.flatMap_append, List.flatMap_singleton]

end

/-- No id is given back that is free or zero, table and pool stay consistent, and only the first
decision on a request counts. -/
theorem running_listener_consistent {config : Config} {start : Listener}
    (hbind : bind config = .ok start) {operations : List Operation}
    (hrunning : .stop ∉ operations) :
    ∃ l log, start.run operations = .ok (l, log) ∧
      l.Consistent (log.flatMap Outcome.issued) ∧
      (∀ before decision after request middle earlier,
        operations = before ++ decision :: after → start.run before = .ok (middle, earlier) →
        decision.request? = some request → request < middle.requests.length →
        ∀ session now reason, l.accept request session now = .ok (l.unchanged none) ∧
          l.reject request reason = l.unchanged ()) ∧
      ∀ (request : Nat) (r : Request), l.requests[request]? = some r → r.handled = false →
        r.address ∈ l.table → ∀ ids id, l.ids.allocate = (ids, some id) → ∀ session now,
        ∃ ids, id ∈ ids.free ∧ l.accept request session now =
          .ok (({ l.markHandled request with ids } : Listener).unchanged none) := by
  obtain ⟨l, log, hrun, h⟩ := accounted_run hbind hrunning
  refine ⟨l, log, hrun, h.consistent, ?_, ?_⟩
  · rintro before decision after request middle earlier rfl hbefore hrequest hlt session now reason
    obtain ⟨middle', earlier', later, hbefore', hafter, -⟩ := runAll_append_eq_ok.mp hrun
    cases hbefore.symm.trans hbefore'
    obtain ⟨next, outcome, rest, hdecision, hrest, -⟩ := runAll_cons_eq_ok.mp hafter
    have hdecided := (decided_of_operate hrequest hlt hdecision).run hrest
    exact ⟨hdecided.accept session now, hdecided.reject reason⟩
  · intro request r hr hopen hlate ids id hdraw session now
    exact h.accept_late hr hopen hlate hdraw session now

theorem running_listener_consistent_late :
    ∃ (config : Config) (start l : Listener) (operations : List Operation) (log : List Outcome),
      bind config = .ok start ∧ .stop ∉ operations ∧ start.run operations = .ok (l, log) ∧
        l.Consistent (log.flatMap Outcome.issued) ∧
        l.reject 0 .noResources = l.unchanged () ∧
        ∃ ids, 2 ∈ ids.free ∧ l.accept 1 9 0 =
          .ok (({ l.markHandled 1 with ids } : Listener).unchanged none) := by
  let knock : Operation := .datagram "10.0.0.2:7000"
    [0, 0, 1, 0, 0, 0, 7, 0, 3, 0, 0, 1, 0, 1, 0, 0, 0, 0, 0]
  let operations := [knock, knock, .accept 0 9 0]
  obtain
    ⟨start, hbind, middle, earlier, hknocks, hlt, l, log, hrun, r, hr, hopen, hin, ids, hdraw⟩ :
      ∃ start, bind .standard = .ok start ∧
        ∃ middle earlier, start.run [knock, knock] = .ok (middle, earlier) ∧
          0 < middle.requests.length ∧
        ∃ l log, start.run operations = .ok (l, log) ∧
        ∃ r, l.requests[1]? = some r ∧ r.handled = false ∧ r.address ∈ l.table ∧
        ∃ ids, l.ids.allocate = (ids, some 2) :=
    ⟨_, rfl, _, _, rfl, by decide, _, _, rfl, _, rfl, rfl, by decide +kernel, _, rfl⟩
  have hrunning : .stop ∉ operations := by decide
  obtain ⟨l', log', hrun', hconsistent, hdecided, hlate⟩ :=
    running_listener_consistent hbind hrunning
  cases hrun.symm.trans hrun'
  refine ⟨.standard, start, l, operations, log, hbind, hrunning, hrun, hconsistent, ?_, ?_⟩
  · exact (hdecided [knock, knock] _ [] 0 middle earlier rfl hknocks rfl hlt 9 0 .noResources).2
  · exact hlate 1 r hr hopen hin ids 2 hdraw 9 0

end Listener

end DatagramTransport
