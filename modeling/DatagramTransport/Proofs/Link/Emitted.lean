import DatagramTransport.Proofs.Link.Total

/-!
# What a side emits at an event

All that waits in the queue of a side was emitted at some event. A side that
keeps no frame answers with acknowledgements only, which report what it has
noted by then, the datagram included that they answer.
-/

set_option autoImplicit false

namespace DatagramTransport.Link

def emittedAt (l : Link) (t : Side) : Event → List Bytes
  | .send s channel message => (l.send s channel message).emitted t
  | .deliver s index keep =>
    match l.deliver s index keep with
    | .ok (some step) => step.emitted t
    | .ok none | .error _ => []
  | .lose .. | .greet .. | .ping .. | .disconnect _ => []

section
variable {l l' : Link} {s t : Side} {entries : List Entry}

theorem emittedAt_send (hne : t ≠ s) (channel : UInt8) (message : Bytes) :
    l.emittedAt t (.send s channel message) = [] :=
  if_neg hne

theorem emittedAt_deliver_of_none {index : Nat} (hnone : (l.side s).queue.toList[index]? = none)
    (keep : Bool) : l.emittedAt t (.deliver s index keep) = [] := by
  simp only [emittedAt, deliver, hnone]
  rfl

theorem Handover.emittedAt_eq {index : Nat} {keep : Bool} (h : Handover s index keep l l' entries)
    (t : Side) :
    l.emittedAt t (.deliver s index keep) = if t = s.other then h.step.emitted else [] := by
  simp only [emittedAt, deliver_ok keep h.waiting h.received]
  rfl

theorem queue_settle {α : Type} (l : Link) (s t : Side) (step : Step α) :
    ((l.settle s step).link.side t).queue.toList =
      (l.side t).queue.toList ++ (l.settle s step).emitted t := by
  rcases Side.eq_or_eq_other s t with rfl | rfl <;> simp [settle]

theorem waiting_next {e : Event} (h : l.next e = .ok (l', entries)) {d : Bytes}
    (hd : d ∈ (l'.side t).queue.toList) :
    d ∈ (l.side t).queue.toList ∨ d ∈ l.emittedAt t e := by
  cases e with
  | send s channel message =>
    have hl : l' = (l.send s channel message).link := by
      simp only [next] at h
      split at h
      · exact (congrArg Prod.fst (Except.ok.inj h)).symm
      · cases h
      · exact (congrArg Prod.fst (Except.ok.inj h)).symm
    rw [hl, send, queue_settle, List.mem_append] at hd
    exact hd
  | deliver s index keep =>
    rcases next_deliver h with ⟨-, rfl, -⟩ | ⟨⟨hh⟩⟩
    · exact .inl hd
    rw [hh.emittedAt_eq]
    rcases Side.eq_or_eq_other s t with rfl | rfl
    · rw [hh.near] at hd
      exact .inl (hh.subset d hd)
    · rw [hh.far, Backlog.toList_push, List.mem_append] at hd
      rwa [if_pos rfl]
  | lose s index =>
    left
    cases h
    by_cases hi : index < (l.side s).queue.toList.length
    · obtain ⟨queue, hq, hdrop⟩ := l.toList_drop s hi
      rw [hdrop] at hd
      rcases Side.eq_or_eq_other s t with rfl | rfl
      · rw [side_setSide_self, hq] at hd
        exact (List.eraseIdx_sublist _ _).subset hd
      · rwa [side_setSide_other] at hd
    · rw [Backlog.length_toList] at hi
      simpa [drop, hi] using hd
  | greet s now | ping s now ping | disconnect s =>
    left
    cases h
    rcases Side.eq_or_eq_other s t with rfl | rfl <;> simpa [replace] using hd

end

/-- A connection that keeps no frame reports all that it has noted. -/
theorem Hears.emitted {noted : List UInt16} {e : LinkEnd} (h : Hears noted e)
    (hnone : ∀ id : UInt16, e.connection.pending[id]? = none) {datagram : Bytes}
    {step : Step (List Message)} (hr : e.connection.receive datagram = .ok step) {d : Bytes}
    (hd : d ∈ step.emitted) :
    ∃ (header : DataHeader) (body : Bytes), d = header.bytes ++ body ∧
      AckWindow.Reports (noted ++ e.connection.noted datagram) header.ackLatest header.ackMask := by
  have htracks := (h.received hr).tracks
  rcases Connection.receive_cases h.short hr with
    ⟨rfl, -⟩ | ⟨header, body, intake, -, -, -, -, rfl⟩
  · cases hd
  · have hnow : intake.window.Tracks (noted ++ e.connection.noted datagram) := htracks
    rw [Connection.emitted_received_of_empty hnone] at hd
    exact reports_datagrams hnow hd

end DatagramTransport.Link
