import DatagramTransport.Proofs.Connection.Room
import DatagramTransport.Proofs.Link.Sound

/-!
# Every run has an outcome

The ends of a link with a configuration that passes its check never fault,
whatever is sent, and whatever is lost, repeated or reordered on the way.
-/

set_option autoImplicit false

namespace DatagramTransport.Link

theorem deliver_ok {l : Link} {s : Side} {index : Nat} (keep : Bool) {d : Bytes}
    {step : Step (List Message)} (hd : (l.side s).queue.toList[index]? = some d)
    (hstep : (l.side s.other).connection.receive d = .ok step) :
    l.deliver s index keep =
      .ok (some ((if keep then l else (l.drop s index).getD l).settle s.other step)) := by
  have hsame : (if keep then l else (l.drop s index).getD l).side s.other = l.side s.other := by
    cases keep with
    | true => rfl
    | false =>
      obtain ⟨hlt, -⟩ := List.getElem?_eq_some_iff.mp hd
      obtain ⟨queue, -, hdrop⟩ := l.toList_drop s hlt
      rw [if_neg Bool.false_ne_true, hdrop, side_setSide_other]
  simp only [deliver, hd, hsame, hstep]
  rfl

section
variable {own : Side → Endpoint} {l : Link} {log : List Entry}

theorem Sound.roomy (h : Sound own l log) (s : Side)
    (hroom : (own s).config.maxDatagramLength ≤ 65535) : (l.side s).connection.Roomy where
  toShort := h.short s
  room := by
    rw [(h s).1.endpoint]
    exact Nat.le_trans hroom (by decide)

theorem Sound.receive_ok (h : Sound own l log) {s : Side}
    (hconfig : (own s.other).config = (own s).config)
    (hroom : (own s.other).config.maxDatagramLength ≤ 65535) {d : Bytes}
    (hd : d ∈ (l.side s).queue.toList) :
    ∃ step, (l.side s.other).connection.receive d = .ok step := by
  obtain ⟨header, body, rfl, -, -, hknown⟩ := (h s).1.queued d hd
  by_cases ha : (l.side s.other).connection.accepts header = true
  · obtain ⟨intake, htake⟩ : ∃ intake, takeFrames (l.side s.other).connection.channels
        (l.side s.other).connection.window (bodyBytes body) = .ok intake := by
      cases body with
      | none => exact ⟨_, takeFrames_nil _ _⟩
      | some t =>
        obtain ⟨layout, payload, hcarries, -⟩ := hknown t rfl
        obtain ⟨intake, htake, -⟩ := takeFrames_transfer (h.fits hconfig) hcarries
          (l.side s.other).connection.window
        exact ⟨intake, htake⟩
    exact ⟨_, (h.roomy s.other hroom).receive ha htake⟩
  · refine ⟨{ connection := (l.side s.other).connection, emitted := [], answer := [] }, ?_⟩
    simp only [Connection.receive, (h.short s.other).config, DataHeader.decode_bytes, ha]
    rfl

theorem Sound.next_ok (h : Sound own l log)
    (hconfig : ∀ s : Side, (own s.other).config = (own s).config)
    (hroom : ∀ s, (own s).config.maxDatagramLength ≤ 65535) (e : Event) :
    ∃ l' entries, l.next e = .ok (l', entries) := by
  cases e with
  | send s channel message =>
    have hanswer := (h.roomy s (hroom s)).send_faultless channel message
    simp only [Link.next, send, settle]
    cases ha : ((l.side s).connection.send channel message).answer with
    | ok => exact ⟨_, _, rfl⟩
    | error e =>
      cases e
      case fault f => exact absurd ha (hanswer f)
      all_goals exact ⟨_, _, rfl⟩
  | deliver s index keep =>
    simp only [Link.next]
    cases hd : (l.side s).queue.toList[index]? with
    | none => exact ⟨_, _, rfl⟩
    | some d =>
      obtain ⟨step, hstep⟩ := h.receive_ok (hconfig s) (hroom s.other) (List.mem_of_getElem? hd)
      exact ⟨_, _, bind_eq_ok.mpr ⟨_, deliver_ok keep hd hstep, rfl⟩⟩
  | lose s index => exact ⟨_, _, rfl⟩
  | greet s now => exact ⟨_, _, rfl⟩
  | ping s now ping => exact ⟨_, _, rfl⟩
  | disconnect s => exact ⟨_, _, rfl⟩

end

theorem Paired.next_ok {a b : Endpoint} (h : Paired a b) (hvalid : a.config.validate = .ok ())
    {l : Link} {log : List Entry} (hsound : Sound (endpoints a b) l log) (e : Event) :
    ∃ l' entries, l.next e = .ok (l', entries) := by
  apply hsound.next_ok
  · intro s
    rw [h.endpoints_config, h.endpoints_config]
  · intro s
    rw [h.endpoints_config]
    exact (Config.validate_eq_ok.mp hvalid).2.2.2.1

theorem Paired.run_ok {a b : Endpoint} (h : Paired a b) (hvalid : a.config.validate = .ok ())
    (events : List Event) : ∃ l log, (start a b).run events = .ok (l, log) := by
  suffices hall : ∀ (l : Link) (before : List Entry), Sound (endpoints a b) l before →
      ∃ l' log, l.run events = .ok (l', log) from hall _ [] h.sound_start
  induction events with
  | nil => exact fun l _ _ => ⟨l, [], rfl⟩
  | cons e events ih =>
    intro l before hsound
    obtain ⟨m, entries, hnext⟩ := h.next_ok hvalid hsound e
    obtain ⟨l', log, hrun⟩ := ih m _ (hsound.next hnext)
    exact ⟨l', entries ++ log,
      bind_eq_ok.mpr ⟨_, hnext, bind_eq_ok.mpr ⟨_, hrun, rfl⟩⟩⟩

end DatagramTransport.Link
