import DatagramTransport.Proofs.Connection.Room
import DatagramTransport.Proofs.Runs

/-!
# Several frames in one datagram

A datagram with several frames does what its header and each of its frames
would do, each in a datagram of its own: all have the same report, which has
its effect the first time, and every frame finds channels and window as the
frames before it left them. Where the rest of a datagram cannot be read, it
is as if it had not been there.
-/

set_option autoImplicit false

namespace DatagramTransport

theorem takeFrame_append {headerLength : Nat} {bytes body : Bytes}
    (h : takeFrame headerLength bytes = ([], .ok body)) (rest : Bytes) :
    takeFrame headerLength (bytes ++ rest) = (rest, .ok body) := by
  obtain ⟨length, hheader, hbody, rfl⟩ := takeFrame_eq_ok.mp h
  refine takeFrame_eq_ok.mpr ⟨length, hheader, hbody, ?_⟩
  rw [List.append_nil, List.append_assoc]

theorem Channel.process_append {c : Channel} {w : AckWindow} {frame : Bytes} {p : Processed}
    (h : c.process w frame = ([], .ok p)) (rest : Bytes) :
    c.process w (frame ++ rest) = (rest, .ok p) := by
  obtain ⟨hrest, hp⟩ := Prod.mk.inj h
  obtain ⟨body, hbody, hp⟩ := bind_eq_ok.mp hp
  rw [process, takeFrame_append (Prod.ext hrest hbody)]
  exact Prod.ext rfl hp

/-- The channels take the frames one after the other, each of them whole, and
each as the frames before it left channels and window. -/
inductive Takes : List Channel → AckWindow → List (Transfer × Processed) →
    List Channel → AckWindow → Prop
  | nil (channels : List Channel) (window : AckWindow) : Takes channels window [] channels window
  | cons {channels last : List Channel} {window lastWindow : AckWindow} {t : Transfer}
      {p : Processed} {taken : List (Transfer × Processed)} {c : Channel}
      (found : channels[t.channel.toNat]? = some c)
      (whole : c.process window t.frame = ([], .ok p))
      (rest : Takes (channels.set t.channel.toNat p.channel) p.window taken last lastWindow) :
      Takes channels window ((t, p) :: taken) last lastWindow

/-- There is nothing, or no channel for it, or the channel refuses it. -/
def Unreadable (channels : List Channel) (window : AckWindow) : Bytes → Prop
  | [] => True
  | id :: bytes => ∀ c, channels[id.toNat]? = some c →
      ∃ e, (c.process window bytes).2 = .error e ∧ ∀ f, e ≠ .fault f

def Transfer.messages (t : Transfer) (p : Processed) : List Message :=
  p.delivered.map (Message.mk t.channel)

def framesOf (taken : List (Transfer × Processed)) : Bytes :=
  taken.flatMap fun x => bodyBytes (some x.1)

section
variable {channels last : List Channel} {window lastWindow : AckWindow} {tail : Bytes}
  {taken : List (Transfer × Processed)}

theorem takeFrames_unreadable (h : Unreadable channels window tail) :
    takeFrames channels window tail =
      .ok { channels, window, messages := [], accepted := false } := by
  cases tail with
  | nil => rw [takeFrames]
  | cons id bytes =>
    rw [takeFrames]
    cases hc : channels[id.toNat]? with
    | none => rfl
    | some c =>
      obtain ⟨e, he, hne⟩ := h c hc
      simp only [he]

theorem unreadable_nil : Unreadable channels window [] := trivial

/-- The frame loop ends where the rest cannot be read, after all the frames before it. -/
theorem Takes.takeFrames (h : Takes channels window taken last lastWindow)
    (htail : Unreadable last lastWindow tail) :
    DatagramTransport.takeFrames channels window (framesOf taken ++ tail) =
      .ok { channels := last, window := lastWindow
            messages := taken.flatMap fun x => x.1.messages x.2
            accepted := taken.any fun x => x.2.accepted } := by
  induction h with
  | nil => exact takeFrames_unreadable htail
  | @cons channels last window lastWindow t p taken c found whole rest ih =>
    have hbytes : framesOf ((t, p) :: taken) ++ tail =
        t.channel :: (t.frame ++ (framesOf taken ++ tail)) := by
      simp [framesOf, bodyBytes]
    rw [hbytes, DatagramTransport.takeFrames, found]
    simp only [Channel.process_append whole, ih htail]
    rfl

end

namespace Connection

def answers (c : Connection) (header : DataHeader) (accepted : Bool) : List (Option Transfer) :=
  let reading := AckWindow.reading header.ackLatest header.ackMask
  (c.confirm reading.received).kept reading.missing ++
    List.replicate (if accepted then c.endpoint.config.ackEchoes else 0) none

theorem map_ofDatagram?_received (c : Connection) (header : DataHeader) (intake : Intake) :
    (c.received header intake).emitted.map Transfer.ofDatagram? =
      c.answers header intake.accepted := by
  simp only [received, answers, List.map_append, map_ofDatagram?_datagrams]

theorem count_none_answers (c : Connection) (header : DataHeader) (accepted : Bool) :
    (c.answers header accepted).count none =
      if accepted then c.endpoint.config.ackEchoes else 0 := by
  have hframes (ids : List UInt16) (d : Connection) : none ∉ d.kept ids := by simp [kept]
  rw [answers, List.count_append, List.count_eq_zero_of_not_mem (hframes _ _), Nat.zero_add,
    List.count_replicate_self]

def receiveAll (c : Connection) (datagrams : List Bytes) :
    Except Fault (Connection × List (List Message)) :=
  runAll (fun c datagram => do
    let step ← c.receive datagram
    return (step.connection, step.answer)) c datagrams

theorem receiveAll_cons (c : Connection) (datagram : Bytes) (later : List Bytes) :
    c.receiveAll (datagram :: later) = (do
      let step ← c.receive datagram
      let r ← step.connection.receiveAll later
      return (r.1, step.answer :: r.2)) := by
  rw [receiveAll, runAll]
  cases c.receive datagram <;> rfl

def Answerable (c : Connection) (bodies : List (Option Transfer)) : Prop :=
  bodies = [] ∨ c.endpoint.config.maxDatagramLength ≤ maxBufferLength

instance (c : Connection) (bodies : List (Option Transfer)) : Decidable (c.Answerable bodies) :=
  inferInstanceAs (Decidable (_ ∨ _))

theorem answerable_append {c : Connection} {first later : List (Option Transfer)} :
    c.Answerable (first ++ later) ↔ c.Answerable first ∧ c.Answerable later := by
  rw [Answerable, List.append_eq_nil_iff, and_or_right]
  rfl

theorem answerable_answers_or {c : Connection} {header : DataHeader} {first later : Bool} :
    c.Answerable (c.answers header (first || later)) ↔
      c.Answerable (c.answers header first) ∧ c.Answerable (c.answers header later) := by
  simp only [answers, answerable_append]
  cases first <;> cases later <;> simp +contextual [Answerable]

section
variable {c : Connection} (h : c.Short)
include h

theorem sendAgain_short (ids : List UInt16) :
    (c.sendAgain ids).answer = if c.Answerable (c.kept ids) then .ok ()
      else .error (.fault .capacityOverflow) := by
  by_cases hroom : c.endpoint.config.maxDatagramLength ≤ maxBufferLength
  · rw [if_pos (.inr hroom)]
    exact Roomy.sendAgain_answer ⟨h, hroom⟩ ids
  · induction ids with
    | nil =>
      rw [if_pos (.inl rfl)]
      rfl
    | cons id ids ih =>
      rw [sendAgain]
      cases hp : c.pending[id]? with
      | none =>
        have hkept : c.kept (id :: ids) = c.kept ids := by simp [kept, hp]
        rw [hkept]
        exact ih
      | some t =>
        have hkept : c.kept (id :: ids) ≠ [] := by simp [kept, hp]
        have hnone : ¬ c.Answerable (c.kept (id :: ids)) := not_or.mpr ⟨hkept, hroom⟩
        simp only [packet_eq h, if_pos (Nat.lt_of_not_le hroom), if_neg hnone]

theorem echo_short (n : Nat) :
    Connection.echo n c = if c.Answerable (List.replicate n none) then
      .ok { connection := c.advance n, emitted := c.datagrams (List.replicate n none)
            answer := () }
    else .error .capacityOverflow := by
  by_cases hroom : c.endpoint.config.maxDatagramLength ≤ maxBufferLength
  · rw [if_pos (.inr hroom)]
    exact Roomy.echo ⟨h, hroom⟩ n
  · cases n with
    | zero => simp [Connection.echo, Answerable, datagrams]
    | succ n =>
      have hnone : ¬ c.Answerable (List.replicate (n + 1) none) :=
        not_or.mpr ⟨List.cons_ne_nil _ _, hroom⟩
      rw [if_neg hnone, Connection.echo, packet_eq h, if_pos (Nat.lt_of_not_le hroom)]

theorem receive_short {header : DataHeader} {body : Bytes} {intake : Intake}
    (ha : c.accepts header = true) (ht : takeFrames c.channels c.window body = .ok intake) :
    c.receive (header.bytes ++ body) =
      if c.Answerable (c.answers header intake.accepted) then .ok (c.received header intake)
      else .error .capacityOverflow := by
  unfold Connection.receive received answers
  simp only [h.config, DataHeader.decode_bytes, ha, if_true]
  rw [acknowledge_eq h]
  generalize AckWindow.reading header.ackLatest header.ackMask = reading
  have hagain := sendAgain_short (h.confirm reading.received) reading.missing
  simp only [answerable_append]
  by_cases hkept : c.Answerable ((c.confirm reading.received).kept reading.missing)
  · have hok : ((c.confirm reading.received).sendAgain reading.missing).answer = .ok () :=
      hagain.trans (if_pos hkept)
    have hmode : intake.window.mode = .short := (takeFrames_mode ht).trans h.window
    have hecho := echo_short (c :=
      { (c.confirm reading.received).advance
          ((c.confirm reading.received).kept reading.missing).length with
        channels := intake.channels, window := intake.window }) ⟨hmode, h.config⟩
    rw [sendAgain_eq (h.confirm reading.received) hok]
    simp only [and_iff_right hkept]
    by_cases hnew : c.Answerable
        (List.replicate (if intake.accepted then c.endpoint.config.ackEchoes else 0) none)
    · rw [if_pos hnew]
      exact bind_eq_ok.mpr ⟨intake, ht, bind_eq_ok.mpr ⟨_, (hecho _).trans (if_pos hnew), rfl⟩⟩
    · rw [if_neg hnew]
      exact (bind_of_ok ht).trans (bind_of_error ((hecho _).trans (if_neg hnew)))
  · have hfault : ((c.confirm reading.received).sendAgain reading.missing).answer =
        .error (.fault .capacityOverflow) := hagain.trans (if_neg hkept)
    rw [hfault, if_neg fun hall => hkept hall.1]
    rfl

end

/-- The connection that heard the header, with whatever frames and however often: its
report has had its effect, which it has only once. -/
structure Heard (c : Connection) (header : DataHeader) (d : Connection) : Prop where
  short : d.Short
  endpoint : d.endpoint = c.endpoint
  phase : d.phase = c.phase
  pending : d.pending =
    (c.confirm (AckWindow.reading header.ackLatest header.ackMask).received).pending

theorem pending_confirm_twice (c : Connection) (ids : List UInt16) :
    ((c.confirm ids).confirm ids).pending = (c.confirm ids).pending := by
  apply Std.ExtTreeMap.ext_getElem?
  intro id
  rw [getElem?_confirm, getElem?_confirm]
  split <;> rfl

section
variable {c d : Connection} {header : DataHeader} {intake : Intake} {body : Bytes}

theorem heard_received (header : DataHeader) (h : c.Short)
    (ht : takeFrames c.channels c.window body = .ok intake) :
    Heard c header (c.received header intake).connection where
  short := ⟨(takeFrames_mode ht).trans h.window, h.config⟩
  endpoint := rfl
  phase := rfl
  pending := rfl

theorem Heard.confirm_pending (h : Heard c header d) :
    (d.confirm (AckWindow.reading header.ackLatest header.ackMask).received).pending =
      (c.confirm (AckWindow.reading header.ackLatest header.ackMask).received).pending := by
  rw [← pending_confirm_twice c]
  exact congrArg (List.foldl Std.ExtTreeMap.erase · _) h.pending

theorem Heard.received (h : Heard c header d)
    (ht : takeFrames d.channels d.window body = .ok intake) :
    Heard c header (d.received header intake).connection :=
  let again := heard_received header h.short ht
  ⟨again.short, again.endpoint.trans h.endpoint, again.phase.trans h.phase,
    again.pending.trans h.confirm_pending⟩

theorem Heard.answers (h : Heard c header d) (accepted : Bool) :
    d.answers header accepted = c.answers header accepted := by
  simp only [Connection.answers, kept, h.confirm_pending, h.endpoint]

theorem Heard.answerable (h : Heard c header d) (bodies : List (Option Transfer)) :
    d.Answerable bodies ↔ c.Answerable bodies := by
  rw [Answerable, Answerable, h.endpoint]

theorem Heard.accepts (h : Heard c header d) : d.accepts header = c.accepts header := by
  rw [Connection.accepts, h.endpoint, h.phase]
  rfl

theorem Heard.receive (h : Heard c header d) (ha : c.accepts header = true)
    (ht : takeFrames d.channels d.window body = .ok intake) :
    d.receive (header.bytes ++ body) =
      if c.Answerable (c.answers header intake.accepted) then .ok (d.received header intake)
      else .error .capacityOverflow := by
  simp only [receive_short h.short (h.accepts.trans ha) ht, h.answers, h.answerable]

/-- One datagram for each frame does to channels and window what the frames do in one, and
nothing else but count packets. -/
theorem Heard.receiveAll (h : Heard c header d) (ha : c.accepts header = true)
    (hbase : c.Answerable (c.answers header false)) {taken : List (Transfer × Processed)}
    {last : List Channel} {lastWindow : AckWindow}
    (htakes : Takes d.channels d.window taken last lastWindow) :
    ∃ e, Heard c header e ∧ e.channels = last ∧ e.window = lastWindow ∧
      d.receiveAll (taken.map fun x => header.bytes ++ bodyBytes (some x.1)) =
        if c.Answerable (c.answers header (taken.any fun x => x.2.accepted)) then
          .ok (e, taken.map fun x => x.1.messages x.2)
        else .error .capacityOverflow := by
  generalize hchannels : d.channels = channels at htakes
  generalize hwindow : d.window = window at htakes
  induction htakes generalizing d with
  | nil =>
    refine ⟨d, h, hchannels, hwindow, ?_⟩
    rw [List.any_nil, if_pos hbase]
    rfl
  | @cons channels last window lastWindow t p taken ch found whole rest ih =>
    have hone : DatagramTransport.takeFrames d.channels d.window (bodyBytes (some t)) =
        .ok { channels := channels.set t.channel.toNat p.channel, window := p.window
              messages := t.messages p, accepted := p.accepted } := by
      subst hchannels hwindow
      have h1 := (Takes.cons found whole (.nil _ _)).takeFrames unreadable_nil
      simpa [framesOf] using h1
    obtain ⟨e, he, hlast, hlastWindow, hrest⟩ := ih (h.received hone) rfl rfl
    refine ⟨e, he, hlast, hlastWindow, ?_⟩
    have hstep := h.receive ha hone
    rw [List.any_cons, List.map_cons, receiveAll_cons]
    simp only [answerable_answers_or]
    by_cases hfirst : c.Answerable (c.answers header p.accepted)
    · rw [if_pos hfirst] at hstep
      refine (bind_of_ok hstep).trans ?_
      by_cases hlater : c.Answerable (c.answers header (taken.any fun x => x.2.accepted))
      · rw [if_pos ⟨hfirst, hlater⟩]
        rw [if_pos hlater] at hrest
        exact bind_of_ok hrest
      · rw [if_neg fun hall => hlater hall.2]
        rw [if_neg hlater] at hrest
        exact bind_of_error hrest
    · rw [if_neg hfirst] at hstep
      rw [if_neg fun hall => hfirst hall.1]
      exact bind_of_error hstep

end

section
variable {c : Connection} {header : DataHeader} {taken : List (Transfer × Processed)}
  {last : List Channel} {lastWindow : AckWindow} {tail : Bytes}

theorem receiveAll_header (h : c.Short) (ha : c.accepts header = true)
    (htakes : Takes c.channels c.window taken last lastWindow) :
    ∃ e, Heard c header e ∧ e.channels = last ∧ e.window = lastWindow ∧
      c.receiveAll (header.bytes :: taken.map fun x => header.bytes ++ bodyBytes (some x.1)) =
        if c.Answerable (c.answers header (taken.any fun x => x.2.accepted)) then
          .ok (e, [] :: taken.map fun x => x.1.messages x.2)
        else .error .capacityOverflow := by
  have halone := takeFrames_nil c.channels c.window
  have hfirst := receive_short h ha halone
  rw [List.append_nil] at hfirst
  rw [receiveAll_cons]
  by_cases hbase : c.Answerable (c.answers header false)
  · obtain ⟨e, he, hlast, hlastWindow, hrest⟩ :=
      (heard_received header h halone).receiveAll ha hbase htakes
    refine ⟨e, he, hlast, hlastWindow, (bind_of_ok (hfirst.trans (if_pos hbase))).trans ?_⟩
    rw [hrest]
    split <;> rfl
  · obtain ⟨e, he, hlast, hlastWindow⟩ : ∃ e, Heard c header e ∧ e.channels = last ∧
        e.window = lastWindow :=
      ⟨_, heard_received header h (htakes.takeFrames unreadable_nil), rfl, rfl⟩
    refine ⟨e, he, hlast, hlastWindow, ?_⟩
    rw [if_neg]
    · exact bind_of_error (hfirst.trans (if_neg hbase))
    · rw [← Bool.or_false (taken.any _), answerable_answers_or]
      exact fun hall => hbase hall.2

/-- Taking frames in one datagram comes to the same as taking the header alone and then each of them
by itself. What cannot be read behind them has no effect. -/
theorem frames_taken_one_by_one (h : c.Short) (ha : c.accepts header = true)
    (htakes : Takes c.channels c.window taken last lastWindow)
    (htail : Unreadable last lastWindow tail) :
    c.receive (header.bytes ++ (framesOf taken ++ tail)) =
        c.receive (header.bytes ++ framesOf taken) ∧
      (c.receive (header.bytes ++ framesOf taken)).map (fun step => (step.answer,
          step.connection.channels, step.connection.window, step.connection.pending)) =
        (c.receiveAll (header.bytes ::
          taken.map fun x => header.bytes ++ bodyBytes (some x.1))).map (fun r => (r.2.flatten,
            r.1.channels, r.1.window, r.1.pending)) ∧
      (∀ step, c.receive (header.bytes ++ framesOf taken) = .ok step →
        step.answer = taken.flatMap (fun x => x.1.messages x.2) ∧
        step.connection.channels = last ∧ step.connection.window = lastWindow ∧
        step.emitted.map Transfer.ofDatagram? =
          c.answers header (taken.any fun x => x.2.accepted) ∧
        (step.emitted.map Transfer.ofDatagram?).count none =
          if taken.any fun x => x.2.accepted then c.endpoint.config.ackEchoes else 0) ∧
      (c.endpoint.config.maxDatagramLength ≤ maxBufferLength →
        ∃ step, c.receive (header.bytes ++ framesOf taken) = .ok step) := by
  have hall := htakes.takeFrames unreadable_nil
  rw [List.append_nil] at hall
  have hreceive := receive_short h ha hall
  refine ⟨(receive_short h ha (htakes.takeFrames htail)).trans hreceive.symm, ?_, ?_, ?_⟩
  · obtain ⟨e, he, hlast, hlastWindow, heach⟩ := receiveAll_header h ha htakes
    rw [hreceive, heach]
    split
    · simp only [Except.map, he.pending, hlast, hlastWindow, List.flatten_cons, List.nil_append,
        List.flatMap_def]
      rfl
    · rfl
  · intro step hstep
    rw [hreceive] at hstep
    split at hstep <;> cases hstep
    have hemitted := map_ofDatagram?_received c header
    refine ⟨rfl, rfl, rfl, hemitted _, ?_⟩
    rw [hemitted, count_none_answers]
  · exact fun hroom => ⟨_, hreceive.trans (if_pos (.inr hroom))⟩

end

theorem frames_taken_one_by_one_mixed :
    ∃ (c : Connection) (header : DataHeader) (taken : List (Transfer × Processed))
      (last : List Channel) (lastWindow : AckWindow) (step : Step (List Message)),
      c.Short ∧ c.accepts header = true ∧ Takes c.channels c.window taken last lastWindow ∧
      Unreadable last lastWindow [0, 0, 2] ∧
      c.receive (header.bytes ++ (framesOf taken ++ [0, 0, 2])) = .ok step ∧
      step.answer = [⟨0, [97]⟩, ⟨1, [98]⟩] ∧
      step.emitted.map Transfer.ofDatagram? = List.replicate 3 none := by
  let c := start { config := .standard, id := 1, address := "10.0.0.2:7000", remoteId := 5
                   session := 3, peerSession := 9 }
  let header : DataHeader :=
    { connection := 1, packet := 0, session := 9, ackLatest := 0, ackMask := 0xffffffff }
  let window := (c.window.record 1).1
  let taken : List (Transfer × Processed) :=
    [(⟨0, [0, 6, 0, 1, 97]⟩, ⟨.reliable, window, [[97]], true⟩),
      (⟨0, [0, 6, 0, 1, 97]⟩, ⟨.reliable, window, [], false⟩),
      (⟨1, [0, 4, 98]⟩, ⟨.unreliable, window, [[98]], false⟩)]
  have hshort : c.Short := ⟨rfl, rfl⟩
  have haccepts : c.accepts header = true := rfl
  have htakes : Takes c.channels c.window taken c.channels window :=
    .cons rfl rfl (.cons rfl rfl (.cons rfl rfl (.nil _ _)))
  have htail : Unreadable c.channels window [0, 0, 2] := by
    rintro _ ⟨⟩
    exact ⟨.frameShorterThanHeader 2 5, rfl, nofun⟩
  obtain ⟨hinert, -, hstep, htotal⟩ := frames_taken_one_by_one hshort haccepts htakes htail
  obtain ⟨step, hreceive⟩ := htotal (by decide)
  obtain ⟨hanswer, -, -, hemitted, -⟩ := hstep step hreceive
  refine ⟨c, header, taken, c.channels, window, step, hshort, haccepts, htakes, htail,
    hinert.trans hreceive, hanswer, hemitted.trans ?_⟩
  decide

end Connection

end DatagramTransport
