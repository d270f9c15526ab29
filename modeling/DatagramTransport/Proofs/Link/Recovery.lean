import DatagramTransport.Proofs.Link.OneWay
import DatagramTransport.Proofs.Link.Rest
import DatagramTransport.Proofs.Link.Total

/-!
# Recovery within the span of a report

After any losses, the next message that comes through brings back reports
that cover the 32 ids up to its own. As long as nothing older is unsettled,
they name all that is missing. It is sent again, perhaps several times, as
each frame that comes is answered by further reports; but a report only
misses what has not come by then, so that in the end none misses anything.
-/

set_option autoImplicit false

namespace DatagramTransport.Link

section
variable {own : Side → Endpoint} {s t : Side} {l l' : Link} {log entries : List Entry} {n : Nat}

theorem Ledger.cleared (h : Ledger own s l log) : Ledger own s l.cleared log where
  sound := by
    intro t
    rw [side_cleared]
    exact ⟨(h.sound t).1.lost (by simp), (h.sound t).2.lost (by simp)⟩
  custody := by
    refine ⟨h.custody.honest, ?_, h.custody.returned⟩
    rw [side_cleared]
    exact h.custody.accounted
  oneSided := h.oneSided
  credited := h.credited

theorem Alive.cleared (h : Alive l) : Alive l.cleared := by
  intro t
  rw [side_cleared]
  exact h t

theorem Ledger.keeps_nothing (h : Ledger own s l log) (hpeers : Peers own s) (id : UInt16) :
    (l.side s.other).connection.pending[id]? = none := by
  apply h.sound.keeps_nothing
  rw [hpeers.config]
  exact h.oneSided.silent

/-- A posted frame comes, and is not taken for a repetition: its id is noted,
and answered with reports that count it. -/
theorem Ledger.echoed (h : Ledger own s l log) (hpeers : Peers own s) (halive : Alive l)
    (hh : Handover s 0 false l l' entries) {header : DataHeader} {k : Nat} {p : Posting}
    (hk : (minted (own s).config s log)[k]? = some p)
    (hd : hh.datagram = header.bytes ++ bodyBytes (some p.transfer))
    (hnew : idAt k ≠ (l.side s.other).connection.window.latest) :
    notedBy s.other (log ++ entries) = notedBy s.other log ++ [idAt k] ∧
      hh.step.emitted.length = (own s).config.ackEchoes ∧
      ∀ d ∈ hh.step.emitted, ∃ echo : DataHeader, d = echo.bytes ++ bodyBytes none ∧
        AckWindow.Reports (notedBy s.other log ++ [idAt k]) echo.ackLatest echo.ackMask := by
  have hmem := List.mem_of_getElem? hh.waiting
  have hr := hh.received
  rw [hd] at hmem hr
  have haccepts := h.sound.accepts hpeers halive hmem
  have hshort := h.sound.short s.other
  have hfit := h.sound.fits hpeers.config
  obtain ⟨hspeaks, -⟩ := h.sound s
  obtain ⟨layout, payload, hcarries, hid, -⟩ := hspeaks.wellPosted k p hk
  obtain ⟨intake, htake, -, hnote, -⟩ := takeFrames_transfer hfit hcarries
    (l.side s.other).connection.window
  rw [hid, AckWindow.note_some] at hnote
  have haccepted : intake.accepted = true := by
    rw [show intake.accepted = _ from congrArg Prod.snd hnote, AckWindow.record_accepted]
    exact hnew
  have htracks : intake.window.Tracks (notedBy s.other log ++ [idAt k]) := by
    rw [show intake.window = _ from congrArg Prod.fst hnote]
    exact AckWindow.tracks_record (h.sound s.other).2.tracks _
  obtain ⟨intake', htake', hstep⟩ := Connection.receive_accepted hshort haccepts hr
  cases htake.symm.trans htake'
  have hemitted := congrArg Step.emitted hstep
  rw [Connection.emitted_received_of_empty (h.keeps_nothing hpeers), haccepted, if_pos rfl,
    (h.sound s.other).1.endpoint, hpeers.config] at hemitted
  refine ⟨?_, ?_, ?_⟩
  · rw [hh.notedBy_eq, if_pos rfl, hd, (hspeaks.wellPosted.receive hshort hfit hk hr).1,
      if_pos haccepts]
  · rw [hemitted, Connection.length_datagrams, List.length_replicate]
  · rw [hemitted]
    intro d hd
    obtain ⟨n, body, hbody, rfl⟩ := Connection.mem_datagrams hd
    obtain ⟨-, rfl⟩ := List.mem_replicate.mp hbody
    exact ⟨_, rfl, htracks.reports⟩

/-- What was sent last is the message at this place, and what is kept is in the
span of a report of its id. -/
structure Spanned (own : Side → Endpoint) (s : Side) (n : Nat) (l : Link) (log : List Entry) :
    Prop extends Ledger own s l log where
  alive : Alive l
  posted : (minted (own s).config s log).length = n + 1
  span : ∀ (id : UInt16) (t : Transfer), (l.side s).connection.pending[id]? = some t →
    n ≤ id.toNat + 30

theorem Sound.pending_handed (h : Sound own l log) {index : Nat} {keep : Bool}
    (hh : Handover t index keep l l' entries) {id : UInt16} {frame : Transfer}
    (hkept : (l'.side s).connection.pending[id]? = some frame) :
    (l.side s).connection.pending[id]? = some frame := by
  rcases Side.eq_or_eq_other t s with rfl | rfl
  · rwa [hh.near] at hkept
  · rw [hh.far] at hkept
    rcases Connection.receive_cases (h.short t.other) hh.received with
      ⟨hstep, -⟩ | ⟨header, body, intake, -, -, -, -, hstep⟩
    · rwa [hstep] at hkept
    · rw [hstep, Connection.received, Connection.advance, Connection.getElem?_confirm] at hkept
      split at hkept
      · cases hkept
      · exact hkept

theorem Spanned.handed (h : Spanned own s n l log) (hpeers : Peers own s)
    (hn : n < custodyLimit) (hh : Handover t 0 false l l' entries)
    (hnext : l.next (.deliver t 0 false) = .ok (l', entries)) :
    Spanned own s n l' (log ++ entries) := by
  have hposted : (minted (own s).config s (log ++ entries)).length = n + 1 := by
    rw [hh.minted_eq, h.posted]
  constructor
  case toLedger =>
    exact h.next hpeers.config (e := .deliver t 0 false) trivial hnext (by rw [hposted]; exact hn)
  case alive => exact h.alive.next h.sound (e := .deliver t 0 false) nofun hnext
  case posted => exact hposted
  case span => exact fun id frame hkept => h.span id frame (h.sound.pending_handed hh hkept)

theorem Spanned.noted_le (h : Spanned own s n l log) (hn : n < custodyLimit) :
    ∀ id ∈ notedBy s.other log, id.toNat ≤ (idAt n).toNat := by
  have hl : custodyLimit = 65504 := rfl
  have hposted := h.posted
  intro id hid
  obtain ⟨k, hk, rfl⟩ := h.custody.honest id hid
  rw [toNat_idAt (by omega), toNat_idAt (by omega)]
  omega

/-- The newest of the ids, which is the one at this place, has come, and the
reports on their way cover all that is kept. -/
structure Recovering (own : Side → Endpoint) (s : Side) (n : Nat) (l : Link) (log : List Entry) :
    Prop extends Spanned own s n l log where
  newest : idAt n ∈ notedBy s.other log
  frames : ∀ d ∈ (l.side s).queue.toList, ∃ (header : DataHeader) (k : Nat) (p : Posting),
    k < n ∧ (minted (own s).config s log)[k]? = some p ∧
      d = header.bytes ++ bodyBytes (some p.transfer)
  reports : ∀ d ∈ (l.side s.other).queue.toList, ∃ header : DataHeader,
    d = header.bytes ++ bodyBytes none ∧ header.ackLatest = idAt n
  covered : (l.side s.other).queue.toList ≠ [] ∨
    ∀ (id : UInt16) (t : Transfer), (l.side s).connection.pending[id]? = some t →
      id ∈ waiting (own s).config (l.side s).queue.toList

/-- The echoes of a frame cover all that is kept, once the newest has come. -/
theorem Spanned.recovering (h : Spanned own s n l log) (hpeers : Peers own s)
    (hn : n < custodyLimit) (hechoes : 1 ≤ (own s).config.ackEchoes)
    (hh : Handover s 0 false l l' entries)
    (hnext : l.next (.deliver s 0 false) = .ok (l', entries)) {header : DataHeader} {k : Nat}
    {p : Posting} (hk : (minted (own s).config s log)[k]? = some p)
    (hd : hh.datagram = header.bytes ++ bodyBytes (some p.transfer))
    (hnew : idAt k ≠ (l.side s.other).connection.window.latest)
    (hnewest : idAt n ∈ notedBy s.other log ++ [idAt k])
    (hframes : ∀ d ∈ hh.queue.toList, ∃ (header : DataHeader) (k : Nat) (p : Posting),
      k < n ∧ (minted (own s).config s log)[k]? = some p ∧
        d = header.bytes ++ bodyBytes (some p.transfer))
    (hreports : ∀ d ∈ (l.side s.other).queue.toList, ∃ header : DataHeader,
      d = header.bytes ++ bodyBytes none ∧ header.ackLatest = idAt n) :
    Recovering own s n l' (log ++ entries) := by
  obtain ⟨hnoted, hlength, hemitted⟩ := h.toLedger.echoed hpeers h.alive hh hk hd hnew
  have hspanned := h.handed hpeers hn hh hnext
  have hle := hspanned.noted_le hn
  rw [hnoted] at hle
  constructor
  case toSpanned => exact hspanned
  case newest =>
    rw [hnoted]
    exact hnewest
  case frames =>
    rw [hh.near, hh.minted_eq]
    exact hframes
  case reports =>
    rw [hh.far, Backlog.toList_push]
    intro d hd
    rcases List.mem_append.mp hd with hd | hd
    · exact hreports d hd
    · obtain ⟨echo, rfl, hreport⟩ := hemitted d hd
      exact ⟨echo, rfl, hreport.latest_eq hnewest hle⟩
  case covered =>
    left
    rw [hh.far, Backlog.toList_push]
    intro hnil
    rw [(List.append_eq_nil_iff.mp hnil).2, List.length_nil] at hlength
    omega

theorem Recovering.arrival (h : Recovering own s n l log) (hn : n < custodyLimit)
    (hh : Handover s 0 false l l' entries) :
    ∃ (header : DataHeader) (k : Nat) (p : Posting), k < n ∧
      (minted (own s).config s log)[k]? = some p ∧
      hh.datagram = header.bytes ++ bodyBytes (some p.transfer) ∧
      idAt k ≠ (l.side s.other).connection.window.latest := by
  have hl : custodyLimit = 65504 := rfl
  obtain ⟨header, k, p, hkn, hk, hd⟩ := h.frames _ (List.mem_of_getElem? hh.waiting)
  refine ⟨header, k, p, hkn, hk, hd, ?_⟩
  rw [(h.sound s.other).2.tracks.reports.latest_eq h.newest (h.noted_le hn)]
  intro heq
  have := idAt_inj (by omega) (by omega) heq
  omega

theorem Recovering.handed (h : Recovering own s n l log) (hpeers : Peers own s)
    (hn : n < custodyLimit) (hechoes : 1 ≤ (own s).config.ackEchoes)
    (hh : Handover s 0 false l l' entries)
    (hnext : l.next (.deliver s 0 false) = .ok (l', entries)) :
    Recovering own s n l' (log ++ entries) := by
  obtain ⟨header, k, p, -, hk, hd, hnew⟩ := h.arrival hn hh
  exact h.recovering hpeers hn hechoes hh hnext hk hd hnew (List.mem_append_left _ h.newest)
    (fun d hd => h.frames d (hh.subset d hd)) h.reports

theorem Recovering.asked (h : Recovering own s n l log) (hpeers : ∀ t, Peers own t)
    (hh : Handover s.other 0 false l l' entries) :
    ∃ (header : DataHeader) (past : List UInt16) (intake : Intake),
      hh.datagram = header.bytes ++ bodyBytes none ∧ header.ackLatest = idAt n ∧
      AckWindow.Reports past header.ackLatest header.ackMask ∧ intake.accepted = false ∧
      hh.step = (l.side s).connection.received header intake := by
  have hmem := List.mem_of_getElem? hh.waiting
  have hr := hh.received
  obtain ⟨header, hd, hlatest⟩ := h.reports _ hmem
  rw [hd] at hmem hr
  have haccepts := h.sound.accepts (hpeers s.other) h.alive hmem
  obtain ⟨past, -, hreports⟩ := (h.sound s.other).2.report hmem
  obtain ⟨intake, htake, hstep⟩ :=
    Connection.receive_accepted (h.sound.short s.other.other) haccepts hr
  rw [bodyBytes, takeFrames_nil] at htake
  cases htake
  rw [Side.other_other] at hstep
  exact ⟨header, past, _, hd, hlatest, hreports, rfl, hstep⟩

theorem Spanned.kept (h : Spanned own s n l log) {id : UInt16} {frame : Transfer}
    (hkept : (l.side s).connection.pending[id]? = some frame) :
    ∃ k p, k ≤ n ∧ (minted (own s).config s log)[k]? = some p ∧ p.transfer = frame ∧
      id = idAt k := by
  obtain ⟨k, p, hk, hp⟩ := (h.sound s).1.kept id frame hkept
  obtain ⟨hlt, -⟩ := List.getElem?_eq_some_iff.mp hk
  have hposted := h.posted
  exact ⟨k, p, by omega, hk, hp⟩

/-- What a report of the newest id asks for was sent before the newest. -/
theorem Spanned.again (h : Spanned own s n l log) (hn : n < custodyLimit) {header : DataHeader}
    {past : List UInt16} (hlatest : header.ackLatest = idAt n)
    (hreports : AckWindow.Reports past header.ackLatest header.ackMask) {received : List UInt16} :
    ∀ d ∈ ((l.side s).connection.confirm received).datagrams
        (((l.side s).connection.confirm received).kept
          (AckWindow.reading header.ackLatest header.ackMask).missing),
      ∃ (again : DataHeader) (k : Nat) (p : Posting), k < n ∧
        (minted (own s).config s log)[k]? = some p ∧
          d = again.bytes ++ bodyBytes (some p.transfer) := by
  have hl : custodyLimit = 65504 := rfl
  intro d hd
  obtain ⟨m, body, hbody, rfl⟩ := Connection.mem_datagrams hd
  obtain ⟨frame, hframe, rfl⟩ := List.mem_map.mp hbody
  obtain ⟨id, hid, hkept⟩ := List.mem_filterMap.mp hframe
  rw [Connection.getElem?_confirm] at hkept
  split at hkept
  case isTrue => cases hkept
  obtain ⟨k, p, hkn, hk, rfl, rfl⟩ := h.kept hkept
  obtain ⟨-, -, hbelow, -⟩ := hreports.missing hid
  rw [hlatest, toNat_idAt (by omega), toNat_idAt (by omega)] at hbelow
  exact ⟨_, k, p, by omega, hk, rfl⟩

theorem Spanned.missing (h : Spanned own s n l log) (hn : n < custodyLimit) {latest : UInt16}
    {mask : UInt32} (hlatest : latest = idAt n) {id : UInt16} {frame : Transfer}
    (hkept : ((l.side s).connection.confirm
      (AckWindow.reading latest mask).received).pending[id]? = some frame) :
    id ∈ (AckWindow.reading latest mask).missing := by
  have hl : custodyLimit = 65504 := rfl
  have hspan : ackSpan = 32 := rfl
  rw [Connection.getElem?_confirm] at hkept
  split at hkept
  case isTrue => cases hkept
  case isFalse hid =>
    have hold := h.span id frame hkept
    obtain ⟨k, p, hkn, -, -, rfl⟩ := h.kept hkept
    rw [toNat_idAt (by omega)] at hold
    apply AckWindow.mem_missing_of_span ?_ ?_ hid
    · rw [hlatest, toNat_idAt (by omega), toNat_idAt (by omega)]
      omega
    · rw [hlatest, toNat_idAt (by omega), toNat_idAt (by omega)]
      omega

theorem Recovering.answered (h : Recovering own s n l log) (hpeers : ∀ t, Peers own t)
    (hn : n < custodyLimit) (hh : Handover s.other 0 false l l' entries)
    (hnext : l.next (.deliver s.other 0 false) = .ok (l', entries)) :
    Recovering own s n l' (log ++ entries) := by
  obtain ⟨header, past, intake, -, hlatest, hreports, haccepted, hstep⟩ := h.asked hpeers hh
  have hemitted := Connection.emitted_received_of_not_accepted (c := (l.side s).connection)
    haccepted header
  have hfar := hh.far
  rw [Side.other_other, hstep] at hfar
  constructor
  case toSpanned => exact h.toSpanned.handed (hpeers s) hn hh hnext
  case newest =>
    rw [hh.notedBy_eq, if_neg (Side.ne_other _), List.append_nil]
    exact h.newest
  case frames =>
    rw [hfar, Backlog.toList_push, hh.minted_eq, hemitted]
    intro d hd
    exact (List.mem_append.mp hd).elim (h.frames d) (h.again hn hlatest hreports d)
  case reports =>
    rw [hh.near]
    exact fun d hd => h.reports d (hh.subset d hd)
  case covered =>
    right
    rw [hfar, Backlog.toList_push, waiting_append, hemitted, (h.sound s).1.waiting_kept]
    intro id frame hkept
    change ((l.side s).connection.confirm
      (AckWindow.reading header.ackLatest header.ackMask).received).pending[id]? =
        some frame at hkept
    refine List.mem_append_right _ (List.mem_filter.mpr ⟨h.missing hn hlatest hkept, ?_⟩)
    rw [hkept]
    rfl

/-- Once nothing is on its way, all was acknowledged, and returned before. -/
theorem Recovering.settled (h : Recovering own s n l log)
    (hempty : ∀ t, (l.side t).queue.toList = []) :
    (∀ p ∈ minted (own s).config s log, p.toMessage ∈ returns s.other p.transfer log) ∧
      (l.side s).connection.pending = ∅ := by
  have hnone : ∀ id : UInt16, (l.side s).connection.pending[id]? = none := by
    intro id
    rcases h.covered with hnot | hall
    · exact absurd (hempty s.other) hnot
    · rw [hempty] at hall
      cases ht : (l.side s).connection.pending[id]? with
      | none => rfl
      | some t => cases hall id t ht
  constructor
  · intro p hp
    obtain ⟨k, hk⟩ := List.mem_iff_getElem?.mp hp
    refine h.credited k p hk ?_ (h.oneSided.whole p hp)
    refine (h.custody.accounted (h.alive s) k p hk).resolve_left fun hkept => ?_
    rw [hnone] at hkept
    cases hkept
  · apply Std.ExtTreeMap.ext_getElem?
    intro id
    rw [hnone]
    simp

end

section
variable {noted ids : List UInt16} {id : UInt16}

def missingOf (datagram : Bytes) : List UInt16 :=
  match DataHeader.decode .short datagram with
  | .ok (header, _) => (AckWindow.reading header.ackLatest header.ackMask).missing
  | .error _ => []

theorem missingOf_bytes (header : DataHeader) (body : Bytes) :
    missingOf (header.bytes ++ body) =
      (AckWindow.reading header.ackLatest header.ackMask).missing := by
  rw [missingOf, DataHeader.decode_bytes]

def spent (noted ids : List UInt16) : Nat :=
  ids.countP fun id => decide (id ∈ noted)

theorem mem_append_again (hid : id ∈ noted) (other : UInt16) :
    other ∈ noted ++ [id] ↔ other ∈ noted := by
  rw [List.mem_append, List.mem_singleton]
  exact ⟨fun h => h.elim (fun hold => hold) fun heq => heq ▸ hid, .inl⟩

theorem spent_append_again (hid : id ∈ noted) (ids : List UInt16) :
    spent (noted ++ [id]) ids = spent noted ids := by
  simp only [spent, mem_append_again hid]

theorem spent_cons_of_mem (hid : id ∈ noted) (ids : List UInt16) :
    spent noted (id :: ids) = spent noted ids + 1 :=
  List.countP_cons_of_pos (decide_eq_true hid)

theorem spent_append (noted ids later : List UInt16) :
    spent noted (ids ++ later) = spent noted ids + spent noted later :=
  List.countP_append

theorem countP_lt_countP {α : Type} {p q : α → Bool} {l : List α}
    (h : ∀ a ∈ l, p a = true → q a = true) {x : α} (hx : x ∈ l) (hp : ¬ p x = true)
    (hq : q x = true) : l.countP p < l.countP q := by
  obtain ⟨before, after, rfl⟩ := List.append_of_mem hx
  have hbefore : before.countP p ≤ before.countP q :=
    List.countP_mono_left fun a ha => h a (List.mem_append_left _ ha)
  have hafter : after.countP p ≤ after.countP q :=
    List.countP_mono_left fun a ha => h a (List.mem_append_right _ (List.mem_cons_of_mem _ ha))
  rw [List.countP_append, List.countP_append, List.countP_cons_of_neg hp,
    List.countP_cons_of_pos hq]
  omega

end

def unseen (config : Config) (s : Side) (log : List Entry) : Nat :=
  (List.range (minted config s log).length).countP fun k => decide (idAt k ∉ notedBy s.other log)

/-- How many deliveries are still to come at most, unless a frame comes for the first time. -/
def effort (config : Config) (s : Side) (l : Link) (log : List Entry) : Nat :=
  (1 + config.ackEchoes) * spent (notedBy s.other log)
      (waiting config (l.side s).queue.toList ++ (l.side s.other).queue.toList.flatMap missingOf) +
    (l.side s.other).queue.toList.length

section
variable {own : Side → Endpoint} {s : Side} {l l' : Link} {log entries : List Entry} {n : Nat}

/-- Either the frame comes for the first time, or the echoes cost less than it. -/
theorem Recovering.handed_decreases (h : Recovering own s n l log) (hpeers : Peers own s)
    (hn : n < custodyLimit) (hh : Handover s 0 false l l' entries) :
    unseen (own s).config s (log ++ entries) < unseen (own s).config s log ∨
      unseen (own s).config s (log ++ entries) = unseen (own s).config s log ∧
        effort (own s).config s l' (log ++ entries) < effort (own s).config s l log := by
  obtain ⟨header, k, p, hkn, hk, hd, hnew⟩ := h.arrival hn hh
  obtain ⟨hnoted, hlength, hemitted⟩ := h.toLedger.echoed hpeers h.alive hh hk hd hnew
  simp only [unseen, hh.minted_eq, h.posted, hnoted]
  by_cases hseen : idAt k ∈ notedBy s.other log
  · right
    constructor
    · simp only [mem_append_again hseen]
    have hwaiting : waiting (own s).config (l.side s).queue.toList =
        idAt k :: waiting (own s).config hh.queue.toList := by
      rw [hh.queue_eq, hd, waiting,
        List.filterMap_cons_some ((h.sound s).1.wellPosted.carried hk header)]
      rfl
    -- The echoes were made after the frame came, and so miss nothing that had come.
    have hechoes : spent (notedBy s.other log) (hh.step.emitted.flatMap missingOf) = 0 := by
      rw [spent, List.countP_eq_zero]
      intro id hid hold
      obtain ⟨d, hd, hid⟩ := List.mem_flatMap.mp hid
      obtain ⟨echo, rfl, hreports⟩ := hemitted d hd
      rw [missingOf_bytes] at hid
      exact (hreports.missing hid).1 (List.mem_append_left _ (of_decide_eq_true hold))
    simp only [effort, hnoted, spent_append_again hseen, hh.near, hh.far, Backlog.toList_push,
      List.flatMap_append, List.length_append, spent_append, hechoes, hlength, hwaiting,
      spent_cons_of_mem hseen, Nat.mul_add]
    omega
  · left
    refine countP_lt_countP (x := k) ?_ (List.mem_range.mpr (by omega)) ?_ ?_
    · intro j _ hj
      rw [decide_eq_true_eq] at hj ⊢
      exact fun hold => hj (List.mem_append_left _ hold)
    · simp
    · simpa using hseen

theorem Recovering.answered_decreases (h : Recovering own s n l log) (hpeers : ∀ t, Peers own t)
    (hh : Handover s.other 0 false l l' entries) :
    unseen (own s).config s (log ++ entries) = unseen (own s).config s log ∧
      effort (own s).config s l' (log ++ entries) < effort (own s).config s l log := by
  obtain ⟨header, past, intake, hd, -, -, haccepted, hstep⟩ := h.asked hpeers hh
  have hnoted := hh.notedBy_eq s.other log
  rw [if_neg (Side.ne_other _), List.append_nil] at hnoted
  have hfar := hh.far
  rw [Side.other_other, hstep] at hfar
  constructor
  · rw [unseen, unseen, hh.minted_eq, hnoted]
  have hpaid : spent (notedBy s.other log) (waiting (own s).config (l'.side s).queue.toList) ≤
      spent (notedBy s.other log) (waiting (own s).config (l.side s).queue.toList) +
        spent (notedBy s.other log) (missingOf hh.datagram) := by
    rw [hfar, Backlog.toList_push, waiting_append,
      Connection.emitted_received_of_not_accepted haccepted, (h.sound s).1.waiting_kept, hd,
      missingOf_bytes, spent, List.countP_append]
    exact Nat.add_le_add_left List.filter_sublist.countP_le _
  have hprice := Nat.mul_le_mul_left (1 + (own s).config.ackEchoes) hpaid
  simp only [effort, hnoted, hh.queue_eq, hh.near, List.flatMap_cons, List.length_cons,
    spent_append, Nat.mul_add] at hprice ⊢
  omega

/-- One more message is sent, and all before it got lost. -/
theorem Ledger.renewed (h : Ledger own s l log) (hpeers : Peers own s) (halive : Alive l)
    (hn : (minted (own s).config s log).length < custodyLimit)
    (hspan : ∀ (id : UInt16) (t : Transfer), (l.side s).connection.pending[id]? = some t →
      (minted (own s).config s log).length ≤ id.toNat + 30)
    {channel : UInt8} {message : Bytes}
    (hq : (own s).config.channelQos channel = .reliable ∨
      (own s).config.channelQos channel = .allCostDelivery) {emitted : List Bytes}
    (hsend : l.cleared.next (.send s channel message) =
      .ok (l', [.sent s channel message emitted])) :
    Spanned own s (minted (own s).config s log).length l'
        (log ++ [.sent s channel message emitted]) ∧
      idAt (minted (own s).config s log).length ∉
        notedBy s.other (log ++ [.sent s channel message emitted]) ∧
      (∃ (header : DataHeader) (p : Posting),
        (minted (own s).config s (log ++ [.sent s channel message emitted]))[
          (minted (own s).config s log).length]? = some p ∧
        (l'.side s).queue.toList = [header.bytes ++ bodyBytes (some p.transfer)]) ∧
      (l'.side s.other).queue.toList = [] := by
  have hl : custodyLimit = 65504 := rfl
  obtain ⟨header, p, -, hminted, rfl, hfar, hqueue, hpending⟩ := h.cleared.sound.sent_whole hq hsend
  rw [side_cleared] at hfar hqueue hpending
  have hposted : minted (own s).config s (log ++ [.sent s channel message
      [header.bytes ++ bodyBytes (some p.transfer)]]) = minted (own s).config s log ++ [p] := by
    rw [minted_append, hminted]
  have hlength := congrArg List.length hposted
  rw [List.length_append, List.length_singleton] at hlength
  refine ⟨?_, ?_, ⟨header, p, ?_, ?_⟩, ?_⟩
  · constructor
    case toLedger =>
      exact h.cleared.next hpeers.config (e := .send s channel message) ⟨rfl, hq⟩ hsend (by omega)
    case alive =>
      exact halive.cleared.next h.cleared.sound (e := .send s channel message) nofun hsend
    case posted => exact hlength
    case span =>
      rw [hpending]
      intro id t ht
      rw [Std.ExtTreeMap.getElem?_insert] at ht
      split at ht
      case isTrue heq =>
        rw [← Std.compare_eq_iff_eq.mp heq, toNat_idAt (by omega)]
        omega
      case isFalse => exact hspan id t ht
  · rw [notedBy_append, show notedBy s.other [.sent s channel message _] = [] from rfl,
      List.append_nil]
    intro hold
    obtain ⟨k, hk, heq⟩ := h.custody.honest _ hold
    have := idAt_inj (by omega) (by omega) heq
    omega
  · rw [hposted, List.getElem?_concat_length]
  · rw [hqueue, Backlog.toList_ofList]
    rfl
  · rw [hfar]
    exact Backlog.toList_ofList []

theorem Spanned.first_handed (h : Spanned own s n l log) (hpeers : Peers own s)
    (hn : n < custodyLimit) (hechoes : 1 ≤ (own s).config.ackEchoes)
    (hnewest : idAt n ∉ notedBy s.other log) {header : DataHeader} {p : Posting}
    (hp : (minted (own s).config s log)[n]? = some p)
    (hqueue : (l.side s).queue.toList = [header.bytes ++ bodyBytes (some p.transfer)])
    (hsilence : (l.side s.other).queue.toList = []) (hh : Handover s 0 false l l' entries)
    (hnext : l.next (.deliver s 0 false) = .ok (l', entries)) :
    Recovering own s n l' (log ++ entries) := by
  have hl : custodyLimit = 65504 := rfl
  rw [hh.queue_eq] at hqueue
  obtain ⟨hd, hleft⟩ := List.cons.inj hqueue
  have hnew : idAt n ≠ (l.side s.other).connection.window.latest := by
    intro heq
    rcases (h.sound s.other).2.tracks.latest_mem with h0 | hnoted
    · exact idAt_ne_zero (by omega) (heq.trans h0)
    · exact hnewest (heq ▸ hnoted)
  apply h.recovering hpeers hn hechoes hh hnext hp hd hnew
  · exact List.mem_append_right _ List.mem_cons_self
  · rw [hleft]
    exact fun d hd => absurd hd List.not_mem_nil
  · rw [hsilence]
    exact fun d hd => absurd hd List.not_mem_nil

end

section
variable {a b : Endpoint}

theorem Recovering.comesToRest (hpair : Paired a b) (hvalid : a.config.validate = .ok ())
    {s : Side} {n : Nat} {l : Link} {log : List Entry}
    (h : Recovering (endpoints a b) s n l log) (hn : n < custodyLimit)
    (hechoes : 1 ≤ a.config.ackEchoes) :
    ComesToRest (fun l' log' => sentBy s log' = sentBy s log ∧
      Recovering (endpoints a b) s n l' log' ∧ ∀ t, (l'.side t).queue.toList = []) l log := by
  have hconfig := hpair.endpoints_config s
  apply comesToRest_of_measure (fun _ log' => unseen (endpoints a b s).config s log')
    (effort (endpoints a b s).config s)
    (I := fun l' log' => sentBy s log' = sentBy s log ∧ Recovering (endpoints a b) s n l' log')
  · exact fun l' log' ⟨hsent, h'⟩ hempty => ⟨hsent, h', hempty⟩
  · rintro l' log' t ⟨-, h'⟩ -
    obtain ⟨m, entries, hnext⟩ := hpair.next_ok hvalid h'.sound (.deliver t 0 false)
    exact ⟨(m, entries), hnext⟩
  · rintro l' log' t m entries ⟨hsent, h'⟩ hh hnext
    rw [hh.sentBy_eq]
    rcases Side.eq_or_eq_other s t with rfl | rfl
    · exact ⟨⟨hsent, h'.handed (hpair.peers t) hn (by rwa [hconfig]) hh hnext⟩,
        h'.handed_decreases (hpair.peers t) hn hh⟩
    · exact ⟨⟨hsent, h'.answered hpair.peers hn hh hnext⟩,
        .inr (h'.answered_decreases hpair.peers hh)⟩
  · exact ⟨rfl, h⟩

/-- No message that is kept is more than 30 ids behind the newest. If one more comes through, and
after it all that is sent, every message is returned and none is kept. -/
theorem recovers_within_span (hpair : Paired a b) (hvalid : a.config.validate = .ok ())
    (hechoes : 1 ≤ a.config.ackEchoes) (s : Side) {events : List Event}
    (honly : ∀ e ∈ events, e.OneWay a.config s) {l : Link} {log : List Entry}
    (hrun : (start a b).run events = .ok (l, log)) (halive : Alive l)
    (hcount : (minted a.config s log).length < custodyLimit)
    (hspan : ∀ (id : UInt16) (t : Transfer), (l.side s).connection.pending[id]? = some t →
      (minted a.config s log).length ≤ id.toNat + 30)
    {channel : UInt8} {message : Bytes} (hq : a.config.channelQos channel = .reliable ∨
      a.config.channelQos channel = .allCostDelivery) {l₁ : Link} {emitted : List Bytes}
    (hsend : l.cleared.next (.send s channel message) =
      .ok (l₁, [.sent s channel message emitted])) :
    ComesToRest (fun l' log' =>
        sentBy s log' = sentBy s log ++ [⟨channel, message⟩] ∧
        sentBy s log' = (minted a.config s log').map Posting.toMessage ∧
        (∀ p ∈ minted a.config s log', p.toMessage ∈ returns s.other p.transfer log') ∧
        (l'.side s).connection.pending = ∅)
      l₁ (log ++ [.sent s channel message emitted]) := by
  have hconfig := hpair.endpoints_config s
  have hledger := hpair.ledger_run s honly hrun (Nat.le_of_lt hcount)
  obtain ⟨hspanned, hnewest, ⟨header, p, hp, hqueue⟩, hsilence⟩ := hledger.renewed (hpair.peers s)
    halive (by rwa [hconfig]) (by rwa [hconfig]) (by rwa [hconfig]) hsend
  rw [hconfig] at hspanned hnewest hp
  refine .go ⟨s, by rw [hqueue]; exact List.cons_ne_nil _ _⟩ ?_ ?_
  · intro t _
    obtain ⟨m, entries, hnext⟩ := hpair.next_ok hvalid hspanned.sound (.deliver t 0 false)
    exact ⟨(m, entries), hnext⟩
  · intro t m entries ht hnext
    rcases Side.eq_or_eq_other s t with rfl | rfl
    · obtain ⟨hh⟩ := handover_of_waiting ht hnext
      have hrecovering := hspanned.first_handed (hpair.peers t) hcount (by rwa [hconfig]) hnewest
        (by rwa [hconfig]) hqueue hsilence hh hnext
      refine (hrecovering.comesToRest hpair hvalid hcount hechoes).mono ?_
      rintro l' log' ⟨hsent, hfinal, hempty⟩
      obtain ⟨hreturned, hpending⟩ := hfinal.settled hempty
      have hwhole := hfinal.oneSided.sent
      rw [hconfig] at hreturned hwhole
      refine ⟨?_, hwhole, hreturned, hpending⟩
      rw [hsent, hh.sentBy_eq, sentBy_append]
      simp [sentBy, Entry.accepted]
    · exact absurd hsilence ht

def lossyRun (n : Nat) : List Event :=
  (List.range n).flatMap fun i => [.send .left 0 [.ofNat i], .lose .left 0]

theorem mem_lossyRun {n : Nat} {e : Event} (h : e ∈ lossyRun n) :
    (∃ message, e = .send .left 0 message) ∨ e = .lose .left 0 := by
  obtain ⟨i, -, he⟩ := List.mem_flatMap.mp h
  rw [List.mem_cons, List.mem_singleton] at he
  exact he.imp_left fun he => ⟨_, he⟩

theorem recovers_within_span_all_lost :
    ∃ l log l₁ emitted, (start (standardEnd 1 2) (standardEnd 2 1)).run (lossyRun 31) =
        .ok (l, log) ∧
      (minted .standard .left log).length = 31 ∧
      (l.side .left).connection.pending[(1 : UInt16)]?.isSome ∧
      l.cleared.next (.send .left 0 [31]) = .ok (l₁, [.sent .left 0 [31] emitted]) ∧
      ComesToRest (fun l' log' =>
          sentBy .left log' = sentBy .left log ++ [⟨0, [31]⟩] ∧
          sentBy .left log' = (minted .standard .left log').map Posting.toMessage ∧
          (∀ p ∈ minted .standard .left log', p.toMessage ∈ returns .right p.transfer log') ∧
          (l'.side .left).connection.pending = ∅)
        l₁ (log ++ [.sent .left 0 [31] emitted]) := by
  have hpair := paired_standardEnd 1 2
  obtain ⟨l, log, hrun, heval⟩ := run_of_eval (start (standardEnd 1 2) (standardEnd 2 1))
    (lossyRun 31)
    (fun r => ((minted .standard .left r.2).length,
      (r.1.side .left).connection.pending[(1 : UInt16)]?.isSome,
      (r.1.cleared.next (.send .left 0 [31])).toOption.map Prod.snd))
    (31, true, some [.sent .left 0 [31]
      [[0, 1, 0, 31, 0, 1, 0, 0, 255, 255, 255, 255, 0, 0, 6, 0, 32, 31]]])
    (by decide +kernel)
  simp only [Prod.mk.injEq] at heval
  obtain ⟨hcount, hfirst, hsent⟩ := heval
  have hlimit : (minted (standardEnd 1 2).config .left log).length < custodyLimit :=
    Nat.lt_of_le_of_lt (Nat.le_of_eq hcount) (by decide)
  have horderly : ∀ e ∈ lossyRun 31, e.Orderly := by
    intro e he
    rcases mem_lossyRun he with ⟨message, rfl⟩ | rfl <;> trivial
  have honly : ∀ e ∈ lossyRun 31, e.OneWay (standardEnd 1 2).config .left := by
    intro e he
    rcases mem_lossyRun he with ⟨message, rfl⟩ | rfl
    · exact ⟨rfl, .inl rfl⟩
    · trivial
  obtain ⟨hsound, hsteady⟩ := hpair.steady_run horderly hrun
  obtain ⟨halive, -, -⟩ := hsteady .left (Nat.le_of_lt hlimit)
  have hspan : ∀ (id : UInt16) (t : Transfer), (l.side .left).connection.pending[id]? = some t →
      (minted (standardEnd 1 2).config .left log).length ≤ id.toNat + 30 := by
    intro id t ht
    obtain ⟨k, p, hk, -, rfl⟩ := (hsound .left).1.kept id t ht
    obtain ⟨hlt, -⟩ := List.getElem?_eq_some_iff.mp hk
    have hn : (minted (standardEnd 1 2).config .left log).length = 31 := hcount
    have hlt' : k < (minted (standardEnd 1 2).config .left log).length := hlt
    rw [toNat_idAt (by omega)]
    omega
  cases hsend : l.cleared.next (.send .left 0 [31]) with
  | error fault =>
    rw [hsend] at hsent
    cases hsent
  | ok r =>
    obtain ⟨l₁, entries⟩ := r
    rw [hsend] at hsent
    cases hsent
    exact ⟨l, log, l₁, _, hrun, hcount, hfirst, hsend, recovers_within_span hpair
      (Config.validate_eq_ok.mpr (by decide)) (by decide) .left honly hrun halive hlimit hspan
      (.inl rfl) hsend⟩

end

end DatagramTransport.Link
