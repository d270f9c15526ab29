import DatagramTransport.Proofs.AckHistory
import DatagramTransport.Proofs.Link.Emitted
import DatagramTransport.Proofs.Link.OneWay
import DatagramTransport.Proofs.Link.Stream

/-!
# What stays behind when reports are lost

One side sends, and its datagrams arrive once and in order. The reports of the
other side may come in any order and any number of times, or not at all. Then
a report asks for nothing again, and lets go of the frames in its span. What
the sending side still keeps is known from the reports that it took: all that
lies in the span of none of them. A report of the last id thus does not make
up for those that were lost before, unless its span goes back to the first id.
-/

set_option autoImplicit false

namespace DatagramTransport.Link

/-- The side sends on reliable channels and loses nothing. Of the datagrams of the
other side any may come, also again and out of order, and any may be lost. -/
def Event.Acked (config : Config) (s : Side) : Event → Prop
  | send t channel _ => t = s ∧ config.channelQos channel = .reliable
  | deliver t index keep => t = s → index = 0 ∧ keep = false
  | lose t _ => t = s.other
  | greet .. | ping .. => True
  | disconnect _ => False

instance (config : Config) (s : Side) : DecidablePred (Event.Acked config s)
  | .send t channel _ =>
    inferInstanceAs (Decidable (t = s ∧ config.channelQos channel = .reliable))
  | .deliver t index keep => inferInstanceAs (Decidable (t = s → index = 0 ∧ keep = false))
  | .lose t _ => inferInstanceAs (Decidable (t = s.other))
  | .greet .. | .ping .. => .isTrue trivial
  | .disconnect _ => .isFalse id

def Entry.report (s : Side) : Entry → List UInt16
  | .received t datagram _ _ =>
    if t = s then
      (DataHeader.decode .short datagram).toOption.toList.map fun r => r.1.ackLatest
    else []
  | .sent .. => []

def reportsTo (s : Side) (log : List Entry) : List UInt16 :=
  log.flatMap (Entry.report s)

def Covered (reports : List UInt16) (id : UInt16) : Prop :=
  ∃ r ∈ reports, id ∈ AckWindow.span r

/-- What a side emits at an event reports how many ids it has noted by then. -/
structure Dated (s : Side) (l : Link) (e : Event) (l' : Link) (noted : List UInt16) : Prop where
  waiting : ∀ d ∈ (l'.side s).queue.toList, d ∈ (l.side s).queue.toList ∨ d ∈ l.emittedAt s e
  reports : ∀ d ∈ l.emittedAt s e, ∃ (header : DataHeader) (body : Bytes),
    d = header.bytes ++ body ∧ header.ackLatest.toNat = noted.length

/-- Only messages that lie at least a span before the last one are kept. -/
def Trimmed (n : Nat) (c : Connection) : Prop :=
  (∀ id ∈ c.pending, id.toNat + ackSpan ≤ n) ∧ (n ≤ ackSpan → c.pending.size = 0)

structure Leftover (config : Config) (s : Side) (l : Link) (log : List Entry) : Prop where
  reports : ∀ r ∈ reportsTo s log, r.toNat ≤ (minted config s log).length
  covered : ∀ k < (minted config s log).length, Covered (reportsTo s log) (idAt k) →
    (l.side s).connection.pending[idAt k]? = none
  uncovered : ∀ k p, (minted config s log)[k]? = some p → ¬ Covered (reportsTo s log) (idAt k) →
    (l.side s).connection.pending[idAt k]? = some p.transfer

section
variable {own : Side → Endpoint} {s : Side} {l l' : Link} {log entries : List Entry}

theorem mem_span {latest id : UInt16} (hid : id.toNat < custodyLimit) :
    id ∈ AckWindow.span latest ↔ id.toNat ≤ latest.toNat ∧ latest.toNat < id.toNat + ackSpan := by
  have hlimit : custodyLimit = 65504 := rfl
  have hspan : ackSpan = 32 := rfl
  simp only [AckWindow.span, List.mem_map, List.mem_range]
  constructor
  · rintro ⟨i, hi, rfl⟩
    by_cases hle : i ≤ latest.toNat
    · rw [AckWindow.toNat_sub_ofNat hle]
      omega
    · rw [AckWindow.toNat_sub_ofNat_wrap (by omega) (by omega)] at hid
      omega
  · rintro ⟨hle, hlt⟩
    refine ⟨latest.toNat - id.toNat, by omega, ?_⟩
    exact (AckWindow.sub_ofNat_eq_iff (by omega)).mpr (by omega)

/-- Of the first ids the number is the highest. -/
theorem latest_of_firstIds {n : Nat} (hn : n ≤ 65535) {w : AckWindow} (h : w.Tracks (firstIds n)) :
    w.latest.toNat = n := by
  rcases Nat.eq_zero_or_pos n with rfl | hpos
  · rw [h.latest_mem.resolve_right List.not_mem_nil]
    rfl
  have htop := h.bound _ (mem_firstIds.mpr ⟨n - 1, by omega, rfl⟩)
  rw [toNat_idAt (by omega)] at htop
  rcases h.latest_mem with hzero | hmem
  · rw [hzero, UInt16.toNat_zero] at htop
    omega
  · obtain ⟨k, hk, hid⟩ := mem_firstIds.mp hmem
    rw [← hid, toNat_idAt (by omega)] at htop ⊢
    omega

/-- A report of the first ids, in order, counts its whole span as received. -/
theorem received_of_prefix {n : Nat} (hn : n ≤ 65535) {past : List UInt16}
    (hpast : past <+: firstIds n) {latest : UInt16} {mask : UInt32}
    (h : AckWindow.Reports past latest mask) :
    (AckWindow.reading latest mask).received = AckWindow.span latest ∧ latest.toNat ≤ n := by
  constructor
  · rw [AckWindow.received_eq_filter, missing_of_prefix hn hpast h]
    exact List.filter_eq_self.mpr fun _ _ => decide_eq_true List.not_mem_nil
  · obtain ⟨w, hw, rfl, -⟩ := h
    obtain ⟨hfirst, hlength⟩ := eq_firstIds_of_prefix hpast
    rw [hfirst] at hw
    rw [latest_of_firstIds (by omega) hw]
    exact hlength

theorem covered_snoc {reports : List UInt16} {r id : UInt16} : Covered (reports ++ [r]) id ↔
    Covered reports id ∨ id ∈ AckWindow.span r := by
  simp only [Covered, List.mem_append, List.mem_singleton, or_and_right, exists_or, exists_eq_left]

theorem mem_reportsTo {header : DataHeader} {body : Bytes} {noted : List UInt16}
    {messages : List Message}
    (h : .received s (header.bytes ++ body) noted messages ∈ log) :
    header.ackLatest ∈ reportsTo s log := by
  refine List.mem_flatMap.mpr ⟨_, h, ?_⟩
  rw [Entry.report, if_pos rfl, DataHeader.decode_bytes]
  exact List.mem_singleton_self _

theorem reportsTo_append (log later : List Entry) :
    reportsTo s (log ++ later) = reportsTo s log ++ reportsTo s later :=
  List.flatMap_append

theorem Act.reportsTo_eq {t : Side} {e e' : LinkEnd} (ha : Act t e e' entries) :
    reportsTo s (log ++ entries) = reportsTo s log := by
  rw [reportsTo_append]
  cases ha <;> simp [reportsTo, Entry.report]

theorem Handover.reportsTo_eq {index : Nat} {keep : Bool} (h : Handover s index keep l l' entries)
    (t : Side) (log : List Entry) : reportsTo t (log ++ entries) = reportsTo t log ++
      if t = s.other then
        (DataHeader.decode .short h.datagram).toOption.toList.map fun r => r.1.ackLatest
      else [] := by
  rw [reportsTo_append]
  congr 1
  apply (congrArg (reportsTo t) h.logged).trans
  simp [reportsTo, Entry.report, eq_comm]

theorem Leftover.kept_by {config : Config} (h : Leftover config s l log)
    (hminted : minted config s (log ++ entries) = minted config s log)
    (hreports : reportsTo s (log ++ entries) = reportsTo s log)
    (hpending : (l'.side s).connection.pending = (l.side s).connection.pending) :
    Leftover config s l' (log ++ entries) where
  reports := by
    rw [hreports, hminted]
    exact h.reports
  covered := by
    rw [hreports, hminted, hpending]
    exact h.covered
  uncovered := by
    rw [hreports, hminted, hpending]
    exact h.uncovered

theorem Leftover.sent (h : Leftover (own s).config s l log) (hsound : Sound own l log)
    {channel : UInt8} {message : Bytes} {p : Prepared}
    (hp : ((l.side s).connection.channelAt channel).prepare message
      (l.side s).connection.nextMessage = .ok p)
    (hpending : (l'.side s).connection.pending =
      keepFrames channel (l.side s).connection.pending p.frames)
    (hminted : minted (own s).config s (log ++ entries) =
      minted (own s).config s log ++ postingsOf (own s).config channel message p)
    (hreports : reportsTo s (log ++ entries) = reportsTo s log)
    (hn : (minted (own s).config s (log ++ entries)).length < custodyLimit) :
    Leftover (own s).config s l' (log ++ entries) := by
  have hlimit : custodyLimit = 65504 := rfl
  obtain ⟨hspeaks, -⟩ := hsound s
  rw [hminted] at hn
  have hkept := fun k q => hspeaks.kept_sent (k := k) (q := q) hp (Nat.le_of_lt hn)
  have hnew : ∀ k, k + 1 < custodyLimit → (minted (own s).config s log).length ≤ k →
      ¬ Covered (reportsTo s log) (idAt k) := by
    rintro k hk hge ⟨r, hr, hin⟩
    have hbound := h.reports r hr
    rw [mem_span (by rw [toNat_idAt (by omega)]; omega), toNat_idAt (by omega)] at hin
    omega
  constructor
  case reports =>
    rw [hreports, hminted, List.length_append]
    intro r hr
    exact Nat.le_trans (h.reports r hr) (Nat.le_add_right _ _)
  case covered =>
    rw [hreports, hminted, hpending]
    intro k hk hcovered
    have hold : k < (minted (own s).config s log).length :=
      Nat.lt_of_not_le fun hge => hnew k (by omega) hge hcovered
    rw [hkept k _ (List.getElem?_eq_getElem hk), if_pos hold]
    exact h.covered k hold hcovered
  case uncovered =>
    rw [hreports, hminted, hpending]
    intro k q hq hnone
    rw [hkept k q hq]
    split
    · rename_i hold
      rw [List.getElem?_append_left hold] at hq
      exact h.uncovered k q hq hnone
    · rfl

theorem Leftover.mem_pending_iff (h : Leftover (own s).config s l log) (hsound : Sound own l log)
    (hn : (minted (own s).config s log).length ≤ 65535) {id : UInt16} :
    id ∈ (l.side s).connection.pending ↔ 1 ≤ id.toNat ∧
      id.toNat ≤ (minted (own s).config s log).length ∧ ¬ Covered (reportsTo s log) id := by
  rw [Std.ExtTreeMap.mem_iff_isSome_getElem?]
  constructor
  · intro hid
    obtain ⟨t, ht⟩ := Option.isSome_iff_exists.mp hid
    obtain ⟨k, p, hk, -, rfl⟩ := (hsound s).1.kept id t ht
    obtain ⟨hlt, -⟩ := List.getElem?_eq_some_iff.mp hk
    rw [toNat_idAt (by omega)]
    refine ⟨by omega, by omega, fun hcovered => ?_⟩
    cases (h.covered k hlt hcovered).symm.trans ht
  · rintro ⟨hpos, hle, hnone⟩
    obtain ⟨k, hlt, rfl⟩ : ∃ k < (minted (own s).config s log).length, idAt k = id := by
      refine ⟨id.toNat - 1, by omega, ?_⟩
      rw [← UInt16.toNat_inj, toNat_idAt (by omega)]
      omega
    rw [h.uncovered k _ (List.getElem?_eq_getElem hlt) hnone]
    rfl

/-- A report lets go of the frames in its span. -/
theorem Leftover.answered (h : Leftover (own s.other).config s.other l log)
    (hsound : Sound own l log) (halive : Alive l) (hpeers : Peers own s)
    (hstreams : Streams (own s.other).config s.other l log)
    {index : Nat} {keep : Bool} (hh : Handover s index keep l l' entries)
    (hn : (minted (own s.other).config s.other log).length < custodyLimit) :
    Leftover (own s.other).config s.other l' (log ++ entries) := by
  have hlimit : custodyLimit = 65504 := rfl
  have hmem := List.mem_of_getElem? hh.waiting
  obtain ⟨header, body, hd, -⟩ := (hsound s).1.queued _ hmem
  have hreceived := hh.received
  rw [hd] at hmem hreceived
  obtain ⟨intake, htake, hstep⟩ := Connection.receive_accepted (hsound.short s.other)
    (hsound.accepts hpeers halive hmem) hreceived
  obtain ⟨past, hpast, hreports⟩ := (hsound s).2.report hmem
  have hids := hstreams.ids
  rw [Side.other_other] at hids
  obtain ⟨hspan, hlatest⟩ := received_of_prefix (by omega)
    (hpast.trans (hids ▸ List.prefix_append _ _)) hreports
  have htold : reportsTo s.other (log ++ entries) =
      reportsTo s.other log ++ [header.ackLatest] := by
    rw [hh.reportsTo_eq, if_pos rfl, hd, DataHeader.decode_bytes]
    rfl
  have hpending (id : UInt16) : (l'.side s.other).connection.pending[id]? =
      if id ∈ AckWindow.span header.ackLatest then none
      else (l.side s.other).connection.pending[id]? := by
    rw [hh.far, hstep, ← hspan]
    exact Connection.getElem?_confirm _ _ id
  constructor
  case reports =>
    rw [htold, hh.minted_eq]
    intro r hr
    rcases List.mem_append.mp hr with hr | hr
    · exact h.reports r hr
    · rw [List.mem_singleton.mp hr]
      exact hlatest
  case covered =>
    rw [htold, hh.minted_eq]
    intro k hk hcovered
    rw [hpending]
    split
    · rfl
    · rename_i hnot
      exact h.covered k hk ((covered_snoc.mp hcovered).resolve_right hnot)
  case uncovered =>
    rw [htold, hh.minted_eq]
    intro k p hk hnone
    rw [hpending, if_neg fun hin => hnone (covered_snoc.mpr (.inr hin))]
    exact h.uncovered k p hk fun hold => hnone (covered_snoc.mpr (.inl hold))

theorem Leftover.next (h : Leftover (own s).config s l log) (hsound : Sound own l log)
    (halive : Alive l) (hpeers : ∀ t, Peers own t) (hstreams : Streams (own s).config s l log)
    {e : Event} (he : ∀ t, e ≠ .disconnect t) (hnext : l.next e = .ok (l', entries))
    (hn : (minted (own s).config s (log ++ entries)).length < custodyLimit) :
    Leftover (own s).config s l' (log ++ entries) := by
  have halive' := halive.next hsound he hnext
  rcases next_cases hsound.short hnext with ⟨t, ha, hfar, -⟩ | ⟨t, index, keep, rfl, ⟨hh⟩⟩
  · rcases Side.eq_or_eq_other t s with rfl | rfl
    · have hreports : reportsTo s (log ++ entries) = reportsTo s log := ha.reportsTo_eq
      have hphase := halive' s
      generalize hend : l'.side s = e' at ha hphase
      cases ha with
      | sent channel message p fits prepared =>
        refine h.sent hsound prepared (by rw [hend]; rfl) ?_ hreports hn
        rw [minted_append, minted_sent]
      | ended => exact absurd rfl hphase
      | rest => exact h.kept_by (by rw [List.append_nil]) hreports (by rw [hend])
      | lost queue sub => exact h.kept_by (by rw [List.append_nil]) hreports (by rw [hend])
      | pinged phase packet alive =>
        exact h.kept_by (by rw [List.append_nil]) hreports (by rw [hend])
    · exact h.kept_by (ha.minted_eq (Side.other_ne t) _ _) ha.reportsTo_eq (by rw [hfar])
  · rcases Side.eq_or_eq_other t s with rfl | rfl
    · refine h.kept_by (hh.minted_eq _ _ _) ?_ (by rw [hh.near])
      rw [hh.reportsTo_eq, if_neg (Side.ne_other s), List.append_nil]
    · rw [hh.minted_eq] at hn
      exact h.answered hsound halive (hpeers t) hstreams hh hn

theorem Event.Acked.cases {config : Config} {e : Event} (h : e.Acked config s) :
    e.Streaming config s ∨ ∃ index keep, e = .deliver s.other index keep := by
  cases e with
  | send t channel message =>
    obtain ⟨ht, hq⟩ := h
    refine .inl ⟨ht, Nat.lt_of_not_le fun hlong => ?_⟩
    rw [Config.channelQos, List.getElem?_eq_none hlong] at hq
    cases hq
  | deliver t index keep =>
    rcases Side.eq_or_eq_other s t with rfl | rfl
    · exact .inl (h rfl)
    · exact .inr ⟨index, keep, rfl⟩
  | lose t index => exact .inl h
  | greet t now => exact .inl h
  | ping t now ping => exact .inl h
  | disconnect t => exact h.elim

theorem Event.Acked.ne_disconnect {config : Config} {e : Event} (h : e.Acked config s) (t : Side) :
    e ≠ .disconnect t := by
  rintro rfl
  exact h

theorem Event.Acked.oneWay {config : Config} {e : Event} (h : e.Acked config s) :
    e.OneWay config s := by
  cases e with
  | send t channel message => exact ⟨h.1, .inl h.2⟩
  | _ => trivial

theorem Streams.acked (h : Streams (own s).config s l log) (hsound : Sound own l log)
    (hpeers : Peers own s) (halive : Alive l)
    (hsilent : minted (own s.other).config s.other log = []) {e : Event}
    (he : e.Acked (own s).config s) (hnext : l.next e = .ok (l', entries))
    (hbound : (minted (own s).config s (log ++ entries)).length ≤ 65535) :
    Streams (own s).config s l' (log ++ entries) := by
  rcases he.cases with hstreaming | ⟨index, keep, rfl⟩
  · exact h.next hsound hpeers halive hsilent hstreaming hnext hbound
  obtain ⟨t, rfl⟩ : ∃ t : Side, s = t.other := ⟨s.other, (Side.other_other s).symm⟩
  rw [Side.other_other] at hnext
  rcases next_deliver hnext with ⟨-, rfl, rfl⟩ | ⟨⟨hh⟩⟩
  · rwa [List.append_nil]
  · rw [hh.minted_eq] at hbound
    exact h.answered hsound hh hbound

theorem Streams.dated (h : Streams (own s).config s l' (log ++ entries)) (hsound : Sound own l log)
    (hsilent : minted (own s.other).config s.other log = []) {e : Event}
    (he : e.Acked (own s).config s) (hnext : l.next e = .ok (l', entries))
    (hbound : (minted (own s).config s (log ++ entries)).length ≤ 65535) :
    Dated s.other l e l' (notedBy s.other (log ++ entries)) where
  waiting := fun _ hd => waiting_next hnext hd
  reports := by
    intro d hd
    cases e with
    | send t channel message =>
      obtain ⟨rfl, -⟩ := he
      rw [emittedAt_send (Side.other_ne t)] at hd
      cases hd
    | deliver t index keep =>
      rcases next_deliver hnext with ⟨hnone, -, -⟩ | ⟨⟨hh⟩⟩
      · rw [emittedAt_deliver_of_none hnone] at hd
        cases hd
      rw [hh.emittedAt_eq] at hd
      split at hd
      · rename_i hside
        obtain rfl : s = t := by rw [← Side.other_other s, hside, Side.other_other]
        obtain ⟨header, body, rfl, w, hw, hlatest, -⟩ :=
          (hsound s.other).2.emitted (hsound.keeps_nothing hsilent) hh.received hd
        refine ⟨header, body, rfl, ?_⟩
        obtain ⟨hfirst, hlength⟩ :=
          eq_firstIds_of_prefix (h.ids ▸ List.prefix_append (notedBy s.other (log ++ entries)) _)
        have hnow := hh.notedBy_eq s.other log
        rw [if_pos rfl] at hnow
        rw [← hnow, hfirst] at hw
        rw [hlatest, latest_of_firstIds (by omega) hw]
      · cases hd
    | lose | greet | ping => cases hd
    | disconnect => cases hd

end

theorem leftover_start (config : Config) (s : Side) (a b : Endpoint) :
    Leftover config s (start a b) [] where
  reports := by simp [reportsTo]
  covered := by simp [minted]
  uncovered := by simp [minted]

section
variable {a b : Endpoint} (hpair : Paired a b) (s : Side)
include hpair

theorem Paired.leftover_run {events : List Event} (hacked : ∀ e ∈ events, e.Acked a.config s)
    {l : Link} {log : List Entry} (hrun : (start a b).run events = .ok (l, log)) :
    Sound (endpoints a b) l log ∧ OneSided a.config s log ∧
      ((minted a.config s log).length < custodyLimit →
        Streams a.config s l log ∧ Leftover a.config s l log) := by
  have hconfig := hpair.endpoints_config s
  have hall := run_induction
    (P := fun l log => Sound (endpoints a b) l log ∧ Alive l ∧ OneSided a.config s log ∧
      ((minted a.config s log).length < custodyLimit →
        Streams a.config s l log ∧ Leftover a.config s l log))
    (Event.Acked a.config s)
    ⟨hpair.sound_start, ?_, oneSided_nil _ _, fun _ =>
      ⟨hpair.streams_start s, leftover_start _ s a b⟩⟩ ?_ hacked hrun
  · exact ⟨hall.1, hall.2.2.1, hall.2.2.2⟩
  · intro t
    rw [side_start]
    exact Phase.noConfusion
  · intro l log e l' entries ⟨hsound, halive, hone, hheld⟩ he hnext
    rw [← hconfig] at hone hheld he ⊢
    refine ⟨hsound.next hnext, halive.next hsound he.ne_disconnect hnext,
      hone.append (he.oneWay.oneSided hsound hnext), fun hcount => ?_⟩
    have hold : (minted (endpoints a b s).config s log).length < custodyLimit := by
      rw [minted_append, List.length_append] at hcount
      omega
    obtain ⟨hstreams, hleft⟩ := hheld hold
    have hlimit : custodyLimit = 65504 := rfl
    have hsilent := hone.silent
    rw [hconfig, ← hpair.endpoints_config s.other] at hsilent
    exact ⟨hstreams.acked hsound (hpair.peers s) halive hsilent he hnext (by omega),
      hleft.next hsound halive hpair.peers hstreams he.ne_disconnect hnext hcount⟩

theorem Paired.dated_at {before after : List Event} {e : Event}
    (hacked : ∀ f ∈ before ++ e :: after, f.Acked a.config s) {l : Link} {log : List Entry}
    (hrun : (start a b).run (before ++ e :: after) = .ok (l, log))
    (hfew : (minted a.config s log).length < custodyLimit) :
    ∃ m earlier m' entries, (start a b).run before = .ok (m, earlier) ∧
      m.next e = .ok (m', entries) ∧
      Dated s.other m e m' (notedBy s.other (earlier ++ entries)) := by
  have hconfig := hpair.endpoints_config
  have hlimit : custodyLimit = 65504 := rfl
  obtain ⟨m, earlier, later, hbefore, hafter, rfl⟩ := run_append_eq_ok.mp hrun
  obtain ⟨m', entries, rest, hnext, -, rfl⟩ := run_cons_eq_ok.mp hafter
  refine ⟨m, earlier, m', entries, hbefore, hnext, ?_⟩
  rw [← List.append_assoc, minted_append, List.length_append] at hfew
  have hupto : (start a b).run (before ++ [e]) = .ok (m', earlier ++ entries) :=
    run_append_eq_ok.mpr ⟨m, earlier, entries, hbefore,
      run_cons_eq_ok.mpr ⟨m', entries, [], hnext, rfl, (List.append_nil _).symm⟩, rfl⟩
  obtain ⟨hsound, hone, -⟩ :=
    hpair.leftover_run s (fun f hf => hacked f (List.mem_append_left _ hf)) hbefore
  obtain ⟨-, -, hheld⟩ := hpair.leftover_run s
    (fun f hf => hacked f (List.append_cons before e after ▸ List.mem_append_left _ hf)) hupto
  obtain ⟨hstreams, -⟩ := hheld (by omega)
  have hsilent := hone.silent
  have he := hacked e (List.mem_append_right _ List.mem_cons_self)
  rw [← hconfig s.other] at hsilent
  rw [← hconfig s] at hstreams he hfew
  exact hstreams.dated hsound hsilent he hnext (by omega)

/-- The frames that lie in the span of no report that was taken stay. Once a datagram is taken that
was emitted when all had come, only messages at least a span before the last one are left. -/
theorem uncovered_messages_kept (hvalid : a.config.validate = .ok ()) {events : List Event}
    (hacked : ∀ e ∈ events, e.Acked a.config s) :
    ∃ l log, (start a b).run events = .ok (l, log) ∧
      ((sentBy s log).length < 65504 →
        (l.side s.other).connection.window.latest.toNat = (notedBy s.other log).length ∧
        (∀ r ∈ reportsTo s log, r.toNat ≤ (sentBy s log).length) ∧
        (∀ id, id ∈ (l.side s).connection.pending ↔
          1 ≤ id.toNat ∧ id.toNat ≤ (sentBy s log).length ∧ ¬ Covered (reportsTo s log) id) ∧
        (∀ r ∈ reportsTo s log, r.toNat = (sentBy s log).length →
          Trimmed (sentBy s log).length (l.side s).connection) ∧
        ∀ before e after, events = before ++ e :: after →
          ∃ m earlier m' entries, (start a b).run before = .ok (m, earlier) ∧
            m.next e = .ok (m', entries) ∧
            Dated s.other m e m' (notedBy s.other (earlier ++ entries)) ∧
            ((notedBy s.other (earlier ++ entries)).length = (sentBy s log).length →
              ∀ d ∈ m.emittedAt s.other e, ∀ noted messages, .received s d noted messages ∈ log →
                Trimmed (sentBy s log).length (l.side s).connection)) := by
  have hlimit : custodyLimit = 65504 := rfl
  obtain ⟨l, log, hrun⟩ := hpair.run_ok hvalid events
  obtain ⟨hsound, hone, hheld⟩ := hpair.leftover_run s hacked hrun
  refine ⟨l, log, hrun, fun hfew => ?_⟩
  rw [hone.sent, List.length_map] at hfew ⊢
  obtain ⟨hstreams, hleft⟩ := hheld hfew
  obtain ⟨hfirst, hlength⟩ :=
    eq_firstIds_of_prefix (hstreams.ids ▸ List.prefix_append (notedBy s.other log) _)
  have htracks := (hsound s.other).2.tracks
  rw [hfirst] at htracks
  have hpending : ∀ id, id ∈ (l.side s).connection.pending ↔ 1 ≤ id.toNat ∧
      id.toNat ≤ (minted a.config s log).length ∧ ¬ Covered (reportsTo s log) id := by
    have hfew' := hfew
    rw [← hpair.endpoints_config s] at hleft hfew' ⊢
    exact fun _ => hleft.mem_pending_iff hsound (by omega)
  have hlast : ∀ r ∈ reportsTo s log, r.toNat = (minted a.config s log).length →
      Trimmed (minted a.config s log).length (l.side s).connection := by
    intro r hr hlast
    have hbelow : ∀ id ∈ (l.side s).connection.pending,
        id.toNat + ackSpan ≤ (minted a.config s log).length := by
      intro id hid
      obtain ⟨-, hle, hnone⟩ := (hpending id).mp hid
      exact Nat.le_of_not_lt fun hlt => hnone ⟨r, hr, (mem_span (by omega)).mpr (by omega)⟩
    refine ⟨hbelow, fun hshort => pending_size_eq_zero fun id hid => ?_⟩
    have hlow := hbelow id hid
    have hpos := ((hpending id).mp hid).1
    omega
  refine ⟨latest_of_firstIds (by omega) htracks, hleft.reports, hpending, hlast, ?_⟩
  rintro before e after rfl
  obtain ⟨m, earlier, m', entries, hbefore, hnext, hdated⟩ := hpair.dated_at s hacked hrun hfew
  refine ⟨m, earlier, m', entries, hbefore, hnext, hdated, fun hall d hd noted messages hin => ?_⟩
  obtain ⟨header, body, rfl, hreport⟩ := hdated.reports d hd
  exact hlast header.ackLatest (mem_reportsTo hin) (hreport.trans hall)

end

def skippedRun : List Event :=
  [.send .left 0 [10], .deliver .left 0 false, .lose .right 0, .lose .right 0, .lose .right 0,
    .send .left 0 [20], .deliver .left 0 false, .lose .right 1, .deliver .right 1 true]

def echoes : List Bytes :=
  [3, 4, 5].map fun packet => [0, 1, 0, packet, 0, 2, 0, 2, 255, 255, 255, 255]

def lastEcho : Bytes :=
  [0, 1, 0, 5, 0, 2, 0, 2, 255, 255, 255, 255]

theorem uncovered_messages_kept_skipped :
    ∃ l log, (start (standardEnd 1 2) (standardEnd 2 1)).run skippedRun = .ok (l, log) ∧
      (sentBy .left log).length = 2 ∧ reportsTo .left log = [2] ∧
      (l.side .left).connection.pending.size = 0 := by
  obtain ⟨l, log, hrun, hall⟩ := uncovered_messages_kept (paired_standardEnd 1 2) .left
    (Config.validate_eq_ok.mpr (by decide))
    (show ∀ e ∈ skippedRun, e.Acked Config.standard .left by decide)
  obtain ⟨l', log', hrun', heval⟩ := run_of_eval (start (standardEnd 1 2) (standardEnd 2 1))
    skippedRun (fun r => ((sentBy .left r.2).length, reportsTo .left r.2, r.2.getLast?))
    (2, [2], some (.received .left lastEcho [] [])) (by decide +kernel)
  cases hrun.symm.trans hrun'
  have hcount : (sentBy .left log).length = 2 := congrArg Prod.fst heval
  have hreports : reportsTo .left log = [2] := congrArg (fun r => r.2.1) heval
  have hlast : log.getLast? = some (.received .left lastEcho [] []) :=
    congrArg (fun r => r.2.2) heval
  obtain ⟨-, -, -, -, hemitted⟩ := hall (by omega)
  obtain ⟨m, earlier, m', entries, hbefore, hnext, -, hall⟩ :=
    hemitted (skippedRun.take 6) (.deliver .left 0 false) (skippedRun.drop 7) rfl
  obtain ⟨k, first, hbefore', heval'⟩ := run_of_eval (start (standardEnd 1 2) (standardEnd 2 1))
    (skippedRun.take 6) (fun r => (r.1.emittedAt .right (.deliver .left 0 false),
      (r.1.next (.deliver .left 0 false)).toOption.map fun n => notedBy .right (r.2 ++ n.2)))
    (echoes, some [1, 2]) (by decide +kernel)
  cases hbefore.symm.trans hbefore'
  simp only [hnext, Except.toOption, Option.map_some, Prod.mk.injEq, Option.some.injEq] at heval'
  obtain ⟨hechoes, hnoted⟩ := heval'
  refine ⟨l, log, hrun, hcount, hreports, (hall ?_ lastEcho ?_ [] [] ?_).2 ?_⟩
  · rw [hcount]
    exact congrArg List.length hnoted
  · exact hechoes ▸ (by decide : lastEcho ∈ echoes)
  · exact List.mem_of_getLast? hlast
  · rw [hcount]
    decide

def lateRun : List Event :=
  List.replicate 33 (.send .left 0 [10]) ++ List.replicate 33 (.deliver .left 0 false) ++
    List.replicate 32 (.lose .right 0) ++ [.deliver .right 0 false]

def thriftyEnd (session peerSession : UInt16) : Endpoint :=
  { standardEnd session peerSession with config := { Config.standard with ackEchoes := 1 } }

/-- The report of the last message does not reach back to the first one, which stays. -/
theorem first_message_kept :
    Paired (thriftyEnd 1 2) (thriftyEnd 2 1) ∧ (thriftyEnd 1 2).config.validate = .ok () ∧
      (∀ e ∈ lateRun, e.Acked (thriftyEnd 1 2).config .left) ∧
      ∃ l log, (start (thriftyEnd 1 2) (thriftyEnd 2 1)).run lateRun = .ok (l, log) ∧
        (sentBy .left log).length = 33 ∧ (notedBy .right log).length = 33 ∧
        reportsTo .left log = [33] ∧ (l.side .left).connection.pending.size = 1 := by
  refine ⟨⟨rfl, rfl, rfl, rfl, rfl⟩, Config.validate_eq_ok.mpr (by decide), ?_, ?_⟩
  · decide +kernel
  obtain ⟨l, log, hrun, heval⟩ := run_of_eval (start (thriftyEnd 1 2) (thriftyEnd 2 1)) lateRun
    (fun r => ((sentBy .left r.2).length, (notedBy .right r.2).length, reportsTo .left r.2,
      (r.1.side .left).connection.pending.size)) (33, 33, [33], 1) (by decide +kernel)
  simp only [Prod.mk.injEq] at heval
  exact ⟨l, log, hrun, heval⟩

end DatagramTransport.Link
