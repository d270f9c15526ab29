import DatagramTransport.Proofs.Link.Ends

/-!
# The two ends and the log

What an event adds to the log is known from who acted. Each end has posted
and noted what the log has of it, in every state that a pair of connections
can reach.
-/

set_option autoImplicit false

namespace DatagramTransport.Link

section
variable {e e' : LinkEnd} {s t : Side} {entries : List Entry} (ha : Act s e e' entries)
include ha

theorem Act.minted_eq (hts : t ≠ s) (config : Config) (log : List Entry) :
    minted config t (log ++ entries) = minted config t log := by
  rw [minted_append]
  cases ha <;> simp [minted, Entry.postings, Ne.symm hts]

theorem Act.notedBy_eq (t : Side) (log : List Entry) :
    notedBy t (log ++ entries) = notedBy t log := by
  rw [notedBy_append]
  cases ha <;> simp [notedBy, Entry.noted]

theorem Act.returnedBy_eq (t : Side) (log : List Entry) :
    returnedBy t (log ++ entries) = returnedBy t log := by
  rw [returnedBy_append]
  cases ha <;> simp [returnedBy, Entry.returned]

end

theorem pending_size_eq_zero {c : Connection} (h : ∀ id, id ∉ c.pending) :
    c.pending.size = 0 := by
  rw [Std.ExtTreeMap.eq_empty_iff_forall_not_mem.mpr h]
  exact Std.ExtTreeMap.size_empty

/-- What both ends post and note is as the log has it. -/
def Sound (own : Side → Endpoint) (l : Link) (log : List Entry) : Prop :=
  ∀ s, Speaks (own s) (minted (own s).config s log) (l.side s) ∧
    Hears (notedBy s log) (l.side s)

section
variable {own : Side → Endpoint} {l l' : Link} {log entries : List Entry} {e : Event}

theorem Sound.short (h : Sound own l log) (s : Side) : (l.side s).connection.Short :=
  (h s).2.short

theorem Sound.fits (h : Sound own l log) {s : Side}
    (hconfig : (own s.other).config = (own s).config) :
    (own s).config.Fits (l.side s.other).connection.channels := by
  rw [← hconfig]
  exact (h s.other).1.fits

theorem Sound.keeps_nothing (h : Sound own l log) {s : Side}
    (hsilent : minted (own s).config s log = []) (id : UInt16) :
    (l.side s).connection.pending[id]? = none := by
  have hkept := (h s).1.kept id
  rw [hsilent] at hkept
  cases ht : (l.side s).connection.pending[id]? with
  | none => rfl
  | some t =>
    obtain ⟨k, p, hk, -⟩ := hkept t ht
    cases hk

theorem Handover.queue_eq {s : Side} (h : Handover s 0 false l l' entries) :
    (l.side s).queue.toList = h.datagram :: h.queue.toList := by
  have hfirst := h.waiting
  have hleft := h.left
  cases hq : (l.side s).queue.toList with
  | nil =>
    rw [hq] at hfirst
    cases hfirst
  | cons first rest =>
    rw [hq] at hfirst hleft
    rw [hleft, Option.some.inj hfirst]
    rfl

section
variable {s : Side} {index : Nat} {keep : Bool} (h : Handover s index keep l l' entries)
include h

theorem Handover.subset : ∀ d ∈ h.queue.toList, d ∈ (l.side s).queue.toList := by
  intro d hd
  rw [h.left] at hd
  cases keep with
  | true => exact hd
  | false => exact (List.eraseIdx_sublist _ _).subset hd

theorem Handover.minted_eq (config : Config) (t : Side) (log : List Entry) :
    minted config t (log ++ entries) = minted config t log := by
  have hnone : minted config t entries = [] := congrArg (minted config t) h.logged
  rw [minted_append, hnone, List.append_nil]

theorem Handover.sentBy_eq (t : Side) (log : List Entry) :
    sentBy t (log ++ entries) = sentBy t log := by
  have hnone : sentBy t entries = [] := congrArg (sentBy t) h.logged
  rw [sentBy_append, hnone, List.append_nil]

theorem Handover.notedBy_eq (t : Side) (log : List Entry) :
    notedBy t (log ++ entries) = notedBy t log ++
      if t = s.other then (l.side s.other).connection.noted h.datagram else [] := by
  rw [notedBy_append]
  congr 1
  apply (congrArg (notedBy t) h.logged).trans
  simp [notedBy, Entry.noted, eq_comm]

theorem Handover.returnedBy_eq (t : Side) (log : List Entry) :
    returnedBy t (log ++ entries) = returnedBy t log ++
      if t = s.other then h.step.answer else [] := by
  rw [returnedBy_append]
  congr 1
  apply (congrArg (returnedBy t) h.logged).trans
  simp [returnedBy, Entry.returned, eq_comm]

end

theorem Sound.next (h : Sound own l log) (hn : l.next e = .ok (l', entries)) :
    Sound own l' (log ++ entries) := by
  intro t
  obtain ⟨hspeaks, hhears⟩ := h t
  rcases next_cases h.short hn with ⟨s, ha, hfar, -⟩ | ⟨s, index, keep, -, ⟨hh⟩⟩
  · rw [ha.notedBy_eq]
    rcases Side.eq_or_eq_other s t with rfl | rfl
    · rw [minted_append]
      exact ⟨hspeaks.act ha, hhears.act ha⟩
    · rw [ha.minted_eq (Side.other_ne s), hfar]
      exact ⟨hspeaks, hhears⟩
  · rw [hh.minted_eq, hh.notedBy_eq]
    rcases Side.eq_or_eq_other s t with rfl | rfl
    · rw [hh.near, if_neg (Side.ne_other t), List.append_nil]
      exact ⟨hspeaks.lost hh.subset, hhears.lost hh.subset⟩
    · rw [hh.far, if_pos rfl]
      exact ⟨hspeaks.received hh.received, hhears.received hh.received⟩

end

structure Paired (a b : Endpoint) : Prop where
  config : b.config = a.config
  short : a.config.ackMode = .short
  id : b.id = a.id
  sessions : a.peerSession = b.session ∧ b.peerSession = a.session

def standardEnd (session peerSession : UInt16) : Endpoint where
  config := .standard
  id := 1
  address := ""
  remoteId := 1
  session := session
  peerSession := peerSession

theorem paired_standardEnd (m n : UInt16) : Paired (standardEnd m n) (standardEnd n m) :=
  ⟨rfl, rfl, rfl, rfl, rfl⟩

def endpoints (a b : Endpoint) : Side → Endpoint
  | .left => a
  | .right => b

section
variable {a b : Endpoint}

theorem Paired.endpoints_config (h : Paired a b) (s : Side) :
    (endpoints a b s).config = a.config := by
  cases s
  · rfl
  · exact h.config

theorem Paired.endpoints_id (h : Paired a b) (s : Side) :
    (endpoints a b s).id = (endpoints a b s.other).id := by
  cases s
  · exact h.id.symm
  · exact h.id

theorem Paired.endpoints_session (h : Paired a b) (s : Side) :
    (endpoints a b s.other).peerSession = (endpoints a b s).session := by
  cases s
  · exact h.sessions.2
  · exact h.sessions.1

theorem side_start (a b : Endpoint) (s : Side) :
    (start a b).side s = { connection := .start (endpoints a b s), queue := .ofList [] } := by
  cases s <;> rfl

theorem Paired.sound_start (h : Paired a b) : Sound (endpoints a b) (start a b) [] := by
  intro s
  have hs : (endpoints a b s).config.ackMode = .short := by
    rw [h.endpoints_config]
    exact h.short
  rw [side_start]
  constructor
  · constructor
    case endpoint => rfl
    case short => exact ⟨hs, hs⟩
    case fits => exact Config.fits_ofQos _
    case counter => rfl
    case wellPosted =>
      intro k p hk
      cases hk
    case kept => simp [Connection.start]
    case queued => simp
  · constructor
    case short => exact ⟨hs, hs⟩
    case window =>
      rw [Connection.start, hs]
      rfl
    case reports => simp

end

end DatagramTransport.Link
