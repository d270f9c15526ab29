import DatagramTransport.Proofs.Link.Run

/-!
# Coming to rest

Each delivery may cause further datagrams. That this ends is shown with an
invariant and two measures, whatever the order in which the two queues are
served. Where nothing is on its way any more, something may be claimed of the
link and of its log.
-/

set_option autoImplicit false

namespace DatagramTransport.Link

def cleared (l : Link) : Link where
  left := { l.left with queue := .ofList [] }
  right := { l.right with queue := .ofList [] }

theorem side_cleared (l : Link) (s : Side) :
    l.cleared.side s = { l.side s with queue := .ofList [] } := by
  cases s <;> rfl

theorem handover_of_waiting {l l' : Link} {s : Side} {entries : List Entry}
    (hs : (l.side s).queue.toList ≠ [])
    (hnext : l.next (.deliver s 0 false) = .ok (l', entries)) :
    Nonempty (Handover s 0 false l l' entries) := by
  rcases next_deliver hnext with ⟨hnone, -, -⟩ | hh
  · rw [List.getElem?_eq_none_iff] at hnone
    exact absurd (List.length_eq_zero_iff.mp (Nat.le_zero.mp hnone)) hs
  · exact hh

/-- Datagrams are handed over once and in the order of their queue. Whichever
queue is next each time, after finitely many of them nothing is on its way
any more, and then the condition holds. -/
inductive ComesToRest (P : Link → List Entry → Prop) : Link → List Entry → Prop
  | rest {l : Link} {log : List Entry} (empty : ∀ s, (l.side s).queue.toList = [])
    (holds : P l log) : ComesToRest P l log
  | go {l : Link} {log : List Entry} (waiting : ∃ s, (l.side s).queue.toList ≠ [])
    (next : ∀ s, (l.side s).queue.toList ≠ [] → ∃ r, l.next (.deliver s 0 false) = .ok r)
    (settles : ∀ s l' entries, (l.side s).queue.toList ≠ [] →
      l.next (.deliver s 0 false) = .ok (l', entries) → ComesToRest P l' (log ++ entries)) :
    ComesToRest P l log

theorem ComesToRest.mono {P Q : Link → List Entry → Prop} (hPQ : ∀ l log, P l log → Q l log)
    {l : Link} {log : List Entry} (h : ComesToRest P l log) : ComesToRest Q l log := by
  induction h with
  | rest empty holds => exact .rest empty (hPQ _ _ holds)
  | go waiting next settles ih => exact .go waiting next ih

theorem comesToRest_of_measure {I P : Link → List Entry → Prop}
    (major minor : Link → List Entry → Nat)
    (rest : ∀ l log, I l log → (∀ s, (l.side s).queue.toList = []) → P l log)
    (next : ∀ l log s, I l log → (l.side s).queue.toList ≠ [] →
      ∃ r, l.next (.deliver s 0 false) = .ok r)
    (step : ∀ l log s l' entries, I l log → Handover s 0 false l l' entries →
      l.next (.deliver s 0 false) = .ok (l', entries) → I l' (log ++ entries) ∧
        (major l' (log ++ entries) < major l log ∨
          major l' (log ++ entries) = major l log ∧
            minor l' (log ++ entries) < minor l log))
    {l : Link} {log : List Entry} (h : I l log) : ComesToRest P l log := by
  induction hm : major l log using Nat.strongRecOn generalizing l log with
  | ind m ihm =>
    induction hw : minor l log using Nat.strongRecOn generalizing l log with
    | ind w ihw =>
      by_cases hempty : ∀ s, (l.side s).queue.toList = []
      · exact .rest hempty (rest l log h hempty)
      · refine .go (Classical.not_forall.mp hempty) (fun s hs => next l log s h hs)
          fun s l' entries hs hn => ?_
        obtain ⟨hh⟩ := handover_of_waiting hs hn
        obtain ⟨hI, hlt | ⟨heq, hlt⟩⟩ := step l log s l' entries h hh hn
        · exact ihm _ (hm ▸ hlt) hI rfl
        · exact ihw _ (hw ▸ hlt) hI (heq.trans hm) rfl

end DatagramTransport.Link
