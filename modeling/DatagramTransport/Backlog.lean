/-!
# First in, first out

A queue as two lists, so that neither end is far away however long it is.
What it holds is its list: items are put behind that list, and the head of
the list comes out first.
-/

set_option autoImplicit false

namespace DatagramTransport

structure Backlog (α : Type) where
  front : List α
  back : List α
  deriving DecidableEq, Repr

namespace Backlog

variable {α : Type}

def ofList (items : List α) : Backlog α where
  front := items
  back := []

def toList (q : Backlog α) : List α :=
  q.front ++ q.back.reverse

def length (q : Backlog α) : Nat :=
  q.front.length + q.back.length

def push (q : Backlog α) (items : List α) : Backlog α :=
  { q with back := items.reverseAux q.back }

def pop (q : Backlog α) : Option α × Backlog α :=
  match q.front with
  | item :: front => (some item, { q with front })
  | [] =>
    match q.back.reverse with
    | [] => (none, ofList [])
    | item :: front => (some item, ofList front)

@[simp] theorem toList_ofList (items : List α) : (ofList items).toList = items := by
  simp [toList, ofList]

@[simp] theorem length_toList (q : Backlog α) : q.toList.length = q.length := by
  simp [toList, length]

@[simp] theorem toList_push (q : Backlog α) (items : List α) :
    (q.push items).toList = q.toList ++ items := by
  simp [toList, push, List.reverseAux_eq]

@[simp] theorem pop_fst (q : Backlog α) : q.pop.1 = q.toList.head? := by
  obtain ⟨front, back⟩ := q
  cases front with
  | cons item front => rfl
  | nil =>
    simp only [pop, toList, List.nil_append]
    split <;> simp_all

@[simp] theorem toList_pop (q : Backlog α) : q.pop.2.toList = q.toList.tail := by
  obtain ⟨front, back⟩ := q
  cases front with
  | cons item front => rfl
  | nil =>
    simp only [pop, toList, List.nil_append]
    split <;> simp_all [ofList]

end Backlog

end DatagramTransport
