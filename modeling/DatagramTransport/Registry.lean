import Std.Data.ExtTreeMap

/-!
# A table by key

Every change is one step that gives the new table and what the change found,
so that a check and the insertion that depends on it cannot come apart. A
reader that keeps a table keeps it as it was: later changes make new ones.
-/

set_option autoImplicit false

namespace DatagramTransport

abbrev Registry (κ α : Type) [Ord κ] := Std.ExtTreeMap κ α

namespace Registry

variable {κ α : Type} [Ord κ] [Std.TransOrd κ]

def put (r : Registry κ α) (key : κ) (value : α) : Registry κ α × Option α :=
  (r.insert key value, r[key]?)

def putIfAbsent (r : Registry κ α) (key : κ) (value : α) : Registry κ α × Bool :=
  if key ∈ r then (r, false) else (r.insert key value, true)

def takeOut (r : Registry κ α) (key : κ) : Registry κ α × Option α :=
  (r.erase key, r[key]?)

def takeAll (r : Registry κ α) : Registry κ α × Registry κ α :=
  (∅, r)

theorem putIfAbsent_eq_true_iff (r : Registry κ α) (key : κ) (value : α) :
    (r.putIfAbsent key value).2 = true ↔ key ∉ r := by
  unfold putIfAbsent
  split <;> simp_all

theorem putIfAbsent_of_mem {r : Registry κ α} {key : κ} (h : key ∈ r) (value : α) :
    r.putIfAbsent key value = (r, false) :=
  if_pos h

end Registry

end DatagramTransport
