import DatagramTransport.Error

/-!
# Changes in place

An operation may change a state step by step and fail between two steps: what
has been changed by then stays changed. That it comes to the same as one which
gives a new state or none has to be shown, step by step.
-/

set_option autoImplicit false

namespace DatagramTransport

/-- Operations on a state that they change in place. -/
abbrev InPlace (σ : Type) := EStateM Error σ

namespace InPlace

section
variable {σ α β γ : Type} {s after : σ}

def settle (s : σ) (finish : γ → α × σ) : Except Error γ → EStateM.Result Error σ α
  | .ok c => .ok (finish c).1 (finish c).2
  | .error e => .error e s

theorem get_bind (next : σ → InPlace σ β) : ((get : InPlace σ σ) >>= next) s = next s s := rfl

theorem modify_bind (f : σ → σ) (next : PUnit → InPlace σ β) :
    ((modify f : InPlace σ PUnit) >>= next) s = next ⟨⟩ (f s) := rfl

theorem modifyGet_bind (f : σ → α × σ) (next : α → InPlace σ β) :
    ((modifyGet f : InPlace σ α) >>= next) s = next (f s).1 (f s).2 := rfl

theorem bind_done {action : InPlace σ α} {a : α} (h : action s = .ok a after)
    (next : α → InPlace σ β) : (action >>= next) s = next a after := by
  simp only [bind, EStateM.bind, h]

theorem bind_refused {action : InPlace σ α} {e : Error} (h : action s = .error e after)
    (next : α → InPlace σ β) : (action >>= next) s = .error e after := by
  simp only [bind, EStateM.bind, h]

theorem ofExcept_bind {result : Except Error α} {a : α} (h : result = .ok a)
    (next : α → InPlace σ β) : ((ofExcept result : InPlace σ α) >>= next) s = next a s := by
  rw [h]
  rfl

theorem ofExcept_settle {result : Except Error α} {next : α → InPlace σ β} {finish : γ → β × σ}
    {rest : α → Except Error γ} (h : ∀ a, next a s = settle s finish (rest a)) :
    ((ofExcept result : InPlace σ α) >>= next) s = settle s finish (result >>= rest) := by
  cases result with
  | error e => rfl
  | ok a => exact h a

end

end InPlace

end DatagramTransport
