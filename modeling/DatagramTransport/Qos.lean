/-!
# Qualities of service

A channel's quality of service fixes how its frames look and what is done
about lost, repeated and reordered ones. The codes are those of a channel
configuration; the gaps belong to qualities that do not exist here.
-/

set_option autoImplicit false

namespace DatagramTransport

inductive Qos where
  | unreliable
  | unreliableSequenced
  | reliable
  | reliableFragmented
  | reliableSequenced
  | allCostDelivery
  deriving DecidableEq, Repr

namespace Qos

def code : Qos → UInt8
  | unreliable => 0
  | unreliableSequenced => 2
  | reliable => 3
  | reliableFragmented => 4
  | reliableSequenced => 5
  | allCostDelivery => 8

def ofCode? : UInt8 → Option Qos
  | 0 => some unreliable
  | 2 => some unreliableSequenced
  | 3 => some reliable
  | 4 => some reliableFragmented
  | 5 => some reliableSequenced
  | 8 => some allCostDelivery
  | _ => none

def name : Qos → String
  | unreliable => "Unreliable"
  | unreliableSequenced => "UnreliableSequenced"
  | reliable => "Reliable"
  | reliableFragmented => "ReliableFragmented"
  | reliableSequenced => "ReliableSequenced"
  | allCostDelivery => "AllCostDelivery"

def isReliable : Qos → Bool
  | reliable | reliableFragmented | reliableSequenced | allCostDelivery => true
  | unreliable | unreliableSequenced => false

def isSequenced : Qos → Bool
  | unreliableSequenced | reliableSequenced => true
  | unreliable | reliable | reliableFragmented | allCostDelivery => false

theorem ofCode?_code (q : Qos) : ofCode? q.code = some q := by
  cases q <;> rfl

theorem code_of_ofCode? {c : UInt8} {q : Qos} (h : ofCode? c = some q) : q.code = c := by
  unfold ofCode? at h
  split at h <;> simp_all <;> subst h <;> rfl

end Qos

end DatagramTransport
