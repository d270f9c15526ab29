/-!
# Types of system packets

The third byte of a system packet says what the packet asks for.
-/

set_option autoImplicit false

namespace DatagramTransport

inductive RequestType where
  | connectRequest
  | disconnect
  | ping
  deriving DecidableEq, Repr

namespace RequestType

def code : RequestType → UInt8
  | connectRequest => 1
  | disconnect => 3
  | ping => 4

def ofCode? : UInt8 → Option RequestType
  | 1 => some connectRequest
  | 3 => some disconnect
  | 4 => some ping
  | _ => none

def name : RequestType → String
  | connectRequest => "ConnectRequest"
  | disconnect => "Disconnect"
  | ping => "Ping"

def phrase : RequestType → String
  | connectRequest => "a connect request"
  | disconnect => "a disconnect"
  | ping => "a ping"

theorem ofCode?_code (t : RequestType) : ofCode? t.code = some t := by
  cases t <;> rfl

theorem code_of_ofCode? {c : UInt8} {t : RequestType} (h : ofCode? c = some t) :
    t.code = c := by
  unfold ofCode? at h
  split at h <;> simp_all <;> subst h <;> rfl

end RequestType

end DatagramTransport
