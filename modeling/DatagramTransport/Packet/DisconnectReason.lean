/-!
# Reasons for a disconnect

The last byte of a disconnect packet.
-/

set_option autoImplicit false

namespace DatagramTransport

inductive DisconnectReason where
  | ok
  | wrongHost
  | wrongConnection
  | wrongChannel
  | noResources
  | badMessage
  | timeout
  | messageTooLong
  | wrongOperation
  | versionMismatch
  | crcMismatch
  | dnsFailure
  deriving DecidableEq, Repr

namespace DisconnectReason

def code : DisconnectReason → UInt8
  | ok => 0
  | wrongHost => 1
  | wrongConnection => 2
  | wrongChannel => 3
  | noResources => 4
  | badMessage => 5
  | timeout => 6
  | messageTooLong => 7
  | wrongOperation => 8
  | versionMismatch => 9
  | crcMismatch => 10
  | dnsFailure => 11

def ofCode? : UInt8 → Option DisconnectReason
  | 0 => some ok
  | 1 => some wrongHost
  | 2 => some wrongConnection
  | 3 => some wrongChannel
  | 4 => some noResources
  | 5 => some badMessage
  | 6 => some timeout
  | 7 => some messageTooLong
  | 8 => some wrongOperation
  | 9 => some versionMismatch
  | 10 => some crcMismatch
  | 11 => some dnsFailure
  | _ => none

def name : DisconnectReason → String
  | ok => "Ok"
  | wrongHost => "WrongHost"
  | wrongConnection => "WrongConnection"
  | wrongChannel => "WrongChannel"
  | noResources => "NoResources"
  | badMessage => "BadMessage"
  | timeout => "Timeout"
  | messageTooLong => "MessageTooLong"
  | wrongOperation => "WrongOperation"
  | versionMismatch => "VersionMismatch"
  | crcMismatch => "CrcMismatch"
  | dnsFailure => "DnsFailure"

theorem ofCode?_code (r : DisconnectReason) : ofCode? r.code = some r := by
  cases r <;> rfl

theorem code_of_ofCode? {c : UInt8} {r : DisconnectReason} (h : ofCode? c = some r) :
    r.code = c := by
  unfold ofCode? at h
  split at h <;> simp_all <;> subst h <;> rfl

end DisconnectReason

end DatagramTransport
