import Regalia.Core.Membership.Python

/-!
# Session Keys

`deploy/baremetal/lease.py`, the one part the operational state shares with
the runtime leases: which Ed25519 keys a daemon may sign with. Under a key of
small order one signature holds for many messages, so those are refused by
their coordinate.

## Main definitions

* `sessionPublic`: A session key.
-/

namespace Regalia.Lease

open Regalia.Membership

def ed25519Prime : Nat := 2 ^ 255 - 19

/-- The y of each point of small order, either sign of x. -/
def smallOrderY : List Nat :=
  [0, 1, ed25519Prime - 1,
    0x5fc536d880238b13933c6d305acdfd5f098eff289f4c345b027b2c28f95e826,
    0x7a03ac9277fdc74ec6cc392cfa53202a0f67100d760b3cba4fd84d3d706a17c7]

/-- Bytes as a number, least significant first. -/
def littleEndianValue (bytes : List UInt8) : Nat := bigEndianValue bytes.reverse

/-- `session_public`. -/
def sessionPublic (value : Value) (label : String) : Check Unit := do
  Python.hexField value 64 label
  let y := littleEndianValue (hexBytes (textOf value)) % 2 ^ 255
  require (y < ed25519Prime) "%s is not a canonical Ed25519 encoding" [.text label]
  require (y ∉ smallOrderY)
    "%s is a small-order Ed25519 point, under which a signature can be forged" [.text label]

end Regalia.Lease
