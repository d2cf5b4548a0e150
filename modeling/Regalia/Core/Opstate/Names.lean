import Regalia.Core.Policy.Engine
import Regalia.Data.Hex
import Regalia.Data.Sha256

/-!
# The Names of Sequences

`internal/opstate/reserve.go`: the account a sequence is reserved for is a key
of the policy engine, and its name in the operational state is printable. A
NUL of the key is a slash of the name, any other byte outside its alphabet is
escaped, and a name that is too long is a digest of the key.

## Main definitions

* `sequenceKey`: The key `Evaluate` makes.
* `sequenceName`: The name of a key.
* `sequenceEtcdKey`: Where the sequence stands in etcd.
-/

namespace Regalia.Opstate

open GoString

/-- The sequence key `Evaluate` makes of a transaction. -/
def sequenceKey (chainID : GoString) (accountNumber : UInt64) : GoString :=
  chainID ++ Policy.separator ++ ofText (toString accountNumber.toNat)

theorem reservation_sequenceKey {p : Policy.Rules} {now : GoTime} {epoch : UInt64}
    {r : Policy.Request} {amounts : Policy.Amounts} {t : Policy.CosmosTransaction}
    (h : r.cosmos = some t) : (p.reservation now epoch r amounts).sequenceKey =
      sequenceKey t.chainID t.accountNumber := by
  rw [Policy.Rules.reservation, h, sequenceKey]

/-- What `sequenceName` appends for a byte. -/
def escapeByte (c : UInt8) : GoString :=
  if c = 0 then ofText "/"
  else if 0x20 < c ∧ c < 0x7f ∧ c ≠ 37 then [c]
  else ofText "%" ++ ofRunes (hexText [c])

def sequenceName (key : GoString) : GoString :=
  let out := key.flatMap escapeByte
  if 256 < out.length then ofText "sha256:" ++ ofRunes (hexText (Sha256.sum key)) else out

/-- `KeyFor` of the entry that `try` plans for a sequence. -/
def sequenceEtcdKey (key : GoString) : GoString :=
  ofText "/regalia/v1/seq/" ++ ofRunes (hexText (Sha256.sum (sequenceName key)))

-- the accounts 1 and 2 of the chain "a"
theorem collisionFree_accounts :
    Sha256.CollisionFree [sequenceKey [97] 1, sequenceKey [97] 2] ∧
    Sha256.CollisionFree [sequenceName (sequenceKey [97] 1), sequenceName (sequenceKey [97] 2)] := by
  decide +kernel

end Regalia.Opstate
