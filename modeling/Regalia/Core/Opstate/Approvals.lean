import Regalia.Core.Approval.KeySet
import Regalia.Core.Opstate.Entry

/-!
# The Approvals Behind a Spend

`deploy/baremetal/opstate.py`, what a collector checks of a spend: that the
approvals its digest names existed, each signed by its approver over the
binding of the request that was spent. The binding is built from the spend's
own fields and the nonce in clear, which the approvals carry.

## Main definitions

* `Library`: What comes from outside the module.
* `approvalsDigest`: What a spend names its approvals by.
* `bindingBytes`: What an approver signed.
* `checkApprovals`: The approvers whose approvals a spend counted.
-/

namespace Regalia.Opstate

open Regalia.Membership

/-- The signature schemes, and `base64.b64decode` with `validate=True`. -/
structure Library where
  crypto : Crypto
  base64 : String → Option (List UInt8)

/-- `APPROVAL_FIELDS`. -/
def approvalFields : List String :=
  ["approver_id", "nonce", "expires_at", "payload_digest", "signature"]

/-- `approvals_digest`: the list in the order of the approvers. -/
def approvalsDigest (approvals : List Value) : String :=
  Python.digest (.arr (approvals.insertionSort
    (fun a b => textOf (field a "approver_id") ≤ textOf (field b "approver_id"))))

/-- `binding_bytes`. -/
def bindingBytes (spend : Value) (nonce : String) : List UInt8 :=
  GoString.ofText "regalia-approval-v3\n" ++
    ([textOf (field spend "object_id"), textOf (field spend "purpose"),
      textOf (field spend "environment"), nonce, textOf (field spend "expires_at"),
      textOf (field spend "payload_sha256"), textOf (field spend "node_id")].map
        GoString.ofText).flatMap Approval.frame

/-- The blanks `bytes.fromhex` skips. -/
def isSpace (c : Char) : Bool := c = ' ' || (9 ≤ c.toNat && c.toNat ≤ 13)

/-- `bytes.fromhex`: pairs of digits in either case, with blanks between
    them. -/
def fromHex : List Char → Option (List UInt8)
  | [] => some []
  | c :: rest =>
    if isSpace c then fromHex rest
    else
      match rest with
      | [] => none
      | d :: rest =>
        match hexValue c, hexValue d, fromHex rest with
        | some a, some b, some bytes => some (UInt8.ofNat (16 * a + b) :: bytes)
        | _, _, _ => none

/-- Whether an approver's signature holds for a message. -/
def holds (lib : Library) (key : String) (message : List UInt8) (signature : Value) : Bool :=
  ((asText signature).bind lib.base64).any fun sig =>
    (fromHex key.toList).any fun key => key.length = 32 && lib.crypto.ed25519 key message sig

/-- One approval, counted after others. -/
def countApproval (lib : Library) (set : ApproverSet) (spend : Value) (counted : List String)
    (a : Value) : Check (List String) := do
  Python.exact a approvalFields "an approval"
  let who ← demand (asText (field a "approver_id"))
    "%s is not an approver of the set, or counted twice" [.value (field a "approver_id")]
  let key ← demand ((set.approvers.get? who).filter (fun _ => who ∉ counted))
    "%s is not an approver of the set, or counted twice" [.text who]
  let nonce ← demand (asText (field a "nonce")) "%s approved another request's nonce" [.text who]
  let digest ← nonceDigest nonce
  require (field spend "nonce_digest" = .str digest) "%s approved another request's nonce"
    [.text who]
  require (field a "payload_digest" = field spend "payload_sha256") "%s approved another payload"
    [.text who]
  let expires ← Heartbeat.parseTime (field a "expires_at") "an approval's expires_at"
  let last ← Heartbeat.parseTime (field spend "expires_at") "expires_at"
  require (expires ≤ last) "%s's approval outlives the request" [.text who]
  let at_ ← Heartbeat.parseTime (field spend "at") "at"
  require (at_ < expires) "%s's approval had expired when the request was spent" [.text who]
  -- a signature that is no text raises a TypeError, which ends the check as well
  require (holds lib key (bindingBytes spend nonce) (field a "signature"))
    "%s's approval does not verify over the request's binding" [.text who]
  return counted ++ [who]

/-- `check_approvals`: the approvers, sorted. -/
def checkApprovals (lib : Library) (spend approvals : Value) (sets : ApproverSets) :
    Check (List String) := do
  let kind ← validate spend
  require (kind = .spend) "only a spend has approvals" []
  let items ← demand ((asList approvals).filter (·.length ≤ maxApprovers))
    "approvals must be a list of at most %d" [.number maxApprovers]
  -- an item that is no object raises an AttributeError here, and is refused below
  require (field spend "approvals_sha256" = .str (approvalsDigest items))
    "these are not the approvals the spend counted (approvals_sha256)" []
  let name := textOf (field spend "approver_set")
  let set ← demand ((sets name).filter (fun set => approverSetDigest set = name))
    "the approver set %s is not one this verifier knows" [.text (short name)]
  let counted ← items.foldlM (countApproval lib set spend) []
  require (set.required ≤ counted.length) "%d of %d required approvals"
    [.number counted.length, .number set.required]
  let named := counted.insertionSort (· ≤ ·)
  require (named = (itemsOf (field spend "approvers")).map textOf)
    "the spend names %s; the approvals are %s's"
    [.value (field spend "approvers"), .names named]
  return named

end Regalia.Opstate
