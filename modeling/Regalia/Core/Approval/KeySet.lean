import Regalia.Data.GoString
import Regalia.Data.GoTime
import Regalia.Data.Sha256

/-!
# Approvals

An approver signs the canonical bytes of what they approve, and a header of a
request carries the signatures. `Verify` counts an approval if its key is
configured and its signature holds for this request; one that fails any check
is not an error but no approver.

What the standard library does is a parameter: the JSON of the key file and the
header, the parsing of a time, base64, and Ed25519.

## Main definitions

* `Binding`: What an approval is bound to.
* `Binding.canonicalBytes`: What an approver signs.
* `Library`: What is taken from the standard library.
* `loadKeySet`: The keys of a key file.
* `counted`: The approvals that count for a binding.
* `verify`: Their approvers.
-/

namespace Regalia.Approval

open List

/-- `maxHeaderBytes` and `maxApprovals`. -/
def maxHeaderBytes : Nat := 16 * 1024

def maxApprovals : Nat := 64

/-- `Approval`: one approver's detached signature. -/
structure Evidence where
  approverID : GoString
  nonce : GoString
  expiresAt : GoString
  payloadDigest : GoString
  signature : GoString
  deriving DecidableEq

structure Binding where
  objectID : GoString
  purpose : GoString
  environment : GoString
  nonce : GoString
  expiresAt : GoTime
  payload : List UInt8
  signer : GoString

/-- `PayloadDigest`. -/
def Binding.payloadDigest (b : Binding) : GoString :=
  GoString.ofRunes (hexText (Sha256.sum b.payload))

/-- A field with its length in front and a newline behind. -/
def frame (field : GoString) : GoString :=
  GoString.ofRunes (Nat.toDigits 10 field.length) ++ GoString.ofText ":" ++ field ++
    GoString.ofText "\n"

/-- A field is read off the front of whatever its frame is followed by. -/
theorem frame_append {a b x y : GoString} (h : frame a ++ x = frame b ++ y) : a = b ∧ x = y := by
  have hcolon : GoString.ofText ":" = [58] := by decide
  simp only [frame, hcolon, append_assoc] at h
  -- the digits end where the colon stands
  have htake := congrArg (List.takeWhile (fun c : UInt8 => decide (c ≠ 58))) h
  have hdigits : ∀ n : Nat, ∀ c ∈ GoString.ofRunes (Nat.toDigits 10 n), decide (c ≠ 58) = true :=
    fun n c hc => decide_eq_true (by rintro rfl; exact absurd (GoString.digits_bytes n 58 hc).2 (by decide))
  rw [takeWhile_append_of_pos (hdigits _), takeWhile_append_of_pos (hdigits _)] at htake
  simp only [singleton_append, takeWhile_cons, ne_eq, not_true_eq_false, decide_false,
    Bool.false_eq_true, if_false, append_nil] at htake
  have hlength : a.length = b.length := by
    have hdigit := congrArg (fun d => Nat.ofDigitChars 10 d 0) (GoString.ofRunes_injective _ _ htake)
    simpa only [Nat.ofDigitChars_toDigits (b := 10) (by decide) (Nat.le_refl _)] using hdigit
  rw [htake] at h
  have hrest := append_cancel_left (append_cancel_left h)
  rcases append_inj hrest hlength with ⟨hfield, htail⟩
  exact ⟨hfield, append_cancel_left htail⟩

/-- So are any number of fields. -/
theorem frames_append {l m : List GoString} {x y : GoString} (hlength : l.length = m.length)
    (h : l.flatMap frame ++ x = m.flatMap frame ++ y) : l = m ∧ x = y := by
  induction l generalizing m with
  | nil =>
    obtain rfl := length_eq_zero_iff.mp hlength.symm
    exact ⟨rfl, h⟩
  | cons a l ih =>
    cases m with
    | nil => cases hlength
    | cons b m =>
      rw [flatMap_cons, flatMap_cons, append_assoc, append_assoc] at h
      rcases frame_append h with ⟨rfl, hrest⟩
      rcases ih (Nat.succ.inj hlength) hrest with ⟨rfl, htail⟩
      exact ⟨rfl, htail⟩

def Binding.canonicalBytes (b : Binding) : List UInt8 :=
  GoString.ofText "regalia-approval-v3\n" ++
    [b.objectID, b.purpose, b.environment, b.nonce, GoString.ofRunes b.expiresAt.rfc3339Nano,
      b.payloadDigest, b.signer].flatMap frame

/-- What is taken from the standard library: the approvals a header spells, a
    time, the bytes of a signature or a key, and whether a key's signature holds
    for a message. -/
structure Library where
  decodeHeader : GoString → Option (List Evidence)
  parseTime : GoString → Option GoTime
  decodeSignature : GoString → Option (List UInt8)
  verify : List UInt8 → List UInt8 → List UInt8 → Bool

structure KeySet where
  keys : GoString → Option (List UInt8)

/-- `keyDocument`: a key file's approvers with their keys in base64, in the
    order the map is gone through. -/
structure KeyDocument where
  approvers : List (GoString × GoString)
  distinct : (approvers.map Prod.fst).Nodup

/-- `unicode.IsSpace`. -/
def isSpace (c : Char) : Bool :=
  c.toNat ∈ [0x20, 0x85, 0xA0, 0x1680, 0x2028, 0x2029, 0x202F, 0x205F, 0x3000] ||
    (9 ≤ c.toNat && c.toNat ≤ 13) || (0x2000 ≤ c.toNat && c.toNat ≤ 0x200A)

variable (lib : Library)

/-- One approver of a key file. -/
def loadKey (entry : GoString × GoString) :
    Except String (GoString × List UInt8) :=
  if entry.1.pieces.all (·.any isSpace) then
    .error "approver key set contains an empty approver id"
  else
    match (lib.decodeSignature entry.2).filter (·.length = 32) with
    | none => .error "approver %q must carry a base64 ed25519 public key of %d bytes"
    | some key => .ok (entry.1, key)

/-- `LoadKeySet`, on what the file holds and what the JSON decoder makes of
    it. -/
def loadKeySet (decode : GoString → Except String KeyDocument)
    (contents : GoString) : Except String KeySet := do
  let document ← decode contents
  if document.approvers = [] then
    .error "approver key set is empty: every dual-control policy would deny for a reason nothing reports"
  else
    let keys ← document.approvers.mapM (loadKey lib)
    return ⟨fun id => keys.lookup id⟩

/-- `counts`. -/
def KeySet.counts (set : KeySet) (lib : Library) (b : Binding) (approval : Evidence) : Bool :=
  match set.keys approval.approverID with
  | none => false
  | some key =>
    if approval.nonce ≠ b.nonce ∨ approval.payloadDigest ≠ b.payloadDigest then false
    else
      match lib.parseTime approval.expiresAt with
      | none => false
      | some expires =>
        if expires.after b.expiresAt then false
        else
          match lib.decodeSignature approval.signature with
          | none => false
          | some signature =>
            signature.length = 64 && lib.verify key b.canonicalBytes signature

/-- The loop of `Verify`: of the approvals that count, the first of each
    approver. -/
def firstOfEach (counts : Evidence → Bool) : List GoString → List Evidence → List Evidence
  | _, [] => []
  | seen, approval :: rest =>
    if !counts approval || approval.approverID ∈ seen then firstOfEach counts seen rest
    else approval :: firstOfEach counts (approval.approverID :: seen) rest

/-- The approvals counted for a binding. A node without a key set counts
    none. -/
def counted (set : Option KeySet) (header : GoString) (b : Binding) :
    List Evidence :=
  match set with
  | none => []
  | some set =>
    if header = [] ∨ maxHeaderBytes < header.length then []
    else
      match lib.decodeHeader header with
      | none => []
      | some approvals =>
        if maxApprovals < approvals.length then []
        else firstOfEach (set.counts lib b) [] approvals

/-- `Verify`. -/
def verify (set : Option KeySet) (header : GoString) (b : Binding) :
    List GoString :=
  ((counted lib set header b).map Evidence.approverID).mergeSort

end Regalia.Approval
