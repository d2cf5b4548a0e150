import Regalia.Core.Membership.Format
import Regalia.Data.Framing

/-!
# Quotes

`deploy/baremetal/attest.py`, the structures of a TPM: the public area of an
attestation key, the quote it signs, and the transcript a quote is bound to.
All are read from the bytes that were signed, whole: what is left over is
refused.

## Main definitions

* `akIdentity`: The name and the public key of an attestation key.
* `qualifiedName`: The name of an attestation key under an endorsement key.
* `Quote`, `parseQuote`: What a TPM attests.
* `Tuple`, `transcript`: What a quote is made for.
-/

namespace Regalia.Attest

open Regalia.Membership
open Sha256 (bigEndian)

abbrev Bytes := List UInt8

def tpmGenerated : Nat := 0xFF544347
def stAttestQuote : Nat := 0x8018
def algSha256 : Nat := 0x000B
def algNull : Nat := 0x0010
def algEcdsa : Nat := 0x0018
def algEcc : Nat := 0x0023
def curveP256 : Nat := 0x0003
def rhEndorsement : Nat := 0x4000000B
def akAttributes : Nat := 0x00050072

def p256SpkiPrefix : Bytes :=
  [0x30, 0x59, 0x30, 0x13, 0x06, 0x07, 0x2a, 0x86, 0x48, 0xce, 0x3d, 0x02, 0x01, 0x06, 0x08, 0x2a,
   0x86, 0x48, 0xce, 0x3d, 0x03, 0x01, 0x07, 0x03, 0x42, 0x00]

/-! ### Reading -/

/-- `Reader.take`: some bytes and what follows them. -/
def take (label : String) (n : Nat) (data : Bytes) : Check (Bytes × Bytes) := do
  require (n ≤ data.length) "%s is truncated" [.text label]
  return (data.take n, data.drop n)

variable (label : String) (data : Bytes) (t : Tuple)

/-- `Reader.u`: a number of `n` bytes. -/
def number (n : Nat) (data : Bytes) : Check (Nat × Bytes) := do
  let (bytes, rest) ← take label n data
  return (bigEndianValue bytes, rest)

/-- `Reader.sized`: bytes behind their length. -/
def sized : Check (Bytes × Bytes) := do
  let (n, rest) ← number label 2 data
  take label n rest

/-- `Reader.end`. -/
def ended : Check Unit :=
  require (data = []) "%s has trailing bytes" [.text label]

/-! ### Keys -/

/-- A hash with the algorithm it is by: how a TPM names things. -/
def named : Bytes := bigEndian 2 algSha256 ++ Sha256.sum data

/-- `name_of`. -/
def nameOf (publicArea : Bytes) : Bytes := named publicArea

/-- `public_area`. -/
def publicArea (blob : Bytes) (label : String) : Check Bytes := do
  let (area, rest) ← sized label blob
  ended label rest
  return area

def akLabel : String := "the AK public area"

/-- `ak_identity`. -/
def akIdentity (akPublic : Bytes) : Check (Bytes × Bytes) := do
  let area ← publicArea akPublic akLabel
  let (kind, r) ← number akLabel 2 area
  require (kind = algEcc) "the AK must be an ECC key" []
  let (nameAlg, r) ← number akLabel 2 r
  require (nameAlg = algSha256) "the AK's name algorithm must be SHA-256" []
  let (attributes, r) ← number akLabel 4 r
  require (attributes = akAttributes)
    "the AK must be a restricted, sign-only, fixedTPM key made in the TPM (attributes 0x%08x, not 0x%08x)"
    [.number attributes, .number akAttributes]
  let (policy, r) ← sized akLabel r
  require (policy = []) "the AK must not carry an auth policy" []
  let (symmetric, r) ← number akLabel 2 r
  require (symmetric = algNull) "a restricted signing key has no symmetric algorithm" []
  let (scheme, r) ← number akLabel 2 r
  let (hash, r) ← number akLabel 2 r
  require (scheme = algEcdsa ∧ hash = algSha256) "the AK's scheme must be ECDSA with SHA-256" []
  let (curve, r) ← number akLabel 2 r
  require (curve = curveP256) "the AK's curve must be NIST P-256" []
  let (kdf, r) ← number akLabel 2 r
  require (kdf = algNull) "the AK must not carry a KDF" []
  let (x, r) ← sized akLabel r
  let (y, r) ← sized akLabel r
  ended akLabel r
  require (x.length = 32 ∧ y.length = 32) "the AK's public point is not a P-256 point" []
  return (nameOf area, p256SpkiPrefix ++ 4 :: (x ++ y))

/-- `qualified_name`. -/
def qualifiedName (ekName akName : Bytes) : Bytes :=
  named (named (bigEndian 4 rhEndorsement ++ ekName) ++ akName)

/-! ### Quotes -/

/-- A quote over one selection of the SHA-256 bank. -/
structure Quote where
  qualifiedSigner : Bytes
  extraData : Bytes
  clock : Nat
  resetCount : Nat
  restartCount : Nat
  safe : Nat
  firmwareVersion : String
  pcrs : List Nat
  pcrDigest : Bytes
  deriving DecidableEq

def quoteLabel : String := "the quote"

/-- The registers whose bit is set. -/
def selectedPcrs (bitmap : Bytes) : List Nat :=
  (List.range (bitmap.length * 8)).filter (fun i => (bitmap.getD (i / 8) 0).toNat.testBit (i % 8))

/-- `parse_quote`. -/
def parseQuote (blob : Bytes) : Check Quote := do
  let (magic, r) ← number quoteLabel 4 blob
  require (magic = tpmGenerated) "the quote was not generated by a TPM (magic)" []
  let (kind, r) ← number quoteLabel 2 r
  require (kind = stAttestQuote) "the attestation is not a quote" []
  let (qualifiedSigner, r) ← sized quoteLabel r
  let (extraData, r) ← sized quoteLabel r
  let (clock, r) ← number quoteLabel 8 r
  let (resetCount, r) ← number quoteLabel 4 r
  let (restartCount, r) ← number quoteLabel 4 r
  let (safe, r) ← number quoteLabel 1 r
  let (firmware, r) ← take quoteLabel 8 r
  let (banks, r) ← number quoteLabel 4 r
  require (banks = 1) "the quote must select exactly one PCR bank" []
  let (bank, r) ← number quoteLabel 2 r
  require (bank = algSha256) "the quote must select the SHA-256 PCR bank" []
  let (size, r) ← number quoteLabel 1 r
  let (bitmap, r) ← take quoteLabel size r
  let (pcrDigest, r) ← sized quoteLabel r
  ended quoteLabel r
  return {
    qualifiedSigner, extraData, clock, resetCount, restartCount, safe
    firmwareVersion := String.ofList (hexText firmware)
    pcrs := selectedPcrs bitmap
    pcrDigest }

/-! ### Transcripts -/

/-- What a quote is made for: a node, the epoch of a manifest, a boot session
    with its ephemeral key, a nonce, and where asked for one more value. -/
structure Tuple where
  nodeId : String
  epoch : Int
  sessionId : Bytes
  ephemeralPublic : Bytes
  nonce : Bytes
  binding : Option Bytes
  deriving DecidableEq

def transcriptLabel : Bytes := GoString.ofText "regalia-kms/attest/v1"

def bindingLabel : Bytes := GoString.ofText "regalia-enrol/v1/path"

namespace Tuple

/-- The fields of a transcript. -/
def fields : List Bytes :=
  (if t.binding.isSome then bindingLabel else transcriptLabel) ::
    GoString.ofText t.nodeId :: bigEndian 8 t.epoch.toNat :: t.sessionId :: t.ephemeralPublic ::
    t.nonce :: t.binding.toList

def message : Bytes := frames 4 t.fields

/-- `check_session`. -/
def checkSession : Check Unit := do
  require (matchesClass (fun c => c.isAlphanum || c = '.' || c = '_' || c = '-') 64 t.nodeId = true)
    "the node ID is not a plain name" []
  require (0 ≤ t.epoch ∧ t.epoch < 2 ^ 64) "the manifest epoch must be a uint64" []
  require (t.sessionId.length = 32) "the boot session ID must be 32 bytes" []
  require (1 ≤ t.ephemeralPublic.length ∧ t.ephemeralPublic.length ≤ 512)
    "the ephemeral public key must be 1-512 bytes" []
  require (t.nonce.length = 32) "the nonce must be 32 bytes" []

end Tuple

/-- `transcript`. -/
def transcript : Check Bytes := do
  require (∀ b ∈ t.binding, 1 ≤ b.length ∧ b.length ≤ 1024) "the binding must be 1-1024 bytes" []
  return t.message

/-- `qualifying_data`. -/
def qualifyingData : Check Bytes := do
  let message ← transcript t
  return Sha256.sum message

end Regalia.Attest
