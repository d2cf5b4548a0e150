import Regalia.Data.Hex

/-!
# SHA-256

The hash of FIPS 180-4, so that a record's digest can be computed and not
only assumed. Nothing is proved about it here beyond its length: what a
development needs of it, that given texts have different digests, is a
hypothesis where it is used.

Words are numbers below 2^32, which the kernel computes with faster than with
a machine type. The message schedule is kept newest word first, because each
new word is made from the sixteen before it.

## Main definitions

* `Sha256.sum`: The 32 bytes of a message's digest.
* `Sha256.CollisionFree`: What is asked of the messages of a run.

## Theorems

* `Sha256.sum_length`: A digest has 32 bytes.
-/

namespace Regalia

namespace Sha256

/-- The round constants. -/
def constants : List Nat :=
  [0x428a2f98, 0x71374491, 0xb5c0fbcf, 0xe9b5dba5, 0x3956c25b, 0x59f111f1, 0x923f82a4, 0xab1c5ed5,
   0xd807aa98, 0x12835b01, 0x243185be, 0x550c7dc3, 0x72be5d74, 0x80deb1fe, 0x9bdc06a7, 0xc19bf174,
   0xe49b69c1, 0xefbe4786, 0x0fc19dc6, 0x240ca1cc, 0x2de92c6f, 0x4a7484aa, 0x5cb0a9dc, 0x76f988da,
   0x983e5152, 0xa831c66d, 0xb00327c8, 0xbf597fc7, 0xc6e00bf3, 0xd5a79147, 0x06ca6351, 0x14292967,
   0x27b70a85, 0x2e1b2138, 0x4d2c6dfc, 0x53380d13, 0x650a7354, 0x766a0abb, 0x81c2c92e, 0x92722c85,
   0xa2bfe8a1, 0xa81a664b, 0xc24b8b70, 0xc76c51a3, 0xd192e819, 0xd6990624, 0xf40e3585, 0x106aa070,
   0x19a4c116, 0x1e376c08, 0x2748774c, 0x34b0bcb5, 0x391c0cb3, 0x4ed8aa4a, 0x5b9cca4f, 0x682e6ff3,
   0x748f82ee, 0x78a5636f, 0x84c87814, 0x8cc70208, 0x90befffa, 0xa4506ceb, 0xbef9a3f7, 0xc67178f2]

/-- The eight words of the running hash. -/
structure State where
  a : Nat
  b : Nat
  c : Nat
  d : Nat
  e : Nat
  f : Nat
  g : Nat
  h : Nat
  deriving DecidableEq

/-- The hash before the first block. -/
def initial : State :=
  ⟨0x6a09e667, 0xbb67ae85, 0x3c6ef372, 0xa54ff53a, 0x510e527f, 0x9b05688c, 0x1f83d9ab, 0x5be0cd19⟩

/-- Addition of words. -/
def add (x y : Nat) : Nat := (x + y) % 4294967296

def rotateRight (x n : Nat) : Nat := (x >>> n) ||| ((x <<< (32 - n)) % 4294967296)

/-- Extend the schedule by `n` words, newest first. -/
def schedule : Nat → List Nat → List Nat
  | 0, w => w
  | n + 1, w =>
    match w with
    | w1 :: w2 :: w3 :: w4 :: w5 :: w6 :: w7 :: w8 :: w9 :: w10 :: w11 :: w12 :: w13 :: w14 ::
        w15 :: w16 :: rest =>
      let s0 := rotateRight w15 7 ^^^ rotateRight w15 18 ^^^ (w15 >>> 3)
      let s1 := rotateRight w2 17 ^^^ rotateRight w2 19 ^^^ (w2 >>> 10)
      schedule n (add (w16 + s0) (w7 + s1) :: w1 :: w2 :: w3 :: w4 :: w5 :: w6 :: w7 :: w8 ::
        w9 :: w10 :: w11 :: w12 :: w13 :: w14 :: w15 :: w16 :: rest)
    | _ => w

/-- One round, with its constant and its word of the schedule. -/
def round (s : State) (kw : Nat × Nat) : State :=
  let s1 := rotateRight s.e 6 ^^^ rotateRight s.e 11 ^^^ rotateRight s.e 25
  let choose := (s.e &&& s.f) ^^^ ((4294967295 - s.e) &&& s.g)
  let t1 := s.h + s1 + choose + kw.1 + kw.2
  let s0 := rotateRight s.a 2 ^^^ rotateRight s.a 13 ^^^ rotateRight s.a 22
  let majority := (s.a &&& s.b) ^^^ (s.a &&& s.c) ^^^ (s.b &&& s.c)
  ⟨add t1 (s0 + majority), s.a, s.b, s.c, add s.d t1, s.e, s.f, s.g⟩

/-- Take one block of sixteen words into the hash. -/
def compress (s : State) (block : List Nat) : State :=
  let r := (constants.zip (schedule 48 block.reverse).reverse).foldl round s
  ⟨add s.a r.a, add s.b r.b, add s.c r.c, add s.d r.d, add s.e r.e, add s.f r.f, add s.g r.g,
    add s.h r.h⟩

/-- A number's last `n` bytes, most significant first. -/
def bigEndian : Nat → Nat → List UInt8
  | 0, _ => []
  | n + 1, x => UInt8.ofNat (x / 256 ^ n % 256) :: bigEndian n x

/-- The message with its padding: a one bit, zeros, and the length in bits. -/
def padded (message : List UInt8) : List UInt8 :=
  message ++ 0x80 :: List.replicate ((119 - message.length % 64) % 64) 0 ++
    bigEndian 8 (8 * message.length)

/-- Bytes as words of four. -/
def words : List UInt8 → List Nat
  | a :: b :: c :: d :: rest =>
    (16777216 * a.toNat + 65536 * b.toNat + 256 * c.toNat + d.toNat) :: words rest
  | _ => []

/-- Take the blocks of a schedule of words into the hash, `n` at most. -/
def blocks : Nat → State → List Nat → State
  | 0, s, _ => s
  | n + 1, s, ws => if ws = [] then s else blocks n (compress s (ws.take 16)) (ws.drop 16)

/-- The bytes of the hash. -/
def State.bytes (s : State) : List UInt8 :=
  [s.a, s.b, s.c, s.d, s.e, s.f, s.g, s.h].flatMap (bigEndian 4)

/-- The digest of a message. -/
def sum (message : List UInt8) : List UInt8 :=
  let ws := words (padded message)
  (blocks ws.length initial ws).bytes

theorem sum_length (message : List UInt8) : (sum message).length = 32 := rfl

/-- No two of some messages have one digest. -/
def CollisionFree (messages : List (List UInt8)) : Prop :=
  ∀ a ∈ messages, ∀ b ∈ messages, sum a = sum b → a = b

theorem CollisionFree.subset {messages some : List (List UInt8)} (h : CollisionFree messages)
    (hsub : some ⊆ messages) : CollisionFree some :=
  fun a ha b hb => h a (hsub ha) b (hsub hb)

instance (messages : List (List UInt8)) : Decidable (CollisionFree messages) :=
  inferInstanceAs (Decidable (∀ a ∈ messages, ∀ b ∈ messages, sum a = sum b → a = b))

end Sha256

/-- The digest of the empty message, as the standard gives it. -/
example : String.ofList (hexText (Sha256.sum [])) =
    "e3b0c44298fc1c149afbf4c8996fb92427ae41e4649b934ca495991b7852b855" := by
  decide +kernel

end Regalia
