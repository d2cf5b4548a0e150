import Regalia.Core.Policy.Engine

/-!
# The Protobuf Wire

`internal/policy/wire.go`: the fields of a protobuf message, one after another.
Only varints and length-delimited fields are recognised. A length is a `uint64`
that the code adds to an `int`, so the sum may wrap; the check behind it is
made on the wrapped sum.

A visitor is a function on the state it would close over.

## Main definitions

* `SignDocError`: `ErrCosmosSignDoc` and what it says.
* `decodeVarint`: A base-128 varint.
* `Field`, `fieldAt`: A field, and the one at an offset.
* `walkFields`: A visitor over the fields of a message.
-/

namespace Regalia.Policy

/-- A refusal: its text, the numbers in it and the bytes it quotes. -/
structure SignDocError where
  format : String
  numbers : List UInt64 := []
  quoted : List GoString := []
  deriving DecidableEq

/-- An error with the text of another behind it. -/
def under {α : Type} (format : String) (numbers : List UInt64) (r : Except SignDocError α) :
    Except SignDocError α :=
  r.mapError (fun e => { e with format := format ++ e.format, numbers := numbers ++ e.numbers })

/-- The loop of `decodeVarint`, from the bytes that are left. -/
def decodeVarintFrom : GoString → Nat → UInt64 → Nat → Except SignDocError (UInt64 × Nat)
  | [], _, _, _ => .error { format := "truncated varint" }
  | b :: rest, shift, value, consumed =>
    if 64 ≤ shift then .error { format := "varint exceeds 64 bits" }
    else if shift = 63 ∧ 1 < b &&& 0x7f then .error { format := "varint exceeds 64 bits" }
    else
      let value := value ||| ((b &&& 0x7f).toUInt64 <<< UInt64.ofNat shift)
      if b &&& 0x80 = 0 then .ok (value, consumed + 1)
      else decodeVarintFrom rest (shift + 7) value (consumed + 1)

def decodeVarint (input : GoString) : Except SignDocError (UInt64 × Nat) :=
  decodeVarintFrom input 0 0 0

/-- A field: its number, its wire type and its bytes, those of the varint for
    wire type 0. -/
structure Field where
  tag : UInt64
  wire : UInt64
  value : GoString
  deriving DecidableEq

/-- `offset + int(length)`, in 64 bits. -/
def addLength (offset : Nat) (length : UInt64) : Int :=
  (Int64.ofNat offset + length.toInt64).toInt

/-- The field at an offset, and the offset behind it: one round of the loop of
    `walkFields`. -/
def fieldAt (input : GoString) (offset : Nat) : Except SignDocError (Field × Nat) := do
  let (key, consumed) ← under "tag varint: " [] (decodeVarint (input.drop offset))
  let offset := offset + consumed
  let number := key >>> 3
  let wire := key &&& 0x7
  if wire = 0 then do
    let (_, consumed) ← under "field %d varint: " [number] (decodeVarint (input.drop offset))
    return (⟨number, wire, (input.drop offset).take consumed⟩, offset + consumed)
  else if wire = 2 then do
    let (length, consumed) ← under "field %d length: " [number] (decodeVarint (input.drop offset))
    let offset := offset + consumed
    let stop := addLength offset length
    if stop < offset ∨ input.length < stop then
      .error { format := "field %d length %d exceeds buffer", numbers := [number, length] }
    else
      return (⟨number, wire, (input.drop offset).take (stop.toNat - offset)⟩, stop.toNat)
  else .error { format := "field %d wire type %d not allowed", numbers := [number, wire] }

/-- The loop of `walkFields`. A field takes a byte at least, so there are no
    more rounds than bytes. -/
def walkFrom {σ : Type} (visit : σ → Field → Except SignDocError σ) (input : GoString) :
    Nat → Nat → σ → Except SignDocError σ
  | 0, _, _ => .error { format := "unreachable" }
  | fuel + 1, offset, s =>
    if input.length ≤ offset then .ok s
    else do
      let (field, next) ← fieldAt input offset
      let s ← visit s field
      walkFrom visit input fuel next s

def walkFields {σ : Type} (visit : σ → Field → Except SignDocError σ) (input : GoString) (s : σ) :
    Except SignDocError σ := walkFrom visit input (input.length + 1) 0 s

def walkLengthDelimited {σ : Type} (visit : σ → Field → Except SignDocError σ) (input : GoString)
    (s : σ) : Except SignDocError σ :=
  walkFields (fun s f =>
    if f.wire ≠ 2 then
      .error { format := "field %d wire %d not length-delimited", numbers := [f.tag, f.wire] }
    else visit s f) input s

end Regalia.Policy
