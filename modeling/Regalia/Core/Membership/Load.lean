import Regalia.Core.Membership.Canonical
import Regalia.Data.GoDecoder

/-!
# Loading Documents

`cmd/regalia-unlock/membership/json.go` over the values the Go code holds: an
`any`, in which a number keeps the spelling it was read with and an object is a
map without an order. `Load` walks a `json.Decoder` by itself, so that it can
refuse a name that stands twice, a fraction and a document nested too deeply.

`Regalia.Membership.Go.canonical` writes the value of a document; `Any.canonical`
here writes what the code holds, spellings and all.

## Main definitions

* `Any`: A value, as the Go code holds it.
* `Any.canonical`: `Canonical`.
* `load`: `Load`.
-/

namespace Regalia.Membership

namespace Go

open GoJson

/-- A Go `any` that holds a JSON value. The fields of a map come in any
    order. -/
inductive Any where
  | null
  | bool (b : Bool)
  | number (spelling : List Char)
  | int (n : Int)
  | string (s : String)
  | slice (items : List Any)
  | map (fields : List (String × Any))

/-! ### Writing -/

/-- `bigInt.set`: an integer without leading zeros, and zero without a sign. -/
def setInt (text : List Char) : Option (List Char) :=
  let negative := text.head? = some '-'
  let digits := if negative then text.tail else text
  if digits = [] ∨ ¬ digits.all Char.isDigit then none
  else
    let trimmed := digits.dropWhile (· = '0')
    if trimmed = [] then some ['0']
    else if negative then some ('-' :: trimmed)
    else some trimmed

/-- `quote`. -/
def quote (s : String) : List Char := '"' :: (s.toList.flatMap escape ++ ['"'])

/-- Texts with a comma between any two. -/
def joined : List (List Char) → List Char
  | [] => []
  | text :: texts => text ++ texts.flatMap (',' :: ·)

mutual

/-- `canonical`, as text. -/
def Any.canonicalText : Any → List Char
  | .null => ['n', 'u', 'l', 'l']
  | .bool true => ['t', 'r', 'u', 'e']
  | .bool false => ['f', 'a', 'l', 's', 'e']
  | .number spelling => (setInt spelling).getD spelling
  | .int n => printInt n
  | .string s => quote s
  | .slice items => '[' :: (joined (Any.canonicalItems items) ++ [']'])
  | .map fields =>
    '{' :: (joined (((Any.canonicalFields fields).insertionSort
      (fun a b => !lessCodePoints b.1.toList a.1.toList)).map
        (fun f => quote f.1 ++ ':' :: f.2)) ++ ['}'])

def Any.canonicalItems : List Any → List (List Char)
  | [] => []
  | v :: vs => v.canonicalText :: Any.canonicalItems vs

def Any.canonicalFields : List (String × Any) → List (String × List Char)
  | [] => []
  | (k, v) :: fs => (k, v.canonicalText) :: Any.canonicalFields fs

end

/-- `Canonical`. -/
def Any.canonical (v : Any) : GoString := GoString.ofRunes v.canonicalText

/-! ### Reading -/

inductive LoadError where
  | tooLong (limit : Nat)
  | tooDeep
  | notJson (cause : DecodeError)
  | notValue
  | keyNotString
  | duplicate (key : String)
  | float (spelling : List Char)
  | extraData
  deriving DecidableEq, Repr

/-- A token, or the decoder's error. -/
def next (d : Decoder) : Except LoadError (Token × Decoder) := d.token.mapError .notJson

/-- How deeply a value may stand. -/
def maxDepth : Nat := 64

mutual

/-- `readValue`. The fuel bounds the tokens. -/
def readValue (floats : Bool) : Nat → Nat → Decoder → Except LoadError (Any × Decoder)
  | 0, _, _ => .error (.notJson .eof)
  | fuel + 1, depth, d =>
    if maxDepth < depth then .error .tooDeep
    else do
      let (token, d) ← next d
      match token with
      | .delim '{' =>
        let (fields, d) ← readFields floats fuel depth [] d
        return (.map fields, d)
      | .delim '[' =>
        let (items, d) ← readItems floats fuel depth d
        return (.slice items, d)
      | .delim _ => .error .notValue
      | .number spelling =>
        if spelling.any (fun c => c = '.' || c = 'e' || c = 'E') && !floats then
          .error (.float spelling)
        else return (.number spelling, d)
      | .string s => return (.string (String.ofList s), d)
      | .bool b => return (.bool b, d)
      | .null => return (.null, d)

/-- The loop over an array. -/
def readItems (floats : Bool) : Nat → Nat → Decoder → Except LoadError (List Any × Decoder)
  | 0, _, _ => .error (.notJson .eof)
  | fuel + 1, depth, d =>
    if d.more then do
      let (value, d) ← readValue floats fuel (depth + 1) d
      let (items, d) ← readItems floats fuel depth d
      return (value :: items, d)
    else do
      let (_, d) ← next d
      return ([], d)

/-- The loop over an object, with the fields read so far. -/
def readFields (floats : Bool) : Nat → Nat → List (String × Any) → Decoder →
    Except LoadError (List (String × Any) × Decoder)
  | 0, _, _, _ => .error (.notJson .eof)
  | fuel + 1, depth, object, d =>
    if d.more then do
      let (token, d) ← next d
      match token with
      | .string s =>
        let key := String.ofList s
        if key ∈ object.map Prod.fst then .error (.duplicate key)
        else do
          let (value, d) ← readValue floats fuel (depth + 1) d
          readFields floats fuel depth (object ++ [(key, value)]) d
      | _ => .error .keyNotString
    else do
      let (_, d) ← next d
      return (object, d)

end

/-- `load`. Every token takes a byte and every loop a token, so the fuel is
    never used up. -/
def load (raw : GoString) (limit : Nat) (floats : Bool) : Except LoadError Any :=
  if limit < raw.length then .error (.tooLong limit)
  else do
    let (value, d) ← readValue floats (2 * raw.length + 2) 0 (Decoder.new raw)
    match d.token with
    | .error .eof => return value
    | _ => .error .extraData

/-- `Load`. -/
def loadDocument (raw : GoString) (limit : Nat) : Except LoadError Any := load raw limit false

end Go

end Regalia.Membership
