import Regalia.Core.Policy.Reservation
import Regalia.Data.Lines

/-!
# Audit Events

The line of an audit journal, which is also the document a daemon sends to
the collector and the line the collector keeps: an event names its sequence
number, the hash of the event before it and its own hash over the rest.

A text is as JSON has it, a literal. The fields that nothing here reads, from
the timestamp to the approvers, stand in `content` in the order they are
written; the four that are read are kept out of it.

Reading a line is not quite the inverse of writing it. A piece of a string
that is no UTF-8 is written as an escape and read as the character that
stands for such pieces, which is written as itself the next time.

## Main definitions

* `Event`: An event.
* `Event.json`, `Event.text`: What `json.Marshal` writes.
* `Event.decoded`: An event as it comes back from its line.
* `Event.decode`: The event a line spells.
* `eventHash`: The hash that chains events.
* `verifyEvents`: The scan over a journal.
* `trailLineHash`, `lineChain`: The line a trail event names, and the running
  digest of such lines.
-/

namespace Regalia.Audit

/-- A text as a literal. -/
def literal (cs : List Char) : Literal := cs.map some

/-- The fields that are read. -/
def readNames : List Literal :=
  ["sequence", "detail", "previous_hash", "hash"].map Policy.jsonName

/-- The fields nothing reads, in order. -/
abbrev Content := { fields : List (Literal × Json Literal) // ∀ f ∈ fields, f.1 ∉ readNames }

structure Event where
  sequence : Nat
  content : Content
  detail : Option (Json Literal) := none
  previousHash : Literal
  hash : Literal

def Event.json (e : Event) : Json Literal := .obj (
  Policy.field "sequence" (.num e.sequence) ++ e.content.val ++
  (match e.detail with
    | some v => Policy.field "detail" v
    | none => []) ++
  Policy.field "previous_hash" (.str e.previousHash) ++
  Policy.field "hash" (.str e.hash))

/-- What `json.Marshal` writes. -/
def Event.text (e : Event) : List Char := Json.print goQuoting e.json

def hashPrefix : List Char := "sha256:".toList

def genesisHash : Literal := literal (hashPrefix ++ List.replicate 64 '0')

def eventHash (e : Event) : Literal :=
  literal (hashPrefix ++ hexText (Sha256.sum (GoString.ofRunes ({ e with hash := [] } : Event).text)))

/-! ### Reading -/

def readNumber : Option (Json Literal) → Option Nat
  | some (.num n) => if 0 ≤ n then some n.toNat else none
  | _ => none

def readText : Option (Json Literal) → Option Literal
  | some (.str l) => some l
  | _ => none

/-- The fields of an object that are not read. -/
def contentOf (fields : List (Literal × Json Literal)) : Content :=
  ⟨fields.filter (fun f => f.1 ∉ readNames), by
    intro f hf
    exact of_decide_eq_true (List.mem_filter.mp hf).2⟩

def Event.ofJson : Json Literal → Option Event
  | .obj fields => do
    let get := fun name => (Json.obj fields).get? (Policy.jsonName name)
    return {
      sequence := ← readNumber (get "sequence")
      content := contentOf fields
      detail := get "detail"
      previousHash := ← readText (get "previous_hash")
      hash := ← readText (get "hash") }
  | _ => none

/-- A string as decoding gives it. -/
def decoded (l : Literal) : Literal := l.map (fun c => some (c.getD GoString.runeError))

def Content.decoded (content : Content) : Content :=
  ⟨content.val.map (fun f => (f.1, f.2.mapStrings Audit.decoded)), by
    intro f hf
    obtain ⟨f', hf', rfl⟩ := List.mem_map.mp hf
    exact content.property f' hf'⟩

/-- An event as decoding gives it. The detail is kept as it is written, a
    `json.RawMessage`. -/
def Event.decoded (e : Event) : Event :=
  { e with
    content := e.content.decoded
    previousHash := Audit.decoded e.previousHash
    hash := Audit.decoded e.hash }

/-- The event a line spells, nothing but blanks following it. -/
def Event.decode (line : List Char) : Except String Event :=
  match Json.parseValue goQuoting (line.length + 1) line with
  | none => .error "audit chain contains invalid JSON"
  | some (v, rest) =>
    match Event.ofJson v with
    | none => .error "audit chain contains invalid JSON"
    | some event =>
      if Json.skipBlanks rest = [] then .ok event.decoded
      else .error "audit event contains trailing data"

/-- The bytes a text takes in a file. -/
def byteLength (text : List Char) : Nat := (GoString.ofRunes text).length

/-- The longest line the scanner takes, in bytes and its newline included. -/
def maxLine : Nat := 2 ^ 20

/-- The scanner drops a carriage return at a line's end. -/
def dropReturn (line : List Char) : List Char :=
  if line.getLast? = some '\r' then line.dropLast else line

/-- The lines of a text as the scanner gives them: the last one need not have
    its newline. -/
def scanLines (text : List Char) : List (List Char) :=
  let p := splitLines '\n' text
  (p.1 ++ if p.2 = [] then [] else [p.2]).map dropReturn

/-- The loop of `verifyEvents`, after some number of events. -/
def verifyLines : Literal → Nat → List (List Char) → Except String (List Event)
  | _, _, [] => .ok []
  | previous, count, line :: rest =>
    if maxLine < byteLength line + 1 then
      .error "audit chain could not be read: bufio.Scanner: token too long"
    else
      match Event.decode line with
      | .error err => .error err
      | .ok event =>
        if event.sequence ≠ count + 1 ∨ event.previousHash ≠ previous ∨ event.hash ≠ eventHash event then
          .error "audit chain integrity check failed"
        else (verifyLines event.hash (count + 1) rest).map (event :: ·)

/-- `verifyEvents`. -/
def verifyEvents (text : List Char) : Except String (List Event) :=
  verifyLines genesisHash 0 (scanLines text)

/-! ### Trail lines -/

/-- Whether a name of an object is taken for a field's: up to case, and up to
    the two letters that fold to ASCII ones. -/
def namesField (name : String) (k : Literal) : Bool :=
  k.map (Option.map (fun c =>
    if c = Char.ofNat 0x17F then 's' else if c = Char.ofNat 0x212A then 'k' else c.toLower)) =
    Policy.jsonName name

/-- The text decoded into a string field: the last one under its name counts,
    null leaves it, and a value of another type is an error. -/
def decodeText (name : String) (fields : List (Literal × Json Literal)) : Option Literal :=
  fields.foldl (fun found f =>
    if namesField name f.1 then
      match f.2 with
      | .str l => found.map (fun _ => decoded l)
      | .null => found
      | _ => none
    else found) (some [])

/-- The fields of a document that decodes into a struct. -/
def structFields : Json Literal → Option (List (Literal × Json Literal))
  | .obj fields => some fields
  | .null => some []
  | _ => none

def trailPrefix : Literal := literal "regalia.trail/".toList

/-- The line a trail event's detail names, empty for any other event. -/
def trailLineHash (detail : Option (Json Literal)) : Literal :=
  match detail.bind structFields with
  | none => []
  | some fields =>
    match decodeText "format" fields, decodeText "line_sha256" fields with
    | some format, some hash => if trailPrefix.isPrefixOf format then hash else []
    | _, _ => []

/-- The bytes a text spells in hex. -/
def hexBytesOf (l : Literal) : Option (List UInt8) := (l.mapM id).bind decodeHex

def lineChainStart : Literal := literal (List.replicate 64 '0')

/-- The running digest, one line on: a hash that is none counts as zeros. -/
def lineChain (previous lineHash : Literal) : Literal :=
  let before := (hexBytesOf previous).getD []
  let line := ((hexBytesOf lineHash).filter (fun bytes => bytes.length = 32)).getD (List.replicate 32 0)
  literal (hexText (Sha256.sum (before ++ line)))

end Regalia.Audit
