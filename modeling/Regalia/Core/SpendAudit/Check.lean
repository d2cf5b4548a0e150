import Regalia.Core.Opstate.Approvals

/-!
# The Collector's Check of Spends

`deploy/baremetal/spendaudit.py`: every gated signature of the servers' audit
streams carries a spend, the session that vouches for it and the approvals
behind it, and no spend is carried twice.

A timestamp is read by `datetime.fromisoformat`, which is a parameter; what it
gives is compared as the number it is. An exception that is no refusal ends
the check as a refusal does.

## Main definitions

* `Library`: What comes from outside the module.
* `Line`, `carried`: What a gated line carries.
* `Held`, `Watched`: The spends the collector saw committed.
* `checkLine`: One gated line, after others.
* `check`: All streams.
-/

namespace Regalia.SpendAudit

open Regalia.Membership

/-- `fromisoformat(text + "+00:00").timestamp()` beside the rest. -/
structure Library extends Opstate.Library where
  fromIsoFormat : String → Option Rat

def spendRef : List String := ["key", "mod_revision", "entry_sha256", "value"]

def sessionRef : List String := ["key", "value"]

/-- `MAX_DETAIL`. -/
def maxDetail : Nat := 48 * 1024

variable (lib : Library) (event : Value) (chain : List Value) (sets : Opstate.ApproverSets)
  (watched : Option Watched)

/-- `_when`. -/
def timeOf (v : Value) (what : String) (args : List Arg) : Check Rat := do
  let text ← demand ((asText v).filter (fun s => s.toList.getLast? = some 'Z'))
    (what ++ " is not an RFC 3339 UTC time") args
  demand (lib.fromIsoFormat (String.ofList text.toList.dropLast))
    (what ++ " is not an RFC 3339 UTC time") args

/-! ### The size of a line -/

/-- The bytes a character takes in a string of the Go writer: a quote, a
    backslash and five control characters have a short escape, the other
    control characters, the angle brackets, the ampersand and the two line
    separators a long one. -/
def charLen (c : Char) : Nat :=
  if c.toNat ∈ [0x22, 0x5c, 8, 9, 10, 12, 13] then 2
  else if c.toNat < 0x20 ∨ c.toNat ∈ [0x3c, 0x3e, 0x26, 0x2028, 0x2029] then 6
  else c.utf8Size

def textLen (s : String) : Nat := 2 + (s.toList.map charLen).sum

mutual

/-- `_go_json_len`. -/
def goJsonLen : Value → Nat
  | .null => 4
  | .bool b => if b then 4 else 5
  | .num n => (printInt n).length
  | .str s => textLen s
  | .arr items => 1 + max 1 (itemsLen items)
  | .obj fields => 1 + max 1 (fieldsLen fields)

/-- The items, each with the comma or bracket behind it. -/
def itemsLen : List Value → Nat
  | [] => 0
  | v :: vs => goJsonLen v + 1 + itemsLen vs

/-- The fields, each with the comma or brace behind it. -/
def fieldsLen : List (String × Value) → Nat
  | [] => 0
  | (k, v) :: fs => textLen k + 1 + goJsonLen v + 1 + fieldsLen fs

end

/-! ### A gated line -/

/-- What a gated line carries: the reference to its spend, its detail, and the
    spend. -/
structure Line where
  ref : Value
  detail : Value
  entry : Value

def Line.key (line : Line) : String := textOf (field line.ref "key")

/-- The session a line carries, for the spend it carries. -/
def sessionNames (session : Value) (ends : Option Value) : Opstate.Sessions :=
  fun node boot key at_ => do
    let t ← timeOf lib at_ "the spend's at" []
    if (field session "node_id", field session "boot_id", field session "session_key") ≠
        (node, boot, key) then return false
    let issued ← timeOf lib (field session "issued_at") "the session's issued_at" []
    if t < issued then return false
    match ends with
    | none => return true
    | some ends => do
      let ends ← timeOf lib ends "valid_until" []
      return decide (t < ends)

/-- `_carried`: the spend a line carries, verified against the chain alone. -/
def carried :
    Check Line := do
  let rid := Arg.value (field event "request_id")
  let request := "request " ++ textOf (field event "request_id")
  let detail := field event "detail"
  require (isObject detail ∧ isObject (field detail "spend"))
    "request %s: an approval-gated signature whose audit line names no spend" [rid]
  require (goJsonLen detail ≤ maxDetail) "request %s's detail is over %d bytes"
    [rid, .number maxDetail]
  let ref := field detail "spend"
  Python.exact ref spendRef (request ++ "'s spend")
  let key ← demand ((asText (field ref "key")).filter
      (fun k => (Opstate.nonceKey "").toList.isPrefixOf k.toList))
    "request %s names a spend outside nonces/" [rid]
  require ((asInteger (field ref "mod_revision")).any (fun n => 1 ≤ n))
    "request %s's spend revision is not a revision" [rid]
  Python.hexField (field ref "entry_sha256") 64 (request ++ "'s spend entry_sha256")
  Python.hexField (field detail "payload_sha256") 64 (request ++ "'s payload_sha256")
  require (asList (field detail "approvals")).isSome "request %s's line carries no approvals" [rid]
  let carriedSession := field detail "session"
  require (isObject carriedSession)
    "request %s's line carries no session entry for its spend's key" [rid]
  Python.exact carriedSession sessionRef (request ++ "'s session")
  let session ← Opstate.verifySession lib.crypto (field carriedSession "key")
    (field carriedSession "value") chain
  let entry ← Opstate.verify lib.crypto key (field ref "value")
    (sessionNames lib session.1 session.2) sets
  require (Opstate.Kind.ofValue (field entry "kind") = some .spend)
    "request %s names %s, which is not a spend" [rid, .text key]
  require (field ref "entry_sha256" = .str (Opstate.entryDigest entry))
    "request %s's spend entry does not hash to its entry_sha256" [rid]
  return ⟨ref, detail, entry⟩

/-! ### The streams -/

/-- A spend the collector saw committed. -/
structure Held where
  value : Value
  modRevision : Int
  arrived : Rat

abbrev Watched := SortedMap String Held

/-- The policy's view of a line: a signature that approvals gate. -/
def counts (gated : Value → Bool) (event : Value) : Bool :=
  field event "decision" = .str "allow" && field event "outcome" = .str "success" && gated event

/-- The items `sorted` would go through, of a value or of `[]` for one that is
    false. -/
def iterated : Value → Option (List Value)
  | .arr items => some items
  | .obj fields => some (fields.map (fun f => .str f.1))
  | .str s => some (s.toList.map (fun c => .str (String.singleton c)))
  | .null | .bool false | .num 0 => some []
  | .bool true | .num _ => none

/-- Where the collector watched: the spend was committed as the line has it,
    and was new then. -/
def checkWatched (node : String) (event : Value) (line : Line) :
    Check Unit :=
  match watched with
  | none => return ()
  | some watched => do
    let rid := Arg.value (field event "request_id")
    let held ← demand (watched.get? line.key)
      "request %s on %s carries the spend %s, which the collector never saw committed"
      [rid, .text node, .text line.key]
    require (field line.ref "mod_revision" = .num held.modRevision ∧
        Python.equals held.value (field line.ref "value"))
      "request %s carries %s at revision %d; etcd committed another entry or revision (%d)"
      [rid, .text line.key, .value (field line.ref "mod_revision"), .number held.modRevision]
    Opstate.fresh line.entry held.arrived

/-- What must agree between a line and the spend it carries. -/
def fieldsAgree (line : Line) : Check Unit :=
  [("principal", field event "principal"), ("object_id", field event "object_id"),
    ("purpose", field event "purpose"),
    ("payload_sha256", field line.detail "payload_sha256")].forM fun (name, mine) =>
      require (field line.entry name = mine) "request %s's %s is %r; its spend's is %r"
        [.value (field event "request_id"), .text name, .value mine, .value (field line.entry name)]

/-- One gated line of a server, with the lines paired before it. -/
def checkLine (paired : List (String × Value)) (item : String × Value) :
    Check (List (String × Value)) := do
  let node := item.1
  let event := item.2
  let rid := Arg.value (field event "request_id")
  let line ← carried lib event chain sets
  require (field line.entry "node_id" = .str node)
    "request %s was signed on %s under a spend %s committed for %s"
    [rid, .text node, .text line.key, .value (field line.entry "node_id")]
  fieldsAgree event line
  let signed ← timeOf lib (field event "timestamp") "request %s's timestamp" [rid]
  let spent ← timeOf lib (field line.entry "at") "the spend's at" []
  require (spent - Opstate.skew ≤ signed ∧ signed ≤ spent + Opstate.maxRequestLife)
    "request %s was signed on %s at %s, outside [%s - %d s, %s + %d s] of its spend"
    [rid, .text node, .value (field event "timestamp"), .value (field line.entry "at"),
      .number Opstate.skew, .value (field line.entry "at"), .number Opstate.maxRequestLife]
  checkWatched watched node event line
  let counted ← Opstate.checkApprovals lib.toLibrary line.entry (field line.detail "approvals") sets
  -- anything but texts is refused, or fails in sorted
  let recorded := ((iterated (field event "verified_approvers")).bind (·.mapM asText)).map
    (·.insertionSort (· ≤ ·))
  require (recorded = some counted)
    "request %s recorded approvers %s; the approvals behind its spend are %s's"
    [rid, .value (field event "verified_approvers"), .names counted]
  require (line.key ∉ paired.map Prod.fst) "the spend %s is named by two signatures: %s and %s"
    [.text line.key, .value ((paired.lookup line.key).getD .null), rid]
  return paired ++ [(line.key, field event "request_id")]

structure Report where
  signatures : Nat
  watched : Nat
  burned : List String
  deriving DecidableEq

/-- One event of a server: what no approval gates is passed over. -/
def checkEvent (gated : Value → Bool)
    (sets : Opstate.ApproverSets) (watched : Option Watched) (node : String)
    (state : List (String × Value) × Nat) (event : Value) :
    Check (List (String × Value) × Nat) := do
  if counts gated event then
    let paired ← checkLine lib chain sets watched state.1 (node, event)
    return (paired, state.2 + 1)
  else return state

/-- The keys of the spends the collector watched. -/
def spendKeys : List String :=
  (watched.elim [] (fun w => w.entries.map Prod.fst)).filter
    (fun k => (Opstate.nonceKey "").toList.isPrefixOf k.toList)

/-- `check`: the streams by server, against the chain, the policy and the
    spends the collector watched, if it did. -/
def check (streams : SortedMap String (List Value)) (chain : List Value)
    (gated : Value → Bool) (sets : Opstate.ApproverSets) (watched : Option Watched) :
    Check Report := do
  let found ← streams.entries.foldlM (fun state stream =>
    stream.2.foldlM (checkEvent lib chain gated sets watched stream.1) state) ([], 0)
  return ⟨found.2, (spendKeys watched).length,
    (spendKeys watched).filter (· ∉ found.1.map Prod.fst)⟩

end Regalia.SpendAudit
