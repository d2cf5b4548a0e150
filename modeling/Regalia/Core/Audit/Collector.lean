import Regalia.Core.Audit.Event
import Regalia.Core.Membership.Format

/-!
# The Collector

`internal/audit/collector.go` and `handover.go`: the off-host copy of the
audit journals. A stream is kept for each client identity and site, in a file
of its own and in memory as the hashes of its events; an event is committed
only as the next link of its stream's chain. A hand-over gives an identity's
streams to another identity and retires the first.

Files are texts, and an offset counts characters. What a failed append wrote
is cut off again before anything reads it, so it does not matter where in a
character a write stopped.

## Main definitions

* `Stream`, `Stream.append`, `loadStream`: One stream, appending to it, and
  rebuilding it from its file.
* `Collector.commit`: Committing one event.
* `Collector.streamIdentity`, `Collector.resolveCaller`: Whose streams an
  identity writes.
* `Collector.recordHandover`: Recording a hand-over.
* `openCollector`: The collector a state directory gives.
* `Collector.handleEvent`: One submission from its arrival to its answer.
* `Service.step`: Submissions and restarts, with what was acknowledged.
-/

namespace Regalia.Audit

/-- The hex SHA-256 of a client certificate. -/
abbrev Identity := { s : String // Membership.matchesHex 64 s = true }

/-! ### Streams -/

/-- A stream in memory, with its file. -/
structure Stream where
  identity : Identity
  site : String
  hashes : List Literal := []
  lineHashes : List Literal := []
  lineChains : List Literal := []
  size : Nat := 0
  file : List Char := []

/-- The running digests of line hashes, after one. -/
def chainsFrom (previous : Literal) : List Literal → List Literal
  | [] => []
  | lineHash :: rest =>
    lineChain previous lineHash :: chainsFrom (lineChain previous lineHash) rest

/-- `loadStream`: the lists recomputed from a file that verifies. -/
def loadStream (identity : Identity) (site : String) (file : List Char) : Option Stream :=
  (verifyEvents file).toOption.map (fun events =>
    let lineHashes := events.map (fun e => trailLineHash e.detail)
    { identity := identity, site := site, hashes := events.map Event.hash,
      lineHashes := lineHashes, lineChains := chainsFrom lineChainStart lineHashes,
      size := file.length, file := file })

/-- How an append fails, with the system's error: the write after some
    characters, or the sync. -/
inductive AppendFault where
  | write (written : Nat) (err : String)
  | sync (err : String)
  deriving DecidableEq, Repr

/-- `appendLocked`: the stream after it, and the error if the event was not
    appended. A failed append is truncated to the last durable offset; that
    the truncation succeeds is part of the model. -/
def Stream.append (s : Stream) (e : Event) (fault : Option AppendFault) : Stream × Option String :=
  let line := e.text ++ ['\n']
  match fault with
  | some (.write written err) =>
    ({ s with file := (s.file ++ line.take written).take s.size }, some err)
  | some (.sync err) => ({ s with file := (s.file ++ line).take s.size }, some err)
  | none =>
    let lineHash := trailLineHash e.detail
    ({ s with file := s.file ++ line
              size := s.size + line.length
              hashes := s.hashes ++ [e.hash]
              lineHashes := s.lineHashes ++ [lineHash]
              lineChains := s.lineChains ++ [lineChain (s.lineChains.getLast?.getD lineChainStart) lineHash] },
      none)

/-! ### Committing -/

/-- A hand-over, from an identity to the one that takes over its streams. -/
structure Handover where
  old : Identity
  new : Identity
  deriving DecidableEq

/-- The streams and the hand-overs, the latter in the order they were
    recorded. -/
structure Collector where
  streams : List Stream := []
  handovers : List Handover := []

/-- What a request is answered: the hash acknowledged with 204, or a refusal. -/
inductive Answer where
  | acknowledged (hash : Literal)
  | refused (status : Nat) (reason : String)
  deriving DecidableEq

def Collector.find (c : Collector) (identity : Identity) (site : String) : Option Stream :=
  c.streams.find? (fun s => s.identity = identity ∧ s.site = site)

variable (c : Collector) (i : Identity)

/-- A stream put in the place of the one under its key. -/
def Collector.replace (s : Stream) : Collector :=
  { c with streams := c.streams.map (fun t =>
      if t.identity = s.identity ∧ t.site = s.site then s else t) }

/-- The stream under a key, created if there is none: its file is made before
    the event is looked at. -/
def Collector.obtain (identity : Identity) (site : String) : Collector × Stream :=
  match c.find identity site with
  | some s => (c, s)
  | none =>
    let s : Stream := { identity := identity, site := site }
    ({ c with streams := c.streams ++ [s] }, s)

/-- `commit`. -/
def Collector.commit (c : Collector) (identity : Identity) (site : String) (e : Event)
    (fault : Option AppendFault) : Collector × Answer :=
  let c' := (c.obtain identity site).1
  let s := (c.obtain identity site).2
  let head := s.hashes.length
  if e.sequence = head + 1 then
    if e.previousHash ≠ s.hashes.getLast?.getD genesisHash then
      (c', .refused 409 ("event " ++ toString e.sequence ++
        " does not chain onto the committed copy (previous_hash is not the committed hash of event " ++
        toString head ++
        "): a rewritten journal cannot chain onto what this collector already holds"))
    else
      let result := s.append e fault
      (c'.replace result.1,
        match result.2 with
        | none => .acknowledged e.hash
        | some writeErr => .refused 500 ("the durable commit failed: " ++ writeErr))
  else if 1 ≤ e.sequence ∧ e.sequence ≤ head then
    if s.hashes[e.sequence - 1]? = some e.hash then (c', .acknowledged e.hash)
    else
      (c', .refused 409 ("event " ++ toString e.sequence ++
        " replays a committed sequence with content that differs from the committed copy: the journal was rewritten after the off-host copy was made"))
  else
    (c', .refused 409 ("event " ++ toString e.sequence ++ " is out of order: the committed head is " ++
      toString head ++ " and only the next link is accepted"))

/-! ### Hand-overs -/

def Collector.successor : Option Identity :=
  (c.handovers.find? (fun h => h.old = i)).map Handover.new

def Collector.predecessor : Option Identity :=
  (c.handovers.find? (fun h => h.new = i)).map Handover.old

/-- The loop of `streamIdentityLocked`, for a number of passes. -/
def Collector.streamIdentityFor (c : Collector) : Nat → Identity → Identity
  | 0, i => i
  | passes + 1, i =>
    match c.predecessor i with
    | none => i
    | some previous => c.streamIdentityFor passes previous

/-- `streamIdentityLocked`: the first identity of a line of hand-overs. There
    are no more passes than hand-overs. -/
def Collector.streamIdentity : Identity :=
  c.streamIdentityFor c.handovers.length i

def Collector.hasStreams : Bool :=
  c.streams.any (fun s => s.identity = i)

/-- `handoverAllowedLocked`. -/
def Collector.handoverAllowed (old new : Identity) : Except String Unit :=
  if old = new then .error "a hand-over is between two different certificate fingerprints"
  else
    match c.successor old with
    | some successor => .error (old.val ++ " was already handed over to " ++ successor.val)
    | none =>
      if (c.successor new).isSome ∨ (c.predecessor new).isSome then
        .error (new.val ++ " already took part in a hand-over")
      else if c.hasStreams new then
        .error (new.val ++ " has streams of its own: a hand-over would leave a stream reachable two ways")
      else if ¬ c.hasStreams (c.streamIdentity old) then
        .error (old.val ++ " has no streams to hand over")
      else .ok ()

/-- `recordHandover`. -/
def Collector.recordHandover (old new : Identity) : Collector × Except String Unit :=
  match c.handoverAllowed old new with
  | .error reason => (c, .error reason)
  | .ok () => ({ c with handovers := c.handovers ++ [⟨old, new⟩] }, .ok ())

/-- `resolveCaller`: the identity whose streams a caller writes, or the reason
    a retired one is refused. -/
def Collector.resolveCaller : Except String Identity :=
  match c.successor i with
  | some successor =>
    .error ("this client certificate was handed over to " ++ successor.val ++
      " and is retired: two certificates never write one stream")
  | none => .ok (c.streamIdentity i)

/-! ### Opening -/

/-- A state directory: the stream files and the lines of the hand-over log. -/
structure StateDir where
  files : List (Identity × String × List Char) := []
  handovers : List Handover := []

def Collector.disk : StateDir :=
  ⟨c.streams.map (fun s => (s.identity, s.site, s.file)), c.handovers⟩

/-- The loop of `loadHandovers`. -/
def loadHandovers (c : Collector) : List Handover → Option Collector
  | [] => some c
  | h :: rest =>
    match c.recordHandover h.old h.new with
    | (c, .ok ()) => loadHandovers c rest
    | (_, .error _) => none

/-- `OpenCollector`: every stream verifies and every hand-over is one the
    streams allow, or the collector does not start. -/
def openCollector (dir : StateDir) : Option Collector :=
  (dir.files.mapM (fun f => loadStream f.1 f.2.1 f.2.2)).bind (fun streams =>
    loadHandovers { streams := streams } dir.handovers)

/-! ### Submissions -/

def maxCollectorEventBody : Nat := 64 * 1024

/-- `[A-Za-z0-9._-]{1,64}`, or no site at all. -/
def siteAllowed (site : String) : Bool :=
  site = "" || Membership.matchesClass (fun c => c.isAlphanum || c = '.' || c = '_' || c = '-') 64 site

def isHash (l : Literal) : Bool :=
  match l.mapM id with
  | some cs => cs.take 7 = hashPrefix && cs.length = 71 && (cs.drop 7).all isLowerHex
  | none => false

/-- What `json.Decoder` makes of a body. -/
inductive Decoded where
  | malformed (err : String)
  | trailing
  | event (e : Event) (read : e.decoded = e)

/-- A body as the handler reads it: not at all, or so many bytes. Writing an
    event again takes at most six bytes for each one of its body, and the
    names of two fields that a body may leave out. -/
inductive Body where
  | unreadable
  | read (length : Nat) (decoded : Decoded)
    (grows : ∀ e read, decoded = .event e read → byteLength e.text ≤ 6 * length + 64)

/-- A request to commit an event: who sends it, if a certificate was
    presented, for which site, and its body. -/
structure Submission where
  identity : Option Identity
  site : String
  body : Body

/-- `handleEvent`. `valid` is the validation of an event's other fields, by
    `validateDraft` and `validateDetail`, with its error. -/
def Collector.handleEvent (valid : Event → Except String Unit) (c : Collector) (sub : Submission)
    (fault : Option AppendFault) : Collector × Answer :=
  match sub.identity with
  | none =>
    (c, .refused 401 "no client certificate was presented: audit events are accepted only from an identified client")
  | some identity =>
    if ¬ siteAllowed sub.site then
      (c, .refused 400 "invalid site header: the X-Regalia-Site header must match ^[A-Za-z0-9._-]\x7b1,64\x7d$")
    else
      match sub.body with
      | .unreadable => (c, .refused 400 "the event body could not be read")
      | .read length decoded _ =>
        if maxCollectorEventBody < length then
          (c, .refused 413 "the event body exceeds the 65536 byte audit contract bound")
        else
          match decoded with
          | .malformed err => (c, .refused 400 ("the event body is not an audit event: " ++ err))
          | .trailing => (c, .refused 400 "the event body carries data after the audit event")
          | .event e _ =>
            if ¬ isHash e.hash ∨ ¬ isHash e.previousHash then
              (c, .refused 400 "the event hashes are not sha256:… values")
            else if eventHash e ≠ e.hash then
              (c, .refused 409 "the event's hash does not bind its content")
            else
              match valid e with
              | .error err =>
                (c, .refused 400 ("the event fails the audit contract's own field validation: " ++ err))
              | .ok () =>
                match c.resolveCaller identity with
                | .error reason => (c, .refused 403 reason)
                | .ok streamIdentity => c.commit streamIdentity sub.site e fault

/-! ### Runs -/

/-- What a client was told: the event of this sequence and hash is held in the
    stream of this key. -/
structure Ack where
  identity : Identity
  site : String
  sequence : Nat
  hash : Literal

/-- What an answer to a submission tells its client. -/
def Submission.ack (sub : Submission) : Answer → List Ack
  | .refused _ _ => []
  | .acknowledged hash =>
    match sub.identity, sub.body with
    | some identity, .read _ (.event e _) _ => [⟨c.streamIdentity identity, sub.site, e.sequence, hash⟩]
    | _, _ => []

/-- The collector, none when it did not start, and everything it has
    acknowledged. -/
structure Service where
  collector : Option Collector := some {}
  acked : List Ack := []

/-- One thing that happens to the collector. -/
inductive Happening where
  | submit (sub : Submission) (fault : Option AppendFault)
  | reopen

def Service.step (valid : Event → Except String Unit) (w : Service) : Happening → Service
  | .submit sub fault =>
    match w.collector with
    | none => w
    | some c =>
      let result := c.handleEvent valid sub fault
      { collector := some result.1, acked := sub.ack c result.2 ++ w.acked }
  | .reopen => { w with collector := w.collector.bind (fun c => openCollector c.disk) }

end Regalia.Audit
