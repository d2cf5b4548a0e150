import Mathlib.Tactic.NormNum
import Regalia.Core.SpendAudit.Check
import Regalia.Theory.Membership.Comparing
import Regalia.Theory.Membership.NodeKeys
import Regalia.Theory.Membership.Plain

/-!
# Spends and the Signatures Made Under Them

What it means that the collector's check accepts: every gated signature has a
spend of its own, and no approver's signature stands behind two of them.

The loops of `check` are one loop over the gated lines of all streams, and that
one registers each line under the key its spend stands under. The key is the
digest of the request's nonce, so two lines have two nonces; an approver signs
the nonce in a frame of its own, so what is signed behind two lines is never
the same message. Nothing is asked of the servers: a stream may hold anything.

## Main definitions

* `signatures`: The gated lines of all streams, with their servers.
* `Behind`: What a gated line is held to by itself.
* `VerifiedSpend`: A spend that its server's session signed.
* `OneMessage`: A signature holds for one message.

## Theorems

* `checkLine_eq_ok`: A line is accepted if it holds by itself and is new.
* `check_eq_ok`: What `check` accepts, and what it reports.
* `binding_nonce`: What an approver signs determines the nonce.
* `own_spend_own_approvals`: Every gated signature has its own verified spend,
  and no approver's signature is counted behind two.
-/

namespace Regalia

open List Opstate
open Regalia.Membership

namespace Opstate

/-! ### What an approver signs -/

theorem binding_nonce {spend spend' : Value} {nonce nonce' : String}
    (h : bindingBytes spend nonce = bindingBytes spend' nonce') : nonce = nonce' := by
  simp only [bindingBytes, map_cons, flatMap_cons] at h
  rcases Approval.frame_append (append_cancel_left h) with ⟨_, h⟩
  rcases Approval.frame_append h with ⟨_, h⟩
  rcases Approval.frame_append h with ⟨_, h⟩
  rcases Approval.frame_append h with ⟨hnonce, _⟩
  exact String.toList_inj.mp (GoString.ofRunes_injective _ _ hnonce)

/-- The bytes of an approval's signature. -/
def signatureOf (lib : Library) (a : Value) : Option (List UInt8) :=
  (asText (field a "signature")).bind lib.base64

/-- An approval's signature holds, by an approver of a set, for the binding of
    a nonce that the spend is of. -/
structure Approved (lib : Library) (set : ApproverSet) (spend a : Value) : Prop where
  approved : ∃ who key bytes nonce sig, field a "approver_id" = .str who ∧
    set.approvers.get? who = some key ∧ fromHex key.toList = some bytes ∧
    nonceDigest nonce = .ok (textOf (field spend "nonce_digest")) ∧
    signatureOf lib a = some sig ∧
    lib.crypto.ed25519 bytes (bindingBytes spend nonce) sig = true

theorem countApproval_approved {lib : Library} {set : ApproverSet} {spend a : Value}
    {counted counted' : List String} (h : countApproval lib set spend counted a = .ok counted') :
    Approved lib set spend a := by
  unfold countApproval at h
  simp only [steps_eq_ok, asText_eq_some, Option.filter_eq_some_iff] at h
  obtain ⟨_, who, hwho, key, ⟨hkey, _⟩, nonce, _, digest, hdigest, hspend, _, _, _, _, _, _, _, _,
    _, hholds, _⟩ := h
  simp only [holds, Option.any_eq_true, Bool.and_eq_true] at hholds
  obtain ⟨sig, hsig, bytes, hbytes, _, hverify⟩ := hholds
  refine ⟨who, key, bytes, nonce, sig, hwho, hkey, hbytes, ?_, hsig, hverify⟩
  rw [hdigest, hspend]
  rfl

theorem checkApprovals_approved {lib : Library} {spend approvals : Value} {sets : ApproverSets}
    {named : List String} (h : checkApprovals lib spend approvals sets = .ok named) :
    ∃ set, ∀ a ∈ itemsOf approvals, Approved lib set spend a := by
  unfold checkApprovals at h
  simp only [steps_eq_ok, Option.filter_eq_some_iff] at h
  obtain ⟨_, _, _, items, ⟨hitems, _⟩, _, set, _, counted, hcounted, _⟩ := h
  refine ⟨set, ?_⟩
  have hlist : itemsOf approvals = items := by
    cases approvals <;> simp_all [asList, itemsOf]
  rw [hlist]
  exact forall_of_foldlM (fun h => countApproval_approved h) hcounted

/-! ### Entries -/

theorem validate_kind {entry : Value} {kind : Kind} (h : validate entry = .ok kind) :
    Kind.ofValue (field entry "kind") = some kind := by
  unfold validate at h
  simp only [steps_eq_ok] at h
  rcases h with ⟨_, named, hnamed, _, _, _, _, _, _, _, rfl⟩
  exact hnamed

theorem verifyNode_signed {crypto : Crypto} {entry entry' : Value} {raw : List UInt8}
    {signatures : List Value} {sessions : Sessions}
    (h : verifyNode crypto entry raw signatures sessions = .ok entry') :
    entry' = entry ∧ ∃ sig,
      sessions (field entry "node_id") (field entry "boot_id") (field sig "session_key")
        (field entry "at") = .ok true ∧
      crypto.ed25519 (hexBytes (textOf (field sig "session_key"))) raw
        (hexBytes (textOf (field sig "sig"))) = true := by
  unfold verifyNode verifyEd25519 at h
  simp only [steps_eq_ok] at h
  rcases h with ⟨_, _, _, _, named, hnamed, htrue, ⟨_, _, _, hverify⟩, rfl⟩
  exact ⟨rfl, signatures.headD .null, htrue ▸ hnamed, hverify⟩

theorem verify_spend {crypto : Crypto} {key : String} {value entry : Value} {sessions : Sessions}
    {sets : ApproverSets} (h : verify crypto key value sessions sets = .ok entry)
    (hkind : Kind.ofValue (field entry "kind") = some .spend) :
    entry = field value "entry" ∧ key = nonceKey (textOf (field entry "nonce_digest")) ∧ ∃ sig,
      sessions (field entry "node_id") (field entry "boot_id") (field sig "session_key")
        (field entry "at") = .ok true ∧
      crypto.ed25519 (hexBytes (textOf (field sig "session_key"))) (signedBytes entry)
        (hexBytes (textOf (field sig "sig"))) = true := by
  unfold verify keyFor message at h
  simp only [steps_eq_ok] at h
  rcases h with ⟨_, _, ⟨kind, hvalid, rfl⟩, hplace, _, ⟨_, _, rfl⟩, signatures, _, h⟩
  -- either branch gives back the entry of the value, so its kind is the one asked for
  by_cases hnode : (Kind.ofValue (field (field value "entry") "kind")).any Kind.nodeSigned = true
  · rw [if_pos hnode] at h
    rcases verifyNode_signed h with ⟨rfl, hsigned⟩
    have : kind = .spend := Option.some.inj ((validate_kind hvalid).symm.trans hkind)
    subst this
    exact ⟨rfl, hplace, hsigned⟩
  · rw [if_neg hnode] at h
    unfold verifyKeyState at h
    simp only [steps_eq_ok] at h
    rcases h with ⟨_, _, _, _, _, _, _, _, rfl⟩
    rw [hkind] at hnode
    exact absurd rfl hnode

end Opstate

namespace SpendAudit

open Opstate (ApproverSets checkApprovals entryDigest hashed nonceKey signatureOf)

variable {sets : ApproverSets} {node : String} {watched : Option Watched}
    {chain : List Value} {lib : Library} {gated : Value → Bool} {line : Line}

/-! ### The gated lines -/

/-- The gated lines of all streams in the order they are checked, each with its
    server. -/
def signatures (streams : SortedMap String (List Value)) (gated : Value → Bool) :
    List (String × Value) :=
  streams.entries.flatMap (fun stream => (stream.2.filter (counts gated)).map (Prod.mk stream.1))

/-- The key of the spend a line names. -/
def namedKey (event : Value) : String := textOf (field (field (field event "detail") "spend") "key")

/-- What a gated line is held to by itself. -/
structure Behind (lib : Library) (chain : List Value) (sets : ApproverSets)
    (watched : Option Watched) (item : String × Value) (line : Line) : Prop where
  carried : carried lib item.2 chain sets = .ok line
  node : field line.entry "node_id" = .str item.1
  agree : fieldsAgree item.2 line = .ok ()
  times : ∃ signed spent, timeOf lib (field item.2 "timestamp") "request %s's timestamp"
      [.value (field item.2 "request_id")] = .ok signed ∧
    timeOf lib (field line.entry "at") "the spend's at" [] = .ok spent ∧
    spent - skew ≤ signed ∧ signed ≤ spent + maxRequestLife
  watched : checkWatched watched item.1 item.2 line = .ok ()
  approvals : ∃ counted, checkApprovals lib.toLibrary line.entry
      (field line.detail "approvals") sets = .ok counted ∧
    ((iterated (field item.2 "verified_approvers")).bind (·.mapM asText)).map
      (·.insertionSort (· ≤ ·)) = some counted

theorem carried_ref {event : Value} (h : carried lib event chain sets = .ok line) :
    line.detail = field event "detail" ∧ line.ref = field (field event "detail") "spend" := by
  unfold carried at h
  simp only [steps_eq_ok] at h
  obtain ⟨_, _, _, _, _, _, _, _, _, _, _, _, _, _, _, _, _, rfl⟩ := h
  exact ⟨rfl, rfl⟩

theorem carried_key {event : Value} (h : carried lib event chain sets = .ok line) :
    line.key = namedKey event := by
  rw [Line.key, (carried_ref h).2, namedKey]

theorem checkLine_eq_ok {paired paired' : List (String × Value)} {item : String × Value} :
    checkLine lib chain sets watched paired item = .ok paired' ↔
      (∃ line, Behind lib chain sets watched item line) ∧
        namedKey item.2 ∉ paired.map Prod.fst ∧
        paired' = paired ++ [(namedKey item.2, field item.2 "request_id")] := by
  unfold checkLine
  simp only [steps_eq_ok]
  constructor
  · rintro ⟨line, hcarried, hnode, hagree, signed, hsigned, spent, hspent, htimes, hwatch, counted,
      hcounted, hrecorded, hnew, hend⟩
    rw [carried_key hcarried] at hnew hend
    exact ⟨⟨line, hcarried, hnode, hagree, ⟨signed, spent, hsigned, hspent, htimes⟩,
      hwatch, ⟨counted, hcounted, hrecorded⟩⟩, hnew, hend.symm⟩
  · rintro ⟨⟨line, hcarried, hnode, hagree, ⟨signed, spent, hsigned, hspent, htimes⟩, hwatch,
      ⟨counted, hcounted, hrecorded⟩⟩, hnew, rfl⟩
    refine ⟨line, hcarried, hnode, hagree, signed, hsigned, spent, hspent, htimes, hwatch, counted,
      hcounted, hrecorded, ?_, ?_⟩
    · rwa [carried_key hcarried]
    · rw [carried_key hcarried]

/-! ### The loops -/

theorem foldlM_checkEvent (events : List Value) (state : List (String × Value) × Nat) :
    events.foldlM (checkEvent lib chain gated sets watched node) state =
      (((events.filter (counts gated)).map (Prod.mk node)).foldlM
        (checkLine lib chain sets watched) state.1).map
          (fun paired => (paired, state.2 + (events.filter (counts gated)).length)) := by
  induction events generalizing state with
  | nil => rfl
  | cons event rest ih =>
    rw [foldlM_cons, checkEvent]
    by_cases hcounts : counts gated event = true
    · rw [if_pos hcounts, filter_cons_of_pos hcounts, map_cons, foldlM_cons]
      cases hline : checkLine lib chain sets watched state.1 (node, event) with
      | error e => rfl
      | ok paired =>
        have := ih (paired, state.2 + 1)
        simp only [Bind.bind, Except.bind, pure, Except.pure] at this ⊢
        rw [this, length_cons, Nat.add_assoc, Nat.add_comm 1]
    · rw [if_neg hcounts, filter_cons_of_neg hcounts]
      exact ih state

/-- The two loops of `check` are one over the gated lines. -/
theorem foldlM_streams (streams : List (String × List Value))
    (state : List (String × Value) × Nat) :
    streams.foldlM (fun state stream =>
        stream.2.foldlM (checkEvent lib chain gated sets watched stream.1) state) state =
      ((streams.flatMap (fun stream => (stream.2.filter (counts gated)).map (Prod.mk stream.1))).foldlM
        (checkLine lib chain sets watched) state.1).map (fun paired =>
          (paired, state.2 + (streams.flatMap
            (fun stream => (stream.2.filter (counts gated)).map (Prod.mk stream.1))).length)) := by
  induction streams generalizing state with
  | nil => rfl
  | cons stream rest ih =>
    rw [foldlM_cons, foldlM_checkEvent, flatMap_cons, foldlM_append]
    cases hfirst : ((stream.2.filter (counts gated)).map (Prod.mk stream.1)).foldlM
        (checkLine lib chain sets watched) state.1 with
    | error e => rfl
    | ok paired =>
      have := ih (paired, state.2 + (stream.2.filter (counts gated)).length)
      simp only [Bind.bind, Except.bind, Except.map] at this ⊢
      rw [this, length_append, length_map, Nat.add_assoc]

/-- What `check` accepts: each gated line holds by itself, and no two name one
    spend. -/
theorem check_eq_ok {streams : SortedMap String (List Value)} {report : Report} :
    check lib streams chain gated sets watched = .ok report ↔
      (∀ item ∈ signatures streams gated, ∃ line, Behind lib chain sets watched item line) ∧
        ((signatures streams gated).map (fun item => namedKey item.2)).Nodup ∧
        report = ⟨(signatures streams gated).length, (spendKeys watched).length,
          (spendKeys watched).filter
            (· ∉ (signatures streams gated).map (fun item => namedKey item.2))⟩ := by
  have hregister := foldlM_register_eq_ok
    (fun item => ∃ line, Behind lib chain sets watched item line)
    (fun item => (namedKey item.2, field item.2 "request_id")) (signatures streams gated)
    (fun _ _ _ _ => checkLine_eq_ok) []
  unfold check
  simp only [steps_eq_ok]
  rw [foldlM_streams]
  constructor
  · rintro ⟨found, hfound, rfl⟩
    rcases map_eq_ok.mp hfound with ⟨paired, hpaired, rfl⟩
    rcases (hregister paired).mp hpaired with ⟨hbehind, hfresh, rfl⟩
    refine ⟨hbehind, hfresh.1, ?_⟩
    simp only [nil_append, map_map, Nat.zero_add]
    rfl
  · rintro ⟨hbehind, hnodup, rfl⟩
    have hpaired := (hregister _).mpr ⟨hbehind, ⟨hnodup, fun _ _ => not_mem_nil⟩, rfl⟩
    refine ⟨_, map_eq_ok.mpr ⟨_, hpaired, rfl⟩, ?_⟩
    simp only [nil_append, map_map, Nat.zero_add]
    rfl

/-! ### The spends -/

/-- A spend that stands behind a gated line: the line carries it, it is of the
    line's server and its request, and a session of that server signed it. -/
structure VerifiedSpend (lib : Library) (chain : List Value) (item : String × Value) (line : Line) :
    Prop where
  detail : line.detail = field item.2 "detail"
  ref : line.ref = field line.detail "spend"
  entry : line.entry = field (field line.ref "value") "entry"
  kind : Opstate.Kind.ofValue (field line.entry "kind") = some .spend
  key : line.key = nonceKey (textOf (field line.entry "nonce_digest"))
  node : field line.entry "node_id" = .str item.1
  made : ∀ k ∈ ["principal", "object_id", "purpose"], field line.entry k = field item.2 k
  signed : ∃ session ends sig,
    verifySession lib.crypto (field (field line.detail "session") "key")
      (field (field line.detail "session") "value") chain = .ok (session, ends) ∧
    field session "node_id" = .str item.1 ∧
    lib.crypto.ed25519 (hexBytes (textOf (field session "session_key")))
      (signedBytes line.entry) sig = true

theorem sessionNames_true {session : Value} {ends : Option Value} {node boot key at_ : Value}
    (h : sessionNames lib session ends node boot key at_ = .ok true) :
    field session "node_id" = node ∧ field session "session_key" = key := by
  unfold sessionNames at h
  rw [bind_eq_ok] at h
  rcases h with ⟨t, _, h⟩
  by_cases hsame : (field session "node_id", field session "boot_id", field session "session_key") =
      (node, boot, key)
  · rcases Prod.mk.inj hsame with ⟨hnode, hrest⟩
    exact ⟨hnode, (Prod.mk.inj hrest).2⟩
  · rw [if_pos hsame] at h
    cases h

theorem fieldsAgree_eq_ok {event : Value} {u : Unit} :
    fieldsAgree event line = .ok u ↔
      ∀ f ∈ [("principal", field event "principal"), ("object_id", field event "object_id"),
        ("purpose", field event "purpose"),
        ("payload_sha256", field line.detail "payload_sha256")], field line.entry f.1 = f.2 :=
  forM_eq_ok _ _ (fun _ _ => require_eq_ok)

theorem Behind.verified {item : String × Value} (h : Behind lib chain sets watched item line) :
    VerifiedSpend lib chain item line := by
  have hcarried := h.carried
  rcases carried_ref hcarried with ⟨hdetail, href⟩
  unfold SpendAudit.carried at hcarried
  simp only [steps_eq_ok] at hcarried
  rcases hcarried with ⟨_, _, _, key, hkey, _, _, _, _, _, _, session, hsession, entry, hentry,
    hkind, _, rfl⟩
  rcases verify_spend hentry hkind with ⟨hvalue, hplace, sig, hnamed, hverify⟩
  rcases sessionNames_true hnamed with ⟨hnode, hsame⟩
  have hagree := fieldsAgree_eq_ok.mp h.agree
  refine ⟨hdetail, rfl, hvalue, hkind, ?_, h.node, ?_, ?_⟩
  · rw [Option.filter_eq_some_iff, asText_eq_some] at hkey
    rw [Line.key, hkey.1]
    exact hplace
  · simp only [mem_cons, not_mem_nil, or_false]
    rintro k (rfl | rfl | rfl)
    · exact hagree ("principal", field item.2 "principal") (by simp)
    · exact hagree ("object_id", field item.2 "object_id") (by simp)
    · exact hagree ("purpose", field item.2 "purpose") (by simp)
  · rw [← hsame] at hverify
    exact ⟨session.1, session.2, _, hsession, hnode.trans h.node, hverify⟩

/-! ### The approvals -/

/-- A signature holds for one message. -/
def OneMessage (crypto : Crypto) : Prop :=
  ∀ key key' message message' sig, crypto.ed25519 key message sig = true →
    crypto.ed25519 key' message' sig = true → message = message'

/-- The approvals a line carries, which its spend counted. -/
def Line.approvals (line : Line) : List Value := itemsOf (field line.detail "approvals")

/-- Two spends of two nonces have no approver's signature in common. -/
theorem approvals_disjoint {item item' : String × Value} {line line' : Line}
    (hone : OneMessage lib.crypto) (h : Behind lib chain sets watched item line)
    (h' : Behind lib chain sets watched item' line') (hkey : line.key ≠ line'.key) :
    ∀ a ∈ line.approvals, ∀ b ∈ line'.approvals, ∀ sig,
      signatureOf lib.toLibrary a = some sig → signatureOf lib.toLibrary b ≠ some sig := by
  intro a ha b hb sig hsig hsig'
  rcases h.approvals with ⟨_, hcounted, _⟩
  rcases h'.approvals with ⟨_, hcounted', _⟩
  rcases checkApprovals_approved hcounted with ⟨set, happroved⟩
  rcases checkApprovals_approved hcounted' with ⟨set', happroved'⟩
  rcases (happroved a ha).approved with ⟨_, _, key, nonce, s, _, _, _, hnonce, hs, hverify⟩
  rcases (happroved' b hb).approved with ⟨_, _, key', nonce', s', _, _, _, hnonce', hs', hverify'⟩
  have hsame : s = sig := Option.some.inj (hs.symm.trans hsig)
  have hsame' : s' = sig := Option.some.inj (hs'.symm.trans hsig')
  subst hsame hsame'
  -- one message, so one nonce, one digest and one key
  have hnonces := binding_nonce (hone _ _ _ _ _ hverify hverify')
  rw [hnonces, hnonce'] at hnonce
  apply hkey
  rw [h.verified.key, h'.verified.key, Except.ok.inj hnonce]

theorem keys_of_behind {items : List (String × Value)} {lines : List Line}
    (h : List.Forall₂ (Behind lib chain sets watched) items lines) :
    lines.map Line.key = items.map (fun item => namedKey item.2) := by
  induction h with
  | nil => rfl
  | cons hline _ ih => rw [map_cons, map_cons, ih, carried_key hline.carried]

/-- Where the check accepts the streams of any servers, every gated signature in
    them has a verified spend of its own, and no approver's signature is among
    the approvals counted behind two of them. -/
theorem own_spend_own_approvals (lib : Library) (streams : SortedMap String (List Value))
    (chain : List Value) (gated : Value → Bool) (sets : ApproverSets)
    (watched : Option Watched) (report : Report) (hone : OneMessage lib.crypto)
    (h : check lib streams chain gated sets watched = .ok report) :
    ∃ lines, List.Forall₂ (VerifiedSpend lib chain) (signatures streams gated) lines ∧
      lines.Pairwise (fun l l' => l.key ≠ l'.key ∧ l.entry ≠ l'.entry) ∧
      lines.Pairwise (fun l l' => ∀ a ∈ l.approvals, ∀ b ∈ l'.approvals, ∀ sig,
        signatureOf lib.toLibrary a = some sig → signatureOf lib.toLibrary b ≠ some sig) := by
  rcases check_eq_ok.mp h with ⟨hbehind, hnodup, _⟩
  rcases exists_forall₂ hbehind with ⟨lines, hlines⟩
  rw [← keys_of_behind hlines, List.Nodup, pairwise_map] at hnodup
  have hmem : ∀ line ∈ lines, ∃ item, Behind lib chain sets watched item line := by
    intro line hline
    rcases exists_of_mem_right hlines hline with ⟨item, _, hitem⟩
    exact ⟨item, hitem⟩
  refine ⟨lines, hlines.imp (fun _ _ hline => hline.verified), ?_, ?_⟩
  · refine hnodup.imp_of_mem ?_
    intro l l' hl hl' hne
    refine ⟨hne, ?_⟩
    intro hentry
    rcases hmem l hl with ⟨_, hitem⟩
    rcases hmem l' hl' with ⟨_, hitem'⟩
    apply hne
    rw [hitem.verified.key, hitem'.verified.key, hentry]
  · refine hnodup.imp_of_mem ?_
    intro l l' hl hl' hne
    rcases hmem l hl with ⟨_, hitem⟩
    rcases hmem l' hl' with ⟨_, hitem'⟩
    exact approvals_disjoint hone hitem hitem' hne

/-! ### An example

Two servers of a chain of one manifest have each signed once, and one approver
has approved both requests. A signature of the example tells its message. -/

def exampleBoot : String := "00000000-0000-4000-8000-000000000000"

/-- The approver, and what they need for a request. -/
def exampleSet : Opstate.ApproverSet :=
  ⟨⟨[("alice", exampleHex 64 '3')], pairwise_singleton _ _⟩, 1⟩

def exampleSets : ApproverSets := fun _ => some exampleSet

def exampleNonce (node : String) : String := "nonce-" ++ node

def exampleApproval (node : String) : Value :=
  .obj [("approver_id", .str "alice"), ("expires_at", .str "2026-10-02T10:10:00Z"),
    ("nonce", .str (exampleNonce node)), ("payload_digest", .str (exampleHex 64 '4')),
    ("signature", .str node)]

def exampleSpend (node : String) : Value :=
  .obj [("approvals_sha256", .str (approvalsDigest [exampleApproval node])),
    ("approver_set", .str (approverSetDigest exampleSet)),
    ("approvers", .arr [.str "alice"]), ("at", .str "2026-10-02T10:00:00Z"),
    ("boot_id", .str exampleBoot), ("environment", .str "e"),
    ("expires_at", .str "2026-10-02T10:10:00Z"), ("kind", .str "spend"),
    ("lease_digest", .str (exampleHex 64 '5')),
    ("lease_expires_at", .str "2026-10-02T10:00:30Z"), ("node_id", .str node),
    ("nonce_digest", .str (hashed (exampleNonce node))), ("object_id", .str "o"),
    ("payload_sha256", .str (exampleHex 64 '4')), ("principal", .str "p"), ("purpose", .str "pay"),
    ("schema", .str schema)]

def exampleSession (node : String) : Value :=
  .obj [("boot_id", .str exampleBoot), ("issued_at", .str "2026-10-02T10:00:00Z"),
    ("node_id", .str node), ("schema", .str sessionSchema),
    ("session_key", .str (exampleHex 64 '2'))]

def exampleSessionSignature (node : String) : String :=
  exampleHex 128 (if node = "a" then '6' else '7')

/-- What a signature of the example is over, told by its first byte. -/
def exampleMessage (sig : List UInt8) : Option (List UInt8) :=
  match sig.head? with
  | some 97 => some (bindingBytes (exampleSpend "a") (exampleNonce "a"))
  | some 98 => some (bindingBytes (exampleSpend "b") (exampleNonce "b"))
  | some 96 => some (signedBytes (exampleSpend "a"))
  | some 112 => some (signedBytes (exampleSpend "b"))
  | _ => none

def exampleLib : Library where
  crypto := ⟨fun _ message sig => decide (exampleMessage sig = some message), fun _ _ _ _ => true⟩
  base64 text := some (GoString.ofText text)
  fromIsoFormat text := (Regalia.parseTime (text.toList ++ ['Z'])).map (fun t => (t.unix : Rat))

def exampleSessionPath (node : String) : String :=
  root ++ "sessions/" ++ node ++ "/" ++ exampleBoot ++ "/" ++ exampleHex 64 '2'

/-- The signature of a node's session. -/
def exampleSigned (node : String) : Value :=
  .obj [("boot_id", .str exampleBoot), ("party", .str node),
    ("session_key", .str (exampleHex 64 '2')), ("sig", .str (exampleSessionSignature node))]

def exampleValue (node : String) : Value :=
  .obj [("entry", exampleSpend node), ("signatures", .arr [exampleSigned node])]

def exampleRef (node : String) : Value :=
  .obj [("entry_sha256", .str (entryDigest (exampleSpend node))),
    ("key", .str (nonceKey (hashed (exampleNonce node)))), ("mod_revision", .num 1),
    ("value", exampleValue node)]

def exampleSessionRef (node : String) : Value :=
  .obj [("key", .str (exampleSessionPath node)),
    ("value", .obj [("entry", exampleSession node), ("signature", .str exampleSignature)])]

def exampleDetail (node : String) : Value :=
  .obj [("approvals", .arr [exampleApproval node]), ("payload_sha256", .str (exampleHex 64 '4')),
    ("session", exampleSessionRef node), ("spend", exampleRef node)]

/-- The audit line of a node's signature. -/
def exampleEvent (node : String) : Value :=
  .obj [("decision", .str "allow"), ("detail", exampleDetail node), ("object_id", .str "o"),
    ("outcome", .str "success"), ("principal", .str "p"), ("purpose", .str "pay"),
    ("request_id", .str node), ("timestamp", .str "2026-10-02T10:00:00Z"),
    ("verified_approvers", .arr [.str "alice"])]

def exampleStreams : SortedMap String (List Value) :=
  ⟨[("a", [exampleEvent "a"]), ("b", [exampleEvent "b"])], by decide⟩

/-! What the checks make of it. -/

/-- A lower hex digit is one character for the writer of a message. -/
theorem charLen_lowerHex (c : Char) (h : isLowerHex c = true) : charLen c = 1 :=
  of_isLowerHex c h (by decide)

theorem textLen_of_hex {s : String} {n : Nat} (h : matchesHex n s = true) : textLen s = n + 2 := by
  unfold matchesHex at h
  simp only [Bool.and_eq_true, decide_eq_true_eq, all_eq_true] at h
  have hone : ∀ c ∈ s.toList, charLen c = 1 := fun c hc => charLen_lowerHex c (h.2 c hc)
  rw [textLen, map_congr_left hone, map_const', sum_replicate_nat, h.1]
  omega

theorem textLen_append (s t : String) : textLen (s ++ t) = textLen s + textLen t - 2 := by
  unfold textLen
  rw [String.toList_append, map_append, sum_append]
  omega

theorem hex_example (digit : Char) (h : isLowerHex digit = true) :
    matchesHex 64 (exampleHex 64 digit) = true := matchesHex_exampleHex (by decide) h

theorem hexField_of_matches {s : String} (label : String) (h : matchesHex 64 s = true) :
    Python.hexField (.str s) 64 label = .ok () := Python.hexField_eq_ok.mpr ⟨s, rfl, h⟩

theorem textLen_digests : textLen (approverSetDigest exampleSet) = 66 ∧
    (∀ l, textLen (approvalsDigest l) = 66) ∧ ∀ s, textLen (hashed s) = 66 := by
  unfold approverSetDigest approvalsDigest hashed
  exact ⟨textLen_of_hex (matchesHex_digest _), fun _ => textLen_of_hex (matchesHex_digest _),
    fun _ => textLen_of_hex (matchesHex_sum _)⟩

theorem matchesHex_sessionSignature (node : String) :
    matchesHex 128 (exampleSessionSignature node) = true := by
  unfold exampleSessionSignature
  by_cases h : node = "a"
  · rw [if_pos h]
    exact matchesHex_exampleHex (by decide) (by decide)
  · rw [if_neg h]
    exact matchesHex_exampleHex (by decide) (by decide)

theorem matchesHex_entryDigest (v : Value) : matchesHex 64 (entryDigest v) = true := by
  unfold entryDigest
  exact matchesHex_digest v

theorem goJsonLen_exampleDetail (hnode : node ∈ ["a", "b"]) :
    goJsonLen (exampleDetail node) ≤ maxDetail := by
  have hname : ∀ node ∈ ["a", "b"], textLen node = 3 := by decide
  simp -implicitDefEqProofs only [exampleDetail, exampleSessionRef, exampleRef, exampleValue,
    exampleSigned, exampleSession, exampleSpend, exampleApproval, exampleSessionPath,
    nonceKey, exampleNonce, goJsonLen, itemsLen, fieldsLen, textLen_append,
    textLen_digests, textLen_of_hex (matchesHex_entryDigest _),
    textLen_of_hex (matchesHex_sessionSignature _), textLen_of_hex matchesHex_exampleSignature,
    textLen_of_hex (hex_example '2' (by decide)), textLen_of_hex (hex_example '4' (by decide)),
    textLen_of_hex (hex_example '5' (by decide)), hname node hnode]
  decide

/-- A time does not depend on what a refusal would call it. -/
theorem parseTime_label {v : Value} {label label' : String} {n : Int} :
    Heartbeat.parseTime v label = .ok n ↔ Heartbeat.parseTime v label' = .ok n := by
  unfold Heartbeat.parseTime
  simp only [steps_eq_ok]

theorem parseTime_at (label : String) :
    Heartbeat.parseTime (.str "2026-10-02T10:00:00Z") label = .ok 1790935200 :=
  parseTime_label.mp (toOption_eq_some_iff.mp (by decide) :
    Heartbeat.parseTime (.str "2026-10-02T10:00:00Z") "" = .ok 1790935200)

theorem timeOf_at (what : String) (args : List Arg) :
    timeOf exampleLib (.str "2026-10-02T10:00:00Z") what args = .ok 1790935200 := by
  have hlast : "2026-10-02T10:00:00Z".toList.getLast? = some 'Z' := by decide
  have hread : exampleLib.fromIsoFormat (String.ofList "2026-10-02T10:00:00Z".toList.dropLast) =
      some 1790935200 := by decide
  unfold timeOf
  simp only [steps_eq_ok, asText, Option.filter_some, hlast, decide_true, if_true,
    Option.some.injEq, exists_eq_left', hread]

/-- Each node's session, spend and approval are in order. -/
theorem example_accepted : ∀ node ∈ ["a", "b"],
    sessionKeyPath (exampleSession node) = .ok (exampleSessionPath node) ∧
      verify exampleLib.crypto (nonceKey (hashed (exampleNonce node)))
        (exampleValue node) (sessionNames exampleLib (exampleSession node) none) exampleSets =
          .ok (exampleSpend node) ∧ checkApprovals exampleLib.toLibrary (exampleSpend node)
        (.arr [exampleApproval node]) exampleSets = .ok ["alice"] := by
  simp only [← toOption_eq_some_iff]
  decide +kernel

theorem mem_three (hnode : node ∈ ["a", "b"]) : node ∈ ["a", "b", "c"] :=
  mem_append_left ["c"] hnode

theorem signingKeyOf_threeNodes (hnode : node ∈ ["a", "b"]) :
    signingKeyOf threeNodes node = .ok (some (.ecdsaP256, exampleKey node)) := by
  obtain ⟨v, -, hat, hserving⟩ := at_threeNodes (mem_three hnode)
  unfold signingKeyOf
  rw [validate_threeNodes, bind_eq_ok]
  refine ⟨_, rfl, ?_⟩
  simp only [hat, hserving.has, if_true]
  rw [bind_eq_ok]
  exact ⟨_, Python.typedKey_eq_ok.mpr hserving.key, rfl⟩

theorem field_exampleSession (node : String) :
    field (exampleSession node) "issued_at" = .str "2026-10-02T10:00:00Z" ∧
      field (exampleSession node) "node_id" = .str node := by
  simp [exampleSession, field, Json.get?, List.lookup_cons]

abbrev exampleSessionValue (node : String) : Value :=
  .obj [("entry", exampleSession node), ("signature", .str exampleSignature)]

theorem verifySession_example (hnode : node ∈ ["a", "b"]) :
    verifySession exampleLib.crypto (.str (exampleSessionPath node))
      (exampleSessionValue node) [threeNodes] = .ok (exampleSession node, none) := by
  have hentry : field (exampleSessionValue node) "entry" = exampleSession node := rfl
  have hsig : field (exampleSessionValue node) "signature" = .str exampleSignature := rfl
  obtain ⟨hissued, hname⟩ := field_exampleSession node
  have hbefore : [threeNodes].filterM (fun m => do
      return decide ((← issuedAt m) ≤ 1790935200) : Value → Check Bool) = .ok [threeNodes] := by
    have hissued : issuedAt threeNodes = .ok 1790931600 :=
      toOption_eq_some_iff.mp (by decide)
    simp [List.filterM, hissued]
  unfold verifySession
  have hexact : Python.exact (exampleSessionValue node) ["entry", "signature"] "the session value" = .ok () :=
    Python.exact_eq_ok.mpr (exact_of_perm rfl (List.Perm.refl _))
  have hlater : (([threeNodes].drop ([threeNodes].findIdx (Python.equals · threeNodes) + 1)).filterM
      (fun m => do
        return decide ((← signingKeyOf m node) ≠ some (.ecdsaP256, exampleKey node)) :
          Value → Check Bool)) = .ok [] := by
    rw [drop_of_length_le (by simp)]
    rfl
  simp only [steps_eq_ok, hentry, hsig, hissued, hname, textOf]
  exact ⟨hexact, _, (example_accepted node hnode).1, rfl, cons_ne_nil _ _, _, parseTime_at _,
    _, hbefore, threeNodes, rfl, _, signingKeyOf_threeNodes hnode, _, rfl,
    Python.verifyRevocation_eq_ok.mpr
      (signatureOver_example (mem_three hnode) (fun _ _ _ _ => rfl) _), [], hlater, rfl⟩

theorem field_exampleEvent (node : String) :
    field (exampleEvent node) "detail" = exampleDetail node ∧
      field (exampleEvent node) "object_id" = .str "o" ∧
      field (exampleEvent node) "principal" = .str "p" ∧
      field (exampleEvent node) "purpose" = .str "pay" ∧
      field (exampleEvent node) "request_id" = .str node ∧
      field (exampleEvent node) "timestamp" = .str "2026-10-02T10:00:00Z" ∧
      field (exampleEvent node) "verified_approvers" = .arr [.str "alice"] := by
  simp [exampleEvent, field, Json.get?, List.lookup_cons]

theorem carried_example (hnode : node ∈ ["a", "b"]) :
    carried exampleLib (exampleEvent node) [threeNodes] exampleSets =
      .ok ⟨exampleRef node, exampleDetail node, exampleSpend node⟩ := by
  obtain ⟨hdetail, -, -, -, -, -, -⟩ := field_exampleEvent node
  have hkind : field (exampleSpend node) "kind" = .str "spend" := by
    simp [exampleSpend, field, Json.get?, List.lookup_cons]
  have hfields : field (exampleDetail node) "approvals" = .arr [exampleApproval node] ∧
      field (exampleDetail node) "payload_sha256" = .str (exampleHex 64 '4') ∧
      field (exampleDetail node) "session" = exampleSessionRef node ∧
      field (exampleDetail node) "spend" = exampleRef node := by
    simp [exampleDetail, field, Json.get?, List.lookup_cons]
  have hrefs : field (exampleRef node) "entry_sha256" = .str (entryDigest (exampleSpend node)) ∧
      field (exampleRef node) "key" =
        .str (nonceKey (hashed (exampleNonce node))) ∧
      field (exampleRef node) "mod_revision" = .num 1 ∧
      field (exampleRef node) "value" = exampleValue node := by
    simp [exampleRef, field, Json.get?, List.lookup_cons]
  have hsession : field (exampleSessionRef node) "key" = .str (exampleSessionPath node) ∧
      field (exampleSessionRef node) "value" = exampleSessionValue node := by
    simp [exampleSessionRef, field, Json.get?, List.lookup_cons]
  unfold carried
  simp only [steps_eq_ok, hdetail, hfields, hrefs, hsession, asText, asInteger, asList]
  refine ⟨⟨rfl, rfl⟩, goJsonLen_exampleDetail hnode, ?_,
    nonceKey (hashed (exampleNonce node)), ?_, by decide, ?_,
    hexField_of_matches _ (hex_example '4' (by decide)), rfl, rfl, ?_, _,
    verifySession_example hnode, _, (example_accepted node hnode).2.1, ?_, rfl, rfl⟩
  · refine Python.exact_eq_ok.mpr (exact_of_perm rfl ?_)
    show ["entry_sha256", "key", "mod_revision", "value"].Perm spendRef
    decide
  · refine Option.filter_eq_some_iff.mpr ⟨rfl, ?_⟩
    simp [nonceKey, String.toList_append]
  · exact hexField_of_matches _ (matchesHex_entryDigest _)
  · exact Python.exact_eq_ok.mpr (exact_of_perm rfl (List.Perm.refl _))
  · rw [hkind]
    decide

theorem behind_example (hnode : node ∈ ["a", "b"]) :
    Behind exampleLib [threeNodes] exampleSets none (node, exampleEvent node)
      ⟨exampleRef node, exampleDetail node, exampleSpend node⟩ := by
  obtain ⟨-, hobject, hprincipal, hpurpose, -, htime, hverified⟩ := field_exampleEvent node
  have hspend : field (exampleSpend node) "at" = .str "2026-10-02T10:00:00Z" ∧
      field (exampleSpend node) "node_id" = .str node ∧
      field (exampleSpend node) "object_id" = .str "o" ∧
      field (exampleSpend node) "payload_sha256" = .str (exampleHex 64 '4') ∧
      field (exampleSpend node) "principal" = .str "p" ∧
      field (exampleSpend node) "purpose" = .str "pay" := by
    simp [exampleSpend, field, Json.get?, List.lookup_cons]
  obtain ⟨hat, hname, hobject', hpayload, hprincipal', hpurpose'⟩ := hspend
  have hdetail : field (exampleDetail node) "payload_sha256" = .str (exampleHex 64 '4') := by
    simp [exampleDetail, field, Json.get?, List.lookup_cons]
  have happrovals : field (exampleDetail node) "approvals" = .arr [exampleApproval node] := by
    simp [exampleDetail, field, Json.get?]
  refine ⟨carried_example hnode, hname, fieldsAgree_eq_ok.mpr ?_, ⟨1790935200, 1790935200, ?_, ?_, ?_⟩,
    rfl, ["alice"], ?_, ?_⟩
  · simp [hobject, hprincipal, hpurpose, hobject', hpayload, hprincipal', hpurpose', hdetail]
  · rw [htime]
    exact timeOf_at _ _
  · rw [hat]
    exact timeOf_at _ _
  · norm_num [skew, maxRequestLife]
  · rw [happrovals]
    exact (example_accepted node hnode).2.2
  · rw [hverified]
    decide

theorem signatures_example : signatures exampleStreams (fun _ => true) =
    [("a", exampleEvent "a"), ("b", exampleEvent "b")] := by
  have hcounts : ∀ node, counts (fun _ => true) (exampleEvent node) = true := by
    intro node
    simp [counts, exampleEvent, field, Json.get?, List.lookup_cons]
  simp [signatures, exampleStreams, hcounts]

theorem namedKey_example (node : String) :
    namedKey (exampleEvent node) = nonceKey (hashed (exampleNonce node)) := by
  simp [namedKey, exampleEvent, exampleDetail, exampleRef, field, Json.get?, List.lookup_cons, textOf]

theorem check_example :
    check exampleLib exampleStreams [threeNodes] (fun _ => true) exampleSets none =
      .ok ⟨2, 0, []⟩ := by
  have hsums : Sha256.sum (GoString.ofText (exampleNonce "a")) ≠
      Sha256.sum (GoString.ofText (exampleNonce "b")) := by decide
  rw [check_eq_ok, signatures_example]
  refine ⟨?_, ?_, rfl⟩
  · simp only [forall_mem_cons, not_mem_nil, false_implies, implies_true, and_true]
    exact ⟨⟨_, behind_example (by decide)⟩, ⟨_, behind_example (by decide)⟩⟩
  · simp only [map_cons, map_nil, namedKey_example, nodup_cons, mem_singleton,
      not_mem_nil, not_false_eq_true, nodup_nil, and_true]
    intro hkeys
    have hlists := congrArg String.toList hkeys
    simp only [nonceKey, hashed, String.toList_append, append_cancel_left_eq,
      String.toList_ofList] at hlists
    exact hsums (hexText_injective _ _ hlists)

theorem oneMessage_example : OneMessage exampleLib.crypto := by
  intro _ _ message message' sig h h'
  exact Option.some.inj ((of_decide_eq_true h).symm.trans (of_decide_eq_true h'))

theorem own_spend_own_approvals_two :
    check exampleLib exampleStreams [threeNodes] (fun _ => true) exampleSets none = .ok ⟨2, 0, []⟩ ∧
      ∃ lines, List.Forall₂ (VerifiedSpend exampleLib [threeNodes])
          [("a", exampleEvent "a"), ("b", exampleEvent "b")] lines ∧
        lines.Pairwise (fun l l' => l.key ≠ l'.key ∧ l.entry ≠ l'.entry) ∧
        lines.Pairwise (fun l l' => ∀ a ∈ l.approvals, ∀ b ∈ l'.approvals, ∀ sig,
          signatureOf exampleLib.toLibrary a = some sig →
          signatureOf exampleLib.toLibrary b ≠ some sig) := by
  refine ⟨check_example, ?_⟩
  rw [← signatures_example]
  exact own_spend_own_approvals exampleLib exampleStreams [threeNodes] (fun _ => true) exampleSets
    none ⟨2, 0, []⟩ oneMessage_example check_example

end SpendAudit

end Regalia
