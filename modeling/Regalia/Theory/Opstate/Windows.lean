import Mathlib.Data.List.Find
import Regalia.Data.InForce
import Regalia.Theory.Membership.Chain
import Regalia.Theory.SpendAudit.Pairing

/-!
# The Window of a Session

A session is signed by the key its node had when the session was issued, and
vouches until the chain replaces that key. The key is found by the issue times
of the manifests, the end of the window by their order in the chain. The rules
of a chain make epochs rise, not issue times, so a manifest behind the one that
replaces the key may be dated before it: inside the window, and with another
key.

The window is right exactly for the chains in which no such manifest overtakes
the replacing one (`Regalia.NoneOvertakes`).

## Main definitions

* `manifests`: The manifests of a chain of envelopes.
* `signingKeyAt`: The rule of `verifySession` at any time.
* `Untroubled`: No manifest overtakes the one that replaces a key.

## Theorems

* `manifests_after`: Along an accepted chain the epoch rises, but for a manifest
  repeated in a row.
* `verifySession_forms`: What an accepted session says about the chain.
* `window_keeps_key_iff`: The key of a session is in force throughout its
  window, exactly for an untroubled chain.
* `window_overtaken`: A chain in which it is not.
-/

namespace Regalia.Opstate

open List

variable {prev issued party : String} {epoch : Int} {time : Int}

open SpendAudit (exampleSession parseTime_at field_exampleSession exampleSessionPath)
open Regalia.Membership

/-! ### Chains -/

/-- The manifest after each envelope of a chain, oldest first. -/
def manifests (crypto : Crypto) (root : Value) : Option Value → List Value → Check (List Value)
  | _, [] => .ok []
  | current, envelope :: rest => do
    let next ← Python.accept crypto current envelope root
    let later ← manifests crypto root (some next) rest
    return next :: later

/-- They are those that `acceptChain` goes through. -/
theorem acceptChain_eq_ok {crypto : Crypto} {root : Value} (envelopes : List Value) :
    ∀ {current result : Option Value},
    Python.acceptChain crypto current envelopes root = .ok result ↔
      ∃ chain, manifests crypto root current envelopes = .ok chain ∧
        result = chain.getLast?.or current := by
  induction envelopes with
  | nil =>
    intro current result
    simp [Python.acceptChain, manifests, pure, Except.pure, eq_comm]
  | cons envelope rest ih =>
    intro current result
    have hcons : Python.acceptChain crypto current (envelope :: rest) root =
        (Python.accept crypto current envelope root >>= fun next =>
          Python.acceptChain crypto (some next) rest root) := by
      simp only [Python.acceptChain, foldlM_cons, bind_assoc, pure_bind]
    simp only [hcons, manifests, steps_eq_ok, ih]
    constructor
    · rintro ⟨next, haccept, chain, hchain, rfl⟩
      refine ⟨next :: chain, ⟨next, haccept, chain, hchain, rfl⟩, ?_⟩
      rw [getLast?_cons]
      cases chain.getLast? <;> rfl
    · rintro ⟨_, ⟨next, haccept, chain, hchain, rfl⟩, rfl⟩
      refine ⟨next, haccept, chain, hchain, ?_⟩
      rw [getLast?_cons]
      cases chain.getLast? <;> rfl

/-- What is accepted after a manifest is that manifest once more or has a higher
    epoch. -/
theorem manifests_after {crypto : Crypto} {root : Value} (envelopes : List Document) :
    ∀ {current : Option Value} {chain : List Value}, Held current →
    manifests crypto root current (envelopes.map Subtype.val) = .ok chain →
    (∀ m ∈ chain, Held (some m)) ∧
    (∀ m ∈ chain, ∀ c, current = some c → c = m ∨ epochOf c < epochOf m) ∧
    chain.Pairwise (fun a b => a = b ∨ epochOf a < epochOf b) := by
  induction envelopes with
  | nil =>
    intro current chain _ h
    cases h
    exact ⟨nofun, nofun, List.Pairwise.nil⟩
  | cons envelope rest ih =>
    intro current chain hheld h
    rw [map_cons, manifests] at h
    simp only [steps_eq_ok] at h
    rcases h with ⟨next, haccept, later, hlater, rfl⟩
    have haccepts := (Python.accept_eq_ok hheld envelope.2).mp haccept
    have hnext := haccepts.held hheld envelope.2
    rcases ih hnext hlater with ⟨hall, hafter, hpairwise⟩
    -- One step: the manifest once more, or the next epoch.
    have hstep : ∀ c, current = some c → c = next ∨ epochOf c < epochOf next := by
      rintro c rfl
      rcases haccepts.eq_or_next with rfl | ⟨signer, -, hrules⟩
      · exact .inl rfl
      · have := hrules.epoch
        exact .inr (by omega)
    refine ⟨?_, ?_, pairwise_cons.mpr ⟨fun m hm => hafter m hm next rfl, hpairwise⟩⟩
    · intro m hm
      rcases mem_cons.mp hm with rfl | hm
      · exact hnext
      · exact hall m hm
    · intro m hm c hc
      rcases mem_cons.mp hm with rfl | hlate
      · exact hstep c hc
      · rcases hstep c hc with rfl | hlt
        · exact hafter m hlate c rfl
        · rcases hafter m hlate next rfl with rfl | hlt'
          · exact .inr hlt
          · exact .inr (hlt.trans hlt')

theorem held_none : Held none := nofun

/-- From the first copy of a manifest on: the copies behind it, and what comes
    after the last. -/
theorem drop_findIdx {last : Value} {rest : List Value} (front : List Value)
    (hheld : ∀ m ∈ front ++ last :: rest, Held (some m))
    (hpairwise : (front ++ last :: rest).Pairwise (fun a b => a = b ∨ epochOf a < epochOf b)) :
    ∃ n, (front ++ last :: rest).drop
      ((front ++ last :: rest).findIdx (Python.equals · last) + 1) =
        replicate n last ++ rest := by
  have hplain : ∀ m ∈ front ++ last :: rest, Plain m := by
    intro m hm
    rcases hheld m hm m rfl with ⟨hord, _, hvalid⟩
    exact hvalid.plain hord
  induction front with
  | nil =>
    have hself : Python.equals last last = true := by simp [Python.equals]
    exact ⟨0, by simp [findIdx_cons, hself]⟩
  | cons x front ih =>
    rw [cons_append] at hheld hpairwise hplain ⊢
    rcases pairwise_cons.mp hpairwise with ⟨hx, htail⟩
    by_cases heq : Python.equals x last = true
    · -- the first copy: what stands between two copies is a copy
      have hcopy : x = last :=
        (equals_iff (hplain x mem_cons_self) (hplain last (by simp))).mp heq
      have hbetween : ∀ b ∈ front, b = last := by
        intro b hb
        rcases hx b (mem_append_left _ hb) with h | h
        · exact h.symm.trans hcopy
        · rcases (pairwise_append.mp htail).2.2 b hb last mem_cons_self with h' | h'
          · exact h'
          · rw [hcopy] at h
            omega
      refine ⟨front.length + 1, ?_⟩
      rw [findIdx_cons, heq, cond_true, Nat.zero_add, drop_one, tail_cons,
        eq_replicate_of_mem hbetween, length_replicate, replicate_succ',
        append_assoc, singleton_append]
    · rcases ih (fun m hm => hheld m (mem_cons_of_mem _ hm)) htail
        (fun m hm => hplain m (mem_cons_of_mem _ hm)) with ⟨n, hn⟩
      refine ⟨n, ?_⟩
      rw [findIdx_cons, Bool.eq_false_iff.mpr heq, cond_false, drop_succ_cons]
      exact hn

/-! ### The rule -/

/-- The signing key of a node in force at a time, as `verifySession` finds it:
    that of the newest manifest issued by then. -/
def signingKeyAt (chain : List Value) (id : String) (time : Int) : Check (Algorithm × String) := do
  let before ← chain.filterM (fun m => do return decide ((← issuedAt m) ≤ time))
  let last ← demand before.getLast? "%s's session is dated before the first manifest" [.text id]
  let held ← signingKeyOf last id
  demand held "%s had no signing key at epoch %d, when its session is dated"
    [.text id, .value (field last "epoch")]

/-- When a manifest was issued, if it says so. -/
def issueTime (m : Value) : Int := (issuedAt m).toOption.getD 0

/-- The signing key a manifest gives a node, if it does. -/
def keyUnder (id : String) (m : Value) : Option (Algorithm × String) :=
  (signingKeyOf m id).toOption.getD none

theorem issueTime_of {m : Value} (h : issuedAt m = .ok time) : issueTime m = time := by
  rw [issueTime, h]
  rfl

theorem keyUnder_of {m : Value} {id : String} {key : Option (Algorithm × String)}
    (h : signingKeyOf m id = .ok key) : keyUnder id m = key := by
  rw [keyUnder, h]
  rfl

theorem signingKeyOf_of_keyUnder {m : Value} {id : String} {key : Algorithm × String}
    (h : keyUnder id m = some key) : signingKeyOf m id = .ok (some key) := by
  unfold keyUnder at h
  cases hkey : signingKeyOf m id with
  | error err =>
    rw [hkey] at h
    cases h
  | ok held =>
    rw [hkey] at h
    exact congrArg Except.ok h

/-- The manifests issued by a time. -/
theorem filterM_issued {chain before : List Value} :
    chain.filterM (fun m => do return decide ((← issuedAt m) ≤ time) : Value → Check Bool) =
        .ok before ↔
      (∀ m ∈ chain, ∃ issued, issuedAt m = .ok issued) ∧
        before = chain.filter (fun m => issueTime m ≤ time) := by
  have htest : ∀ m, (∃ b, (do return decide ((← issuedAt m) ≤ time) : Check Bool) = .ok b) ↔
      ∃ issued, issuedAt m = .ok issued := by
    intro m
    simp only [steps_eq_ok]
    constructor
    · rintro ⟨_, issued, h, _⟩
      exact ⟨issued, h⟩
    · rintro ⟨issued, h⟩
      exact ⟨_, issued, h, rfl⟩
  rw [filterM_eq_ok]
  simp only [htest]
  refine and_congr_right (fun hall => ?_)
  have hsame : chain.filter (fun m =>
      (do return decide ((← issuedAt m) ≤ time) : Check Bool).toOption.getD false) =
      chain.filter (fun m => issueTime m ≤ time) := by
    refine filter_congr (fun m hm => ?_)
    rcases hall m hm with ⟨issued, h⟩
    rw [issueTime_of h, h]
    rfl
  rw [hsame]

theorem signingKeyAt_eq_ok {chain : List Value} {id : String} {key : Algorithm × String} :
    signingKeyAt chain id time = .ok key ↔
      (∀ m ∈ chain, ∃ issued, issuedAt m = .ok issued) ∧
      ∃ last, inForce issueTime chain time = some last ∧ signingKeyOf last id = .ok (some key) := by
  unfold signingKeyAt
  simp only [steps_eq_ok, filterM_issued]
  constructor
  · rintro ⟨_, ⟨hall, rfl⟩, last, hlast, held, hheld, rfl⟩
    exact ⟨hall, last, hlast, hheld⟩
  · rintro ⟨hall, last, hlast, hheld⟩
    exact ⟨_, ⟨hall, rfl⟩, last, hlast, _, hheld, rfl⟩

/-! ### Sessions -/

/-- What an accepted session says about the chain: the manifest in force when
    it was issued gives its node a key, and its window ends with the first of
    the manifests behind that one that gives another. -/
theorem verifySession_forms {crypto : Crypto} {key value entry : Value} {chain : List Value}
    {ends : Option Value} (h : verifySession crypto key value chain = .ok (entry, ends))
    (htime : Heartbeat.parseTime (field entry "issued_at") "issued_at" = .ok time) :
    let id := textOf (field entry "node_id")
    (∀ m ∈ chain, ∃ issued, issuedAt m = .ok issued) ∧
    ∃ last inKey, inForce issueTime chain time = some last ∧
      signingKeyOf last id = .ok (some inKey) ∧
      ends = ((chain.drop (chain.findIdx (Python.equals · last) + 1)).find?
        (fun m => keyUnder id m ≠ some inKey)).map (fun m => field m "issued_at") := by
  unfold verifySession at h
  simp only [steps_eq_ok, filterM_issued, Prod.mk.injEq] at h
  obtain ⟨-, _, -, -, -, time', htime', _, ⟨hall, rfl⟩, last, hlast, _, hheld, inKey, rfl, -,
    later, hlater, rfl, rfl⟩ := h
  cases htime.symm.trans htime'
  refine ⟨hall, last, inKey, hlast, hheld, ?_⟩
  rcases filterM_eq_ok.mp hlater with ⟨hkeys, rfl⟩
  rw [head?_filter]
  congr 1
  refine find?_congr (fun m hm => ?_)
  rcases hkeys m hm with ⟨b, hb⟩
  rcases bind_eq_ok.mp hb with ⟨k, hk, -⟩
  rw [keyUnder_of hk, hk]
  rfl

/-- Of the manifests behind the one in force at a time, none overtakes the
    first that gives the node another key: one dated before that and before
    everything behind itself gives the node the key in force. -/
def Untroubled (chain : List Value) (id : String) (time : Int) : Prop :=
  ∀ front last rest, chain = front ++ last :: rest → issueTime last ≤ time →
    (∀ m ∈ rest, time < issueTime m) → NoneOvertakes issueTime (keyUnder id) rest (keyUnder id last)

/-- The place of a manifest in force is the only one. -/
theorem inForce_split_unique {chain front rest front' rest' : List Value} {last last' : Value}
    (h : chain = front ++ last :: rest) (h' : chain = front' ++ last' :: rest')
    (hlast : issueTime last ≤ time) (hlast' : issueTime last' ≤ time)
    (hrest : ∀ m ∈ rest, time < issueTime m) (hrest' : ∀ m ∈ rest', time < issueTime m) :
    front = front' ∧ last = last' ∧ rest = rest' := by
  rcases append_eq_append_iff.mp (h.symm.trans h') with ⟨mid, hmid, hcons⟩ | ⟨mid, hmid, hcons⟩
  · cases mid with
    | nil =>
      rw [nil_append, cons.injEq] at hcons
      exact ⟨by rw [hmid, append_nil], hcons⟩
    | cons m mid =>
      rw [cons_append, cons.injEq] at hcons
      exact absurd hlast' (not_le.mpr (hrest last' (by rw [hcons.2]; simp)))
  · cases mid with
    | nil =>
      rw [nil_append, cons.injEq] at hcons
      exact ⟨by rw [hmid, append_nil], hcons.1.symm, hcons.2.symm⟩
    | cons m mid =>
      rw [cons_append, cons.injEq] at hcons
      exact absurd hlast (not_le.mpr (hrest' last (by rw [hcons.2]; simp)))

theorem find?_replicate_append {last : Value} {rest : List Value} {p : Value → Bool} (n : Nat)
    (h : p last = false) : (replicate n last ++ rest).find? p = rest.find? p := by
  induction n with
  | zero => rfl
  | succ n ih => rw [replicate_succ, cons_append, find?_cons, h]; exact ih

/-- For every accepted chain and every session accepted under it: the key that
    signed the session is the one in force at every second of its window,
    exactly when the chain is untroubled behind the session's issue. -/
theorem window_keeps_key_iff {crypto : Crypto} {root : Value} {envelopes : List Document}
    {chain : List Value}
    (hchain : manifests crypto root none (envelopes.map Subtype.val) = .ok chain)
    {key value entry : Value} {ends : Option Value}
    (hsession : verifySession crypto key value chain = .ok (entry, ends)) {time : Int}
    (htime : Heartbeat.parseTime (field entry "issued_at") "issued_at" = .ok time)
    {inKey : Algorithm × String}
    (hkey : signingKeyAt chain (textOf (field entry "node_id")) time = .ok inKey) :
    (∀ second, time ≤ second →
      (∀ v, ends = some v →
        ∃ u, Heartbeat.parseTime v "a manifest's issued_at" = .ok u ∧ second < u) →
      signingKeyAt chain (textOf (field entry "node_id")) second = .ok inKey) ↔
    Untroubled chain (textOf (field entry "node_id")) time := by
  obtain ⟨hall, last, inKey', hlast, hheld, hends⟩ := verifySession_forms hsession htime
  generalize textOf (field entry "node_id") = id at *
  rcases signingKeyAt_eq_ok.mp hkey with ⟨-, last', hlast', hheld'⟩
  cases hlast.symm.trans hlast'
  cases hheld.symm.trans hheld'
  rcases inForce_eq_some.mp hlast with ⟨front, rest, rfl, hle, hrest⟩
  have hunder : keyUnder id last = some inKey := keyUnder_of hheld
  -- The end of the window, from the manifests behind the one in force.
  rcases manifests_after envelopes held_none hchain with ⟨hheldAll, -, hpairwise⟩
  rcases drop_findIdx front hheldAll hpairwise with ⟨n, hdrop⟩
  rw [hdrop, find?_replicate_append n (by simp [hunder])] at hends
  have hwindow : ∀ second, (∀ v, ends = some v →
      ∃ u, Heartbeat.parseTime v "a manifest's issued_at" = .ok u ∧ second < u) ↔
      ∀ u, replacedAt issueTime (keyUnder id) rest (keyUnder id last) = some u → second < u := by
    intro second
    rw [hends, replacedAt, hunder]
    cases hfind : rest.find? (fun m => keyUnder id m ≠ some inKey) with
    | none => simp
    | some m =>
      have hm : m ∈ front ++ last :: rest := by
        simp [mem_of_find?_eq_some hfind]
      rcases hall m hm with ⟨issued, hissued⟩
      have hparse : Heartbeat.parseTime (field m "issued_at") "a manifest's issued_at" =
          .ok issued := hissued
      simp [hparse, issueTime_of hissued]
  -- The rule at a time, from the manifest in force then.
  have hrule : ∀ second, signingKeyAt (front ++ last :: rest) id second = .ok inKey ↔
      (inForce issueTime (front ++ last :: rest) second).map (keyUnder id) =
        some (keyUnder id last) := by
    intro second
    rw [signingKeyAt_eq_ok, hunder, Option.map_eq_some_iff]
    constructor
    · rintro ⟨-, m, hm, hk⟩
      exact ⟨m, hm, keyUnder_of hk⟩
    · rintro ⟨m, hm, hk⟩
      exact ⟨hall, m, hm, signingKeyOf_of_keyUnder hk⟩
  have huntroubled : Untroubled (front ++ last :: rest) id time ↔
      NoneOvertakes issueTime (keyUnder id) rest (keyUnder id last) := by
    constructor
    · exact fun h => h front last rest rfl hle hrest
    · intro h front' last' rest' hsplit hle' hrest'
      rcases inForce_split_unique rfl hsplit hle hle' hrest hrest' with ⟨-, rfl, rfl⟩
      exact h
  simp only [hwindow, hrule, huntroubled]
  exact keeps_until_replaced_iff hle hrest

/-! ### A chain in which it is not

One node and the owner. The second manifest replaces the node's key; the third
repeats the replacement and is dated before the second. -/

/-- The node with the key of a party of the examples. -/
def nodeUnder (party : String) : Value :=
  .obj [("ak_name", .str (exampleHex 68 '2')), ("ek_name", .str (exampleHex 68 '1')),
    ("hsm_serials", .arr []), ("node_id", .str "a"),
    ("signing_key", .obj [("alg", .str Algorithm.ecdsaP256.text), ("key", .str (exampleKey party))]),
    ("ssh_host_pub", .str (exampleHex 64 '5')), ("state", .str NodeState.active.text),
    ("wg_boot_pub", .str (exampleHex 64 '3')), ("wg_service_pub", .str (exampleHex 64 '4'))]

def manifestUnder (epoch : Int) (prev issued party : String) : Value :=
  .obj [("activation_signers", exampleQuorum 2 ["a", "owner"]), ("epoch", .num epoch),
    ("heartbeat_max_lifetime_s", .num 3600),
    ("heartbeat_signers", exampleQuorum 2 ["a", "owner"]), ("issued_at", .str issued),
    ("nodes", .arr [nodeUnder party]), ("owner_heartbeat_lifetime_s", .num 3600),
    ("owner_keys", .arr [.obj [("alg", .str "ed25519"), ("key", .str (exampleHex 64 '0'))]]),
    ("policy_version", .str "p"), ("prev_digest", .str prev),
    ("revocation_signers", .arr [exampleQuorum 1 ["owner"]]), ("schema", .str Schema.v4.text)]

theorem field_manifestUnder (epoch : Int) (prev issued party : String) :
    field (manifestUnder epoch prev issued party) "epoch" = .num epoch ∧
      field (manifestUnder epoch prev issued party) "prev_digest" = .str prev ∧
      field (manifestUnder epoch prev issued party) "issued_at" = .str issued := by
  simp [manifestUnder, field, Json.get?, lookup_cons]

/-- A root whose signatures, like all others, are taken as they are. -/
def trustingCrypto : Crypto := ⟨fun _ _ _ => true, fun _ _ _ _ => true⟩

def pinnedRoot : Value := .str (exampleHex 64 '9')

/-- A manifest signed by the root. -/
def signedByRoot (manifest : Value) : Value :=
  .obj [("manifest", manifest), ("signature", .obj [("key", pinnedRoot),
    ("sig", .str (exampleHex 128 '1')), ("signer", .str "root")])]

/-- The times of the chain. -/
theorem window_times :
    Heartbeat.parseTime (.str "2026-10-02T09:00:00Z") "a manifest's issued_at" = .ok 1790931600 ∧
      Heartbeat.parseTime (.str "2026-10-02T12:00:00Z") "a manifest's issued_at" =
        .ok 1790942400 ∧
      Heartbeat.parseTime (.str "2026-10-02T11:00:00Z") "a manifest's issued_at" =
        .ok 1790938800 := by
  decide

def windowFirst : Value := manifestUnder 1 "" "2026-10-02T09:00:00Z" "a"

/-- The owner rotates the node's key at noon, -/
def windowSecond : Value :=
  manifestUnder 2 (Python.digest windowFirst) "2026-10-02T12:00:00Z" "b"

/-- and signs the next manifest on a machine whose clock is an hour behind. -/
def windowThird : Value :=
  manifestUnder 3 (Python.digest windowSecond) "2026-10-02T11:00:00Z" "b"

def windowChain : List Value := [windowFirst, windowSecond, windowThird]

/-- Each manifest, signed by the root. -/
def windowEnvelopes : List Document :=
  [⟨signedByRoot windowFirst, by decide +kernel⟩, ⟨signedByRoot windowSecond, by decide +kernel⟩,
    ⟨signedByRoot windowThird, by decide +kernel⟩]

theorem accept_window :
    Python.accept trustingCrypto none (signedByRoot windowFirst) pinnedRoot = .ok windowFirst ∧
      Python.accept trustingCrypto (some windowFirst) (signedByRoot windowSecond) pinnedRoot =
        .ok windowSecond :=
  ⟨toOption_eq_some_iff.mp (by decide +kernel), toOption_eq_some_iff.mp (by decide +kernel)⟩

theorem accept_windowThird :
    Python.accept trustingCrypto (some windowSecond) (signedByRoot windowThird) pinnedRoot =
      .ok windowThird :=
  toOption_eq_some_iff.mp (by decide +kernel)

theorem manifests_window :
    manifests trustingCrypto pinnedRoot none (windowEnvelopes.map Subtype.val) =
      .ok windowChain := by
  simp only [windowEnvelopes, map_cons, map_nil, manifests, steps_eq_ok]
  exact ⟨_, accept_window.1, _, ⟨_, accept_window.2, _, ⟨_, accept_windowThird, _, rfl, rfl⟩,
    rfl⟩, rfl⟩

theorem signingKeyOf_manifestUnder (hparty : party ∈ ["a", "b", "c"])
    (hheld : Held (some (manifestUnder epoch prev issued party))) :
    signingKeyOf (manifestUnder epoch prev issued party) "a" =
      .ok (some (.ecdsaP256, exampleKey party)) := by
  have hvalidate : Python.validate (manifestUnder epoch prev issued party) =
      .ok (nodesById (manifestUnder epoch prev issued party)) :=
    Python.validate_eq_ok.mpr ⟨(hheld _ rfl).2, rfl⟩
  have hkey : TypedKey signingKeyAlgs (field (nodeUnder party) "signing_key")
      (.ecdsaP256, exampleKey party) :=
    ⟨exact_of_perm rfl (List.Perm.refl _), mem_singleton.mpr rfl, rfl, rfl,
      signingKey_example party hparty⟩
  have hat : (nodesById (manifestUnder epoch prev issued party)).at "a" = some (nodeUnder party) :=
    rfl
  have hhas : hasField (nodeUnder party) "signing_key" = true := rfl
  unfold signingKeyOf
  rw [hvalidate, bind_eq_ok]
  refine ⟨_, rfl, ?_⟩
  simp only [hat, hhas, if_true]
  rw [bind_eq_ok]
  exact ⟨_, Python.typedKey_eq_ok.mpr hkey, rfl⟩

/-- What the manifests of the chain say: when they were issued, and the key of
    the node. -/
theorem window_manifests :
    (issuedAt windowFirst = .ok 1790931600 ∧ issuedAt windowSecond = .ok 1790942400 ∧
      issuedAt windowThird = .ok 1790938800) ∧
    signingKeyOf windowFirst "a" = .ok (some (.ecdsaP256, exampleKey "a")) ∧
    signingKeyOf windowSecond "a" = .ok (some (.ecdsaP256, exampleKey "b")) ∧
    signingKeyOf windowThird "a" = .ok (some (.ecdsaP256, exampleKey "b")) := by
  have hheld := (manifests_after windowEnvelopes held_none manifests_window).1
  exact ⟨⟨window_times.1, window_times.2.1, window_times.2.2⟩,
    signingKeyOf_manifestUnder (by decide) (hheld windowFirst (by simp [windowChain])),
    signingKeyOf_manifestUnder (by decide) (hheld windowSecond (by simp [windowChain])),
    signingKeyOf_manifestUnder (by decide) (hheld windowThird (by simp [windowChain]))⟩

theorem exampleKey_differs : exampleKey "a" ≠ exampleKey "b" := by
  have hpoints : hexText (examplePoint "a") ≠ hexText (examplePoint "b") := by decide
  intro h
  have := congrArg String.toList h
  rw [exampleKey, exampleKey, String.toList_ofList, String.toList_ofList] at this
  exact hpoints this

/-- The session of the examples, dated at ten. -/
def windowSession : Value :=
  .obj [("entry", exampleSession "a"), ("signature", .str exampleSignature)]

/-- It is accepted until noon. -/
theorem verifySession_window :
    verifySession trustingCrypto (.str (exampleSessionPath "a")) windowSession
      windowChain = .ok (exampleSession "a", some (.str "2026-10-02T12:00:00Z")) := by
  obtain ⟨⟨hissued₁, hissued₂, hissued₃⟩, hkey₁, hkey₂, hkey₃⟩ := window_manifests
  obtain ⟨hissued, hname⟩ := field_exampleSession "a"
  have hentry : field windowSession "entry" = exampleSession "a" := rfl
  have hsig : field windowSession "signature" = .str exampleSignature := rfl
  have hexact : Python.exact windowSession ["entry", "signature"] "the session value" = .ok () :=
    Python.exact_eq_ok.mpr (exact_of_perm rfl (List.Perm.refl _))
  have hbefore : windowChain.filterM (fun m => do
      return decide ((← issuedAt m) ≤ 1790935200) : Value → Check Bool) = .ok [windowFirst] := by
    refine filterM_issued.mpr ⟨?_, ?_⟩
    · intro m hm
      simp only [windowChain, mem_cons, not_mem_nil, or_false] at hm
      rcases hm with rfl | rfl | rfl
      · exact ⟨_, hissued₁⟩
      · exact ⟨_, hissued₂⟩
      · exact ⟨_, hissued₃⟩
    · simp [windowChain, issueTime_of hissued₁, issueTime_of hissued₂, issueTime_of hissued₃]
  have hdrop : windowChain.drop (windowChain.findIdx (Python.equals · windowFirst) + 1) =
      [windowSecond, windowThird] := by
    have hself : Python.equals windowFirst windowFirst = true := by simp [Python.equals]
    simp [windowChain, findIdx_cons, hself]
  have hdiffers : some (Algorithm.ecdsaP256, exampleKey "b") ≠ some (.ecdsaP256, exampleKey "a") := by
    intro h
    exact exampleKey_differs (Prod.mk.inj (Option.some.inj h)).2.symm
  have hlater : [windowSecond, windowThird].filterM (fun m => do
      return decide ((← signingKeyOf m "a") ≠ some (.ecdsaP256, exampleKey "a")) :
        Value → Check Bool) = .ok [windowSecond, windowThird] := by
    refine filterM_eq_ok.mpr ⟨?_, ?_⟩
    · intro m hm
      simp only [mem_cons, not_mem_nil, or_false] at hm
      rcases hm with rfl | rfl
      · exact ⟨_, bind_eq_ok.mpr ⟨_, hkey₂, rfl⟩⟩
      · exact ⟨_, bind_eq_ok.mpr ⟨_, hkey₃, rfl⟩⟩
    · have hpass : ∀ {m} {held : Option (Algorithm × String)}, signingKeyOf m "a" = .ok held →
          held ≠ some (.ecdsaP256, exampleKey "a") →
          ((do return decide ((← signingKeyOf m "a") ≠ some (.ecdsaP256, exampleKey "a")) :
            Check Bool).toOption.getD false) = true := by
        intro m held hm hne
        rw [hm]
        exact decide_eq_true hne
      rw [filter_cons, if_pos (hpass hkey₂ hdiffers), filter_cons,
        if_pos (hpass hkey₃ hdiffers), filter_nil]
  have hends : field windowSecond "issued_at" = .str "2026-10-02T12:00:00Z" :=
    (field_manifestUnder _ _ _ _).2.2
  have hpath : sessionKeyPath (exampleSession "a") = .ok (exampleSessionPath "a") :=
    (SpendAudit.example_accepted "a" (by decide)).1
  have hsigned : Python.verifyRevocation trustingCrypto .ecdsaP256 (exampleKey "a")
      (sessionBytes (exampleSession "a")) (.str exampleSignature)
      ("a" ++ "'s session entry") = .ok () :=
    Python.verifyRevocation_eq_ok.mpr
      (signatureOver_example (mem_cons_self ..) (fun _ _ _ _ => rfl) _)
  unfold verifySession
  simp only [steps_eq_ok, hentry, hsig, hissued, hname, textOf]
  refine ⟨hexact, _, hpath, rfl, ?_⟩
  refine ⟨cons_ne_nil _ _, 1790935200, parseTime_at _, ?_⟩
  refine ⟨[windowFirst], hbefore, windowFirst, rfl, ?_⟩
  refine ⟨_, hkey₁, _, rfl, hsigned, [windowSecond, windowThird], ?_, ?_⟩
  · rw [hdrop]
    exact hlater
  · rw [head?_cons, Option.map_some, hends]

/-- The key of the node at ten, and at half past eleven. -/
theorem signingKeyAt_window :
    signingKeyAt windowChain "a" 1790935200 = .ok (.ecdsaP256, exampleKey "a") ∧
    signingKeyAt windowChain "a" 1790940600 = .ok (.ecdsaP256, exampleKey "b") := by
  obtain ⟨⟨hissued₁, hissued₂, hissued₃⟩, hkey₁, hkey₂, hkey₃⟩ := window_manifests
  have hall : ∀ m ∈ windowChain, ∃ issued, issuedAt m = .ok issued := by
    intro m hm
    simp only [windowChain, mem_cons, not_mem_nil, or_false] at hm
    rcases hm with rfl | rfl | rfl
    · exact ⟨_, hissued₁⟩
    · exact ⟨_, hissued₂⟩
    · exact ⟨_, hissued₃⟩
  refine ⟨signingKeyAt_eq_ok.mpr ⟨hall, windowFirst, ?_, hkey₁⟩,
    signingKeyAt_eq_ok.mpr ⟨hall, windowThird, ?_, hkey₃⟩⟩
  · simp [inForce, windowChain, issueTime_of hissued₁, issueTime_of hissued₂, issueTime_of hissued₃]
  · simp [inForce, windowChain, issueTime_of hissued₁, issueTime_of hissued₂, issueTime_of hissued₃]

/-- An accepted chain and a session accepted until noon: at half past eleven the
    key in force is not the one that signed the session. -/
theorem window_overtaken :
    manifests trustingCrypto pinnedRoot none (windowEnvelopes.map Subtype.val) = .ok windowChain ∧
    verifySession trustingCrypto (.str (exampleSessionPath "a")) windowSession
      windowChain = .ok (exampleSession "a", some (.str "2026-10-02T12:00:00Z")) ∧
    Heartbeat.parseTime (field (exampleSession "a") "issued_at") "issued_at" =
      .ok 1790935200 ∧
    Heartbeat.parseTime (.str "2026-10-02T12:00:00Z") "a manifest's issued_at" = .ok 1790942400 ∧
    signingKeyAt windowChain "a" 1790935200 = .ok (.ecdsaP256, exampleKey "a") ∧
    signingKeyAt windowChain "a" 1790940600 = .ok (.ecdsaP256, exampleKey "b") ∧
    exampleKey "a" ≠ exampleKey "b" := by
  obtain ⟨hissued, -⟩ := field_exampleSession "a"
  refine ⟨manifests_window, verifySession_window, ?_, window_times.2.1, signingKeyAt_window.1,
    signingKeyAt_window.2, exampleKey_differs⟩
  rw [hissued]
  exact parseTime_at _

/-- The chain is troubled. -/
theorem window_keeps_key_not : ¬ Untroubled windowChain "a" 1790935200 := by
  obtain ⟨hissued, hname⟩ := field_exampleSession "a"
  have htime : Heartbeat.parseTime (field (exampleSession "a") "issued_at") "issued_at" =
      .ok 1790935200 := by
    rw [hissued]
    exact parseTime_at _
  have hid : textOf (field (exampleSession "a") "node_id") = "a" := by rw [hname]; rfl
  have hiff := window_keeps_key_iff manifests_window verifySession_window htime
    (by rw [hid]; exact signingKeyAt_window.1)
  rw [hid] at hiff
  intro huntroubled
  have hkept := hiff.mpr huntroubled 1790940600 (by decide)
    (by rintro _ ⟨⟩; exact ⟨_, window_times.2.1, by decide⟩)
  have hkeys := Except.ok.inj (hkept.symm.trans signingKeyAt_window.2)
  exact exampleKey_differs (Prod.mk.inj hkeys).2

end Regalia.Opstate
