import Regalia.Data.Tally
import Regalia.Theory.Policy.Compile

/-!
# The Dimensions of a Transaction

What `validateCosmos` decides, in terms of the transaction alone: which of the
listed dimensions it violates, with every sum taken over the natural numbers.

The code keeps running totals in 64 bits and guards each addition against a
wrap. A total that is within its cap has not wrapped, so the guard refuses
nothing that the cap would not, and the totals stand for the sums after every
coin. A refusal in the middle of the coins is a refusal of the whole, because
sums only grow.

## Main definitions

* `Totals.Stand`: Totals that are the sums of the coins seen.
* `CosmosPolicy.Violates`: A transaction violates one rule.

## Theorems

* `foldlM_totals`: The loop over the coins keeps the sums, or refuses a list
  that is not within its caps.
* `validateCosmos_refuses`: The checks in the order of the rules.
* `validateCosmos_first_rule`: No refusal exactly when no rule is violated, the
  exact sums then, and otherwise the first rule violated.
-/

namespace Regalia.Policy

open List Option
open GoString (ofText)

variable {policy : CosmosPolicy} {totals : SortedMap GoString UInt64}

/-! ### Running totals -/

/-- The sum of the coins of one denomination. -/
def total (coins : List Coin) (denom : GoString) : Nat :=
  tally Coin.denom (fun c => c.amount.toNat) coins denom

/-- The caps of a policy, by denomination. -/
def capOf (caps : SortedMap GoString UInt64) (denom : GoString) : Option Nat :=
  (caps.get? denom).map UInt64.toNat

/-- Every amount is positive, every denomination known and every sum within
    its cap. -/
def CoinsWithin (caps : SortedMap GoString UInt64) (coins : List Coin) : Prop :=
  Within Coin.denom (fun c => c.amount.toNat) (capOf caps) coins

/-- The totals of a map are the sums of the coins: a denomination has an entry
    when its sum is not zero, and the entry is the sum. -/
def Totals.Stand (totals : SortedMap GoString UInt64) (coins : List Coin) : Prop :=
  ∀ denom, (totals.get? denom).map UInt64.toNat =
    if total coins denom = 0 then none else some (total coins denom)

theorem Totals.Stand.getD {coins : List Coin} (h : Totals.Stand totals coins) (denom : GoString) :
    ((totals.get? denom).getD 0).toNat = total coins denom := by
  have hd := h denom
  cases hget : totals.get? denom with
  | none =>
    rw [hget] at hd
    by_cases hz : total coins denom = 0
    · simp [hz]
    · simp [hz] at hd
  | some value =>
    rw [hget] at hd
    by_cases hz : total coins denom = 0
    · simp [hz] at hd
    · simpa [hz] using hd

theorem maxUint64_sub_lt (sum amount : UInt64) :
    maxUint64 - sum < amount ↔ 2 ^ 64 ≤ sum.toNat + amount.toNat := by
  have hmax : maxUint64.toNat = 2 ^ 64 - 1 := by decide
  have hsum := sum.toNat_lt
  have hle : sum ≤ maxUint64 := by
    rw [UInt64.le_iff_toNat_le, hmax]
    omega
  rw [UInt64.lt_iff_toNat_lt, UInt64.toNat_sub_of_le _ _ hle, hmax]
  omega

theorem toNat_add_of_lt (sum amount : UInt64) (h : sum.toNat + amount.toNat < 2 ^ 64) :
    (sum + amount).toNat = sum.toNat + amount.toNat := by
  rw [UInt64.toNat_add]
  exact Nat.mod_eq_of_lt h

/-- The two guards of a step, the wrap and the cap, are the cap over the
    natural numbers. -/
theorem guards_iff (sum amount maximum : UInt64) :
    (2 ^ 64 ≤ sum.toNat + amount.toNat ∨ maximum < sum + amount) ↔
      maximum.toNat < sum.toNat + amount.toNat := by
  have hmax := maximum.toNat_lt
  by_cases hwrap : 2 ^ 64 ≤ sum.toNat + amount.toNat
  · simp only [hwrap, true_or, true_iff]
    omega
  · rw [UInt64.lt_iff_toNat_lt, toNat_add_of_lt sum amount (by omega)]
    simp only [hwrap, false_or]

/-- One coin added by its sum over the natural numbers: what the two loops do
    in their own ways. -/
def addWithin (caps : SortedMap GoString UInt64) (rule : String)
    (totals : SortedMap GoString UInt64) (coin : Coin) :
    Except String (SortedMap GoString UInt64) :=
  let sum := (totals.get? coin.denom).getD 0
  if coin.amount.toNat = 0 ∨
      ¬ (capOf caps coin.denom).any (fun cap => sum.toNat + coin.amount.toNat ≤ cap) then
    .error rule
  else .ok (totals.insert coin.denom (sum + coin.amount))

theorem amount_eq_zero_iff (amount : UInt64) : amount = 0 ↔ amount.toNat = 0 := by
  rw [← UInt64.toNat_inj, UInt64.toNat_zero]

/-- A fee coin is added or refused by its sum. -/
theorem addFee_eq (policy : CosmosPolicy) :
    addFee policy = addWithin policy.maxFee "cosmos-fee" := by
  funext totals coin
  unfold addFee addWithin capOf
  cases policy.maxFee.get? coin.denom with
  | none => simp
  | some maximum =>
    have hguards := guards_iff ((totals.get? coin.denom).getD 0) coin.amount maximum
    simp only [map_some, any_some, decide_eq_true_eq, maxUint64_sub_lt,
      amount_eq_zero_iff, not_le, ← hguards]
    by_cases hbad : coin.amount.toNat = 0 ∨
        2 ^ 64 ≤ ((totals.get? coin.denom).getD 0).toNat + coin.amount.toNat
    · rw [if_pos hbad, if_pos (hbad.imp_right .inl)]
    · rw [if_neg hbad]
      exact if_congr (by tauto) rfl rfl

/-- An amount is compared with the cap once more before it is added, which
    refuses nothing that its sum would not. -/
theorem addAmount_eq (policy : CosmosPolicy) :
    addAmount policy = addWithin policy.maxPerTransaction "cosmos-amount" := by
  funext totals coin
  unfold addAmount addWithin capOf
  cases policy.maxPerTransaction.get? coin.denom with
  | none => simp
  | some maximum =>
    have hguards := guards_iff ((totals.get? coin.denom).getD 0) coin.amount maximum
    have halone : maximum < coin.amount →
        maximum.toNat < ((totals.get? coin.denom).getD 0).toNat + coin.amount.toNat := by
      rw [UInt64.lt_iff_toNat_lt]
      omega
    simp only [map_some, any_some, decide_eq_true_eq, maxUint64_sub_lt,
      amount_eq_zero_iff, not_le, ← hguards] at halone ⊢
    by_cases hbad : coin.amount.toNat = 0 ∨ maximum < coin.amount ∨
        2 ^ 64 ≤ ((totals.get? coin.denom).getD 0).toNat + coin.amount.toNat
    · rw [if_pos hbad, if_pos (by tauto)]
    · rw [if_neg hbad]
      exact if_congr (by tauto) rfl rfl

theorem Totals.Stand.snoc {coins : List Coin} {coin : Coin} {value : UInt64}
    (h : Totals.Stand totals coins) (hpos : 0 < coin.amount.toNat)
    (hvalue : value.toNat = total coins coin.denom + coin.amount.toNat) :
    Totals.Stand (totals.insert coin.denom value) (coins ++ [coin]) := by
  intro denom
  rw [SortedMap.get?_insert, total, tally_append, tally_singleton]
  by_cases hd : denom = coin.denom
  · subst hd
    rw [if_pos rfl, if_pos rfl, map_some, hvalue, total, if_neg (by omega)]
  · rw [if_neg hd, if_neg (Ne.symm hd), Nat.add_zero]
    exact h denom

/-- A cap is a number of 64 bits, so a sum within it has not wrapped. -/
theorem toNat_add_of_capOf {caps : SortedMap GoString UInt64} {denom : GoString} {cap : Nat}
    (hcap : capOf caps denom = some cap) {sum amount : UInt64}
    (h : sum.toNat + amount.toNat ≤ cap) : (sum + amount).toNat = sum.toNat + amount.toNat := by
  rcases map_eq_some_iff.mp hcap with ⟨maximum, -, rfl⟩
  have hmax := maximum.toNat_lt
  exact toNat_add_of_lt _ _ (by omega)

/-- One coin after totals that stand: the totals stand again and the list is
    within its caps, or the coin is refused and the list is not. -/
theorem addWithin_step (caps : SortedMap GoString UInt64) (rule : String) {seen : List Coin}
    (hstand : Totals.Stand totals seen) (hwithin : CoinsWithin caps seen) (coin : Coin) :
    (∃ totals', addWithin caps rule totals coin = .ok totals' ∧
      Totals.Stand totals' (seen ++ [coin]) ∧ CoinsWithin caps (seen ++ [coin])) ∨
    (addWithin caps rule totals coin = .error rule ∧ ¬ CoinsWithin caps (seen ++ [coin])) := by
  have hsum := hstand.getD coin.denom
  unfold addWithin
  by_cases hbad : coin.amount.toNat = 0 ∨ ¬ (capOf caps coin.denom).any
      (fun cap => ((totals.get? coin.denom).getD 0).toNat + coin.amount.toNat ≤ cap)
  · refine .inr ⟨by rw [if_pos hbad], fun hall => ?_⟩
    rcases (within_snoc _ _ _).mp hall with ⟨-, hpos, cap, hcap, hle⟩
    rcases hbad with hzero | hover
    · exact absurd hzero (Nat.pos_iff_ne_zero.mp hpos)
    · refine hover ?_
      rw [hcap, any_some, decide_eq_true_eq, hsum]
      exact hle
  · rcases not_or.mp hbad with ⟨hpos, hfits⟩
    rcases (any_eq_true _ _).mp (not_not.mp hfits) with ⟨cap, hcap, hle⟩
    rw [decide_eq_true_eq] at hle
    have hadded := toNat_add_of_capOf hcap hle
    rw [hsum] at hle hadded
    have hpositive : 0 < coin.amount.toNat := Nat.pos_of_ne_zero hpos
    exact .inl ⟨_, by rw [if_neg hbad], hstand.snoc hpositive hadded,
      (within_snoc _ _ _).mpr ⟨hwithin, hpositive, cap, hcap, hle⟩⟩

/-- The loop over the coins, from totals that stand for the coins before: it
    ends with the sums of them all, or refuses a list that is not within its
    caps. -/
theorem foldlM_totals (caps : SortedMap GoString UInt64) (rule : String) (coins : List Coin) :
    ∀ (seen : List Coin) (totals : SortedMap GoString UInt64),
    Totals.Stand totals seen → CoinsWithin caps seen →
      (∃ totals', coins.foldlM (addWithin caps rule) totals = .ok totals' ∧
        Totals.Stand totals' (seen ++ coins) ∧ CoinsWithin caps (seen ++ coins)) ∨
      (coins.foldlM (addWithin caps rule) totals = .error rule ∧
        ¬ CoinsWithin caps (seen ++ coins)) := by
  induction coins with
  | nil =>
    intro seen totals hstand hwithin
    refine .inl ⟨totals, rfl, ?_, ?_⟩
    · rwa [append_nil]
    · rwa [append_nil]
  | cons coin rest ih =>
    intro seen totals hstand hwithin
    have happend : seen ++ coin :: rest = (seen ++ [coin]) ++ rest := by
      rw [append_assoc, singleton_append]
    rw [foldlM_cons, happend]
    rcases addWithin_step caps rule hstand hwithin coin with
      ⟨totals', hok, hstand', hwithin'⟩ | ⟨herr, hover⟩
    · rw [hok]
      exact ih _ _ hstand' hwithin'
    · -- The coin is over its cap already, and the sums only grow.
      exact .inr ⟨by rw [herr]; rfl, fun hall => hover hall.of_append⟩

theorem stand_empty : Totals.Stand SortedMap.empty [] := by
  intro denom
  rfl

/-! ### The rules -/

/-- The coins the messages of a transaction move. -/
def CosmosTransaction.moved (t : CosmosTransaction) : List Coin :=
  t.messages.flatMap CosmosMessage.amounts

/-- The transaction violates the rule. Without a transaction only the first
    rule is violated. -/
def CosmosPolicy.Violates (policy : CosmosPolicy) (transaction : Option CosmosTransaction)
    (rule : CosmosRule) : Prop :=
  match transaction with
  | none => rule = .transaction
  | some t =>
    match rule with
    | .transaction => t.messages = []
    | .chain => t.chainID ∉ policy.chainIDs
    | .account => t.accountNumber ∉ policy.accountNumbers
    | .message => ∃ m ∈ t.messages, m.type ∉ policy.messageTypes ∨ m.amounts = []
    | .destination => ∃ m ∈ t.messages, m.destination ∉ policy.destinations
    | .source => ∃ m ∈ t.messages, m.source ∉ policy.sources
    | .amount => ¬ CoinsWithin policy.maxPerTransaction t.moved
    | .gas => t.gasLimit = 0 ∨ policy.maxGasLimit < t.gasLimit
    | .fee => ¬ CoinsWithin policy.maxFee t.fee

/-- The rule is the first of the list that the transaction violates. -/
def CosmosPolicy.FirstViolated (policy : CosmosPolicy) (transaction : Option CosmosTransaction)
    (rule : CosmosRule) : Prop :=
  ∃ before after, cosmosRules = before ++ rule :: after ∧ policy.Violates transaction rule ∧
    ∀ earlier ∈ before, ¬ policy.Violates transaction earlier

/-! ### The checks in their order -/

/-- The rules before one that is first violated are not, which is how the
    checks reach it. -/
theorem firstViolated_of {t : Option CosmosTransaction} {rule : CosmosRule}
    (before after : List CosmosRule) (hrules : cosmosRules = before ++ rule :: after)
    (hrule : policy.Violates t rule)
    (hbefore : before.Forall (fun earlier => ¬ policy.Violates t earlier)) :
    policy.FirstViolated t rule :=
  ⟨before, after, hrules, hrule, forall_iff_forall_mem.mp hbefore⟩

variable (hplain : policy.Plain) (t : CosmosTransaction)

include hplain

theorem any_types_iff :
    (t.messages.any (fun m => !inStringSet policy.messageTypes m.type || m.amounts.isEmpty)) =
      true ↔ policy.Violates (some t) .message := by
  simp only [CosmosPolicy.Violates, List.any_eq_true, Bool.or_eq_true, Bool.not_eq_true',
    ← hplain.messageTypes, Bool.not_eq_true, List.isEmpty_iff]

theorem any_destinations_iff :
    (t.messages.any (fun m => !inStringSet policy.destinations m.destination)) = true ↔
      policy.Violates (some t) .destination := by
  simp only [CosmosPolicy.Violates, List.any_eq_true, Bool.not_eq_true',
    ← hplain.destinations, Bool.not_eq_true]

theorem any_sources_iff :
    (t.messages.any (fun m => !inStringSet policy.sources m.source)) = true ↔
      policy.Violates (some t) .source := by
  simp only [CosmosPolicy.Violates, List.any_eq_true, Bool.not_eq_true',
    ← hplain.sources, Bool.not_eq_true]

theorem inStringSet_chains_iff :
    ¬ inStringSet policy.chainIDs t.chainID = true ↔ policy.Violates (some t) .chain := by
  rw [hplain.chainIDs]
  rfl

/-- The checks of a transaction, one rule after the other: the sums when none
    is violated, and otherwise the first rule that is. -/
theorem validateCosmos_some :
    (∃ totals, policy.validateCosmos (some t) = .ok totals ∧ Totals.Stand totals t.moved ∧
      ∀ rule ∈ cosmosRules, ¬ policy.Violates (some t) rule) ∨
    ∃ rule, policy.validateCosmos (some t) = .error rule.text ∧
      policy.FirstViolated (some t) rule := by
  simp only [CosmosPolicy.validateCosmos, addAmount_eq, addFee_eq]
  by_cases htransaction : t.messages = []
  · exact .inr ⟨.transaction, by rw [if_pos htransaction]; rfl,
      firstViolated_of [] _ rfl htransaction trivial⟩
  rw [if_neg htransaction]
  by_cases hchain : policy.Violates (some t) .chain
  · exact .inr ⟨.chain, by rw [if_pos ((inStringSet_chains_iff hplain t).mpr hchain)]; rfl,
      firstViolated_of [_] _ rfl hchain htransaction⟩
  rw [if_neg ((inStringSet_chains_iff hplain t).not.mpr hchain)]
  by_cases haccount : t.accountNumber ∉ policy.accountNumbers
  · exact .inr ⟨.account, by rw [if_pos haccount]; rfl,
      firstViolated_of [_, _] _ rfl haccount ⟨htransaction, hchain⟩⟩
  rw [if_neg haccount]
  by_cases hmessage : policy.Violates (some t) .message
  · exact .inr ⟨.message, by rw [if_pos ((any_types_iff hplain t).mpr hmessage)]; rfl,
      firstViolated_of [_, _, _] _ rfl hmessage ⟨htransaction, hchain, haccount⟩⟩
  rw [if_neg ((any_types_iff hplain t).not.mpr hmessage)]
  by_cases hdestination : policy.Violates (some t) .destination
  · exact .inr ⟨.destination, by rw [if_pos ((any_destinations_iff hplain t).mpr hdestination)]; rfl,
      firstViolated_of [_, _, _, _] _ rfl hdestination ⟨htransaction, hchain, haccount, hmessage⟩⟩
  rw [if_neg ((any_destinations_iff hplain t).not.mpr hdestination)]
  by_cases hsource : policy.Violates (some t) .source
  · exact .inr ⟨.source, by rw [if_pos ((any_sources_iff hplain t).mpr hsource)]; rfl,
      firstViolated_of [_, _, _, _, _] _ rfl hsource
        ⟨htransaction, hchain, haccount, hmessage, hdestination⟩⟩
  rw [if_neg ((any_sources_iff hplain t).not.mpr hsource)]
  rcases foldlM_totals policy.maxPerTransaction "cosmos-amount" t.moved [] _ stand_empty
    (within_nil _) with ⟨totals, hfold, hstand, hamount⟩ | ⟨hfold, hamount⟩
  -- The refusal first; the coins that are within their caps go on to the fee.
  swap
  · rw [show t.messages.flatMap CosmosMessage.amounts = t.moved from rfl, hfold]
    exact .inr ⟨.amount, rfl, firstViolated_of [_, _, _, _, _, _] _ rfl hamount
        ⟨htransaction, hchain, haccount, hmessage, hdestination, hsource⟩⟩
  have hamount' : ¬ policy.Violates (some t) .amount := not_not.mpr hamount
  rw [show t.messages.flatMap CosmosMessage.amounts = t.moved from rfl, hfold]
  simp only
  by_cases hgas : t.gasLimit = 0 ∨ policy.maxGasLimit < t.gasLimit
  · exact .inr ⟨.gas, by rw [if_pos hgas]; rfl, firstViolated_of [_, _, _, _, _, _, _] _ rfl hgas
        ⟨htransaction, hchain, haccount, hmessage, hdestination, hsource, hamount'⟩⟩
  rw [if_neg hgas]
  rcases foldlM_totals policy.maxFee "cosmos-fee" t.fee [] _ stand_empty
    (within_nil _) with ⟨fees, hfees, -, hfee⟩ | ⟨hfees, hfee⟩
  · rw [hfees]
    refine .inl ⟨totals, rfl, hstand, forall_iff_forall_mem.mp ?_⟩
    exact ⟨htransaction, hchain, haccount, hmessage, hdestination, hsource, hamount', hgas,
      not_not.mpr hfee⟩
  · rw [hfees]
    exact .inr ⟨.fee, rfl, firstViolated_of [_, _, _, _, _, _, _, _] _ rfl hfee
      ⟨htransaction, hchain, haccount, hmessage, hdestination, hsource, hamount', hgas⟩⟩

omit hplain

theorem validateCosmos_forms (hplain : policy.Plain) (transaction : Option CosmosTransaction) :
    (∃ t totals, transaction = some t ∧ policy.validateCosmos transaction = .ok totals ∧
      Totals.Stand totals t.moved ∧ ∀ rule ∈ cosmosRules, ¬ policy.Violates transaction rule) ∨
    ∃ rule, policy.validateCosmos transaction = .error rule.text ∧
      policy.FirstViolated transaction rule := by
  cases transaction with
  | none => exact .inr ⟨.transaction, rfl, firstViolated_of [] _ rfl rfl trivial⟩
  | some t =>
    rcases validateCosmos_some hplain t with ⟨totals, hok, hstand, hnone⟩ | hrefused
    · exact .inl ⟨t, totals, rfl, hok, hstand, hnone⟩
    · exact .inr hrefused

/-- For a policy that `New` compiled: there is no refusal exactly when no rule
    is violated; the totals are then the sums of what the messages move; and a
    refusal names the first rule, in the listed order, that is violated. -/
theorem validateCosmos_first_rule {policies : List Rules} {engine : Engine}
    (hnew : newEngine policies = .ok engine) {rules : Rules} (hmem : rules ∈ engine.policies)
    {policy : CosmosPolicy} (hcosmos : rules.cosmos = some policy)
    (transaction : Option CosmosTransaction) :
    ((∃ totals, policy.validateCosmos transaction = .ok totals) ↔
      ∀ rule ∈ cosmosRules, ¬ policy.Violates transaction rule) ∧
    (∀ totals, policy.validateCosmos transaction = .ok totals →
      ∃ t, transaction = some t ∧ Totals.Stand totals t.moved) ∧
    ∀ text, policy.validateCosmos transaction = .error text →
      ∃ rule, text = rule.text ∧ policy.FirstViolated transaction rule := by
  have hplain := ((newEngine_ok hnew).2 rules hmem).cosmos policy hcosmos
  rcases validateCosmos_forms hplain transaction with
    ⟨t, totals, rfl, hok, hstand, hnone⟩ | ⟨rule, herr, hfirst⟩
  · simp only [hok, Except.ok.injEq, reduceCtorEq, false_implies, implies_true, and_true,
      exists_eq', true_iff]
    refine ⟨hnone, fun totals' heq => ⟨t, rfl, heq ▸ hstand⟩⟩
  · simp only [herr, reduceCtorEq, exists_false, false_iff, false_implies, implies_true, true_and,
      Except.error.injEq]
    refine ⟨fun hnone => ?_, fun text heq => ⟨rule, heq.symm, hfirst⟩⟩
    rcases hfirst with ⟨before, after, hsplit, hviolates, -⟩
    exact hnone rule (by simp [hsplit]) hviolates

/-- The limits of one wallet. -/
def walletCosmos : CosmosPolicy where
  chainIDs := [ofText "hub-4"]
  accountNumbers := [7]
  messageTypes := [ofText "send"]
  destinations := [ofText "treasury"]
  sources := [ofText "hot"]
  maxGasLimit := 200000
  maxFee := SortedMap.ofPairs [(ofText "uatom", 5000)]
  maxPerTransaction := SortedMap.ofPairs [(ofText "uatom", 1000)]
  maxPerDay := SortedMap.ofPairs [(ofText "uatom", 10000)]

def walletRules : Rules where
  id := ofText "transfer"
  objectID := ofText "wallet"
  purpose := ofText "payments"
  environment := ofText "production"
  operation := ofText "sign"
  algorithm := ofText "secp256k1"
  contentTypes := [ofText "application/vnd.cosmos.tx+protobuf"]
  maxPayloadBytes := 4096
  maxFuture := 300000000000
  requiredApprovals := 1
  approvers := [ofText "alice", ofText "bob"]
  cosmos := some walletCosmos

theorem newEngine_wallet : ∃ engine, newEngine [walletRules] = .ok engine := ⟨_, rfl⟩

/-- A transfer of the wallet, one message for each amount. -/
def walletTransfer (amounts : List UInt64) : CosmosTransaction where
  chainID := ofText "hub-4"
  accountNumber := 7
  sequence := 3
  fee := [⟨ofText "uatom", 200⟩]
  gasLimit := 100000
  messages := amounts.map (fun a => {
    type := ofText "send"
    source := ofText "hot"
    destination := ofText "treasury"
    amounts := [⟨ofText "uatom", a⟩] })

/-- Two messages that are within the cap one by one and not together: the rule
    they are refused under is the amount, and the rules before it hold. -/
theorem validateCosmos_first_rule_wallet :
    ∃ rule, walletCosmos.validateCosmos (some (walletTransfer [600, 600])) =
        .error (CosmosRule.text rule) ∧
      rule = .amount ∧ walletCosmos.FirstViolated (some (walletTransfer [600, 600])) rule := by
  rcases newEngine_wallet with ⟨engine, hnew⟩
  have hmem : walletRules ∈ engine.policies := by
    rw [(newEngine_ok hnew).1]
    exact mem_singleton_self _
  have hrefused : walletCosmos.validateCosmos (some (walletTransfer [600, 600])) =
      .error "cosmos-amount" := rfl
  rcases (validateCosmos_first_rule hnew hmem rfl (some (walletTransfer [600, 600]))).2.2 _
    hrefused with ⟨rule, htext, hfirst⟩
  have hrule : rule = .amount := by
    cases rule with
    | amount => rfl
    | _ => exact absurd htext (by decide)
  exact ⟨rule, by rw [hrefused, htext], hrule, hfirst⟩

end Regalia.Policy
