import Regalia.Core.Policy.Wire

/-!
# Parsing a SignDoc

`internal/policy/cosmos.go`: a Cosmos SDK v1beta1 SignDoc decoded into the
transaction a policy is asked about. Each message has a visitor of its own,
with a switch over its fields; a field that is seen is kept as `some`.

Most visitors refuse a field that appears twice (`once`). Three do not, for
some of their fields: `SignerInfo` for its public key, `Fee` for its payer and
its granter, and `Any` for both of its fields, of which the last is taken.

## Main definitions

* `decodeCoin`, `decodeMsgSend`, `decodeMsgDelegate`, `decodeAny`: The messages
  inside a transaction.
* `parseTxBodyMessages`, `parseSignerInfo`, `parseFee`, `parseAuthInfo`: The
  parts of a document.
* `parseCosmosSignDoc`: `ParseCosmosSignDoc`.
-/

namespace Regalia.Policy

variable (f : Field) (input : GoString)

/-- The wire type a field has to have. -/
def wireIs (wire : UInt64) (format : String) (numbers : List UInt64) :
    Except SignDocError Unit :=
  if f.wire = wire then .ok () else .error { format := format, numbers := numbers }

/-- A field that may be seen once. -/
def once {α : Type} (held : Option α) (value : α) (format : String) :
    Except SignDocError (Option α) :=
  match held with
  | some _ => .error { format := format }
  | none => .ok (some value)

/-! ### Coins -/

/-- The value of a digit string, saturated by nothing. -/
def digitsValue (text : GoString) : Nat := text.foldl (fun n b => 10 * n + (b.toNat - 48)) 0

def decodeCoinAmount (text : GoString) : Except SignDocError UInt64 :=
  if text = [] then .error { format := "Coin.amount is empty" }
  else if text.any (fun b => b < 48 || 57 < b) then
    .error { format := "Coin.amount %q is not a decimal integer", quoted := [text] }
  else if 1 < text.length ∧ text.head? = some 48 then
    .error { format := "Coin.amount %q has a leading zero", quoted := [text] }
  -- `strconv.ParseUint`
  else if 2 ^ 64 ≤ digitsValue text then
    .error { format := "Coin.amount %q exceeds the largest expressible per-transaction cap",
             quoted := [text] }
  else .ok (UInt64.ofNat (digitsValue text))

structure CoinFields where
  denom : Option GoString := none
  amount : Option UInt64 := none

def visitCoin (s : CoinFields) (f : Field) : Except SignDocError CoinFields :=
  if f.tag = 1 then do
    wireIs f 2 "Coin.denom wire %d not allowed" [f.wire]
    return { s with denom := ← once s.denom f.value "Coin.denom appears twice" }
  else if f.tag = 2 then do
    wireIs f 2 "Coin.amount wire %d not allowed" [f.wire]
    -- the repeat is refused before the text is looked at
    let _ ← once s.amount 0 "Coin.amount appears twice"
    return { s with amount := some (← decodeCoinAmount f.value) }
  else .error { format := "Coin.field %d not allowed", numbers := [f.tag] }

def decodeCoin : Except SignDocError Coin := do
  let s ← walkFields visitCoin input {}
  match s.amount with
  | some amount =>
    if s.denom.getD [] = [] then .error { format := "Coin missing denom or amount" }
    else return ⟨s.denom.getD [], amount⟩
  | none => .error { format := "Coin missing denom or amount" }

/-! ### Messages -/

structure MsgFields where
  source : Option GoString := none
  destination : Option GoString := none
  amounts : List Coin := []

def visitMsgSend (s : MsgFields) (f : Field) : Except SignDocError MsgFields :=
  if f.tag = 1 then do
    wireIs f 2 "MsgSend.from_address wire %d not allowed" [f.wire]
    return { s with source := ← once s.source f.value "MsgSend.from_address appears twice" }
  else if f.tag = 2 then do
    wireIs f 2 "MsgSend.to_address wire %d not allowed" [f.wire]
    return { s with destination := ← once s.destination f.value "MsgSend.to_address appears twice" }
  else if f.tag = 3 then do
    wireIs f 2 "Coin wire %d not allowed" [f.wire]
    return { s with amounts := s.amounts ++ [← decodeCoin f.value] }
  else .error { format := "MsgSend.field %d not allowed", numbers := [f.tag] }

def decodeMsgSend : Except SignDocError (GoString × GoString × List Coin) := do
  let s ← walkFields visitMsgSend input {}
  match s.source, s.destination, s.amounts with
  | some source, some destination, amount :: amounts =>
    return (source, destination, amount :: amounts)
  | _, _, _ => .error { format := "MsgSend missing source, destination or amount" }

structure DelegateFields where
  source : Option GoString := none
  destination : Option GoString := none
  amount : Option Coin := none

def visitMsgDelegate (s : DelegateFields) (f : Field) : Except SignDocError DelegateFields := do
  wireIs f 2 "MsgDelegate.field %d wire %d not allowed" [f.tag, f.wire]
  if f.tag = 1 then
    return { s with source := ← once s.source f.value "MsgDelegate.delegator_address appears twice" }
  else if f.tag = 2 then
    return { s with
      destination := ← once s.destination f.value "MsgDelegate.validator_address appears twice" }
  else if f.tag = 3 then do
    let _ ← once s.amount ⟨[], 0⟩ "MsgDelegate.amount appears twice"
    return { s with amount := some (← decodeCoin f.value) }
  else .error { format := "MsgDelegate.field %d not allowed", numbers := [f.tag] }

def decodeMsgDelegate :
    Except SignDocError (GoString × GoString × List Coin) := do
  let s ← walkFields visitMsgDelegate input {}
  match s.source, s.destination, s.amount with
  | some source, some destination, some amount => return (source, destination, [amount])
  | _, _, _ => .error { format := "MsgDelegate missing delegator, validator or amount" }

structure AnyFields where
  typeURL : Option GoString := none
  value : Option GoString := none

/-- Neither field is checked for a repeat: the last one stands. -/
def visitAny (s : AnyFields) (f : Field) : Except SignDocError AnyFields :=
  if f.tag = 1 then .ok { s with typeURL := some f.value }
  else if f.tag = 2 then .ok { s with value := some f.value }
  else .error { format := "Any.field %d not allowed", numbers := [f.tag] }

def decodeAny : Except SignDocError (GoString × GoString) := do
  let s ← walkLengthDelimited visitAny input {}
  match s.typeURL, s.value with
  | some typeURL, some value => return (typeURL, value)
  | _, _ => .error { format := "Any missing required field" }

def msgSend : GoString := GoString.ofText "/cosmos.bank.v1beta1.MsgSend"

def msgDelegate : GoString := GoString.ofText "/cosmos.staking.v1beta1.MsgDelegate"

def visitTxBody (messages : List CosmosMessage) (f : Field) :
    Except SignDocError (List CosmosMessage) := do
  if f.tag ≠ 1 ∨ f.wire ≠ 2 then
    .error { format := "TxBody.field %d wire %d not allowed", numbers := [f.tag, f.wire] }
  else do
    let (typeURL, inner) ← decodeAny f.value
    if typeURL = msgSend then do
      let (source, destination, amounts) ← decodeMsgSend inner
      return messages ++ [⟨typeURL, source, destination, amounts⟩]
    else if typeURL = msgDelegate then do
      let (source, destination, amounts) ← decodeMsgDelegate inner
      return messages ++ [⟨typeURL, source, destination, amounts⟩]
    else .error { format := "unsupported message type %q", quoted := [typeURL] }

def parseTxBodyMessages : Except SignDocError (List CosmosMessage) := do
  let messages ← walkFields visitTxBody input []
  if messages = [] then .error { format := "TxBody carries no messages" }
  else return messages

/-! ### AuthInfo -/

structure SignerFields where
  sequence : Option UInt64 := none
  mode : Option Unit := none

/-- The public key is not checked for a repeat. -/
def visitSignerInfo (s : SignerFields) (f : Field) : Except SignDocError SignerFields :=
  if f.tag = 1 then do
    wireIs f 2 "SignerInfo.public_key wire %d not allowed" [f.wire]
    return s
  else if f.tag = 2 then do
    wireIs f 2 "SignerInfo.mode_info wire %d not allowed" [f.wire]
    return { s with mode := ← once s.mode () "SignerInfo.mode_info appears twice" }
  else if f.tag = 3 then do
    wireIs f 0 "SignerInfo.sequence wire %d not allowed" [f.wire]
    let _ ← once s.sequence 0 "SignerInfo.sequence appears twice"
    let (sequence, _) ← under "SignerInfo.sequence: " [] (decodeVarint f.value)
    return { s with sequence := some sequence }
  else .error { format := "SignerInfo.field %d not allowed", numbers := [f.tag] }

def parseSignerInfo : Except SignDocError UInt64 := do
  let s ← walkFields visitSignerInfo input {}
  match s.mode with
  | some _ => return s.sequence.getD 0
  | none => .error { format := "SignerInfo missing mode_info" }

structure FeeFields where
  amounts : List GoString := []
  gasLimit : Option UInt64 := none

/-- The payer and the granter are not checked for a repeat. -/
def visitFee (s : FeeFields) (f : Field) : Except SignDocError FeeFields :=
  if f.tag = 1 then do
    wireIs f 2 "Fee.amount wire %d not allowed" [f.wire]
    return { s with amounts := s.amounts ++ [f.value] }
  else if f.tag = 2 then do
    wireIs f 0 "Fee.gas_limit wire %d not allowed" [f.wire]
    let _ ← once s.gasLimit 0 "Fee.gas_limit appears twice"
    let (gasLimit, _) ← under "Fee.gas_limit: " [] (decodeVarint f.value)
    return { s with gasLimit := some gasLimit }
  else if f.tag = 3 ∨ f.tag = 4 then do
    wireIs f 2 "Fee.field %d wire %d not allowed" [f.tag, f.wire]
    return s
  else .error { format := "Fee.field %d not allowed", numbers := [f.tag] }

def parseFee : Except SignDocError (List Coin × UInt64) := do
  let s ← walkFields visitFee input {}
  if s.gasLimit.getD 0 = 0 then .error { format := "Fee.gas_limit must be positive" }
  else do
    let coins ← s.amounts.mapM decodeCoin
    return (coins, s.gasLimit.getD 0)

structure AuthFields where
  signerInfo : Option GoString := none
  fee : Option GoString := none

def visitAuthInfo (s : AuthFields) (f : Field) : Except SignDocError AuthFields := do
  wireIs f 2 "AuthInfo.field %d wire %d not allowed" [f.tag, f.wire]
  if f.tag = 1 then
    let signerInfo ← once s.signerInfo f.value
      "AuthInfo.signer_infos must contain exactly one signer"
    return { s with signerInfo := signerInfo }
  else if f.tag = 2 then
    return { s with fee := ← once s.fee f.value "AuthInfo.fee appears twice" }
  else .error { format := "AuthInfo.field %d not allowed", numbers := [f.tag] }

/-- The sequence, the fee and the gas limit. -/
def parseAuthInfo : Except SignDocError (UInt64 × List Coin × UInt64) :=
  if input = [] then .ok (0, [], 0)
  else do
    let s ← walkFields visitAuthInfo input {}
    match s.signerInfo, s.fee with
    | some signerInfo, some fee => do
      let sequence ← parseSignerInfo signerInfo
      let (coins, gasLimit) ← parseFee fee
      return (sequence, coins, gasLimit)
    | _, _ => .error { format := "AuthInfo missing signer or fee" }

/-! ### The document -/

structure DocFields where
  body : Option GoString := none
  auth : Option GoString := none
  chainID : Option GoString := none
  accountNumber : Option UInt64 := none

def visitSignDoc (s : DocFields) (f : Field) : Except SignDocError DocFields :=
  if f.tag = 1 then do
    wireIs f 2 "body_bytes wire %d not allowed" [f.wire]
    return { s with body := ← once s.body f.value "body_bytes appears twice" }
  else if f.tag = 2 then do
    wireIs f 2 "auth_info_bytes wire %d not allowed" [f.wire]
    return { s with auth := ← once s.auth f.value "auth_info_bytes appears twice" }
  else if f.tag = 3 then do
    wireIs f 2 "chain_id wire %d not allowed" [f.wire]
    return { s with chainID := ← once s.chainID f.value "chain_id appears twice" }
  else if f.tag = 4 then do
    wireIs f 0 "account_number wire %d not allowed" [f.wire]
    let (parsed, _) ← under "account_number: " [] (decodeVarint f.value)
    let accountNumber ← once s.accountNumber parsed "account_number appears twice"
    return { s with accountNumber := accountNumber }
  else .error { format := "unexpected field %d", numbers := [f.tag] }

/-- `parseSignDoc`. None of its slices goes outside its bytes, so the recovery
    from a panic around it in `ParseCosmosSignDoc` has nothing to do. -/
def parseCosmosSignDoc : Except SignDocError CosmosTransaction := do
  let s ← walkFields visitSignDoc input {}
  match s.body, s.auth, s.chainID with
  | some body, some auth, some chainID => do
    let (sequence, fee, gasLimit) ← parseAuthInfo auth
    let messages ← parseTxBodyMessages body
    return {
      chainID := chainID
      accountNumber := s.accountNumber.getD 0
      sequence := sequence
      fee := fee
      gasLimit := gasLimit
      messages := messages }
  | _, _, _ => .error { format := "missing required SignDoc field" }

end Regalia.Policy
