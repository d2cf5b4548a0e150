import Regalia.Core.Policy.Cosmos
import Regalia.Data.Checker

/-!
# Fields That Appear Twice

A SignDoc that is accepted was walked message by message. `walked` lists those
messages, each with the fields that stand in it; a field is singular if its
message may hold it once by its schema.

Where a visitor checks for a repeat, a singular field stands once in what is
accepted. Five fields are not checked: the public key of `SignerInfo`, the
payer and the granter of `Fee`, and both fields of `Any`. So an accepted
document repeats no singular field exactly when it repeats none of these
(`singular_iff`), and there are accepted documents that do (`any_repeated`).

## Main definitions

* `fieldsOf`: The fields of a message.
* `Message`, `walked`: The messages the parser walks.
* `Message.Singular`, `Message.Unchecked`: What may not be repeated, and what
  is not checked for it.

## Theorems

* `walkFields_eq_ok`: A walk is a loop over the fields.
* `Marks.checked`: What a visitor marks stands once.
* `checked_of_accepted`: The fields that are checked stand once.
* `singular_iff`: When an accepted document repeats no singular field.
-/

namespace Regalia.Policy

open List

variable {input : GoString} {f : Field}

/-! ### Walking -/

/-- The fields from an offset on. -/
def fieldsFrom (input : GoString) : Nat → Nat → Except SignDocError (List Field)
  | 0, _ => .error { format := "unreachable" }
  | fuel + 1, offset =>
    if input.length ≤ offset then .ok []
    else do
      let (field, next) ← fieldAt input offset
      return field :: (← fieldsFrom input fuel next)

/-- The fields of a message; of bytes that are none, nothing. -/
def fieldsOf (input : GoString) : List Field :=
  (fieldsFrom input (input.length + 1) 0).toOption.getD []

theorem walkFrom_eq_ok {σ : Type} {visit : σ → Field → Except SignDocError σ} (fuel : Nat) :
    ∀ {offset : Nat} {s s' : σ}, walkFrom visit input fuel offset s = .ok s' ↔
      ∃ fields, fieldsFrom input fuel offset = .ok fields ∧ fields.foldlM visit s = .ok s' := by
  induction fuel with
  | zero =>
    intro offset s s'
    constructor
    · nofun
    · rintro ⟨_, ⟨⟩, -⟩
  | succ fuel ih =>
    intro offset s s'
    by_cases hend : input.length ≤ offset
    · simp only [walkFrom, fieldsFrom, if_pos hend]
      constructor
      · intro h
        exact ⟨[], rfl, h⟩
      · rintro ⟨_, ⟨⟩, h⟩
        exact h
    · simp only [walkFrom, fieldsFrom, if_neg hend, bind_eq_ok, pure_eq_ok]
      constructor
      · rintro ⟨⟨field, next⟩, hfield, s₁, hvisit, hwalk⟩
        rcases ih.mp hwalk with ⟨fields, hfields, hfold⟩
        refine ⟨field :: fields, ⟨(field, next), hfield, fields, hfields, rfl⟩, ?_⟩
        rw [foldlM_cons, bind_eq_ok]
        exact ⟨s₁, hvisit, hfold⟩
      · rintro ⟨_, ⟨⟨field, next⟩, hfield, fields, hfields, rfl⟩, hfold⟩
        rw [foldlM_cons, bind_eq_ok] at hfold
        rcases hfold with ⟨s₁, hvisit, hfold⟩
        exact ⟨(field, next), hfield, s₁, hvisit, ih.mpr ⟨fields, hfields, hfold⟩⟩

/-- A walk that succeeds is a loop over the fields. -/
theorem walkFields_eq_ok {σ : Type} {visit : σ → Field → Except SignDocError σ} {s s' : σ}
    (h : walkFields visit input s = .ok s') : (fieldsOf input).foldlM visit s = .ok s' := by
  rcases (walkFrom_eq_ok _).mp h with ⟨fields, hfields, hfold⟩
  rwa [fieldsOf, hfields]

/-! ### Messages -/

inductive MessageKind where
  | signDoc
  | txBody
  | authInfo
  | signerInfo
  | fee
  | any
  | msgSend
  | msgDelegate
  | coin
  deriving DecidableEq, Repr

/-- The fields a message may hold any number of: `TxBody.messages`,
    `Fee.amount` and `MsgSend.amount`. -/
def MessageKind.repeated : MessageKind → List UInt64
  | .txBody => [1]
  | .fee => [1]
  | .msgSend => [3]
  | _ => []

/-- The singular fields whose visitor does not look for a repeat:
    `SignerInfo.public_key`, `Fee.payer`, `Fee.granter`, `Any.type_url` and
    `Any.value`. -/
def MessageKind.unchecked : MessageKind → List UInt64
  | .signerInfo => [1]
  | .fee => [3, 4]
  | .any => [1, 2]
  | _ => []

structure Message where
  kind : MessageKind
  fields : List Field
  deriving DecidableEq

/-- How often a field stands in a message. -/
def Message.count (m : Message) (tag : UInt64) : Nat := m.fields.countP (fun f => f.tag = tag)

/-- No singular field stands twice. -/
def Message.Singular (m : Message) : Prop := ∀ tag, tag ∉ m.kind.repeated → m.count tag ≤ 1

/-- No unchecked field stands twice. -/
def Message.Unchecked (m : Message) : Prop := ∀ tag ∈ m.kind.unchecked, m.count tag ≤ 1

/-- The other singular fields stand once. -/
def Message.Checked (m : Message) : Prop :=
  ∀ tag, tag ∉ m.kind.repeated → tag ∉ m.kind.unchecked → m.count tag ≤ 1

/-- The bytes of a field in a message. -/
def valuesOf (input : GoString) (tag : UInt64) : List GoString :=
  ((fieldsOf input).filter (fun f => f.tag = tag)).map Field.value

def coinMessage (input : GoString) : Message := ⟨.coin, fieldsOf input⟩

/-- The messages walked in a `MsgSend`, -/
def walkedMsgSend (input : GoString) : List Message :=
  ⟨.msgSend, fieldsOf input⟩ :: (valuesOf input 3).map coinMessage

/-- in a `MsgDelegate`, -/
def walkedMsgDelegate (input : GoString) : List Message :=
  ⟨.msgDelegate, fieldsOf input⟩ :: (valuesOf input 3).map coinMessage

/-- in an `Any`: that of the type it names, -/
def walkedAny (input : GoString) : List Message :=
  ⟨.any, fieldsOf input⟩ ::
    match decodeAny input with
    | .ok (typeURL, inner) =>
      if typeURL = msgSend then walkedMsgSend inner
      else if typeURL = msgDelegate then walkedMsgDelegate inner
      else []
    | .error _ => []

/-- in a `TxBody`, -/
def walkedTxBody (input : GoString) : List Message :=
  ⟨.txBody, fieldsOf input⟩ :: (valuesOf input 1).flatMap walkedAny

/-- in a `Fee`, -/
def walkedFee (input : GoString) : List Message :=
  ⟨.fee, fieldsOf input⟩ :: (valuesOf input 1).map coinMessage

def signerMessage (input : GoString) : Message := ⟨.signerInfo, fieldsOf input⟩

/-- in an `AuthInfo`, which may be empty, -/
def walkedAuthInfo (input : GoString) : List Message :=
  if input = [] then []
  else ⟨.authInfo, fieldsOf input⟩ ::
    ((valuesOf input 1).map signerMessage ++ (valuesOf input 2).flatMap walkedFee)

/-- and in a `SignDoc`. -/
def walked (input : GoString) : List Message :=
  ⟨.signDoc, fieldsOf input⟩ ::
    ((valuesOf input 2).flatMap walkedAuthInfo ++ (valuesOf input 1).flatMap walkedTxBody)

theorem forall_valuesOf {tag : UInt64} {P : GoString → Prop} :
    (∀ value ∈ valuesOf input tag, P value) ↔ ∀ f ∈ fieldsOf input, f.tag = tag → P f.value := by
  simp only [valuesOf, mem_map, mem_filter, decide_eq_true_eq]
  constructor
  · exact fun h f hf htag => h _ ⟨f, ⟨hf, htag⟩, rfl⟩
  · rintro h _ ⟨f, ⟨hf, htag⟩, rfl⟩
    exact h f hf htag

/-! ### Visitors -/

theorem once_eq_ok {α : Type} {held r : Option α} {value : α} {format : String} :
    once held value format = .ok r ↔ held = none ∧ r = some value := by
  cases held with
  | some a => exact ⟨nofun, nofun⟩
  | none =>
    constructor
    · rintro ⟨⟩
      exact ⟨rfl, rfl⟩
    · rintro ⟨-, rfl⟩
      rfl

/-- A visitor of a kind of message marks every field it checks for a repeat. -/
abbrev Marks {σ : Type} (kind : MessageKind) (visit : σ → Field → Except SignDocError σ)
    (marked : σ → UInt64 → Prop) : Prop :=
  MarksOnce visit Field.tag (fun tag => tag ∉ kind.repeated ∧ tag ∉ kind.unchecked) marked

/-- What a walk leaves is checked. -/
theorem Marks.checked {σ : Type} {kind : MessageKind}
    {visit : σ → Field → Except SignDocError σ} {marked : σ → UInt64 → Prop}
    (h : Marks kind visit marked) {s s' : σ}
    (hfold : (fieldsOf input).foldlM visit s = .ok s') :
    Message.Checked ⟨kind, fieldsOf input⟩ :=
  fun _ hrepeated hunchecked => (h.countP_le hfold ⟨hrepeated, hunchecked⟩).1

theorem marks_coin : Marks .coin visitCoin
    (fun s tag => tag = 1 ∧ s.denom ≠ none ∨ tag = 2 ∧ s.amount ≠ none) := by
  refine ⟨fun {s f s'} h => ?_⟩
  simp only [visitCoin, ite_eq_ok, bind_eq_ok, pure_eq_ok, once_eq_ok, reduceCtorEq, and_false,
    or_false] at h
  rcases h with ⟨htag, -, -, _, ⟨hnone, rfl⟩, rfl⟩ | ⟨-, htag, -, -, _, ⟨hnone, -⟩, _, -, rfl⟩ <;>
    simp [htag, hnone]

theorem marks_msgSend : Marks .msgSend visitMsgSend
    (fun s tag => tag = 1 ∧ s.source ≠ none ∨ tag = 2 ∧ s.destination ≠ none) := by
  refine ⟨fun {s f s'} h => ?_⟩
  simp only [visitMsgSend, ite_eq_ok, bind_eq_ok, pure_eq_ok, once_eq_ok, reduceCtorEq, and_false,
    or_false] at h
  rcases h with ⟨htag, -, -, _, ⟨hnone, rfl⟩, rfl⟩ | ⟨-, ⟨htag, -, -, _, ⟨hnone, rfl⟩, rfl⟩ |
    ⟨-, htag, -, -, _, -, rfl⟩⟩
  · simp [htag, hnone]
  · simp [htag, hnone]
  · simp [htag, MessageKind.repeated]

theorem marks_msgDelegate : Marks .msgDelegate visitMsgDelegate (fun s tag =>
    tag = 1 ∧ s.source ≠ none ∨ tag = 2 ∧ s.destination ≠ none ∨ tag = 3 ∧ s.amount ≠ none) := by
  refine ⟨fun {s f s'} h => ?_⟩
  simp only [visitMsgDelegate, ite_eq_ok, bind_eq_ok, pure_eq_ok, once_eq_ok, reduceCtorEq,
    and_false, or_false] at h
  rcases h with ⟨-, -, ⟨htag, _, ⟨hnone, rfl⟩, rfl⟩ | ⟨-, ⟨htag, _, ⟨hnone, rfl⟩, rfl⟩ |
    ⟨-, htag, _, ⟨hnone, -⟩, _, -, rfl⟩⟩⟩ <;> grind

/-- An `Any` has no field that is checked, -/
theorem marks_any (refused : Field → SignDocError) : Marks .any
    (fun s f => if f.wire ≠ 2 then .error (refused f) else visitAny s f) (fun _ _ => False) := by
  refine ⟨fun {s f s'} h => ?_⟩
  simp only [visitAny, ite_eq_ok, reduceCtorEq, and_false, false_or, or_false] at h
  rcases h with ⟨-, ⟨htag, -⟩ | ⟨-, htag, -⟩⟩ <;> simp [htag, MessageKind.unchecked]

theorem visitTxBody_eq_ok {messages messages' : List CosmosMessage}
    (h : visitTxBody messages f = .ok messages') :
    f.tag = 1 ∧ ∃ typeURL inner, decodeAny f.value = .ok (typeURL, inner) ∧
      ((typeURL = msgSend ∧ ∃ r, decodeMsgSend inner = .ok r) ∨
        (typeURL ≠ msgSend ∧ typeURL = msgDelegate ∧ ∃ r, decodeMsgDelegate inner = .ok r)) := by
  simp only [visitTxBody, ite_eq_ok, bind_eq_ok, reduceCtorEq, and_false, false_or, or_false,
    not_or, not_not] at h
  rcases h with ⟨⟨htag, -⟩, ⟨typeURL, inner⟩, hany, ⟨htype, r, hr, -⟩ | ⟨hne, htype, r, hr, -⟩⟩
  · exact ⟨htag, typeURL, inner, hany, .inl ⟨htype, r, hr⟩⟩
  · exact ⟨htag, typeURL, inner, hany, .inr ⟨hne, htype, r, hr⟩⟩

/-- nor has a `TxBody`. -/
theorem marks_txBody : Marks .txBody visitTxBody (fun _ _ => False) :=
  ⟨fun h => by simp [(visitTxBody_eq_ok h).1, MessageKind.repeated]⟩

theorem marks_signerInfo : Marks .signerInfo visitSignerInfo
    (fun s tag => tag = 2 ∧ s.mode ≠ none ∨ tag = 3 ∧ s.sequence ≠ none) := by
  refine ⟨fun {s f s'} h => ?_⟩
  simp only [visitSignerInfo, ite_eq_ok, bind_eq_ok, pure_eq_ok, once_eq_ok, reduceCtorEq,
    and_false, or_false] at h
  rcases h with ⟨htag, -, -, rfl⟩ | ⟨-, ⟨htag, -, -, _, ⟨hnone, rfl⟩, rfl⟩ |
    ⟨-, htag, -, -, _, ⟨hnone, -⟩, _, -, rfl⟩⟩
  · simp [htag, MessageKind.unchecked]
  · simp [htag, hnone]
  · simp [htag, hnone]

theorem visitFee_cases {s s' : FeeFields} (h : visitFee s f = .ok s') :
    (f.tag = 1 ∧ s' = { s with amounts := s.amounts ++ [f.value] }) ∨
    (f.tag = 2 ∧ s.gasLimit = none ∧ ∃ gasLimit, s' = { s with gasLimit := some gasLimit }) ∨
    ((f.tag = 3 ∨ f.tag = 4) ∧ s' = s) := by
  simp only [visitFee, ite_eq_ok, bind_eq_ok, pure_eq_ok, once_eq_ok, reduceCtorEq, and_false,
    or_false] at h
  rcases h with ⟨htag, -, -, rfl⟩ | ⟨-, ⟨htag, -, -, _, ⟨hnone, -⟩, p, -, rfl⟩ |
    ⟨-, htag, -, -, rfl⟩⟩
  · exact .inl ⟨htag, rfl⟩
  · exact .inr (.inl ⟨htag, hnone, p.1, rfl⟩)
  · exact .inr (.inr ⟨htag, rfl⟩)

theorem marks_fee : Marks .fee visitFee (fun s tag => tag = 2 ∧ s.gasLimit ≠ none) := by
  refine ⟨fun {s f s'} h => ?_⟩
  rcases visitFee_cases h with ⟨htag, rfl⟩ | ⟨htag, hnone, _, rfl⟩ | ⟨htag | htag, rfl⟩ <;>
    simp [htag, MessageKind.repeated, MessageKind.unchecked]
  exact hnone

/-- A fee keeps the values of its first field, -/
theorem kept_fee {fields : List Field} {s s' : FeeFields} (h : fields.foldlM visitFee s = .ok s') :
    ∀ f ∈ fields, f.tag = 1 → f.value ∈ s'.amounts := by
  refine kept_of_foldlM (fun f s => f.tag = 1 → f.value ∈ s.amounts) (fun {s f s'} h => ?_) h
  rcases visitFee_cases h with ⟨-, rfl⟩ | ⟨htag, -, _, rfl⟩ | ⟨htag | htag, rfl⟩ <;> simp_all

theorem visitAuthInfo_cases {s s' : AuthFields} (h : visitAuthInfo s f = .ok s') :
    (f.tag = 1 ∧ s.signerInfo = none ∧ s' = { s with signerInfo := some f.value }) ∨
    (f.tag = 2 ∧ s.fee = none ∧ s' = { s with fee := some f.value }) := by
  simp only [visitAuthInfo, ite_eq_ok, bind_eq_ok, pure_eq_ok, once_eq_ok, reduceCtorEq,
    and_false, or_false] at h
  rcases h with ⟨-, -, ⟨htag, _, ⟨hnone, rfl⟩, rfl⟩ | ⟨-, htag, _, ⟨hnone, rfl⟩, rfl⟩⟩
  · exact .inl ⟨htag, hnone, rfl⟩
  · exact .inr ⟨htag, hnone, rfl⟩

theorem marks_authInfo : Marks .authInfo visitAuthInfo
    (fun s tag => tag = 1 ∧ s.signerInfo ≠ none ∨ tag = 2 ∧ s.fee ≠ none) := by
  refine ⟨fun {s f s'} h => ?_⟩
  rcases visitAuthInfo_cases h with ⟨htag, hnone, rfl⟩ | ⟨htag, hnone, rfl⟩ <;> simp [htag, hnone]

/-- an `AuthInfo` its fields, -/
theorem kept_authInfo {fields : List Field} {s s' : AuthFields}
    (h : fields.foldlM visitAuthInfo s = .ok s') : ∀ f ∈ fields,
      (f.tag = 1 → s'.signerInfo = some f.value) ∧ (f.tag = 2 → s'.fee = some f.value) := by
  refine kept_of_foldlM (fun f s =>
    (f.tag = 1 → s.signerInfo = some f.value) ∧ (f.tag = 2 → s.fee = some f.value))
    (fun {s f s'} h => ?_) h
  rcases visitAuthInfo_cases h with ⟨htag, hnone, rfl⟩ | ⟨htag, hnone, rfl⟩ <;> simp_all

theorem visitSignDoc_cases {s s' : DocFields} (h : visitSignDoc s f = .ok s') :
    (f.tag = 1 ∧ s.body = none ∧ s' = { s with body := some f.value }) ∨
    (f.tag = 2 ∧ s.auth = none ∧ s' = { s with auth := some f.value }) ∨
    (f.tag = 3 ∧ s.chainID = none ∧ s' = { s with chainID := some f.value }) ∨
    (f.tag = 4 ∧ s.accountNumber = none ∧ ∃ n, s' = { s with accountNumber := some n }) := by
  simp only [visitSignDoc, ite_eq_ok, bind_eq_ok, pure_eq_ok, once_eq_ok, reduceCtorEq, and_false,
    or_false] at h
  rcases h with ⟨htag, -, -, _, ⟨hnone, rfl⟩, rfl⟩ | ⟨-, ⟨htag, -, -, _, ⟨hnone, rfl⟩, rfl⟩ |
    ⟨-, ⟨htag, -, -, _, ⟨hnone, rfl⟩, rfl⟩ | ⟨-, htag, -, -, p, -, _, ⟨hnone, rfl⟩, rfl⟩⟩⟩
  · exact .inl ⟨htag, hnone, rfl⟩
  · exact .inr (.inl ⟨htag, hnone, rfl⟩)
  · exact .inr (.inr (.inl ⟨htag, hnone, rfl⟩))
  · exact .inr (.inr (.inr ⟨htag, hnone, p.1, rfl⟩))

theorem marks_signDoc : Marks .signDoc visitSignDoc (fun s tag =>
    tag = 1 ∧ s.body ≠ none ∨ tag = 2 ∧ s.auth ≠ none ∨ tag = 3 ∧ s.chainID ≠ none ∨
      tag = 4 ∧ s.accountNumber ≠ none) := by
  refine ⟨fun {s f s'} h => ?_⟩
  rcases visitSignDoc_cases h with ⟨htag, hnone, rfl⟩ | ⟨htag, hnone, rfl⟩ | ⟨htag, hnone, rfl⟩ |
    ⟨htag, hnone, _, rfl⟩ <;> grind

/-- and a `SignDoc` the body and the `AuthInfo`. -/
theorem kept_signDoc {fields : List Field} {s s' : DocFields}
    (h : fields.foldlM visitSignDoc s = .ok s') : ∀ f ∈ fields,
      (f.tag = 1 → s'.body = some f.value) ∧ (f.tag = 2 → s'.auth = some f.value) := by
  refine kept_of_foldlM (fun f s =>
    (f.tag = 1 → s.body = some f.value) ∧ (f.tag = 2 → s.auth = some f.value))
    (fun {s f s'} h => ?_) h
  rcases visitSignDoc_cases h with ⟨htag, hnone, rfl⟩ | ⟨htag, hnone, rfl⟩ | ⟨htag, hnone, rfl⟩ |
    ⟨htag, hnone, _, rfl⟩ <;> simp_all

/-! ### What is accepted -/

theorem checked_coin {coin : Coin} (h : decodeCoin input = .ok coin) :
    (coinMessage input).Checked := by
  rcases bind_eq_ok.mp h with ⟨s, hwalk, -⟩
  exact marks_coin.checked (walkFields_eq_ok hwalk)

/-- Coins that decode are checked. -/
theorem checked_coins {tag : UInt64}
    (h : ∀ f ∈ fieldsOf input, f.tag = tag → ∃ coin, decodeCoin f.value = .ok coin) :
    ∀ m ∈ (valuesOf input tag).map coinMessage, m.Checked := by
  rw [forall_mem_map, forall_valuesOf]
  intro f hf htag
  rcases h f hf htag with ⟨coin, hcoin⟩
  exact checked_coin hcoin

theorem checked_msgSend {r : GoString × GoString × List Coin} (h : decodeMsgSend input = .ok r) :
    ∀ m ∈ walkedMsgSend input, m.Checked := by
  rcases bind_eq_ok.mp h with ⟨s, hwalk, -⟩
  have hfold := walkFields_eq_ok hwalk
  rw [walkedMsgSend, forall_mem_cons]
  refine ⟨marks_msgSend.checked hfold, checked_coins (forall_of_foldlM ?_ hfold)⟩
  intro s f s' hf htag
  rw [visitMsgSend, htag, if_neg (by decide), if_neg (by decide), if_pos rfl] at hf
  simp only [bind_eq_ok] at hf
  rcases hf with ⟨-, -, coin, hcoin, -⟩
  exact ⟨coin, hcoin⟩

theorem checked_msgDelegate {r : GoString × GoString × List Coin}
    (h : decodeMsgDelegate input = .ok r) : ∀ m ∈ walkedMsgDelegate input, m.Checked := by
  rcases bind_eq_ok.mp h with ⟨s, hwalk, -⟩
  have hfold := walkFields_eq_ok hwalk
  rw [walkedMsgDelegate, forall_mem_cons]
  refine ⟨marks_msgDelegate.checked hfold, checked_coins (forall_of_foldlM ?_ hfold)⟩
  intro s f s' hf htag
  rw [visitMsgDelegate, htag, if_neg (by decide), if_neg (by decide), if_pos rfl] at hf
  simp only [bind_eq_ok] at hf
  rcases hf with ⟨-, -, -, -, coin, hcoin, -⟩
  exact ⟨coin, hcoin⟩

theorem checked_any {r : GoString × GoString} (h : decodeAny input = .ok r) :
    Message.Checked ⟨.any, fieldsOf input⟩ := by
  rcases bind_eq_ok.mp h with ⟨s, hwalk, -⟩
  exact (marks_any _).checked (walkFields_eq_ok hwalk)

theorem checked_txBody {messages : List CosmosMessage}
    (h : parseTxBodyMessages input = .ok messages) : ∀ m ∈ walkedTxBody input, m.Checked := by
  rcases bind_eq_ok.mp h with ⟨messages, hwalk, -⟩
  have hfold := walkFields_eq_ok hwalk
  rw [walkedTxBody, forall_mem_cons, forall_mem_flatMap, forall_valuesOf]
  refine ⟨marks_txBody.checked hfold, forall_of_foldlM ?_ hfold⟩
  intro s f s' hvisit _
  rcases visitTxBody_eq_ok hvisit with ⟨-, typeURL, inner, hdecode, hinner⟩
  rw [walkedAny, forall_mem_cons]
  refine ⟨checked_any hdecode, ?_⟩
  rw [hdecode]
  rcases hinner with ⟨htype, r, hr⟩ | ⟨hne, htype, r, hr⟩
  · simp only [if_pos htype]
    exact checked_msgSend hr
  · simp only [if_neg hne, if_pos htype]
    exact checked_msgDelegate hr

theorem checked_signerInfo {sequence : UInt64} (h : parseSignerInfo input = .ok sequence) :
    (signerMessage input).Checked := by
  rcases bind_eq_ok.mp h with ⟨s, hwalk, -⟩
  exact marks_signerInfo.checked (walkFields_eq_ok hwalk)

theorem checked_fee {r : List Coin × UInt64} (h : parseFee input = .ok r) :
    ∀ m ∈ walkedFee input, m.Checked := by
  rcases bind_eq_ok.mp h with ⟨s, hwalk, hrest⟩
  have hfold := walkFields_eq_ok hwalk
  rw [walkedFee, forall_mem_cons]
  refine ⟨marks_fee.checked hfold, checked_coins (fun f hf htag => ?_)⟩
  simp only [ite_eq_ok, bind_eq_ok, reduceCtorEq, and_false, false_or] at hrest
  rcases hrest with ⟨-, coins, hcoins, -⟩
  exact exists_of_mapM hcoins _ (kept_fee hfold f hf htag)

theorem checked_authInfo {r : UInt64 × List Coin × UInt64} (h : parseAuthInfo input = .ok r) :
    ∀ m ∈ walkedAuthInfo input, m.Checked := by
  unfold parseAuthInfo at h
  unfold walkedAuthInfo
  split at h
  · rename_i hempty
    rw [if_pos hempty]
    exact fun m hm => nomatch hm
  · rename_i hne
    rw [if_neg hne]
    rcases bind_eq_ok.mp h with ⟨s, hwalk, h⟩
    have hfold := walkFields_eq_ok hwalk
    have hkept := kept_authInfo hfold
    split at h
    · rename_i signerInfo fee hsigner hfee
      rcases bind_eq_ok.mp h with ⟨sequence, hsequence, h⟩
      rcases bind_eq_ok.mp h with ⟨coins, hcoins, -⟩
      rw [forall_mem_cons, forall_mem_append, forall_mem_map,
        forall_mem_flatMap, forall_valuesOf, forall_valuesOf]
      refine ⟨marks_authInfo.checked hfold, fun f hf htag => ?_, fun f hf htag => ?_⟩
      · cases hsigner.symm.trans ((hkept f hf).1 htag)
        exact checked_signerInfo hsequence
      · cases hfee.symm.trans ((hkept f hf).2 htag)
        exact checked_fee hcoins
    · cases h

/-- In an accepted document, every field that is checked stands once. -/
theorem checked_of_accepted {transaction : CosmosTransaction}
    (h : parseCosmosSignDoc input = .ok transaction) : ∀ m ∈ walked input, m.Checked := by
  rcases bind_eq_ok.mp h with ⟨s, hwalk, h⟩
  have hfold := walkFields_eq_ok hwalk
  have hkept := kept_signDoc hfold
  split at h
  · rename_i body auth chainID hbody hauth _
    rcases bind_eq_ok.mp h with ⟨info, hinfo, h⟩
    rcases bind_eq_ok.mp h with ⟨messages, hmessages, -⟩
    rw [walked, forall_mem_cons, forall_mem_append, forall_mem_flatMap,
      forall_mem_flatMap, forall_valuesOf, forall_valuesOf]
    refine ⟨marks_signDoc.checked hfold, fun f hf htag => ?_, fun f hf htag => ?_⟩
    · cases hauth.symm.trans ((hkept f hf).2 htag)
      exact checked_authInfo hinfo
    · cases hbody.symm.trans ((hkept f hf).1 htag)
      exact checked_txBody hmessages
  · cases h

/-- For every document that is accepted: no singular field stands twice in any
    message that is walked, exactly when none of the unchecked ones does. -/
theorem singular_iff {input : GoString} {transaction : CosmosTransaction}
    (h : parseCosmosSignDoc input = .ok transaction) :
    (∀ m ∈ walked input, m.Singular) ↔ ∀ m ∈ walked input, m.Unchecked := by
  have hapart : ∀ kind : MessageKind, kind.unchecked.all (· ∉ kind.repeated) = true := by
    intro kind
    cases kind <;> rfl
  constructor
  · intro hsingular m hm tag htag
    exact hsingular m hm tag (of_decide_eq_true (all_eq_true.mp (hapart m.kind) tag htag))
  · intro hunchecked m hm tag htag
    by_cases hun : tag ∈ m.kind.unchecked
    · exact hunchecked m hm tag hun
    · exact checked_of_accepted h m hm tag htag hun

/-! ### Documents -/

/-- A length-delimited field of a small number and length. -/
def delimited (tag : UInt8) (value : GoString) : GoString :=
  (8 * tag + 2) :: UInt8.ofNat value.length :: value

/-- A transfer of an amount given by its digit. -/
def sendOf (digit : UInt8) : GoString :=
  delimited 1 [97] ++ delimited 2 [98] ++ delimited 3 (delimited 1 [117] ++ delimited 2 [digit])

/-- A document around the values of one `Any`. -/
def documentOf (values : List GoString) : GoString :=
  delimited 1 (delimited 1 (delimited 1 msgSend ++ values.flatMap (delimited 2))) ++
    delimited 2 (delimited 1 (delimited 2 []) ++ delimited 2 [16, 1]) ++ delimited 3 [99]

/-- What is read of it: a transfer of one. -/
def transferOfOne : CosmosTransaction where
  chainID := [99]
  accountNumber := 0
  sequence := 0
  fee := []
  gasLimit := 1
  messages := [⟨msgSend, [97], [98], [⟨[117], 1⟩]⟩]

/-- A document that is accepted, and repeats nothing. -/
theorem singular_document : parseCosmosSignDoc (documentOf [sendOf 49]) = .ok transferOfOne ∧
    ∀ m ∈ walked (documentOf [sendOf 49]), m.Singular := by
  have haccepted : parseCosmosSignDoc (documentOf [sendOf 49]) = .ok transferOfOne := by decide
  have hunchecked : (walked (documentOf [sendOf 49])).all
      (fun m => m.kind.unchecked.all (m.count · ≤ 1)) = true := by decide
  refine ⟨haccepted, (singular_iff haccepted).mpr (fun m hm tag htag => ?_)⟩
  have hm' := all_eq_true.mp hunchecked m hm
  exact of_decide_eq_true (all_eq_true.mp hm' tag htag)

/-- A document with a transfer of nine and a transfer of one in the same `Any`
    is accepted as the transfer of one. -/
theorem any_repeated :
    parseCosmosSignDoc (documentOf [sendOf 57, sendOf 49]) = .ok transferOfOne ∧
    ∃ m ∈ walked (documentOf [sendOf 57, sendOf 49]),
      m.kind = .any ∧ (2 : UInt64) ∉ m.kind.repeated ∧ m.count 2 = 2 := by
  decide

end Regalia.Policy
