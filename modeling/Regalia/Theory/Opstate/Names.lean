import Regalia.Core.Opstate.Names

/-!
# Two Accounts, Two Sequences

The slash that stands for the NUL of a key may stand in a chain ID too, and a
chain ID may hold a NUL. So two accounts share a sequence exactly when their
chain IDs differ only in where one has a NUL and the other a slash, their
account numbers are the same and the name is not so long that the key is
hashed (`sequence_apart_iff`); there are such accounts (`sequence_shared`).

## Main definitions

* `slash`: A NUL read as a slash.
* `width`: How long the name of a key is.

## Theorems

* `escaped_eq_iff`: Escaping forgets where the NULs were, and nothing else.
* `sequenceName_eq_iff`: When two keys have one name.
* `sequence_apart_iff`: When two accounts have names of their own.
-/

namespace Regalia.Opstate

open List GoString

def slash (c : UInt8) : UInt8 := if c = 0 then 47 else c

/-- The bytes of a key, those that are escaped counted three times. -/
def width (key : GoString) : Nat :=
  (key.map (fun c => if c = 0 ∨ 0x20 < c ∧ c < 0x7f ∧ c ≠ 37 then 1 else 3)).sum

variable {k k' : GoString} {c d : UInt8}

/-! ### Escaping -/

theorem hexText_ascii {bytes : List UInt8} : ∀ c ∈ hexText bytes, c.toNat < 128 := by
  intro c hc
  have := isLowerHex_range (hexText_lower bytes c hc)
  omega

theorem length_ofRunes_hexText {bytes : List UInt8} :
    (ofRunes (hexText bytes)).length = 2 * bytes.length := by
  rw [length_ofRunes_of_ascii _ hexText_ascii, length_hexText]

theorem escapeByte_cases (c : UInt8) : (escapeByte c = [slash c] ∧ slash c ≠ 37) ∨
    escapeByte c = 37 :: ofRunes (hexText [c]) ∧ slash c = c := by
  by_cases hc : c = 0
  · subst hc
    decide
  · rw [escapeByte, slash, if_neg hc, if_neg hc]
    by_cases hplain : 0x20 < c ∧ c < 0x7f ∧ c ≠ 37
    · rw [if_pos hplain]
      exact .inl ⟨rfl, hplain.2.2⟩
    · rw [if_neg hplain]
      exact .inr ⟨rfl, rfl⟩

theorem escapeByte_slash : escapeByte (slash c) = escapeByte c := by
  by_cases hc : c = 0
  · subst hc
    decide
  · rw [slash, if_neg hc]

/-- A byte is read off the front of a name, up to the slash. -/
theorem escapeByte_append {x y : GoString} (h : escapeByte c ++ x = escapeByte d ++ y) :
    slash c = slash d ∧ x = y := by
  rcases escapeByte_cases c with ⟨hc, hnc⟩ | ⟨hc, hcc⟩ <;>
    rcases escapeByte_cases d with ⟨hd, hnd⟩ | ⟨hd, hdd⟩ <;> rw [hc, hd] at h
  · exact cons.inj h
  · exact absurd (cons.inj h).1 hnc
  · exact absurd (cons.inj h).1.symm hnd
  · obtain ⟨hhex, hrest⟩ := append_inj (cons.inj h).2 (by simp [length_ofRunes_hexText])
    have hbyte := hexText_injective _ _ (ofRunes_injective _ _ hhex)
    rw [hcc, hdd]
    exact ⟨(cons.inj hbyte).1, hrest⟩

/-- Escaping forgets where the NULs were, and nothing else. -/
theorem escaped_eq_iff :
    k.flatMap escapeByte = k'.flatMap escapeByte ↔ k.map slash = k'.map slash := by
  have hne : ∀ c, escapeByte c ≠ [] := by
    intro c h
    rcases escapeByte_cases c with ⟨hc, -⟩ | ⟨hc, -⟩ <;> rw [h] at hc <;> cases hc
  constructor
  · intro h
    induction k generalizing k' with
    | nil =>
      cases k' with
      | nil => rfl
      | cons d k' => exact absurd (append_eq_nil_iff.mp h.symm).1 (hne d)
    | cons c k ih =>
      cases k' with
      | nil => exact absurd (append_eq_nil_iff.mp h).1 (hne c)
      | cons d k' =>
        obtain ⟨hhead, htail⟩ := escapeByte_append h
        rw [map_cons, map_cons, hhead, ih htail]
  · intro h
    have := congrArg (List.flatMap escapeByte) h
    simpa only [flatMap_map, escapeByte_slash] using this

theorem length_escaped : (k.flatMap escapeByte).length = width k := by
  rw [length_flatMap, width]
  congr 2
  funext c
  by_cases hc : c = 0
  · subst hc
    decide
  · rw [escapeByte, if_neg hc]
    by_cases hplain : 0x20 < c ∧ c < 0x7f ∧ c ≠ 37
    · rw [if_pos hplain, if_pos (.inr hplain)]
      rfl
    · rw [if_neg hplain, if_neg (not_or.mpr ⟨hc, hplain⟩), length_append, length_ofRunes_hexText]
      rfl

/-! ### Names -/

-- a hashed name has no slash, and any other has one where the key has a NUL
theorem sequenceName_eq_iff (hk : 0 ∈ k) (hk' : 0 ∈ k') (hfree : Sha256.CollisionFree [k, k']) :
    sequenceName k = sequenceName k' ↔ k = k' ∨ width k ≤ 256 ∧ k.map slash = k'.map slash := by
  have hslash : ∀ {k : GoString}, 0 ∈ k → 47 ∈ k.flatMap escapeByte := fun h =>
    mem_flatMap.mpr ⟨0, h, by decide⟩
  have hhash : ∀ {k : GoString}, 47 ∉ ofText "sha256:" ++ ofRunes (hexText (Sha256.sum k)) := by
    intro k h
    rcases mem_append.mp h with h | h
    · revert h
      decide
    · obtain ⟨c, hc, hbyte⟩ := exists_of_mem_ofRunes _ hexText_ascii h
      have hrange := isLowerHex_range (hexText_lower _ c hc)
      change 47 = c.toNat at hbyte
      omega
  simp only [sequenceName, length_escaped]
  constructor
  · intro h
    by_cases hlong : 256 < width k <;> by_cases hlong' : 256 < width k'
    · rw [if_pos hlong, if_pos hlong'] at h
      have hsum := hexText_injective _ _ (ofRunes_injective _ _ (append_cancel_left h))
      exact .inl (hfree k (by simp) k' (by simp) hsum)
    · rw [if_pos hlong, if_neg hlong'] at h
      exact absurd (h ▸ hslash hk') hhash
    · rw [if_neg hlong, if_pos hlong'] at h
      exact absurd (h ▸ hslash hk) hhash
    · rw [if_neg hlong, if_neg hlong'] at h
      exact .inr ⟨Nat.not_lt.mp hlong, escaped_eq_iff.mp h⟩
  · rintro (rfl | ⟨hwidth, hmap⟩)
    · rfl
    · have hescaped := escaped_eq_iff.mpr hmap
      have hwidth' : width k' = width k := by rw [← length_escaped, ← length_escaped, hescaped]
      rw [hwidth', hescaped, if_neg (Nat.not_lt.mpr hwidth), if_neg (Nat.not_lt.mpr hwidth)]

theorem append_last_inj {b : UInt8} {x y u v : GoString} (hu : b ∉ u) (hv : b ∉ v)
    (h : x ++ b :: u = y ++ b :: v) : x = y ∧ u = v := by
  rcases append_eq_append_iff.mp h with ⟨_ | ⟨_, w⟩, rfl, hw⟩ | ⟨_ | ⟨_, w⟩, rfl, hw⟩
  · exact ⟨(append_nil _).symm, (cons.inj hw).2⟩
  · exact absurd ((cons.inj hw).2 ▸ mem_append_right w mem_cons_self) hu
  · exact ⟨append_nil _, (cons.inj hw).2.symm⟩
  · exact absurd ((cons.inj hw).2 ▸ mem_append_right w mem_cons_self) hv

variable {chain chain' : GoString} {account account' : UInt64}

-- the account number is what follows the last separator, for it is of digits
theorem map_sequenceKey_eq_iff {f : UInt8 → UInt8} (hzero : (f 0).toNat < 48)
    (hdigit : ∀ b : UInt8, 48 ≤ b.toNat → f b = b) :
    (sequenceKey chain account).map f = (sequenceKey chain' account').map f ↔
      chain.map f = chain'.map f ∧ account = account' := by
  have hdigits : ∀ n : Nat, (ofText (toString n)).map f = ofRunes (Nat.toDigits 10 n) := by
    intro n
    rw [show ofText (toString n) = ofRunes (Nat.toDigits 10 n) from congrArg ofRunes Nat.toList_repr]
    exact map_congr_left (fun b hb => hdigit b (digits_bytes n b hb).1) |>.trans (map_id' _)
  have hlast : ∀ n : Nat, f 0 ∉ ofRunes (Nat.toDigits 10 n) := fun n h =>
    Nat.not_le.mpr hzero (digits_bytes n _ h).1
  simp only [sequenceKey, Policy.separator, map_append, map_cons, append_assoc, singleton_append,
    hdigits]
  constructor
  · intro h
    obtain ⟨hchain, hnumber⟩ := append_last_inj (hlast _) (hlast _) h
    have hnat := congrArg (fun d => Nat.ofDigitChars 10 d 0) (ofRunes_injective _ _ hnumber)
    simp only [Nat.ofDigitChars_ten_toDigits] at hnat
    exact ⟨hchain, UInt64.toNat_inj.mp hnat⟩
  · rintro ⟨hchain, rfl⟩
    rw [hchain]

theorem sequenceKey_eq_iff : sequenceKey chain account = sequenceKey chain' account' ↔
    chain = chain' ∧ account = account' := by
  simpa only [map_id'] using map_sequenceKey_eq_iff (f := fun b => b) (by decide) (fun _ _ => rfl)

/-- Two accounts have names and etcd keys of their own, except where their
    numbers are the same, their chain IDs the same up to the slash and the
    name short. -/
theorem sequence_apart_iff
    (hkeys : Sha256.CollisionFree [sequenceKey chain account, sequenceKey chain' account'])
    (hnames : Sha256.CollisionFree [sequenceName (sequenceKey chain account),
      sequenceName (sequenceKey chain' account')]) :
    ((sequenceName (sequenceKey chain account) = sequenceName (sequenceKey chain' account') →
        chain = chain' ∧ account = account') ∧
      (sequenceEtcdKey (sequenceKey chain account) = sequenceEtcdKey (sequenceKey chain' account') →
        chain = chain' ∧ account = account')) ↔
    (account = account' → chain.map slash = chain'.map slash →
      width (sequenceKey chain account) ≤ 256 → chain = chain') := by
  have hnul : ∀ chain account, 0 ∈ sequenceKey chain account := by
    intro chain account
    simp [sequenceKey, Policy.separator]
  have hslash : ∀ b : UInt8, 48 ≤ b.toNat → slash b = b := by
    intro b hb
    rw [slash, if_neg]
    rintro rfl
    exact absurd hb (by decide)
  have hetcd : sequenceEtcdKey (sequenceKey chain account) =
      sequenceEtcdKey (sequenceKey chain' account') ↔
      sequenceName (sequenceKey chain account) = sequenceName (sequenceKey chain' account') := by
    constructor
    · intro h
      exact hnames _ (by simp) _ (by simp)
        (hexText_injective _ _ (ofRunes_injective _ _ (append_cancel_left h)))
    · intro h
      rw [sequenceEtcdKey, h, sequenceEtcdKey]
  rw [hetcd, and_self, sequenceName_eq_iff (hnul _ _) (hnul _ _) hkeys, sequenceKey_eq_iff,
    map_sequenceKey_eq_iff (by decide) hslash]
  constructor
  · rintro h rfl hchain hwidth
    exact (h (.inr ⟨hwidth, hchain, rfl⟩)).1
  · rintro h (hsame | ⟨hwidth, hchain, rfl⟩)
    · exact hsame
    · exact ⟨h rfl hchain hwidth, rfl⟩

theorem sequence_apart_accounts :
    sequenceEtcdKey (sequenceKey [97] 1) ≠ sequenceEtcdKey (sequenceKey [97] 2) := by
  intro h
  have hapart := (sequence_apart_iff collisionFree_accounts.1 collisionFree_accounts.2).mpr
    (by decide) |>.2 h
  exact absurd hapart.2 (by decide)

/-- Two accounts that share a sequence: the chain ID of one has a NUL where that
    of the other has a slash. -/
theorem sequence_shared : ([97, 0, 98] : GoString) ≠ [97, 47, 98] ∧
    sequenceName (sequenceKey [97, 0, 98] 1) = sequenceName (sequenceKey [97, 47, 98] 1) ∧
    sequenceEtcdKey (sequenceKey [97, 0, 98] 1) = sequenceEtcdKey (sequenceKey [97, 47, 98] 1) := by
  have hname : sequenceName (sequenceKey [97, 0, 98] 1) =
      sequenceName (sequenceKey [97, 47, 98] 1) := by decide
  exact ⟨by decide, hname, by rw [sequenceEtcdKey, hname, sequenceEtcdKey]⟩

end Regalia.Opstate
