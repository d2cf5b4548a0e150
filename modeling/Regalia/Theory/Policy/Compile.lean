import Regalia.Core.Policy.Compile
import Regalia.Data.Checker

/-!
# What `New` Accepts

The policies of an engine are those of the list `New` was given, and their
lists hold nothing that a set would drop: no empty string, no wildcard, nothing
twice. So a check for membership in a compiled set is a check for membership in
the list the operator wrote.

## Theorems

* `inStringSet_iff_of_length`: A set as long as its list has all of it.
* `newEngine_ok`: The policies of an engine, and what was checked of each.
* `evaluate_eq`: `Evaluate` over the durable state of a world.
-/

namespace Regalia.Policy

open List

/-- The lists of a policy hold nothing that a set would drop. -/
structure CosmosPolicy.Plain (policy : CosmosPolicy) : Prop where
  chainIDs : ∀ v, inStringSet policy.chainIDs v = true ↔ v ∈ policy.chainIDs
  messageTypes : ∀ v, inStringSet policy.messageTypes v = true ↔ v ∈ policy.messageTypes
  destinations : ∀ v, inStringSet policy.destinations v = true ↔ v ∈ policy.destinations
  sources : ∀ v, inStringSet policy.sources v = true ↔ v ∈ policy.sources

theorem mem_stringSet (values : List GoString) (v : GoString) :
    v ∈ stringSet values ↔ inStringSet values v = true := by
  simp only [stringSet, inStringSet, mem_dedup, mem_filter, Bool.and_eq_true,
    decide_eq_true_eq, and_assoc]

/-- A set with as many strings as its list dropped none. -/
theorem inStringSet_iff_of_length {values : List GoString}
    (h : (stringSet values).length = values.length) (v : GoString) :
    inStringSet values v = true ↔ v ∈ values := by
  rw [← mem_stringSet]
  have hsub : List.Sublist (stringSet values) values := (dedup_sublist _).trans filter_sublist
  rw [hsub.eq_of_length h]

theorem compile_plain {policy : CosmosPolicy} {contentTypes : List GoString}
    (h : policy.compile contentTypes = .ok ()) : policy.Plain := by
  unfold CosmosPolicy.compile at h
  simp only at h
  split_ifs at h with _ _ _ hlengths
  simp only [not_or, not_not] at hlengths
  rcases hlengths with ⟨hchains, -, hmessages, hdestinations, hsources⟩
  exact ⟨inStringSet_iff_of_length hchains, inStringSet_iff_of_length hmessages,
    inStringSet_iff_of_length hdestinations, inStringSet_iff_of_length hsources⟩

/-- What `New` has checked of one policy. -/
structure Rules.Compiled (policy : Rules) : Prop where
  contentTypes : ∀ v, inStringSet policy.contentTypes v = true ↔ v ∈ policy.contentTypes
  approvers : ∀ v, inStringSet policy.approvers v = true ↔ v ∈ policy.approvers
  cosmos : ∀ c, policy.cosmos = some c → c.Plain

/-- A policy that is added stands at the end of the engine's. -/
theorem add_ok {engine engine' : Engine} {policy : Rules} (h : engine.add policy = .ok engine') :
    engine'.policies = engine.policies ++ [policy] ∧ policy.Compiled := by
  simp only [Engine.add] at h
  split_ifs at h with _ _ _ hlists
  simp only [not_or, not_not] at hlists
  rcases hlists with ⟨htypes, -, happrovers, -⟩
  split at h
  · cases h
  · rename_i hcosmos
    cases h
    refine ⟨rfl, inStringSet_iff_of_length htypes, inStringSet_iff_of_length happrovers, ?_⟩
    intro c hc
    rw [hc] at hcosmos
    exact compile_plain hcosmos

theorem foldlM_add_ok (policies : List Rules) : ∀ {engine engine' : Engine},
    policies.foldlM Engine.add engine = .ok engine' →
      engine'.policies = engine.policies ++ policies ∧ ∀ p ∈ policies, p.Compiled := by
  induction policies with
  | nil =>
    intro engine engine' h
    cases h
    exact ⟨(append_nil _).symm, fun p hp => by cases hp⟩
  | cons policy rest ih =>
    intro engine engine' h
    rw [foldlM_cons] at h
    rcases bind_eq_ok.mp h with ⟨next, hadd, hrest⟩
    rcases add_ok hadd with ⟨hnext, hcompiled⟩
    rcases ih hrest with ⟨hpolicies, hall⟩
    refine ⟨by rw [hpolicies, hnext, append_assoc, singleton_append], ?_⟩
    intro p hp
    rcases mem_cons.mp hp with rfl | hp
    · exact hcompiled
    · exact hall p hp

/-- An engine has the policies of the list, in its order. -/
theorem newEngine_ok {policies : List Rules} {engine : Engine}
    (h : newEngine policies = .ok engine) :
    engine.policies = policies ∧ ∀ p ∈ engine.policies, p.Compiled := by
  unfold newEngine at h
  split_ifs at h
  rcases foldlM_add_ok policies h with ⟨hpolicies, hall⟩
  have hsame : engine.policies = policies := hpolicies
  exact ⟨hsame, hsame ▸ hall⟩

/-- Over the durable state of a world, `Evaluate` is the decision and the world
    that it leaves. -/
theorem evaluate_eq (engine : Engine) (now : GoTime) (epoch : UInt64) (fault : Option Fault)
    (w : World) (request : Request) :
    engine.evaluate now epoch fault w request =
      (engine.evaluateIn (World.reserveIn fault) now epoch request).run.run w := by
  unfold Engine.evaluate Engine.evaluateIn
  cases engine.find request.objectID request.operation with
  | none => rfl
  | some policy =>
    cases hcheck : policy.check now request with
    | error rule =>
      simp only [hcheck]
      rfl
    | ok amounts =>
      simp only [hcheck]
      simp only [World.reserveIn, OptionT.run, OptionT.mk, bind, OptionT.bind, StateT.bind,
        StateT.run]
      cases hstep : (w.step (.reserve (policy.reservation now epoch request amounts) fault)).2 with
      | returns err => rfl
      | dies => rfl

end Regalia.Policy
