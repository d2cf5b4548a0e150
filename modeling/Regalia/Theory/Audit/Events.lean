import Regalia.Core.Audit.Event

/-!
# Journals of Events

An event is one line of its journal, and the line is read back as the event
with its strings made UTF-8. So a journal written line by line from a chain of events is one that
`verifyEvents` accepts, with the same events.

The chain is stated over the events alone. Appending to it asks only about
the last event, which is what the writers of a journal remember.

## Main definitions

* `Chained`: Events that follow a hash and a count.
* `Fits`: An event that comes back from its line.
* `journalText`: The journal of some events.

## Theorems

* `decode_text`: What an event's line is read back as.
* `chained_append`: What a chain asks of the next event.
* `verifyEvents_journalText`: A journal of chained events verifies.
-/

namespace Regalia.Audit

open List

/-! ### One line -/

theorem get?_content (c : Content) {name : String} (h : Policy.jsonName name ∈ readNames) :
    (Json.obj c.val).get? (Policy.jsonName name) = none := by
  rcases hget : (Json.obj c.val).get? (Policy.jsonName name) with _ | v
  · rfl
  · exact absurd h (c.property _ (Json.get?_mem hget))

theorem mem_readNames (name : String) (h : name ∈ ["sequence", "detail", "previous_hash", "hash"]) :
    Policy.jsonName name ∈ readNames := mem_map_of_mem h

variable (events : List Event) (e : Event)

/-- The fields that are read, taken out of an event's object. -/
theorem filter_json (detail : List (Literal × Json Literal))
    (hdetail : ∀ f ∈ detail, f.1 = Policy.jsonName "detail") :
    (Policy.field "sequence" (.num e.sequence) ++ e.content.val ++ detail ++
      Policy.field "previous_hash" (.str e.previousHash) ++
      Policy.field "hash" (.str e.hash)).filter (fun f => f.1 ∉ readNames) = e.content.val := by
  have hread : ∀ name v, name ∈ ["sequence", "detail", "previous_hash", "hash"] →
      (Policy.field name v).filter (fun f => f.1 ∉ readNames) = [] := by
    intro name v hname
    simp only [Policy.field, filter_cons, filter_nil, mem_readNames name hname,
      not_true_eq_false, decide_false, Bool.false_eq_true, if_false]
  have hcontent : e.content.val.filter (fun f => f.1 ∉ readNames) = e.content.val := by
    rw [filter_eq_self]
    intro f hf
    exact decide_eq_true (e.content.property f hf)
  have hnone : detail.filter (fun f => f.1 ∉ readNames) = [] := by
    rw [filter_eq_nil_iff]
    intro f hf
    rw [hdetail f hf]
    simp only [mem_readNames "detail" (by simp), not_true_eq_false, decide_false,
      Bool.false_eq_true, not_false_eq_true]
  simp only [filter_append, hcontent, hnone, hread _ _ (by simp : "sequence" ∈ _),
    hread _ _ (by simp : "previous_hash" ∈ _), hread _ _ (by simp : "hash" ∈ _),
    nil_append, append_nil]

theorem ofJson_json : Event.ofJson e.json = some e := by
  obtain ⟨sequence, content, detail, previousHash, hash⟩ := e
  have hcontent := filter_json ⟨sequence, content, detail, previousHash, hash⟩
  -- only the field of the detail depends on whether there is one
  cases detail with
  | none =>
    have hc := hcontent [] (by simp)
    simp only [Event.json, Event.ofJson, contentOf, hc, Json.get?_append, Policy.get?_field,
      get?_content content (mem_readNames _ (by simp : "sequence" ∈ _)),
      get?_content content (mem_readNames _ (by simp : "detail" ∈ _)),
      get?_content content (mem_readNames _ (by simp : "previous_hash" ∈ _)),
      get?_content content (mem_readNames _ (by simp : "hash" ∈ _)), Json.get?_nil]
    simp [readNumber, readText]
  | some v =>
    have hc := hcontent (Policy.field "detail" v) (by simp [Policy.field])
    simp only [Event.json, Event.ofJson, contentOf, hc, Json.get?_append, Policy.get?_field,
      get?_content content (mem_readNames _ (by simp : "sequence" ∈ _)),
      get?_content content (mem_readNames _ (by simp : "detail" ∈ _)),
      get?_content content (mem_readNames _ (by simp : "previous_hash" ∈ _)),
      get?_content content (mem_readNames _ (by simp : "hash" ∈ _))]
    simp [readNumber, readText]

theorem decode_text : Event.decode e.text = .ok e.decoded := by
  have hparse := Json.parseValue_print goQuoting e.json (e.text.length + 1) [] (Nat.le_succ _)
    (by intro c hc; cases hc)
  rw [append_nil, ← Event.text] at hparse
  rw [Event.decode, hparse]
  simp only [ofJson_json]
  rfl

theorem decoded_literal (cs : List Char) : decoded (literal cs) = literal cs := by
  simp [decoded, literal]

theorem decoded_genesisHash : decoded genesisHash = genesisHash := decoded_literal _

theorem decoded_eventHash : decoded (eventHash e) = eventHash e := decoded_literal _

/-- An event comes back from its line if its content does. -/
theorem decoded_of_content {e e' : Event} (hcontent : e.content.decoded = e.content)
    (hprevious : decoded e.previousHash = e.previousHash) (hhash : e.hash = eventHash e') :
    e.decoded = e := by
  obtain ⟨sequence, content, detail, previousHash, hash⟩ := e
  simp only at hcontent hprevious hhash
  rw [Event.decoded]
  simp only [hcontent, hprevious, hhash, decoded_eventHash]

-- Go escapes control characters in strings and writes none elsewhere.
theorem newline_notMem_text : '\n' ∉ e.text := by
  intro h
  have hplain := goPrint_plain e.json '\n' h
  revert hplain
  decide

theorem dropReturn_text : dropReturn e.text = e.text := by
  unfold dropReturn
  rw [if_neg]
  intro hlast
  have hplain := goPrint_plain e.json '\r' (mem_of_getLast? hlast)
  revert hplain
  decide

/-! ### Chains -/

/-- Events that follow a hash, the first of them numbered after a count. -/
def Chained : Literal → Nat → List Event → Prop
  | _, _, [] => True
  | previous, count, e :: rest =>
    e.sequence = count + 1 ∧ e.previousHash = previous ∧ e.hash = eventHash e ∧
      Chained e.hash (count + 1) rest

theorem chained_append (previous : Literal) (count : Nat) (events : List Event) (e : Event) :
    Chained previous count (events ++ [e]) ↔
      Chained previous count events ∧ e.sequence = count + events.length + 1 ∧
        e.previousHash = (events.map Event.hash).getLast?.getD previous ∧ e.hash = eventHash e := by
  induction events generalizing previous count with
  | nil => simp [Chained]
  | cons first rest ih =>
    -- the hash before the new event is the last one's, or the first one's if it is alone
    have hlast : ((first :: rest).map Event.hash).getLast?.getD previous =
        (rest.map Event.hash).getLast?.getD first.hash := by
      rw [map_cons, getLast?_cons, Option.getD_some]
    have hcount : count + (first :: rest).length + 1 = count + 1 + rest.length + 1 := by
      rw [length_cons]
      omega
    rw [cons_append, Chained, ih, hlast, hcount, Chained]
    tauto

theorem chained_take {previous : Literal} {count : Nat} {events : List Event}
    (h : Chained previous count events) (n : Nat) : Chained previous count (events.take n) := by
  induction events generalizing previous count n with
  | nil => rwa [take_nil]
  | cons e rest ih =>
    cases n with
    | zero => exact trivial
    | succ n => exact ⟨h.1, h.2.1, h.2.2.1, ih h.2.2.2 n⟩

/-- What an event of a chain says of the events before it. -/
theorem chained_getElem? {previous : Literal} {count : Nat} {events : List Event}
    (h : Chained previous count events) {i : Nat} {e : Event} (hget : events[i]? = some e) :
    e.previousHash = ((events.map Event.hash).take i).getLast?.getD previous ∧
      e.hash = eventHash e := by
  have htake := chained_take h (i + 1)
  rw [take_add_one, hget, Option.toList_some, chained_append] at htake
  rw [← map_take]
  exact htake.2.2

/-- An event whose line the scanner takes, and that comes back from it. -/
structure Fits (e : Event) : Prop where
  short : byteLength e.text + 1 ≤ maxLine
  read : e.decoded = e

/-- The journal of some events. -/
def journalText (events : List Event) : List Char := joinLines '\n' (events.map Event.text)

theorem journalText_append :
    journalText (events ++ [e]) = journalText events ++ (e.text ++ ['\n']) := by
  rw [journalText, map_append, joinLines_append, map_singleton, joinLines_singleton, journalText]

theorem scanLines_journalText : scanLines (journalText events) = events.map Event.text := by
  have hlines : ∀ l ∈ events.map Event.text, '\n' ∉ l := by
    intro l hl
    obtain ⟨e, -, rfl⟩ := mem_map.mp hl
    exact newline_notMem_text e
  have hsplit := splitLines_joinLines '\n' (events.map Event.text) [] hlines (not_mem_nil)
  rw [append_nil] at hsplit
  rw [scanLines, journalText, hsplit]
  simp only [if_true, append_nil, map_map]
  exact map_congr_left (fun e _ => dropReturn_text e)

theorem verifyLines_texts (previous : Literal) (count : Nat) (events : List Event)
    (hchain : Chained previous count events) (hfits : ∀ e ∈ events, Fits e) :
    verifyLines previous count (events.map Event.text) = .ok events := by
  induction events generalizing previous count with
  | nil => rfl
  | cons e rest ih =>
    obtain ⟨hsequence, hprevious, hhash, hrest⟩ := hchain
    have hfit := hfits e mem_cons_self
    have hshort := hfit.short
    have htail := ih e.hash (count + 1) hrest (fun e' he' => hfits e' (mem_cons_of_mem _ he'))
    have hgood : ¬ (e.sequence ≠ count + 1 ∨ e.previousHash ≠ previous ∨ e.hash ≠ eventHash e) := by
      rintro (h | h | h)
      · exact h hsequence
      · exact h hprevious
      · exact h hhash
    rw [map_cons, verifyLines, if_neg (by omega), decode_text, hfit.read]
    simp only
    rw [if_neg hgood, htail]
    rfl

/-- A journal of chained events verifies, with the events it was made of. -/
theorem verifyEvents_journalText (hchain : Chained genesisHash 0 events)
    (hfits : ∀ e ∈ events, Fits e) : verifyEvents (journalText events) = .ok events := by
  rw [verifyEvents, scanLines_journalText]
  exact verifyLines_texts genesisHash 0 events hchain hfits

end Regalia.Audit
