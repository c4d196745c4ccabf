/-
# Settings.JsonDB — setting and removing one entry of a JSON file.

`JsonDB` keeps the entries of an xPath in one file. To set or to remove an entry it decodes the whole file into
generic Go values, changes the map and writes it back. `readJsonFileAsMap` drops the error of `json.Unmarshal`:
it stays in the variable of an inner scope, and a file that is not a JSON object counts as an empty one. And a
number becomes a `float64`.
-/
import TorrServer.Lib.Json

namespace TorrServer.Settings

open Lib

/-! ## The JSON library -/

/-- `encoding/json` over texts `T` and `float64` values `F`: the tree of a text, if it is JSON; the `float64`
for a number, if there is one, and the number printed for it; and `json.MarshalIndent`, with sorted maps. -/
structure JsonTexts (T F : Type) where
  parse : T → Option (Json Rat)
  parseFloat : Rat → Option F
  formatFloat : F → Rat
  marshalIndent : Json F → T

/-- What is assumed of it: a printed value is read back, and so is a printed `float64`. -/
structure JsonTexts.Faithful {T F : Type} (E : JsonTexts T F) : Prop where
  parse_marshalIndent : ∀ j, E.parse (E.marshalIndent j) = some (j.subst fun f => .number (E.formatFloat f))
  parseFloat_formatFloat : ∀ f, E.parseFloat (E.formatFloat f) = some f

namespace JsonTexts

variable {T F : Type} (E : JsonTexts T F)

/-- A number as an `interface{}`; one that no `float64` stands for is an error, and leaves `nil`. -/
def decodeNumber (q : Rat) : Json F :=
  match E.parseFloat q with
  | some f => .number f
  | none => .null

/-- `json.Unmarshal` into an empty map: the map, which `null` makes `nil`, and whether there is an error, as for
a value of another type. -/
def unmarshalMap (text : T) : Option (List (String × Json F)) × Bool :=
  match E.parse text with
  | none => (some [], true)
  | some .null => (none, false)
  | some (.object entries) =>
    (some (mapValues (Json.subst E.decodeNumber) (collect (Json.valueEntries entries))),
      (Json.numbersEntries entries).any fun q => (E.parseFloat q).isNone)
  | some _ => (some [], true)

end JsonTexts

/-! ## The calls -/

namespace JsonDB

variable {T F : Type} (E : JsonTexts T F)

/-- How a call ends: with an error and the file as it was; with the file written; or in a panic. -/
inductive Outcome (T : Type)
  | failed
  | wrote (fileData : T)
  | panicked

/-- `readJsonFileAsMap`; the error of `json.Unmarshal` is logged and dropped. -/
def readJsonFileAsMap (fileData : T) : Option (List (String × Json F)) := (E.unmarshalMap fileData).1

/-- A map as an `interface{}`; a `nil` map is printed as `null`. -/
def ofMap : Option (List (String × Json F)) → Json F
  | none => .null
  | some m => .object m

/-- `Set`; an assignment to an entry of a `nil` map panics. -/
def set (name : String) (value fileData : T) : Outcome T :=
  match E.unmarshalMap value with
  | (_, true) => .failed
  | (jsonObj, false) =>
    match readJsonFileAsMap E fileData with
    | none => .panicked
    | some root => .wrote (E.marshalIndent (.object (insertEntry name (ofMap jsonObj) root)))

/-- `Rem`; there is nothing to delete in a `nil` map. -/
def rem (name : String) (fileData : T) : Outcome T :=
  .wrote (E.marshalIndent (ofMap ((readJsonFileAsMap E fileData).map (eraseEntry name))))

/-- A call for one entry. -/
inductive Call (T : Type)
  | set (value : T)
  | rem

/-- The call, for the entry `name` of a file. -/
def apply (name : String) (fileData : T) : Call T → Outcome T
  | .set value => set E name value fileData
  | .rem => rem E name fileData

/-! ## The frame -/

/-- The text is a JSON object with the given entries. -/
def IsObject (text : T) (m : List (String × Json Rat)) : Prop :=
  ∃ j, E.parse text = some j ∧ j.value = .object m

/-- The value of a text as a generic Go value holds it: each number is that of a `float64`. -/
def roundNumber (q : Rat) : Json Rat := (E.decodeNumber q).subst fun f => .number (E.formatFloat f)

/-- The entry is the one that was given, or is gone. -/
def Done (name : String) (m : List (String × Json Rat)) : Call T → Prop
  | .set value => ∃ j, E.parse value = some j ∧ findEntry name m = some (j.value.subst (roundNumber E))
  | .rem => findEntry name m = none

/-- What the call should do: fail and leave the file; or set or remove the entry of an object, and keep the
value of each other one. -/
def Keeps (name : String) (fileData : T) (call : Call T) : Prop :=
  apply E name fileData call = .failed ∨
  ∃ after m m', apply E name fileData call = .wrote after ∧ IsObject E fileData m ∧ IsObject E after m' ∧
    (∀ n, n ≠ name → findEntry n m' = findEntry n m) ∧ Done E name m' call

/-- The new value is neither `null` nor an object whose numbers are in the range of a `float64`. -/
def Refused : Call T → Prop
  | .set value => ¬ (E.parse value = some .null ∨ ∃ entries, E.parse value = some (.object entries) ∧
      ∀ q ∈ (Json.object entries).numbers, E.parseFloat q ≠ none)
  | .rem => False

/-- The file is an object whose other entries have only numbers printed for some `float64`. -/
def Exact (name : String) (fileData : T) : Prop :=
  ∃ m, IsObject E fileData m ∧
    ∀ n v, n ≠ name → findEntry n m = some v → ∀ q ∈ v.numbers, ∃ f, E.formatFloat f = q

section

variable {E} {name : String} {fileData : T}

theorem value_decodeNumber (q : Rat) : (E.decodeNumber q).value = E.decodeNumber q := by
  rw [JsonTexts.decodeNumber]
  cases E.parseFloat q with
  | none => rfl
  | some f => rfl

/-- A number stays exactly if it is the one that is printed for some `float64`. -/
theorem roundNumber_eq_iff (hE : E.Faithful) (q : Rat) :
    roundNumber E q = .number q ↔ ∃ f, E.formatFloat f = q := by
  constructor
  · intro h
    rw [roundNumber, JsonTexts.decodeNumber] at h
    cases hparse : E.parseFloat q with
    | none =>
      rw [hparse] at h
      cases h
    | some f =>
      rw [hparse] at h
      injection h with h
      exact ⟨f, h⟩
  · rintro ⟨f, rfl⟩
    rw [roundNumber, JsonTexts.decodeNumber, hE.parseFloat_formatFloat]
    rfl

/-- A text that holds an object: what is read is the map of its entries, each as Go holds it. -/
theorem readJsonFileAsMap_of_isObject {m : List (String × Json Rat)} (h : IsObject E fileData m) :
    readJsonFileAsMap E fileData = some (mapValues (Json.subst E.decodeNumber) m) := by
  obtain ⟨j, hparse, hvalue⟩ := h
  cases j with
  | object entries =>
    rw [Json.value] at hvalue
    cases hvalue
    rw [readJsonFileAsMap, JsonTexts.unmarshalMap, hparse]
  | null => cases hvalue
  | bool b => cases hvalue
  | number n => cases hvalue
  | string s => cases hvalue
  | array elems => cases hvalue

/-- What is written for a map is read back as this map, with the numbers of its `float64`s. -/
theorem isObject_marshalIndent (hE : E.Faithful) {m : List (String × Json F)} (hsorted : SortedNames m)
    (hvalues : ∀ e ∈ m, e.2.value = e.2) :
    IsObject E (E.marshalIndent (.object m))
      (mapValues (Json.subst fun f => .number (E.formatFloat f)) m) := by
  refine ⟨_, hE.parse_marshalIndent _, ?_⟩
  rw [Json.value_subst fun _ => rfl, Json.value_of_sortedNames hsorted hvalues, Json.subst,
    Json.substEntries_eq]

theorem IsObject.unique {text : T} {m m' : List (String × Json Rat)} (h : IsObject E text m)
    (h' : IsObject E text m') : m = m' := by
  obtain ⟨j, hparse, hvalue⟩ := h
  obtain ⟨j', hparse', hvalue'⟩ := h'
  rw [hparse] at hparse'
  cases hparse'
  rw [hvalue] at hvalue'
  injection hvalue'

/-- The values of a decoded map are values. -/
theorem value_decoded (j : Json Rat) : (j.value.subst E.decodeNumber).value = j.value.subst E.decodeNumber := by
  rw [Json.value_subst value_decodeNumber, Json.value_value]

/-- A decoded map is sorted, and its values are values. -/
theorem decoded_canonical {m : List (String × Json Rat)} (h : IsObject E fileData m) :
    SortedNames (mapValues (Json.subst E.decodeNumber) m) ∧
      ∀ e ∈ mapValues (Json.subst E.decodeNumber) m, e.2.value = e.2 := by
  obtain ⟨j, -, hvalue⟩ := h
  obtain ⟨hsorted, hvalues⟩ := Json.sortedNames_of_value hvalue
  refine ⟨hsorted.mapValues _, ?_⟩
  intro e he
  obtain ⟨e', he', rfl⟩ := List.mem_map.1 he
  show (e'.2.subst E.decodeNumber).value = e'.2.subst E.decodeNumber
  rw [← hvalues e' he', value_decoded]

/-- Decoding and printing round the numbers. -/
theorem findEntry_rounded (n : String) (m : List (String × Json Rat)) :
    findEntry n (mapValues (Json.subst fun f => .number (E.formatFloat f))
      (mapValues (Json.subst E.decodeNumber) m))
      = (findEntry n m).map (Json.subst (roundNumber E)) := by
  rw [findEntry_mapValues, findEntry_mapValues, Option.map_map]
  congr 1
  funext j
  exact Json.subst_subst _ _ j

/-- The new value is refused, or decoded. -/
theorem unmarshalMap_cases (value : T) :
    (∃ m, E.unmarshalMap value = (m, true)) ∧ Refused E (.set value) ∨
      ∃ m j, E.unmarshalMap value = (m, false) ∧ E.parse value = some j ∧
        ofMap m = j.value.subst E.decodeNumber ∧ ¬ Refused E (.set value) := by
  rw [JsonTexts.unmarshalMap, Refused]
  cases hparse : E.parse value with
  | none =>
    refine .inl ⟨⟨_, rfl⟩, ?_⟩
    rintro (h | ⟨entries, h, -⟩) <;> cases h
  | some j =>
    cases j with
    | null => exact .inr ⟨_, _, rfl, rfl, rfl, not_not_intro (.inl rfl)⟩
    | object entries =>
      dsimp only
      cases hany : (Json.numbersEntries entries).any fun q => (E.parseFloat q).isNone with
      | true =>
        refine .inl ⟨⟨_, rfl⟩, ?_⟩
        rintro (h | ⟨entries', h, hall⟩)
        · cases h
        · cases h
          obtain ⟨q, hq, hnone⟩ := List.any_eq_true.1 hany
          exact hall q hq (Option.isNone_iff_eq_none.1 hnone)
      | false =>
        refine .inr ⟨_, _, rfl, rfl, ?_, not_not_intro (.inr ⟨entries, rfl, ?_⟩)⟩
        · rw [ofMap, Json.value, Json.subst, Json.substEntries_eq]
        · intro q hq hnone
          have := List.any_eq_false.1 hany q hq
          rw [hnone] at this
          exact this rfl
    | bool b => exact .inl ⟨⟨_, rfl⟩, by rintro (h | ⟨entries, h, -⟩) <;> cases h⟩
    | number q => exact .inl ⟨⟨_, rfl⟩, by rintro (h | ⟨entries, h, -⟩) <;> cases h⟩
    | string s => exact .inl ⟨⟨_, rfl⟩, by rintro (h | ⟨entries, h, -⟩) <;> cases h⟩
    | array elems => exact .inl ⟨⟨_, rfl⟩, by rintro (h | ⟨entries, h, -⟩) <;> cases h⟩

/-- A call that is not refused sets or removes the entry, and rounds the numbers of all others. -/
theorem apply_of_isObject (hE : E.Faithful) {m : List (String × Json Rat)} (h : IsObject E fileData m)
    {call : Call T} (haccept : ¬ Refused E call) :
    ∃ after m', apply E name fileData call = .wrote after ∧ IsObject E after m' ∧
      (∀ n, n ≠ name → findEntry n m' = (findEntry n m).map (Json.subst (roundNumber E))) ∧
      Done E name m' call := by
  have hread := readJsonFileAsMap_of_isObject h
  obtain ⟨hsorted, hvalues⟩ := decoded_canonical h
  cases call with
  | set value =>
    obtain ⟨-, hrefused⟩ | ⟨jsonObj, j, hvalue, hparse, hmap, -⟩ := @unmarshalMap_cases T F E value
    · exact absurd hrefused haccept
    · have hobject := isObject_marshalIndent hE (hsorted.insertEntry name (ofMap jsonObj)) (by
        intro e he
        rcases mem_insertEntry he with rfl | hmem
        · show (ofMap jsonObj).value = ofMap jsonObj
          rw [hmap, value_decoded]
        · exact hvalues e hmem)
      refine ⟨_, _, ?_, hobject, ?_, j, hparse, ?_⟩
      · rw [apply, set, hvalue, hread]
      · intro n hn
        rw [mapValues_insertEntry, findEntry_insertEntry, if_neg hn, findEntry_rounded]
      · rw [mapValues_insertEntry, findEntry_insertEntry, if_pos rfl, hmap, Json.subst_subst]
        rfl
  | rem =>
    have hobject := isObject_marshalIndent hE (hsorted.eraseEntry name)
      fun e he => hvalues e (List.mem_filter.1 he).1
    refine ⟨_, _, ?_, hobject, ?_, ?_⟩
    · rw [apply, rem, hread]
      rfl
    · intro n hn
      rw [findEntry_mapValues, findEntry_eraseEntry, if_neg hn, ← findEntry_mapValues, findEntry_rounded]
    · show findEntry name _ = none
      rw [findEntry_mapValues, findEntry_eraseEntry, if_pos rfl]
      rfl

/-- **When a call keeps the other entries**: it is refused, or the file is an object whose other numbers are
printed for a `float64`. -/
theorem apply_keeps_iff (hE : E.Faithful) (name : String) (fileData : T) (call : Call T) :
    Keeps E name fileData call ↔ Refused E call ∨ Exact E name fileData := by
  by_cases hrefused : Refused E call
  · refine ⟨fun _ => .inl hrefused, fun _ => .inl ?_⟩
    cases call with
    | rem => exact hrefused.elim
    | set value =>
      obtain ⟨⟨m, hvalue⟩, -⟩ | ⟨m, j, -, -, -, haccept⟩ := @unmarshalMap_cases T F E value
      · rw [apply, set, hvalue]
      · exact absurd hrefused haccept
  · constructor
    · rintro (hfailed | ⟨after, m, m', hwrote, hbefore, hafter, hframe, -⟩)
      · -- a call that is not refused does not fail
        cases call with
        | rem => cases hfailed
        | set value =>
          obtain ⟨-, h⟩ | ⟨jsonObj, j, hvalue, -, -, -⟩ := @unmarshalMap_cases T F E value
          · exact absurd h hrefused
          · rw [apply, set, hvalue] at hfailed
            dsimp only at hfailed
            split at hfailed <;> cases hfailed
      · refine .inr ⟨m, hbefore, ?_⟩
        intro n v hn hv q hq
        obtain ⟨after', m'', hwrote', hafter', hothers, -⟩ :=
          @apply_of_isObject T F E name fileData hE m hbefore
          call hrefused
        rw [hwrote] at hwrote'
        cases hwrote'
        have hsame := hframe n hn
        rw [hafter.unique hafter', hothers n hn, hv, Option.map_some, Option.some.injEq] at hsame
        exact (roundNumber_eq_iff hE q).1 ((Json.subst_eq_self_iff v).1 hsame q hq)
    · rintro (h | ⟨m, hbefore, hexact⟩)
      · exact absurd h hrefused
      · obtain ⟨after, m', hwrote, hafter, hothers, hentry⟩ :=
          @apply_of_isObject T F E name fileData hE m hbefore
          call hrefused
        refine .inr ⟨after, m, m', hwrote, hbefore, hafter, ?_, hentry⟩
        intro n hn
        rw [hothers n hn]
        cases hv : findEntry n m with
        | none => rfl
        | some v =>
          rw [Option.map_some, Option.some.injEq, Json.subst_eq_self_iff]
          intro q hq
          exact (roundNumber_eq_iff hE q).2 (hexact n v hn hv q hq)

/-- A text that is not JSON counts as an empty file, whatever it held. -/
theorem apply_of_broken (hbroken : E.parse fileData = none) (name : String) :
    apply E name fileData .rem = .wrote (E.marshalIndent (.object [])) ∧
      ∀ value m, E.unmarshalMap value = (m, false) →
        apply E name fileData (.set value) = .wrote (E.marshalIndent (.object [(name, ofMap m)])) := by
  have hread : readJsonFileAsMap E fileData = some [] := by
    rw [readJsonFileAsMap, JsonTexts.unmarshalMap, hbroken]
  constructor
  · rw [apply, rem, hread]
    rfl
  · intro value m hvalue
    rw [apply, set, hvalue, hread]
    rfl

end

/-! ## Texts as trees -/

/-- Texts that are given as their trees, or none; every number is a `float64`. -/
def treeTexts : JsonTexts (Option (Json Rat)) Rat where
  parse := id
  parseFloat := some
  formatFloat := id
  marshalIndent j := some (j.subst .number)

theorem treeTexts_faithful : treeTexts.Faithful := ⟨fun _ => rfl, fun _ => rfl⟩

/-- A file with two entries, and a new value for the first. -/
theorem other_entry_kept : Exact treeTexts "a" (some (.object [("a", .object []), ("b", .number 1)])) ∧
    Keeps treeTexts "a" (some (.object [("a", .object []), ("b", .number 1)])) (.set (some (.object []))) := by
  have hexact : Exact treeTexts "a" (some (.object [("a", .object []), ("b", .number 1)])) :=
    ⟨_, ⟨_, rfl, rfl⟩, fun _ _ _ _ q _ => ⟨q, rfl⟩⟩
  exact ⟨hexact, (apply_keeps_iff treeTexts_faithful _ _ _).2 (.inr hexact)⟩

/-- **A file that cannot be parsed is replaced** by one with the new entry only, or none; and setting an entry
of `null` panics. -/
theorem broken_file_replaced :
    apply treeTexts "a" none (.set (some (.object []))) = .wrote (some (.object [("a", .object [])])) ∧
      apply treeTexts "a" none .rem = .wrote (some (.object [])) ∧
      ¬ Keeps treeTexts "a" none .rem ∧
      apply treeTexts "a" (some .null) (.set (some (.object []))) = .panicked := by
  obtain ⟨hrem, hset⟩ := @apply_of_broken _ _ treeTexts none rfl "a"
  refine ⟨hset _ (some []) rfl, hrem, ?_, rfl⟩
  rintro (hfailed | ⟨after, m, m', -, ⟨j, hparse, -⟩, -⟩)
  · rw [hrem] at hfailed
    cases hfailed
  · cases hparse

end JsonDB

end TorrServer.Settings
