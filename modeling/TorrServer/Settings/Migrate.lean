/-
# Settings.Migrate — moving entries between the two settings stores.

Settings and viewed marks can each live in the JSON store or in the BBolt store. An entry is a JSON text; a
store may hand back a text that is spelled differently, but never one that means something else. `encoding/json`
and the stores are parameters here, with that as hypothesis.

A migration copies an entry unless the target already has it. Whether it has it is decided by
`isByteArraysEqualJson`, whose byte loop ends in the same `return true` whether it finds a difference or not:
two texts of the same length count as equal.
-/
import TorrServer.Lib.Strconv

namespace TorrServer.Settings

open Lib (Bytes)

variable {a b v w : Bytes}

/-! ## JSON texts and stores -/

/-- The two stores. -/
inductive Backend
  | json
  | bbolt
  deriving DecidableEq, Repr

/-- The store that is not `k`. -/
def Backend.other : Backend → Backend
  | .json => .bbolt
  | .bbolt => .json

theorem Backend.other_other (k : Backend) : k.other.other = k := by
  cases k <;> rfl

theorem Backend.eq_other_of_ne {k l : Backend} (h : k ≠ l) : k = l.other := by
  cases k <;> cases l <;> first | rfl | exact absurd rfl h

/-- The store a preference flag selects. -/
def Backend.ofFlag (useJson : Bool) : Backend := if useJson then .json else .bbolt

/-- JSON texts over values `J`: `json.Unmarshal`, with `none` for an error, and what `Get` returns for the text
`Set` stored. -/
structure Texts (J : Type) where
  parse : Bytes → Option J
  stored : Backend → Bytes → Bytes

/-- Assumed: the empty text is no JSON, and a store returns a text of the same value. -/
structure Texts.Faithful {J : Type} (E : Texts J) : Prop where
  parse_nil : E.parse [] = none
  parse_stored : ∀ k v j, E.parse v = some j → E.parse (E.stored k v) = some j

section

variable {J : Type} (E : Texts J)

/-- Both are JSON texts, of the same value. -/
def SameJson (a b : Bytes) : Prop := ∃ j, E.parse a = some j ∧ E.parse b = some j

variable {E}

theorem SameJson.symm (h : SameJson E a b) : SameJson E b a := by
  obtain ⟨j, ha, hb⟩ := h
  exact ⟨j, hb, ha⟩

theorem SameJson.trans {c : Bytes} (hab : SameJson E a b) (hbc : SameJson E b c) : SameJson E a c := by
  obtain ⟨j, ha, hb⟩ := hab
  obtain ⟨k, hb', hc⟩ := hbc
  rw [hb] at hb'
  cases hb'
  exact ⟨j, ha, hc⟩

theorem SameJson.refl_left (h : SameJson E a b) : SameJson E a a :=
  h.trans h.symm

theorem sameJson_stored (hE : E.Faithful) (k : Backend) (hv : SameJson E v v) :
    SameJson E (E.stored k v) v := by
  obtain ⟨j, hj, -⟩ := hv
  exact ⟨j, hE.parse_stored k v j hj, hj⟩

theorem SameJson.ne_nil (hE : E.Faithful) (h : SameJson E a b) : a ≠ [] := by
  rintro rfl
  obtain ⟨j, ha, -⟩ := h
  rw [hE.parse_nil] at ha
  cases ha

end

/-! ## Comparing and copying an entry -/

section

variable {J : Type} [DecidableEq J] (E : Texts J)

/-- `isByteArraysEqualJson`; `none` is an error. -/
def isByteArraysEqualJson (a b : Bytes) : Option Bool :=
  if a.length = 0 ∧ b.length = 0 then some true
  else if a.length = 0 ∨ b.length = 0 then some false
  else if a.length = b.length then
    -- the byte loop only breaks at a difference, and falls through to the same `return true`
    some true
  else
    match E.parse a with
    | none => none
    | some x =>
      match E.parse b with
      | none => none
      | some y => some (x = y)

/-- Compares lengths and bytes before `isByteArraysEqualJson` does. -/
def isByteArraysEqualJsonOptimized (a b : Bytes) : Option Bool :=
  if a.length ≠ b.length then some false
  else if a.length = 0 then some true
  else if a = b then some true
  else isByteArraysEqualJson E a b

/-- `MigrateSingle`, and the loop of `MigrateAll`, on one entry: what is then stored in the target, whether it
counts as migrated, and whether there was an error. -/
def migrateSingle (src dst : Backend) (s t : Option Bytes) : Option Bytes × Bool × Bool :=
  match s.map (E.stored src) with
  | none => (t, false, false)
  | some sourceData =>
    let identical :=
      match t.map (E.stored dst) with
      | some targetData => isByteArraysEqualJson E sourceData targetData == some true
      | none => false
    if identical then (t, false, false)
    else
      -- `verifyMigration` reads the entry back from the target
      let verified :=
        isByteArraysEqualJsonOptimized E sourceData (E.stored dst sourceData) == some true
      (some sourceData, verified, !verified)

/-- `safeMigrate` with `clearSource`: the source and the target afterwards. -/
def safeMigrate (src dst : Backend) (s t : Option Bytes) : Option Bytes × Option Bytes :=
  let r := migrateSingle E src dst s t
  (if r.2.1 then none else s, r.1)

variable {E}

/-- **What counts as equal** among JSON texts: the same value, or just the same length. -/
theorem isByteArraysEqualJson_eq_true_iff (hE : E.Faithful) (ha : SameJson E a a) (hb : SameJson E b b) :
    isByteArraysEqualJson E a b = some true ↔ a.length = b.length ∨ SameJson E a b := by
  have hane : a.length ≠ 0 := fun h => ha.ne_nil hE (List.eq_nil_of_length_eq_zero h)
  have hbne : b.length ≠ 0 := fun h => hb.ne_nil hE (List.eq_nil_of_length_eq_zero h)
  obtain ⟨x, hx, -⟩ := ha
  obtain ⟨y, hy, -⟩ := hb
  have hsame : SameJson E a b ↔ x = y := by
    constructor
    · rintro ⟨j, hja, hjb⟩
      rw [hx] at hja
      rw [hy] at hjb
      cases hja
      cases hjb
      rfl
    · rintro rfl
      exact ⟨x, hx, hy⟩
  unfold isByteArraysEqualJson
  rw [if_neg (by tauto), if_neg (by tauto)]
  split
  · simp_all
  · rename_i hlen
    simp [hx, hy, hsame, hlen]

/-- The other comparison never parses: it compares the lengths. -/
theorem isByteArraysEqualJsonOptimized_eq_true_iff (hE : E.Faithful) (ha : SameJson E a a)
    (hb : SameJson E b b) :
    isByteArraysEqualJsonOptimized E a b = some true ↔ a.length = b.length := by
  have hane : a.length ≠ 0 := fun h => ha.ne_nil hE (List.eq_nil_of_length_eq_zero h)
  unfold isByteArraysEqualJsonOptimized
  rw [if_neg hane]
  split
  · rename_i hlen
    simp [hlen]
  · rename_i hlen
    have hlen : a.length = b.length := not_not.1 hlen
    split
    · exact ⟨fun _ => hlen, fun _ => rfl⟩
    · rw [isByteArraysEqualJson_eq_true_iff hE ha hb]
      exact ⟨fun _ => hlen, .inl⟩

/-- **Both comparisons are right** about two JSON texts exactly when their lengths are equal as their values
are. -/
theorem comparisons_right_iff (hE : E.Faithful) {a b : Bytes} (ha : SameJson E a a) (hb : SameJson E b b) :
    ((isByteArraysEqualJson E a b = some true ↔ SameJson E a b) ∧
      (isByteArraysEqualJsonOptimized E a b = some true ↔ SameJson E a b)) ↔
        (a.length = b.length ↔ SameJson E a b) := by
  rw [isByteArraysEqualJson_eq_true_iff hE ha hb, isByteArraysEqualJsonOptimized_eq_true_iff hE ha hb]
  tauto

@[simp] theorem migrateSingle_none (src dst : Backend) (t : Option Bytes) :
    migrateSingle E src dst none t = (t, false, false) := rfl

theorem migrateSingle_target_none (src dst : Backend) (v : Bytes) :
    (migrateSingle E src dst (some v) none).1 = some (E.stored src v) := rfl

theorem isByteArraysEqualJson_stored_iff (hE : E.Faithful) (src dst : Backend) (hv : SameJson E v v)
    (hw : SameJson E w w) :
    isByteArraysEqualJson E (E.stored src v) (E.stored dst w) = some true ↔
      (E.stored src v).length = (E.stored dst w).length ∨ SameJson E v w := by
  have hv' := sameJson_stored hE src hv
  have hw' := sameJson_stored hE dst hw
  have hsame : SameJson E (E.stored src v) (E.stored dst w) ↔ SameJson E v w :=
    ⟨fun h => hv'.symm.trans (h.trans hw'), fun h => hv'.trans (h.trans hw'.symm)⟩
  rw [isByteArraysEqualJson_eq_true_iff hE hv'.refl_left hw'.refl_left, hsame]

theorem migrateSingle_of_equal {src dst : Backend}
    (h : isByteArraysEqualJson E (E.stored src v) (E.stored dst w) = some true) :
    migrateSingle E src dst (some v) (some w) = (some w, false, false) := by
  simp [migrateSingle, h]

theorem migrateSingle_of_not_equal {src dst : Backend}
    (h : isByteArraysEqualJson E (E.stored src v) (E.stored dst w) ≠ some true) :
    (migrateSingle E src dst (some v) (some w)).1 = some (E.stored src v) := by
  simp [migrateSingle, h]

end

/-- Numbers of one digit, with blanks behind. -/
def digitTexts : Texts Nat where
  parse
    | d :: rest => if Lib.isDigit d ∧ rest.all (· = 32) then some (d.toNat - 48) else none
    | [] => none
  stored _ v := v

theorem digitTexts_faithful : digitTexts.Faithful where
  parse_nil := rfl
  parse_stored _ _ _ h := h

/-- `1` and `2` count as equal for both. -/
theorem comparisons_wrong : SameJson digitTexts [49] [49] ∧ SameJson digitTexts [50] [50] ∧
    ¬ SameJson digitTexts [49] [50] ∧ isByteArraysEqualJson digitTexts [49] [50] = some true ∧
      isByteArraysEqualJsonOptimized digitTexts [49] [50] = some true := by
  refine ⟨⟨1, by decide, by decide⟩, ⟨2, by decide, by decide⟩, ?_, by decide, by decide⟩
  rintro ⟨j, hone, htwo⟩
  exact absurd (hone.trans htwo.symm) (by decide)

/-- `1`, and `2` with a blank behind. -/
theorem comparisons_right_blank :
    ((isByteArraysEqualJson digitTexts [49] [50, 32] = some true ↔ SameJson digitTexts [49] [50, 32]) ∧
      (isByteArraysEqualJsonOptimized digitTexts [49] [50, 32] = some true ↔ SameJson digitTexts [49]
        [50, 32])) ↔
        (1 = 2 ↔ SameJson digitTexts [49] [50, 32]) :=
  comparisons_right_iff digitTexts_faithful ⟨1, by decide, by decide⟩ ⟨2, by decide, by decide⟩

end TorrServer.Settings
