/-
# Lib.Strconv — byte strings and decimal numbers, as Go has them.

A Go string is a sequence of bytes, so it is a `List UInt8` here, ordered by bytes. `parseInt` is
`strconv.ParseInt(s, 10, 64)`, which on a 64-bit platform is also `strconv.Atoi`: an optional sign, at least one
digit, nothing else, and a value that fits in an `int64`; leading zeros are allowed. `formatInt` is
`strconv.FormatInt(n, 10)`. The two are inverse on the range of `int64`.
-/
import Mathlib.Data.Nat.Digits.Lemmas
import Mathlib.Data.List.Induction
import Mathlib.Data.List.Lex
import Mathlib.Tactic.IntervalCases
import Mathlib.Tactic.Ring

namespace TorrServer.Lib

open List

/-- A Go string, or a byte slice. -/
abbrev Bytes := List UInt8

instance byteLinearOrder : LinearOrder UInt8 where
  le_refl := UInt8.le_refl
  le_trans _ _ _ := UInt8.le_trans
  le_antisymm _ _ := UInt8.le_antisymm
  le_total := UInt8.le_total
  lt_iff_le_not_ge a b := by
    rw [UInt8.not_le, iff_and_self]
    exact UInt8.le_of_lt
  toDecidableLE := inferInstance

/-- The bytes of an ASCII text. -/
def ascii (s : String) : Bytes := s.toList.map fun c => UInt8.ofNat c.toNat

/-! ## Digits -/

/-- An ASCII digit; in Latin-1 there is no other decimal digit. -/
def isDigit (b : UInt8) : Bool := 48 ≤ b && b ≤ 57

/-- The value of an ASCII digit. -/
def digitVal (b : UInt8) : Nat := b.toNat - 48

/-- The ASCII digit of a value below ten. -/
def digitByte (d : Nat) : UInt8 := UInt8.ofNat (48 + d)

/-- The value of a run of digits, most significant first. -/
def decVal (ds : Bytes) : Nat := ds.foldl (fun n b => 10 * n + digitVal b) 0

/-- The digits of a number, without leading zeros; `0` is one digit. -/
def formatNat (n : Nat) : Bytes :=
  if n = 0 then [48] else (Nat.digits 10 n).reverse.map digitByte

theorem digitByte_spec {d : Nat} (h : d < 10) : isDigit (digitByte d) = true ∧ digitVal (digitByte d) = d := by
  interval_cases d <;> decide

theorem decVal_digits (ds : List Nat) (h : ∀ d ∈ ds, d < 10) :
    decVal (ds.reverse.map digitByte) = Nat.ofDigits 10 ds := by
  induction ds with
  | nil => rfl
  | cons d ds ih =>
    have hd := (digitByte_spec (h d mem_cons_self)).2
    have hds := ih fun e he => h e (mem_cons_of_mem d he)
    rw [reverse_cons, map_append, Nat.ofDigits_cons, ← hds]
    simp only [decVal, foldl_append, map_cons, map_nil, foldl_cons, foldl_nil, hd]
    ring

@[simp] theorem decVal_formatNat (n : Nat) : decVal (formatNat n) = n := by
  unfold formatNat
  split
  · rename_i h
    rw [h]
    rfl
  · rw [decVal_digits _ fun d hd => Nat.digits_lt_base (by decide) hd, Nat.ofDigits_digits]

theorem formatNat_digits (n : Nat) : ∀ b ∈ formatNat n, isDigit b = true := by
  unfold formatNat
  split
  · intro b hb
    rw [mem_singleton.mp hb]
    rfl
  · intro b hb
    obtain ⟨d, hd, rfl⟩ := mem_map.mp hb
    exact (digitByte_spec (Nat.digits_lt_base (by decide) (mem_reverse.mp hd))).1

theorem formatNat_ne_nil (n : Nat) : formatNat n ≠ [] := by
  unfold formatNat
  split
  · simp
  · rename_i h
    simpa [Nat.digits_eq_nil_iff_eq_zero] using h

theorem decVal_concat (ds : Bytes) (b : UInt8) : decVal (ds ++ [b]) = 10 * decVal ds + digitVal b := by
  simp [decVal]

/-- A number is below the power of ten of its length. -/
theorem decVal_lt {ds : Bytes} (h : ∀ b ∈ ds, isDigit b = true) : decVal ds < 10 ^ ds.length := by
  induction ds using List.reverseRecOn with
  | nil => decide
  | append_singleton ds b ih =>
    have hb : digitVal b < 10 := by
      have hdigit := h b (by simp)
      simp only [isDigit, Bool.and_eq_true, decide_eq_true_eq, UInt8.le_iff_toNat_le] at hdigit
      have hbound : b.toNat ≤ 57 := hdigit.2
      unfold digitVal
      omega
    have ih := ih fun b' hb' => h b' (mem_append_left _ hb')
    rw [decVal_concat, length_append, length_singleton, Nat.pow_succ]
    omega

/-! ## Unsigned numbers -/

/-- `%0wd`: zeros in front up to the width. -/
def formatPadded (width n : Nat) : Bytes := List.replicate (width - (formatNat n).length) 48 ++ formatNat n

theorem formatPadded_digits (width n : Nat) : ∀ b ∈ formatPadded width n, isDigit b = true := by
  intro b hb
  rcases mem_append.1 hb with hb | hb
  · rw [eq_of_mem_replicate hb]
    rfl
  · exact formatNat_digits n b hb

theorem decVal_formatPadded (width n : Nat) : decVal (formatPadded width n) = n := by
  unfold formatPadded
  induction width - (formatNat n).length with
  | zero => exact decVal_formatNat n
  | succ k ih =>
    rw [replicate_succ, cons_append]
    exact ih

theorem length_formatNat {n width : Nat} (h : n < 10 ^ width) (hpos : 0 < width) :
    (formatNat n).length ≤ width := by
  unfold formatNat
  split
  · exact hpos
  · rw [length_map, length_reverse]
    exact (Nat.digits_length_le_iff (by decide) n).2 h

theorem length_formatPadded {n width : Nat} (h : n < 10 ^ width) (hpos : 0 < width) :
    (formatPadded width n).length = width := by
  have hle := length_formatNat h hpos
  unfold formatPadded
  rw [length_append, length_replicate]
  omega

/-! ## Signed numbers -/

/-- The digits of `ParseInt` after the sign, with the largest magnitude the sign allows. -/
def parseMagnitude (ds : Bytes) (limit : Nat) : Option Nat :=
  if ds ≠ [] ∧ ds.all isDigit ∧ decVal ds ≤ limit then some (decVal ds) else none

/-- `strconv.ParseInt(s, 10, 64)` and `strconv.Atoi`; `none` is an error. -/
def parseInt : Bytes → Option Int
  | 43 :: ds => (parseMagnitude ds (2 ^ 63 - 1)).map Int.ofNat
  | 45 :: ds => (parseMagnitude ds (2 ^ 63)).map fun n => -Int.ofNat n
  | ds => (parseMagnitude ds (2 ^ 63 - 1)).map Int.ofNat

/-- `strconv.FormatInt(n, 10)`. -/
def formatInt : Int → Bytes
  | .ofNat n => formatNat n
  | .negSucc n => 45 :: formatNat (n + 1)

theorem formatInt_bytes (n : Int) : ∀ b ∈ formatInt n, b = 45 ∨ isDigit b = true := by
  intro b hb
  cases n with
  | ofNat m => exact .inr (formatNat_digits m b hb)
  | negSucc m => exact (mem_cons.1 hb).imp id (formatNat_digits (m + 1) b)

theorem parseInt_of_digits {ds : Bytes} (hd : ∀ b ∈ ds, isDigit b = true) :
    parseInt ds = (parseMagnitude ds (2 ^ 63 - 1)).map Int.ofNat := by
  unfold parseInt
  split
  · exact absurd (hd 43 mem_cons_self) (by decide)
  · exact absurd (hd 45 mem_cons_self) (by decide)
  · rfl

/-- `strconv.ParseUint(s, 10, 64)`; there is no sign. -/
def parseUint (ds : Bytes) : Option Nat := parseMagnitude ds (2 ^ 64 - 1)

theorem parseUint_formatPadded {n : Nat} (width : Nat) (h : n < 2 ^ 64) :
    parseUint (formatPadded width n) = some n := by
  have hall : (formatPadded width n).all isDigit = true := all_eq_true.mpr (formatPadded_digits width n)
  have hne : formatPadded width n ≠ [] := fun hnil => formatNat_ne_nil n (append_eq_nil_iff.1 hnil).2
  unfold parseUint parseMagnitude
  rw [decVal_formatPadded, if_pos ⟨hne, hall, by omega⟩]

theorem parseMagnitude_formatNat {n limit : Nat} (h : n ≤ limit) :
    parseMagnitude (formatNat n) limit = some n := by
  have hall : (formatNat n).all isDigit = true := all_eq_true.mpr (formatNat_digits n)
  simp [parseMagnitude, formatNat_ne_nil, hall, h]

/-- **Reading back what was printed** gives the same number, over the whole range of `int64`. -/
theorem parseInt_formatInt {n : Int} (hlo : -2 ^ 63 ≤ n) (hhi : n < 2 ^ 63) :
    parseInt (formatInt n) = some n := by
  cases n with
  | ofNat m =>
    have hm : m ≤ 2 ^ 63 - 1 := by
      have : (m : Int) < 2 ^ 63 := hhi
      omega
    rw [formatInt, parseInt_of_digits (formatNat_digits m), parseMagnitude_formatNat hm]
    rfl
  | negSucc m =>
    have hm : m + 1 ≤ 2 ^ 63 := by
      have : -2 ^ 63 ≤ Int.negSucc m := hlo
      omega
    rw [formatInt, parseInt, parseMagnitude_formatNat hm]
    rfl

/-- A number that parses fits in an `int64`. -/
theorem parseInt_range {s : Bytes} {n : Int} (h : parseInt s = some n) : -2 ^ 63 ≤ n ∧ n < 2 ^ 63 := by
  have hmag : ∀ {ds limit m}, parseMagnitude ds limit = some m → m ≤ limit := by
    intro ds limit m hm
    unfold parseMagnitude at hm
    split at hm
    · cases hm
      rename_i hds
      exact hds.2.2
    · cases hm
  unfold parseInt at h
  split at h <;> obtain ⟨m, hm, rfl⟩ := Option.map_eq_some_iff.mp h <;> have := hmag hm
  · constructor <;> simp only [Int.ofNat_eq_natCast] <;> omega
  · constructor <;> simp only [Int.ofNat_eq_natCast] <;> omega
  · constructor <;> simp only [Int.ofNat_eq_natCast] <;> omega

end TorrServer.Lib
