/-
# Lib.Endian — fixed-width and minimal byte representations of numbers.

`leBytes k n` and `beBytes k n` are the `k` bytes `encoding/binary` writes for `n`, which keeps only
`n % 256 ^ k`; `leVal` and `beVal` read them back. `beMinimal n` is `big.Int.Bytes`: the big-endian bytes
without leading zeros, the empty string for zero.
-/
import TorrServer.Lib.Strconv
import Mathlib.Data.Nat.Digits.Lemmas

namespace TorrServer.Lib

open List

/-! ## Little endian -/

/-- The number of a little-endian text. -/
def leVal : Bytes → Nat
  | [] => 0
  | b :: bs => b.toNat + 256 * leVal bs

/-- The `k` low bytes of a number, lowest first. -/
def leBytes : Nat → Nat → Bytes
  | 0, _ => []
  | k + 1, n => UInt8.ofNat n :: leBytes k (n / 256)

@[simp] theorem leBytes_length (k n : Nat) : (leBytes k n).length = k := by
  induction k generalizing n with
  | zero => rfl
  | succ k ih => simp [leBytes, ih]

theorem leVal_lt (bs : Bytes) : leVal bs < 256 ^ bs.length := by
  induction bs with
  | nil => exact Nat.one_pos
  | cons b bs ih =>
    have hb : b.toNat < 256 := b.toNat_lt
    rw [leVal, length_cons, Nat.pow_succ]
    omega

theorem leVal_leBytes (k n : Nat) : leVal (leBytes k n) = n % 256 ^ k := by
  induction k generalizing n with
  | zero => simp [leBytes, leVal, Nat.mod_one]
  | succ k ih =>
    have hbyte : (UInt8.ofNat n).toNat = n % 256 := UInt8.toNat_ofNat'
    rw [leBytes, leVal, ih, hbyte, Nat.pow_succ, Nat.mul_comm (256 ^ k) 256, Nat.mod_mul]

theorem leBytes_leVal (bs : Bytes) : leBytes bs.length (leVal bs) = bs := by
  induction bs with
  | nil => rfl
  | cons b bs ih =>
    have hb : b.toNat < 256 := b.toNat_lt
    have hdiv : (b.toNat + 256 * leVal bs) / 256 = leVal bs := by omega
    have hmod : UInt8.ofNat (b.toNat + 256 * leVal bs) = b := by
      apply UInt8.toNat_inj.mp
      rw [UInt8.toNat_ofNat']
      omega
    rw [length_cons, leBytes, leVal, hdiv, hmod, ih]

theorem leVal_leBytes_of_lt {k n : Nat} (h : n < 256 ^ k) : leVal (leBytes k n) = n := by
  rw [leVal_leBytes, Nat.mod_eq_of_lt h]

/-! ## Big endian -/

/-- The number of a big-endian text. -/
def beVal (bs : Bytes) : Nat := leVal bs.reverse

/-- The `k` low bytes of a number, highest first. -/
def beBytes (k n : Nat) : Bytes := (leBytes k n).reverse

@[simp] theorem beBytes_length (k n : Nat) : (beBytes k n).length = k := by simp [beBytes]

theorem beVal_lt (bs : Bytes) : beVal bs < 256 ^ bs.length := by simpa [beVal] using leVal_lt bs.reverse

theorem beVal_beBytes (k n : Nat) : beVal (beBytes k n) = n % 256 ^ k := by
  rw [beVal, beBytes, reverse_reverse, leVal_leBytes]

theorem leVal_append (as bs : Bytes) : leVal (as ++ bs) = leVal as + 256 ^ as.length * leVal bs := by
  induction as with
  | nil => rw [nil_append, leVal, length_nil, Nat.pow_zero, Nat.zero_add, Nat.one_mul]
  | cons a as ih =>
    rw [cons_append, leVal, leVal, ih, length_cons, Nat.pow_succ, Nat.mul_add, Nat.add_assoc,
      Nat.mul_comm (256 ^ as.length) 256, Nat.mul_assoc]

theorem beVal_append (as bs : Bytes) : beVal (as ++ bs) = beVal as * 256 ^ bs.length + beVal bs := by
  rw [beVal, reverse_append, leVal_append, length_reverse, Nat.add_comm, Nat.mul_comm]
  rfl

theorem beVal_cons (b : UInt8) (bs : Bytes) : beVal (b :: bs) = b.toNat * 256 ^ bs.length + beVal bs := by
  have hone : beVal [b] = b.toNat := by
    show b.toNat + 256 * 0 = b.toNat
    omega
  rw [← singleton_append, beVal_append, hone]

theorem beVal_inj {as bs : Bytes} (hlength : as.length = bs.length) (h : beVal as = beVal bs) : as = bs := by
  have hrev : as.reverse = bs.reverse := by
    rw [← leBytes_leVal as.reverse, ← leBytes_leVal bs.reverse, length_reverse, length_reverse, hlength]
    exact congrArg (leBytes bs.length) h
  exact reverse_injective hrev

/-! ## Comparing -/

/-- `bytes.Compare`. -/
def compareBytes : Bytes → Bytes → Ordering
  | [], [] => .eq
  | [], _ :: _ => .lt
  | _ :: _, [] => .gt
  | a :: as, b :: bs => if a < b then .lt else if b < a then .gt else compareBytes as bs

/-- Strings of one length compare as the numbers that they stand for. -/
theorem compareBytes_eq_gt_iff {as bs : Bytes} (h : as.length = bs.length) :
    compareBytes as bs = .gt ↔ beVal bs < beVal as := by
  induction as generalizing bs with
  | nil =>
    cases length_eq_zero_iff.1 h.symm
    simp [compareBytes]
  | cons a as ih =>
    cases bs with
    | nil => cases h
    | cons b bs =>
      have hlength : as.length = bs.length := Nat.succ.inj h
      have ha := beVal_lt as
      have hb := beVal_lt bs
      rw [beVal_cons, beVal_cons, compareBytes, hlength]
      rw [hlength] at ha
      rcases Nat.lt_trichotomy a.toNat b.toNat with hlt | heq | hgt
      · -- the first byte decides
        have hmul := Nat.mul_le_mul_right (256 ^ bs.length) (Nat.succ_le_of_lt hlt)
        rw [Nat.succ_mul] at hmul
        rw [if_pos (UInt8.lt_iff_toNat_lt.2 hlt)]
        simp only [reduceCtorEq, false_iff]
        omega
      · rw [UInt8.toNat_inj.1 heq, if_neg (UInt8.lt_irrefl b), if_neg (UInt8.lt_irrefl b), ih hlength]
        omega
      · have hmul := Nat.mul_le_mul_right (256 ^ bs.length) (Nat.succ_le_of_lt hgt)
        rw [Nat.succ_mul] at hmul
        have hnot : ¬ a < b := fun hlt => by
          have := UInt8.lt_iff_toNat_lt.1 hlt
          omega
        rw [if_neg hnot, if_pos (UInt8.lt_iff_toNat_lt.2 hgt)]
        simp only [true_iff]
        omega

/-! ## Without leading zeros -/

/-- `big.Int.Bytes` of a natural number. -/
def beMinimal (n : Nat) : Bytes := ((Nat.digits 256 n).map UInt8.ofNat).reverse

theorem leVal_eq_ofDigits (bs : Bytes) : leVal bs = Nat.ofDigits 256 (bs.map UInt8.toNat) := by
  induction bs with
  | nil => rfl
  | cons b bs ih => rw [leVal, map_cons, Nat.ofDigits_cons, ih]

/-- **A string that does not start with a zero byte** is what `big.Int` gives back for it. -/
theorem beMinimal_beVal {bs : Bytes} (h : bs.head? ≠ some 0) : beMinimal (beVal bs) = bs := by
  have hdigits : Nat.digits 256 (beVal bs) = bs.reverse.map UInt8.toNat := by
    rw [beVal, leVal_eq_ofDigits]
    refine Nat.digits_ofDigits 256 (by decide) _ ?_ ?_
    · intro d hd
      obtain ⟨b, -, rfl⟩ := mem_map.mp hd
      exact b.toNat_lt
    · -- the most significant digit is the first byte
      intro hne hlast
      cases bs with
      | nil => simp at hne
      | cons b bs =>
        have hb : b.toNat = 0 := by simpa using hlast
        exact h (congrArg some (UInt8.toNat_inj.mp hb))
  have hback : (bs.reverse.map UInt8.toNat).map UInt8.ofNat = bs.reverse := by
    rw [map_map]
    exact map_id'' (fun b => UInt8.ofNat_toNat) _
  rw [beMinimal, hdigits, hback, reverse_reverse]

theorem getLast?_digits_ne_zero (b n : Nat) {d : Nat} (h : d ∈ (Nat.digits b n).getLast?) : d ≠ 0 := by
  have hne : n ≠ 0 := by
    rintro rfl
    rw [Nat.digits_zero] at h
    exact nomatch h
  have hlast := Nat.getLast_digit_ne_zero b hne
  rw [getLast?_eq_some_getLast (Nat.digits_ne_nil_iff_ne_zero.2 hne)] at h
  exact Option.some.inj h ▸ hlast

theorem beVal_beMinimal (n : Nat) : beVal (beMinimal n) = n := by
  have hback : ((Nat.digits 256 n).map UInt8.ofNat).map UInt8.toNat = Nat.digits 256 n := by
    rw [map_map]
    have hsame : ∀ d ∈ Nat.digits 256 n, (UInt8.toNat ∘ UInt8.ofNat) d = id d := fun d hd =>
      UInt8.toNat_ofNat_of_lt' (Nat.digits_lt_base (by decide) hd)
    rw [map_congr_left hsame, map_id]
  rw [beVal, beMinimal, reverse_reverse, leVal_eq_ofDigits, hback, Nat.ofDigits_digits]

theorem head?_beMinimal (n : Nat) : (beMinimal n).head? ≠ some 0 := by
  rw [beMinimal, head?_reverse, getLast?_map]
  intro hhead
  obtain ⟨d, hd, hzero⟩ := Option.map_eq_some_iff.1 hhead
  have hlt : d < 256 := Nat.digits_lt_base (by decide) (mem_of_getLast? hd)
  apply getLast?_digits_ne_zero 256 n hd
  rw [← UInt8.toNat_ofNat_of_lt' hlt, hzero]
  rfl

end TorrServer.Lib
