/-
# Torrshash.Base62 — the base-62 text of a token.

`Encode62` reads a byte string as one big-endian number and writes the number in base 62; `Decode62` goes back.
Leading zero bytes are lost on the way, nothing else is.
-/
import TorrServer.Lib.Endian
import TorrServer.Lib.Utf8

namespace TorrServer.Torrshash

open Lib List

/-- `base62Alphabet`. -/
def base62Alphabet : Bytes :=
  "0123456789ABCDEFGHIJKLMNOPQRSTUVWXYZabcdefghijklmnopqrstuvwxyz".toList.map
    fun c => UInt8.ofNat c.toNat

/-- The loop of `Encode62` collects the digits of the number, least significant first. -/
def encode62 (b : Bytes) : Bytes :=
  ((Nat.digits 62 (beVal b)).map fun d => base62Alphabet.getD d 0).reverse

/-- `bytes.IndexByte` in the alphabet. -/
def indexByte (b : UInt8) : Int :=
  match base62Alphabet.idxOf? b with
  | some i => i
  | none => -1

/-- `Decode62`: a rune outside the alphabet counts as `-1`, and `big.Int.Bytes` drops the sign. -/
def decode62 (s : Bytes) : Bytes :=
  beMinimal ((runes s).foldl (fun acc r => acc * 62 + indexByte (UInt8.ofNat r)) (0 : Int)).natAbs

/-! ## Digits -/

theorem base62Alphabet_spec :
    ∀ d < 62, indexByte (base62Alphabet.getD d 0) = d ∧ isAlnum (base62Alphabet.getD d 0) = true ∧
      base62Alphabet.getD d 0 < 0x80 := by
  decide

theorem base62Alphabet_getD_mem : ∀ d < 62, base62Alphabet.getD d 0 ∈ base62Alphabet := by decide

theorem foldl_digits (ds : List Nat) (h : ∀ d ∈ ds, d < 62) :
    ((ds.map fun d => base62Alphabet.getD d 0).reverse.map UInt8.toNat).foldl
      (fun acc r => acc * 62 + indexByte (UInt8.ofNat r)) (0 : Int) =
        ((Nat.ofDigits 62 ds : Nat) : Int) := by
  induction ds with
  | nil => rfl
  | cons d ds ih =>
    have hd := (base62Alphabet_spec d (h d mem_cons_self)).1
    have hds := ih fun e he => h e (mem_cons_of_mem d he)
    rw [map_cons, reverse_cons, map_append, foldl_append, hds, Nat.ofDigits_cons]
    simp only [map_cons, map_nil, foldl_cons, foldl_nil, UInt8.ofNat_toNat, hd]
    push_cast
    ring

theorem encode62_alnum (b : Bytes) : ∀ c ∈ encode62 b, isAlnum c = true ∧ c < 0x80 := by
  intro c hc
  obtain ⟨d, hd, rfl⟩ := mem_map.mp (mem_reverse.mp hc)
  exact (base62Alphabet_spec d (Nat.digits_lt_base (by decide) hd)).2

theorem decode62_of_encode62 {b : Bytes} (h : b.head? ≠ some 0) : decode62 (encode62 b) = b := by
  unfold decode62
  rw [runes_of_ascii fun c hc => (encode62_alnum b c hc).2, encode62,
    foldl_digits _ fun d hd => Nat.digits_lt_base (by decide) hd, Nat.ofDigits_digits,
    Int.natAbs_natCast, beMinimal_beVal h]

/-- The digit that a letter of the alphabet stands for. -/
theorem exists_digit {c : UInt8} (h : c ∈ base62Alphabet) : ∃ d < 62, base62Alphabet.getD d 0 = c := by
  obtain ⟨d, hd, rfl⟩ := mem_iff_getElem.1 h
  have hlength : base62Alphabet.length = 62 := by decide
  exact ⟨d, hlength ▸ hd, by rw [List.getD, getElem?_eq_getElem hd, Option.getD_some]⟩

/-- A text over the alphabet as its digits, least significant first. -/
theorem exists_digits {s : Bytes} (h : ∀ c ∈ s, c ∈ base62Alphabet) :
    ∃ ds : List Nat, (∀ d ∈ ds, d < 62) ∧ s = (ds.map fun d => base62Alphabet.getD d 0).reverse := by
  induction s with
  | nil => exact ⟨[], fun d hd => (nomatch hd), rfl⟩
  | cons c s ih =>
    obtain ⟨d, hd, rfl⟩ := exists_digit (h c mem_cons_self)
    obtain ⟨ds, hds, rfl⟩ := ih fun c' hc' => h c' (mem_cons_of_mem _ hc')
    refine ⟨ds ++ [d], ?_, ?_⟩
    · intro e he
      rcases mem_append.1 he with he | he
      · exact hds e he
      · exact mem_singleton.1 he ▸ hd
    · rw [map_append, reverse_append]
      rfl

theorem decode62_digits {ds : List Nat} (h : ∀ d ∈ ds, d < 62) :
    decode62 (ds.map fun d => base62Alphabet.getD d 0).reverse = beMinimal (Nat.ofDigits 62 ds) := by
  have hascii : ∀ c ∈ (ds.map fun d => base62Alphabet.getD d 0).reverse, c < 0x80 := by
    intro c hc
    obtain ⟨d, hd, rfl⟩ := mem_map.1 (mem_reverse.1 hc)
    exact (base62Alphabet_spec d (h d hd)).2.2
  unfold decode62
  rw [runes_of_ascii hascii, foldl_digits ds h, Int.natAbs_natCast]

theorem encode62_of_decode62 {s : Bytes} (h : ∀ c ∈ s, c ∈ base62Alphabet) (hzero : s.head? ≠ some 48) :
    encode62 (decode62 s) = s := by
  obtain ⟨ds, hds, rfl⟩ := exists_digits h
  have hlast : ∀ hne : ds ≠ [], ds.getLast hne ≠ 0 := by
    intro hne hlast
    apply hzero
    rw [head?_reverse, getLast?_map, getLast?_eq_some_getLast hne, hlast]
    rfl
  rw [decode62_digits hds, encode62, beVal_beMinimal, Nat.digits_ofDigits 62 (by decide) ds hds hlast]

/-- The byte strings that do not begin with a zero byte. -/
def plainBytes : Set Bytes := { b | b.head? ≠ some 0 }

/-- The texts over the alphabet that do not begin with a zero. -/
def plainTexts : Set Bytes := { s | (∀ c ∈ s, c ∈ base62Alphabet) ∧ s.head? ≠ some 48 }

theorem encode62_mem_plainTexts (b : Bytes) : encode62 b ∈ plainTexts := by
  have hdigit : ∀ d ∈ Nat.digits 62 (beVal b), d < 62 := fun d hd => Nat.digits_lt_base (by decide) hd
  constructor
  · intro c hc
    obtain ⟨d, hd, rfl⟩ := mem_map.1 (mem_reverse.1 hc)
    exact base62Alphabet_getD_mem d (hdigit d hd)
  · -- the most significant digit is not zero
    rw [encode62, head?_reverse, getLast?_map]
    intro hhead
    obtain ⟨d, hd, hzero⟩ := Option.map_eq_some_iff.1 hhead
    have hspec := (base62Alphabet_spec d (hdigit d (mem_of_getLast? hd))).1
    rw [hzero] at hspec
    exact getLast?_digits_ne_zero 62 _ hd (Int.ofNat.inj (hspec.symm.trans (by decide)))

/-- **`Encode62` and `Decode62` are inverse bijections** between byte strings without a leading zero byte and
texts without a leading zero. -/
theorem encode62_decode62_inverse :
    Set.InvOn decode62 encode62 plainBytes plainTexts ∧ Set.BijOn encode62 plainBytes plainTexts ∧
      Set.BijOn decode62 plainTexts plainBytes := by
  have hinv : Set.InvOn decode62 encode62 plainBytes plainTexts :=
    ⟨fun b hb => decode62_of_encode62 hb, fun s hs => encode62_of_decode62 hs.1 hs.2⟩
  have hencode : Set.MapsTo encode62 plainBytes plainTexts := fun b _ => encode62_mem_plainTexts b
  have hdecode : Set.MapsTo decode62 plainTexts plainBytes := fun s _ => head?_beMinimal _
  exact ⟨hinv, hinv.bijOn hencode hdecode, hinv.symm.bijOn hdecode hencode⟩

end TorrServer.Torrshash
