/-
# Lib.Lines — a text and its lines, up to white space at their ends.

`splitLines` cuts a text at its newlines, `joinLines` puts it together again. A carriage return before a newline
may be taken off before the cut (`replaceCRLF`) or after it (`dropCR`), or stay: what is left of a line when it
is trimmed is the same.
-/
import TorrServer.Lib.Split
import TorrServer.Lib.Utf8
import Mathlib.Data.List.Find
import Mathlib.Data.List.Forall2

namespace TorrServer.Lib

open List

/-! ## Trimming -/

section Trim

variable {ws : List Bytes} {s : Bytes}

theorem stripFront_of_some {fuel : Nat} {w : Bytes} (h : ws.find? (·.isPrefixOf s) = some w) :
    stripFront ws (fuel + 1) s = stripFront ws fuel (s.drop w.length) := by
  simp only [stripFront, h]

/-- Words that are not empty: more fuel than there are bytes changes nothing. -/
theorem stripFront_fuel (hws : ∀ w ∈ ws, w ≠ []) {fuel : Nat} (h : s.length ≤ fuel) :
    stripFront ws fuel s = stripFront ws s.length s := by
  induction fuel using Nat.strong_induction_on generalizing s with
  | _ fuel ih =>
    cases hlength : s.length with
    | zero =>
      have hnil : s = [] := length_eq_zero_iff.1 hlength
      subst hnil
      have hnone : ws.find? (·.isPrefixOf []) = none := by
        rw [find?_eq_none]
        intro w hw hpre
        exact hws w hw <| prefix_nil.1 <| isPrefixOf_iff_prefix.1 hpre
      rw [stripFront_of_find?_eq_none hnone, stripFront_of_find?_eq_none hnone]
    | succ n =>
      obtain ⟨fuel, rfl⟩ : ∃ k, fuel = k + 1 := ⟨fuel - 1, by omega⟩
      cases hfind : ws.find? (·.isPrefixOf s) with
      | none => rw [stripFront_of_find?_eq_none hfind, stripFront_of_find?_eq_none hfind]
      | some w =>
        have hw : w ≠ [] := hws w (mem_of_find?_eq_some hfind)
        have hpos : 0 < w.length := length_pos_iff.2 hw
        have hle : (s.drop w.length).length ≤ n := by
          rw [length_drop]
          omega
        have hfuel : (s.drop w.length).length ≤ fuel := by omega
        rw [stripFront_of_some hfind, stripFront_of_some hfind, ih fuel (by omega) hfuel]
        by_cases hn : n < fuel + 1
        · rw [ih n hn hle]
        · omega

/-- A carriage return is a word of its own: it does not complete another one. -/
theorem find?_append_cr (hs : s ≠ []) :
    spaces.find? (·.isPrefixOf (s ++ [13])) = spaces.find? (·.isPrefixOf s) := by
  have hwords : ∀ w ∈ spaces, ∀ t, w = t ++ [13] → t = [] := by
    intro w hw t ht
    have hlast : w.getLast? = some 13 := by rw [ht, getLast?_concat]
    have hall : ∀ w ∈ spaces, w.getLast? = some 13 → w = [13] := by decide +kernel
    have hcr := hall w hw hlast
    rw [hcr] at ht
    cases t with
    | nil => rfl
    | cons b t => simp at ht
  have hsame : ∀ w ∈ spaces, w.isPrefixOf (s ++ [13]) = w.isPrefixOf s := by
    intro w hw
    rw [Bool.eq_iff_iff, isPrefixOf_iff_prefix, isPrefixOf_iff_prefix]
    constructor
    · intro hpre
      rcases prefix_concat_iff.1 hpre with heq | hpre
      · exact absurd (hwords w hw s heq) hs
      · exact hpre
    · intro hpre
      exact hpre.trans (prefix_append s [13])
  exact find?_congr hsame

/-- Taking white space off the front, with a carriage return at the end: it goes only with the rest. -/
theorem stripFront_append_cr {fuel : Nat} (h : s.length < fuel) :
    stripFront spaces fuel (s ++ [13])
      = if stripFront spaces fuel s = [] then [] else stripFront spaces fuel s ++ [13] := by
  induction fuel generalizing s with
  | zero => omega
  | succ fuel ih =>
    by_cases hs : s = []
    · subst hs
      have hempty : ∀ n, stripFront spaces n [] = [] := stripFront_of_find?_eq_none (by decide +kernel)
      have hcr : spaces.find? (·.isPrefixOf ([13] : Bytes)) = some [13] := by decide +kernel
      rw [if_pos (hempty _), nil_append, stripFront_of_some hcr]
      exact hempty fuel
    · cases hfind : spaces.find? (·.isPrefixOf s) with
      | none =>
        have hfind' := (find?_append_cr hs).trans hfind
        rw [stripFront_of_find?_eq_none hfind, stripFront_of_find?_eq_none hfind', if_neg hs]
      | some w =>
        have hne : w ≠ [] := by
          have hall : ∀ w ∈ spaces, w ≠ [] := by decide +kernel
          exact hall w (mem_of_find?_eq_some hfind)
        have hword : w <+: s := isPrefixOf_iff_prefix.1 <| @find?_some Bytes (·.isPrefixOf s) _ _ hfind
        have hle := hword.length_le
        have hpos : 0 < w.length := length_pos_iff.2 hne
        rw [stripFront_of_some hfind, stripFront_of_some ((find?_append_cr hs).trans hfind),
          drop_append_of_le_length hle]
        exact ih (by
          rw [length_drop]
          omega)

/-- A carriage return at the end of a line is white space. -/
theorem trimSpace_append_cr (s : Bytes) : trimSpace (s ++ [13]) = trimSpace s := by
  have hne : ∀ w ∈ spaces, w ≠ [] := by decide +kernel
  have hne' : ∀ w ∈ spaces.map List.reverse, w ≠ [] := by decide +kernel
  have hleft : stripFront spaces (s ++ [13]).length (s ++ [13])
      = if stripFront spaces s.length s = [] then [] else stripFront spaces s.length s ++ [13] := by
    rw [length_append, length_singleton, stripFront_append_cr (Nat.lt_succ_self _),
      stripFront_fuel hne (Nat.le_succ s.length)]
  rw [trimSpace, trimSpace, hleft]
  by_cases hempty : stripFront spaces s.length s = []
  · rw [if_pos hempty, hempty]
  · rw [if_neg hempty, reverse_append]
    have hcr : (spaces.map List.reverse).find? (·.isPrefixOf (13 :: (stripFront spaces s.length s).reverse))
        = some [13] := rfl
    show (stripFront (spaces.map List.reverse) _ (13 :: (stripFront spaces s.length s).reverse)).reverse = _
    rw [length_append, length_singleton, stripFront_of_some hcr]
    rfl

end Trim

/-! ## Lines -/

/-- The lines of a text. -/
def splitLines (text : Bytes) : List Bytes := text.splitOn 10

/-- `strings.Join` with newlines. -/
def joinLines (lines : List Bytes) : Bytes := ([10] : Bytes).intercalate lines

/-- `strings.ReplaceAll(text, "\r\n", "\n")`. -/
def replaceCRLF : Bytes → Bytes
  | 13 :: 10 :: rest => 10 :: replaceCRLF rest
  | b :: rest => b :: replaceCRLF rest
  | [] => []

/-- A line without the carriage return at its end. -/
def dropCR (line : Bytes) : Bytes := if line.getLast? = some 13 then line.dropLast else line

theorem trimSpace_dropCR (line : Bytes) : trimSpace (dropCR line) = trimSpace line := by
  rw [dropCR]
  split
  · rename_i hlast
    obtain ⟨front, rfl⟩ := getLast?_eq_some_iff.1 hlast
    rw [dropLast_concat, trimSpace_append_cr]
  · rfl

theorem splitLines_cons {b : UInt8} (h : b ≠ 10) (rest : Bytes) :
    splitLines (b :: rest) = (splitLines rest).modifyHead (b :: ·) := by
  rw [splitLines, splitOn_cons_eq_if_modifyHead, if_neg (by simpa using h)]
  rfl

theorem splitLines_newline (rest : Bytes) : splitLines (10 :: rest) = [] :: splitLines rest := by
  rw [splitLines, splitOn_cons_eq_if_modifyHead, if_pos (beq_self_eq_true _)]
  rfl

/-- Without the carriage returns before its newlines, a text has the same lines, but for those returns. -/
theorem splitLines_replaceCRLF (text : Bytes) :
    List.Forall₂ (fun line' line => line = line' ∨ line = line' ++ [13]) (splitLines (replaceCRLF text))
      (splitLines text) := by
  have hnil : ∀ lines : List Bytes, lines.modifyHead ([] ++ ·) = lines := congrFun modifyHead_id
  -- the bytes of the first line that were passed already stand in front of both
  have hfront : ∀ s : Bytes, List.Forall₂ (fun line' line => line = line' ∨ line = line' ++ [13])
      ((splitLines (replaceCRLF text)).modifyHead (s ++ ·)) ((splitLines text).modifyHead (s ++ ·)) := by
    fun_induction replaceCRLF text with
    | case1 rest ih =>
      intro s
      rw [splitLines_newline, splitLines_cons (by decide), splitLines_newline]
      have hrest := ih []
      rw [hnil, hnil] at hrest
      exact List.Forall₂.cons (.inr (by simp)) hrest
    | case2 b rest _ ih =>
      intro s
      by_cases hb : b = 10
      · rw [hb, splitLines_newline, splitLines_newline]
        have hrest := ih []
        rw [hnil, hnil] at hrest
        exact List.Forall₂.cons (.inl rfl) hrest
      · rw [splitLines_cons hb, splitLines_cons hb, modifyHead_modifyHead, modifyHead_modifyHead]
        simpa [Function.comp_def] using ih (s ++ [b])
    | case3 =>
      intro s
      exact List.Forall₂.cons (.inl rfl) List.Forall₂.nil
  have hall := hfront []
  rwa [hnil, hnil] at hall

theorem exists_of_forall₂_left {α β : Type} {R : α → β → Prop} {as : List α} {bs : List β}
    (h : List.Forall₂ R as bs) : ∀ a ∈ as, ∃ b ∈ bs, R a b := by
  induction h with
  | nil => intro a ha; cases ha
  | cons hab _ ih =>
    intro a ha
    rcases mem_cons.1 ha with rfl | ha
    · exact ⟨_, mem_cons_self, hab⟩
    · obtain ⟨b, hb, hR⟩ := ih a ha
      exact ⟨b, mem_cons_of_mem _ hb, hR⟩

theorem trimSpace_of_cr {line line' : Bytes} (h : line = line' ∨ line = line' ++ [13]) :
    trimSpace line = trimSpace line' := by
  rcases h with rfl | rfl
  · rfl
  · exact trimSpace_append_cr line'

end TorrServer.Lib
