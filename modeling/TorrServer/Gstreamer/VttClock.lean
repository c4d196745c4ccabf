/-
# Gstreamer.VttClock — the times of WebVTT cues.

`formatVTTClock` prints a time in nanoseconds as `hh:mm:ss.mmm`, and `parseVTTClock` reads such a text. Reading
back gives the time rounded down to whole milliseconds.
-/
import TorrServer.Lib.Utf8
import TorrServer.Lib.Split

namespace TorrServer.Gstreamer

open List

open Lib (Bytes formatPadded parseUint trimSpace isDigit)

/-! ## The model -/

/-- `HH:MM:SS.mmm`, with more digits of hours where needed. -/
def formatVTTClock (valueNS : Nat) : Bytes :=
  let totalMilliseconds := valueNS / 1000000
  let milliseconds := totalMilliseconds % 1000
  let totalSeconds := totalMilliseconds / 1000
  let seconds := totalSeconds % 60
  let minutes := totalSeconds / 60 % 60
  let hours := totalSeconds / 3600
  formatPadded 2 hours ++ 58 :: formatPadded 2 minutes ++ 58 :: formatPadded 2 seconds ++
    46 :: formatPadded 3 milliseconds

/-- `strings.Replace(value, ",", ".", 1)`. -/
def replaceComma : Bytes → Bytes
  | [] => []
  | b :: rest => if b = 44 then 46 :: rest else b :: replaceComma rest

/-- `parseVTTClock`; the sum is one of `uint64`s. -/
def parseVTTClock (value : Bytes) : Option Nat :=
  match (trimSpace (replaceComma value)).splitOn 58 with
  | [hours, minutes, rest] =>
    match parseUint hours, parseUint minutes, rest.splitOn 46 with
    | some hours, some minutes, [seconds, millisecondsText] =>
      if 59 < minutes then none
      else
        match parseUint seconds with
        | none => none
        | some seconds =>
          if 59 < seconds then none
          else
            let millisecondsText := millisecondsText.take 3
            let millisecondsText := millisecondsText ++ List.replicate (3 - millisecondsText.length) 48
            match parseUint millisecondsText with
            | none => none
            | some milliseconds =>
              some (((hours * 3600 + minutes * 60 + seconds) * 1000000000 + milliseconds * 1000000) % 2 ^ 64)
    | _, _, _ => none
  | _ => none

/-! ## Reading back -/

/-- The bytes of a clock. -/
def isClockByte (b : UInt8) : Bool := isDigit b || b == 58 || b == 46

theorem not_mem_formatPadded {b : UInt8} (hb : isDigit b = false) (width n : Nat) :
    b ∉ formatPadded width n := by
  intro hmem
  rw [Lib.formatPadded_digits width n b hmem] at hb
  cases hb

theorem isClockByte_formatVTTClock (valueNS : Nat) : ∀ b ∈ formatVTTClock valueNS, isClockByte b = true := by
  have hdigits : ∀ width n, ∀ b ∈ formatPadded width n, isClockByte b = true := by
    intro width n b hb
    unfold isClockByte
    rw [Lib.formatPadded_digits width n b hb]
    rfl
  intro b hb
  unfold formatVTTClock at hb
  simp only [mem_append, mem_cons] at hb
  rcases hb with ((hb | rfl | hb) | rfl | hb) | rfl | hb
  · exact hdigits _ _ b hb
  · rfl
  · exact hdigits _ _ b hb
  · rfl
  · exact hdigits _ _ b hb
  · rfl
  · exact hdigits _ _ b hb

theorem replaceComma_of_forall {value : Bytes} (h : ∀ b ∈ value, isClockByte b = true) :
    replaceComma value = value := by
  induction value with
  | nil => rfl
  | cons b rest ih =>
    have hb : b ≠ 44 := by
      rintro rfl
      exact absurd (h 44 mem_cons_self) (by decide)
    rw [replaceComma, if_neg hb, ih fun b' hb' => h b' (mem_cons_of_mem b hb')]

theorem splitOn_two {x : UInt8} {a b : Bytes} (ha : x ∉ a) (hb : x ∉ b) : (a ++ x :: b).splitOn x = [a, b] := by
  rw [List.splitOn_append_cons_self, List.splitOn_eq_singleton ha, List.splitOn_eq_singleton hb]
  rfl

theorem splitOn_three {x : UInt8} {a b c : Bytes} (ha : x ∉ a) (hb : x ∉ b) (hc : x ∉ c) :
    (a ++ x :: b ++ x :: c).splitOn x = [a, b, c] := by
  rw [List.splitOn_append_cons_self, splitOn_two ha hb, List.splitOn_eq_singleton hc]
  rfl

/-- A time rounded down to whole milliseconds. -/
def floorMS (valueNS : Nat) : Nat := valueNS / 1000000 * 1000000

/-- **What is printed is the time in whole milliseconds.** -/
theorem parseVTTClock_formatVTTClock {valueNS : Nat} (h : valueNS < 2 ^ 64) :
    parseVTTClock (formatVTTClock valueNS) = some (floorMS valueNS) := by
  have htrim : trimSpace (replaceComma (formatVTTClock valueNS)) = formatVTTClock valueNS := by
    rw [replaceComma_of_forall (isClockByte_formatVTTClock valueNS)]
    exact Lib.trimSpace_of_forall (by decide) (by decide) (isClockByte_formatVTTClock valueNS)
  have hcolon : ∀ width n, (58 : UInt8) ∉ formatPadded width n := not_mem_formatPadded rfl
  have hdot : ∀ width n, (46 : UInt8) ∉ formatPadded width n := not_mem_formatPadded rfl
  unfold parseVTTClock
  rw [htrim]
  unfold formatVTTClock
  extract_lets totalMilliseconds milliseconds totalSeconds seconds minutes hours
  have hsplit : (formatPadded 2 hours ++ 58 :: formatPadded 2 minutes ++ 58 :: formatPadded 2 seconds ++
      46 :: formatPadded 3 milliseconds).splitOn 58 =
        [formatPadded 2 hours, formatPadded 2 minutes, formatPadded 2 seconds ++
          46 :: formatPadded 3 milliseconds] := by
    rw [append_assoc _ (58 :: formatPadded 2 seconds), cons_append]
    apply splitOn_three (hcolon _ _) (hcolon _ _)
    simp [hcolon]
  have hsplit' := splitOn_two (hdot 2 seconds) (hdot 3 milliseconds)
  have hlen : (formatPadded 3 milliseconds).length = 3 :=
    Lib.length_formatPadded (show milliseconds < 10 ^ 3 by unfold milliseconds; omega) (by decide)
  have htext : (formatPadded 3 milliseconds).take 3 ++
      List.replicate (3 - ((formatPadded 3 milliseconds).take 3).length) 48 = formatPadded 3 milliseconds := by
    rw [take_of_length_le (by omega), hlen]
    exact append_nil _
  have hhours : hours < 2 ^ 64 := by unfold hours totalSeconds totalMilliseconds; omega
  have hminutes : minutes ≤ 59 := by unfold minutes; omega
  have hseconds : seconds ≤ 59 := by unfold seconds; omega
  have hmilliseconds : milliseconds < 2 ^ 64 := by unfold milliseconds; omega
  have hsum : ((hours * 3600 + minutes * 60 + seconds) * 1000000000 + milliseconds * 1000000)
      = floorMS valueNS := by
    unfold floorMS hours minutes seconds milliseconds totalSeconds totalMilliseconds
    omega
  rw [hsplit]
  simp only [Lib.parseUint_formatPadded 2 hhours, Lib.parseUint_formatPadded 2 (show minutes < 2 ^ 64 by omega),
    hsplit', Lib.parseUint_formatPadded 2 (show seconds < 2 ^ 64 by omega), htext,
    Lib.parseUint_formatPadded 3 hmilliseconds, hsum]
  rw [if_neg (by omega), if_neg (by omega), Nat.mod_eq_of_lt]
  unfold floorMS
  omega

/-- A text with a comma for its point. -/
theorem replaceComma_append {a : Bytes} (h : 44 ∉ a) (b : Bytes) :
    replaceComma (a ++ 44 :: b) = a ++ 46 :: b := by
  induction a with
  | nil => rfl
  | cons x a ih =>
    rw [cons_append, replaceComma, if_neg (ne_of_not_mem_cons h).symm, ih (not_mem_of_not_mem_cons h)]
    rfl

/-- The text has one point, and reads the same with a comma there. -/
theorem replaceComma_formatVTTClock (valueNS : Nat) :
    replaceComma ((formatVTTClock valueNS).map fun b => if b = 46 then 44 else b)
      = replaceComma (formatVTTClock valueNS) := by
  rw [replaceComma_of_forall (isClockByte_formatVTTClock valueNS)]
  unfold formatVTTClock
  extract_lets totalMilliseconds milliseconds totalSeconds seconds minutes hours
  have hpadded : ∀ width n, (formatPadded width n).map (fun b => if b = 46 then 44 else b)
      = formatPadded width n := by
    intro width n
    have hsame : ∀ b ∈ formatPadded width n, (if b = 46 then 44 else b) = id b := fun b hb =>
      if_neg fun heq => not_mem_formatPadded rfl width n (heq ▸ hb)
    rw [map_congr_left hsame, map_id]
  have hcomma : ∀ width n, (44 : UInt8) ∉ formatPadded width n := not_mem_formatPadded rfl
  rw [map_append, map_append, map_append, map_cons, map_cons, map_cons, hpadded, hpadded, hpadded, hpadded]
  apply replaceComma_append
  show 44 ∉ formatPadded 2 hours ++ 58 :: formatPadded 2 minutes ++ 58 :: formatPadded 2 seconds
  simp [hcomma]

/-- **A clock that is printed and read** gives the time in whole milliseconds, with a point and with a comma, as
a `uint64`. -/
theorem parseVTTClock_round_trip {x : Nat} (h : x < 2 ^ 64) :
    parseVTTClock (formatVTTClock x) = some (x / 1000000 * 1000000) ∧
      parseVTTClock ((formatVTTClock x).map fun b => if b = 46 then 44 else b) = some (x / 1000000 * 1000000) ∧
      (x / 1000000 / 1000 / 3600 * 3600 + x / 1000000 / 1000 / 60 % 60 * 60 + x / 1000000 / 1000 % 60) *
          1000000000 + x / 1000000 % 1000 * 1000000 = x / 1000000 * 1000000 ∧
      x / 1000000 * 1000000 < 2 ^ 64 := by
  refine ⟨parseVTTClock_formatVTTClock h, ?_, by omega, by omega⟩
  have hread := parseVTTClock_formatVTTClock h
  unfold parseVTTClock at hread ⊢
  rw [replaceComma_formatVTTClock]
  exact hread

theorem parseVTTClock_round_trip_max :
    parseVTTClock (formatVTTClock (2 ^ 64 - 1)) = some 18446744073709000000 :=
  (parseVTTClock_round_trip (by decide)).1

end TorrServer.Gstreamer
