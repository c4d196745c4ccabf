/-
# Gstreamer.Playlist — four functions that cut a media file into segments.

The playlist lists segments, `validateSegmentIndex` accepts segment numbers, `subtitleRange` gives the time of a
segment and `startIndexForSeconds` the number for a time. Each computes the cut of the duration by itself: in
seconds or in nanoseconds, in `int64` or in `uint64`. They agree (`Agrees`) as long as the length of a segment
in nanoseconds is an `int64`.
-/
import TorrServer.Gstreamer.Task

namespace TorrServer.Gstreamer

open List

/-! ## The model -/

/-- An entry of a playlist: the number of a segment and its duration. -/
structure PlaylistEntry where
  index : Int
  itemDurationNS : Nat
  deriving DecidableEq, Repr

/-- What a playlist says. -/
structure Playlist where
  targetDuration : Int
  mediaSequence : Int
  audio : Int
  initSeconds : Option Int
  entries : List PlaylistEntry
  deriving DecidableEq, Repr

/-- A number as an `int64`. -/
def wrapInt64 (x : Int) : Int := Int.bmod x (2 ^ 64)

/-- A number as a `uint64`. -/
def wrapUint64 (x : Int) : Nat := (x % 2 ^ 64).toNat

/-- Addition in `uint64` that stops at the largest value. -/
def saturatingAdd (left right : Nat) : Nat :=
  if 2 ^ 64 - 1 - left < right then 2 ^ 64 - 1 else left + right

namespace Task

variable (media : Media)

/-- `segmentStartNS` of a task without cues. -/
def segmentStartNS (index : Int) : Nat :=
  if index ≤ 0 then 0
  else wrapUint64 (index * max media.segmentSeconds 1 * nanosecondsPerSecond)

/-- `subtitleRange` of a task without cues. -/
def subtitleRange (segmentIndex : Int) : Nat × Nat :=
  let fromNS := segmentStartNS media segmentIndex
  let durationNS := wrapUint64 (max media.segmentSeconds 1 * nanosecondsPerSecond)
  let toNS := saturatingAdd fromNS durationNS
  if 0 < media.durationNS then
    let mediaEndNS := wrapUint64 media.durationNS
    if mediaEndNS ≤ fromNS then (fromNS, fromNS)
    else if mediaEndNS < toNS then (fromNS, mediaEndNS)
    else (fromNS, toNS)
  else (fromNS, toNS)

/-- The segment that plays at `seconds`, at most `count` if that is positive. -/
def startSegmentIndex (seconds segmentSeconds count : Int) : Int :=
  if seconds ≤ 0 ∨ segmentSeconds ≤ 0 then 0
  else
    let index := seconds.tdiv segmentSeconds
    if 0 < count ∧ count < index then count else index

/-- The duration in whole seconds. -/
def durationSeconds : Int :=
  if media.durationNS ≤ 0 then 0 else media.durationNS.tdiv nanosecondsPerSecond

/-- `startIndexForSeconds` of a task without cues. -/
def startIndexForSeconds (seconds : Int) : Int :=
  if seconds ≤ 0 then 0
  else
    let segmentSeconds := max media.segmentSeconds 1
    let duration := durationSeconds media
    let count := if 0 < duration then 1 + (duration - 1).tdiv segmentSeconds else 0
    startSegmentIndex seconds segmentSeconds count

/-- The duration of an entry of the playlist. -/
def itemDurationNS (durationNS count i : Int) : Nat :=
  let segmentNS := wrapUint64 (max media.segmentSeconds 1 * nanosecondsPerSecond)
  if i = count - 1 then
    let startNS := wrapUint64 (i * segmentNS)
    if startNS < wrapUint64 durationNS then wrapUint64 durationNS - startNS else segmentNS
  else segmentNS

/-- `buildTaskPlaylist` of a task without cues; a division by zero ends it. -/
def buildTaskPlaylist (startIndex audio : Int) : Option Playlist :=
  let segmentSeconds := max media.segmentSeconds 1
  let durationNS := if media.durationNS ≤ 0 then 200 * 60 * 1000000000 else media.durationNS
  let segmentDurationNS := wrapInt64 (segmentSeconds * nanosecondsPerSecond)
  if segmentDurationNS = 0 then none
  else
    let count := 1 + (durationNS - 1).tdiv segmentDurationNS
    let startIndex := min (max startIndex 0) count
    some {
      targetDuration := segmentSeconds
      mediaSequence := startIndex
      audio := audio
      initSeconds :=
        if 0 < startIndex then some (segmentStartNS media startIndex / nanosecondsPerSecond) else none
      entries := (List.range (count - startIndex).toNat).map fun (j : Nat) =>
        ⟨startIndex + j, itemDurationNS media durationNS count (startIndex + j)⟩ }

end Task

/-! ## Tilings -/

/-- Non-empty ranges, one after the other, from `start` to `stop`. -/
def Tiles : List (Nat × Nat) → Nat → Nat → Prop
  | [], start, stop => start = stop
  | range :: rest, start, stop => range.1 = start ∧ range.1 < range.2 ∧ Tiles rest range.2 stop

theorem Tiles.append {l l' : List (Nat × Nat)} {start middle stop : Nat} (h : Tiles l start middle)
    (h' : Tiles l' middle stop) : Tiles (l ++ l') start stop := by
  induction l generalizing start with
  | nil =>
    cases h
    exact h'
  | cons range rest ih => exact ⟨h.1, h.2.1, ih h.2.2⟩

/-- Ranges of one width, and a last one that may be shorter. -/
theorem tiles_of_width {width length n : Nat} (hlower : n * width < length)
    (hupper : length ≤ (n + 1) * width) :
    Tiles ((List.range (n + 1)).map fun i => (i * width, min ((i + 1) * width) length)) 0 length := by
  have hpos : 0 < width := by
    rcases Nat.eq_zero_or_pos width with rfl | hpos
    · omega
    · exact hpos
  have hfull : ∀ k, k ≤ n → Tiles ((List.range k).map fun i => (i * width, min ((i + 1) * width) length)) 0
      (k * width) := by
    intro k hk
    induction k with
    | zero => exact (Nat.zero_mul width).symm
    | succ k ih =>
      have hle : (k + 1) * width ≤ n * width := Nat.mul_le_mul_right width hk
      rw [range_succ, map_append]
      refine (ih (by omega)).append ⟨rfl, ?_, ?_⟩
      · show k * width < min ((k + 1) * width) length
        rw [Nat.succ_mul] at hle ⊢
        omega
      · show min ((k + 1) * width) length = (k + 1) * width
        omega
  rw [range_succ, map_append]
  refine (hfull n (Nat.le_refl n)).append ⟨rfl, ?_, ?_⟩
  · show n * width < min ((n + 1) * width) length
    rw [Nat.succ_mul]
    omega
  · show min ((n + 1) * width) length = length
    omega

/-! ## Agreement -/

namespace Task

/-- The four functions agree: the playlist lists the accepted numbers; an entry lasts as long as its range; the
ranges tile the media; and a playlist that starts at a listed number leads back to it. -/
structure Agrees (media : Media) (audio : Int) (p : Playlist) : Prop where
  playlist : buildTaskPlaylist media 0 audio = some p
  accepted : ∀ i, i ∈ p.entries.map PlaylistEntry.index ↔ validateSegmentIndex media i = none
  width : ∀ e ∈ p.entries,
    e.itemDurationNS = (subtitleRange media e.index).2 - (subtitleRange media e.index).1
  tiles : Tiles (p.entries.map fun e => subtitleRange media e.index) 0 media.durationNS.toNat
  restart : ∀ e ∈ p.entries, ∃ p', buildTaskPlaylist media e.index audio = some p' ∧
    p'.mediaSequence = e.index ∧ startIndexForSeconds media (p'.initSeconds.getD 0) = e.index

section

variable {media : Media} {audio i : Int}

/-- A media file whose segments can be measured in `int64` nanoseconds. -/
structure Measured (media : Media) (seconds length : Nat) : Prop where
  seconds_eq : media.segmentSeconds = seconds
  length_eq : media.durationNS = length
  seconds_pos : 0 < seconds
  seconds_le : seconds ≤ 9223372036
  length_pos : 0 < length
  length_lt : length < 2 ^ 63

variable {seconds length : Nat}

/-- The number of full segments in front of the last one. -/
def fullCount (seconds length : Nat) : Nat := (length - 1) / (seconds * 1000000000)

theorem fullCount_mul_lt (hpos : 0 < length) : fullCount seconds length * (seconds * 1000000000) < length := by
  have := Nat.div_mul_le_self (length - 1) (seconds * 1000000000)
  rw [fullCount]
  omega

theorem le_succ_fullCount_mul (hpos : 0 < seconds) :
    length ≤ (fullCount seconds length + 1) * (seconds * 1000000000) := by
  have hmod := Nat.mod_lt (length - 1) (show 0 < seconds * 1000000000 by omega)
  have hdiv := Nat.div_add_mod (length - 1) (seconds * 1000000000)
  rw [fullCount, Nat.succ_mul, Nat.mul_comm]
  omega

theorem start_lt {n : Nat} (hpos : 0 < length) (hn : n ≤ fullCount seconds length) :
    n * (seconds * 1000000000) < length :=
  Nat.lt_of_le_of_lt (Nat.mul_le_mul_right _ hn) (fullCount_mul_lt hpos)

theorem wrapUint64_eq {x : Int} {n : Nat} (hx : x = n) (hn : n < 2 ^ 64) : wrapUint64 x = n := by
  subst hx
  rw [wrapUint64]
  omega

theorem wrapInt64_eq {x : Int} {n : Nat} (hx : x = n) (hn : n < 2 ^ 63) : wrapInt64 x = n := by
  subst hx
  rw [wrapInt64]
  exact Int.bmod_eq_of_le (by omega) (by omega)

namespace Measured

variable (h : Measured media seconds length)
include h

theorem max_seconds : max media.segmentSeconds 1 = seconds := by
  have := h.seconds_pos
  rw [h.seconds_eq]
  omega

theorem width_eq : max media.segmentSeconds 1 * nanosecondsPerSecond = (seconds * 1000000000 : Nat) := by
  rw [h.max_seconds]
  rfl

theorem width_lt : seconds * 1000000000 < 2 ^ 63 := by
  have := h.seconds_le
  omega

theorem segmentStartNS_eq {n : Nat} (hn : n ≤ fullCount seconds length) :
    segmentStartNS media n = n * (seconds * 1000000000) := by
  have hstart := start_lt h.length_pos hn
  have hlt := h.length_lt
  rcases Nat.eq_zero_or_pos n with rfl | hpos
  · rw [Nat.zero_mul]
    rfl
  · rw [segmentStartNS, if_neg (by omega), Int.mul_assoc, h.width_eq]
    exact wrapUint64_eq (Int.natCast_mul _ _).symm (by omega)

theorem subtitleRange_eq {n : Nat} (hn : n ≤ fullCount seconds length) :
    subtitleRange media n
      = (n * (seconds * 1000000000), min ((n + 1) * (seconds * 1000000000)) length) := by
  have hstart := start_lt h.length_pos hn
  have hlt := h.length_lt
  have hwidth := h.width_lt
  have hpos := h.length_pos
  have hend : wrapUint64 media.durationNS = length := wrapUint64_eq h.length_eq (by omega)
  rw [subtitleRange, h.segmentStartNS_eq hn, wrapUint64_eq h.width_eq (by omega), hend, saturatingAdd,
    if_neg (show ¬ 2 ^ 64 - 1 - n * (seconds * 1000000000) < seconds * 1000000000 by omega),
    if_pos (show 0 < media.durationNS by rw [h.length_eq]; omega),
    if_neg (show ¬ length ≤ n * (seconds * 1000000000) by omega), Nat.succ_mul]
  split
  · rw [Nat.min_eq_right (by omega)]
  · rw [Nat.min_eq_left (by omega)]

theorem itemDurationNS_eq {n : Nat} (hn : n ≤ fullCount seconds length) :
    itemDurationNS media length (1 + fullCount seconds length) n
      = min ((n + 1) * (seconds * 1000000000)) length - n * (seconds * 1000000000) := by
  have hstart := start_lt h.length_pos hn
  have hlt := h.length_lt
  have hwidth := h.width_lt
  have hsegment : wrapUint64 (max media.segmentSeconds 1 * nanosecondsPerSecond) = seconds * 1000000000 :=
    wrapUint64_eq h.width_eq (by omega)
  have hend : wrapUint64 (length : Int) = length := wrapUint64_eq rfl (by omega)
  rw [itemDurationNS, hsegment, hend, Nat.succ_mul]
  by_cases hlast : (n : Int) = 1 + fullCount seconds length - 1
  · -- the last one ends with the media
    have heq : n = fullCount seconds length := by omega
    have hupper := @le_succ_fullCount_mul seconds length h.seconds_pos
    rw [← heq, Nat.succ_mul] at hupper
    rw [if_pos hlast, wrapUint64_eq (Int.natCast_mul _ _).symm (by omega), if_pos hstart,
      Nat.min_eq_right hupper]
  · have hnext := start_lt h.length_pos (show n + 1 ≤ fullCount seconds length by omega)
    rw [Nat.succ_mul] at hnext
    rw [if_neg hlast, Nat.min_eq_left (by omega)]
    omega

/-- The numbers that are accepted. -/
theorem validateSegmentIndex_eq_none :
    validateSegmentIndex media i = none ↔ 0 ≤ i ∧ i ≤ fullCount seconds length := by
  have hwidth := h.width_lt
  have hpos := h.seconds_pos
  have hle := h.seconds_le
  have hlength := h.length_pos
  have hlt := h.length_lt
  have hmedia : (maxInt64 / nanosecondsPerSecond < media.segmentSeconds) = False := by
    rw [h.seconds_eq, maxInt64, nanosecondsPerSecond]
    simp only [eq_iff_iff, iff_false]
    omega
  have hdiv : 1 + (media.durationNS - 1) / (media.segmentSeconds * nanosecondsPerSecond)
      = 1 + fullCount seconds length := by
    rw [h.length_eq, h.seconds_eq, fullCount, Int.natCast_ediv, Int.natCast_mul, Int.natCast_sub (by omega)]
    rfl
  have hwithin : (fullCount seconds length : Int)
      ≤ maxInt64 / (media.segmentSeconds * nanosecondsPerSecond) := by
    rw [h.seconds_eq]
    apply Int.le_ediv_of_mul_le
    · have : (0 : Int) < seconds := by omega
      exact Int.mul_pos this (by decide)
    · have hstart := @fullCount_mul_lt seconds length hlength
      have hcast : (fullCount seconds length : Int) * (seconds * nanosecondsPerSecond)
          = ((fullCount seconds length * (seconds * 1000000000) : Nat) : Int) := by
        rw [Int.natCast_mul, Int.natCast_mul]
        rfl
      rw [hcast, maxInt64]
      omega
  rw [validateSegmentIndex, hdiv]
  simp only [hmedia, if_false, h.length_eq]
  split_ifs with hneg hbig hover
  · simp only [false_iff]
    omega
  · simp only [false_iff]
    omega
  · simp only [false_iff]
    omega
  · simp only [true_iff]
    omega

/-- The playlist that starts at an accepted number. -/
theorem buildTaskPlaylist_eq (audio : Int) {n : Nat} (hn : n ≤ fullCount seconds length) :
    buildTaskPlaylist media n audio = some {
      targetDuration := seconds
      mediaSequence := n
      audio := audio
      initSeconds := if 0 < n then some ((n * seconds : Nat) : Int) else none
      entries := (List.range (fullCount seconds length + 1 - n)).map fun j =>
        ⟨(n + j : Nat), itemDurationNS media length (1 + fullCount seconds length) (n + j : Nat)⟩ } := by
  have hlength := h.length_pos
  have hwidth := h.width_lt
  have hseconds := h.seconds_pos
  have hduration : (if media.durationNS ≤ 0 then 200 * 60 * 1000000000 else media.durationNS) = length := by
    rw [h.length_eq, if_neg (by omega)]
  have hsegment : wrapInt64 (seconds * nanosecondsPerSecond) = (seconds * 1000000000 : Nat) :=
    wrapInt64_eq rfl hwidth
  have hcount : 1 + ((length : Int) - 1).tdiv (seconds * 1000000000 : Nat) = 1 + fullCount seconds length := by
    rw [Int.tdiv_eq_ediv_of_nonneg (by omega), fullCount, Int.natCast_ediv, Int.natCast_sub (by omega)]
    rfl
  have hstart : min (max (n : Int) 0) (1 + fullCount seconds length) = n := by omega
  have hinit : (segmentStartNS media n : Int) / nanosecondsPerSecond = (n * seconds : Nat) := by
    rw [h.segmentStartNS_eq hn, ← Nat.mul_assoc, Int.natCast_mul (n * seconds)]
    exact Int.mul_ediv_cancel _ (by decide)
  have hnumber : ((1 : Int) + fullCount seconds length - n).toNat = fullCount seconds length + 1 - n := by omega
  rw [buildTaskPlaylist]
  simp only [hduration, hsegment, hcount, hstart, hinit, hnumber, h.max_seconds]
  rw [if_neg (by omega)]
  simp only [Int.natCast_pos, Int.natCast_add]

/-- The number for the time where a segment starts. -/
theorem startIndexForSeconds_eq {n : Nat} (hn : n ≤ fullCount seconds length) :
    startIndexForSeconds media (n * seconds : Nat) = n := by
  have hseconds := h.seconds_pos
  have hlength := h.length_pos
  rcases Nat.eq_zero_or_pos n with rfl | hpos
  · rw [Nat.zero_mul]
    rfl
  · have hmul : 0 < n * seconds := Nat.mul_pos hpos hseconds
    have hstart := start_lt hlength hn
    rw [← Nat.mul_assoc] at hstart
    -- the whole seconds of the media include the start of the segment
    have hwhole : n * seconds ≤ length / 1000000000 := by
      rw [Nat.le_div_iff_mul_le (by decide)]
      omega
    have hduration : durationSeconds media = (length / 1000000000 : Nat) := by
      rw [durationSeconds, h.length_eq, if_neg (by omega), Int.tdiv_eq_ediv_of_nonneg (by omega),
        Int.natCast_ediv]
      rfl
    have hindex : ((n * seconds : Nat) : Int).tdiv seconds = n := by
      rw [Int.natCast_mul]
      exact Int.mul_tdiv_cancel _ (by omega)
    have hcount : n ≤ 1 + (length / 1000000000 - 1) / seconds := by
      have hone : n - 1 ≤ (length / 1000000000 - 1) / seconds := by
        rw [Nat.le_div_iff_mul_le hseconds, Nat.sub_mul]
        omega
      omega
    have hdiv : ((length / 1000000000 : Nat) - 1 : Int).tdiv seconds
        = ((length / 1000000000 - 1) / seconds : Nat) := by
      rw [Int.tdiv_eq_ediv_of_nonneg (by omega), Int.natCast_ediv (length / 1000000000 - 1),
        Int.natCast_sub (by omega)]
      rfl
    rw [startIndexForSeconds, if_neg (by omega)]
    simp only [h.max_seconds, hduration, hdiv]
    rw [if_pos (by omega), startSegmentIndex, if_neg (by omega)]
    simp only [hindex]
    rw [if_neg (by omega)]

end Measured

/-- **The four functions agree** exactly if a segment can be measured in `int64` nanoseconds. -/
theorem playlist_agrees_iff (hpos : 0 < media.durationNS) (hint64 : media.durationNS ≤ maxInt64)
    (audio : Int) :
    (∃ p, Agrees media audio p) ↔ media.segmentSeconds ≤ maxInt64 / nanosecondsPerSecond := by
  constructor
  · rintro ⟨p, hagrees⟩
    by_contra hlong
    -- no number is accepted, so that none is listed; but the media has a length to tile
    have hnone : ∀ i, validateSegmentIndex media i ≠ none := by
      intro i
      rw [validateSegmentIndex]
      split_ifs <;> simp only [ne_eq, reduceCtorEq, not_false_eq_true]
      omega
    have hempty : p.entries = [] := by
      rw [eq_nil_iff_forall_not_mem]
      intro e he
      exact hnone e.index ((hagrees.accepted e.index).1 (mem_map_of_mem he))
    have htiles := hagrees.tiles
    rw [hempty] at htiles
    have hzero : 0 = media.durationNS.toNat := htiles
    omega
  · intro hshort
    obtain ⟨seconds, hseconds⟩ := Int.eq_ofNat_of_zero_le (Int.le_of_lt media.segmentSeconds_pos)
    obtain ⟨length, hlength⟩ := Int.eq_ofNat_of_zero_le (Int.le_of_lt hpos)
    have hsecondsPos := media.segmentSeconds_pos
    have hmeasured : Measured media seconds length := by
      refine ⟨hseconds, hlength, by omega, ?_, by omega, ?_⟩
      · rw [hseconds, maxInt64, nanosecondsPerSecond] at hshort
        omega
      · rw [hlength, maxInt64] at hint64
        omega
    have hplaylist := hmeasured.buildTaskPlaylist_eq audio (Nat.zero_le _)
    simp only [Nat.sub_zero, Nat.zero_add] at hplaylist
    refine ⟨_, hplaylist, ?_, ?_, ?_, ?_⟩
    · -- the listed numbers are the accepted ones
      intro i
      rw [hmeasured.validateSegmentIndex_eq_none, map_map, mem_map]
      simp only [mem_range, Function.comp_apply]
      constructor
      · rintro ⟨n, hn, rfl⟩
        omega
      · rintro ⟨hzero, hle⟩
        exact ⟨i.toNat, by omega, by omega⟩
    · -- an entry is as long as its range
      intro e he
      obtain ⟨n, hn, rfl⟩ := mem_map.1 he
      have hle : n ≤ fullCount seconds length := Nat.le_of_lt_succ (mem_range.1 hn)
      rw [hmeasured.subtitleRange_eq hle]
      exact hmeasured.itemDurationNS_eq hle
    · have hranges : (List.range (fullCount seconds length + 1)).map (fun n : Nat => subtitleRange media n)
          = (List.range (fullCount seconds length + 1)).map
            fun n => (n * (seconds * 1000000000), min ((n + 1) * (seconds * 1000000000)) length) := by
        apply map_congr_left
        intro n hn
        exact hmeasured.subtitleRange_eq (Nat.le_of_lt_succ (mem_range.1 hn))
      rw [map_map]
      show Tiles ((List.range (fullCount seconds length + 1)).map (fun n : Nat => subtitleRange media n)) 0 _
      rw [hranges, hlength]
      exact tiles_of_width (fullCount_mul_lt hmeasured.length_pos) (le_succ_fullCount_mul hmeasured.seconds_pos)
    · -- a playlist that starts there leads back
      intro e he
      obtain ⟨n, hn, rfl⟩ := mem_map.1 he
      have hle : n ≤ fullCount seconds length := Nat.le_of_lt_succ (mem_range.1 hn)
      refine ⟨_, hmeasured.buildTaskPlaylist_eq audio hle, rfl, ?_⟩
      show startIndexForSeconds media ((if 0 < n then some ((n * seconds : Nat) : Int) else none).getD 0) = n
      split
      · exact hmeasured.startIndexForSeconds_eq hle
      · have hzero : n = 0 := by omega
        rw [hzero]
        rfl

end

/-- An hour of media, cut into segments of the given length. -/
def hour (segmentSeconds : Int) (hpos : 0 < segmentSeconds) : Media :=
  { segmentSeconds := segmentSeconds, durationNS := 3600 * nanosecondsPerSecond, audioTracks := []
    segmentSeconds_pos := hpos }

/-- Segments of seven seconds: the last one is shorter. -/
theorem hour_by_seven_agrees : (hour 7 (by decide)).segmentSeconds ≤ maxInt64 / nanosecondsPerSecond ∧
    ∃ p, Agrees (hour 7 (by decide)) 0 p :=
  ⟨by decide, (playlist_agrees_iff (by decide) (by decide) 0).2 (by decide)⟩

/-- **Beyond the `int64` nanoseconds** the playlist lists segment 0, which is rejected; for a multiple of
`2 ^ 55` it divides by zero. -/
theorem long_segment_listed_not_accepted :
    (buildTaskPlaylist (hour 9223372037 (by decide)) 0 0).map (fun p => p.entries.map PlaylistEntry.index)
        = some [0] ∧
      validateSegmentIndex (hour 9223372037 (by decide)) 0 = some .invalidIdentifier ∧
      buildTaskPlaylist (hour (2 ^ 55) (by decide)) 0 0 = none := by
  decide +kernel

end Task

end TorrServer.Gstreamer
