/-
# Gstreamer.Subtitles — the cues of a segment.

`renderVTT` prints the part of every cue that lies within the range of a segment, as times from the start of the
range on. The pieces of a cue fit together since the ranges do and since every range starts at a whole
millisecond, so that rounding down the time from the start of the range rounds down the time itself. Both need
that `segmentStartNS` does not wrap.
-/
import TorrServer.Gstreamer.VttClock
import TorrServer.Gstreamer.Playlist

namespace TorrServer.Gstreamer

open Lib (Bytes ascii formatNat)
open TorrServer.Gstreamer.Task (subtitleRange segmentStartNS)

/-! ## The model -/

/-- A text and the time it is shown. -/
structure SubtitleCue where
  startNS : Nat
  endNS : Nat
  text : Bytes
  deriving DecidableEq, Repr

/-- A `subtitleStore`, with the text that was not matched yet and the cues that were seen. -/
structure SubtitleStore where
  cues : List SubtitleCue := []
  seen : List SubtitleCue := []
  pending : Bytes := []
  videoReadTo : Nat := 0
  deriving DecidableEq, Repr

/-- Nanoseconds as ticks of the 90 kHz clock. -/
def clockTimeToMPEGTS (valueNS : Nat) : Nat :=
  (valueNS / 1000000000 * 90000 + valueNS % 1000000000 * 90000 / 1000000000) % 2 ^ 64

/-- The header maps the start of the file to `startNS`. -/
def writeVTTHeader (startNS : Nat) : Bytes :=
  ascii "WEBVTT\nX-TIMESTAMP-MAP=LOCAL:00:00:00.000,MPEGTS:" ++ formatNat (clockTimeToMPEGTS startNS) ++
    ascii "\n\n"

/-- The printed times of a cue, from the start of the range on, which is a difference of `uint64`s. -/
def clip (fromNS toNS : Nat) (cue : SubtitleCue) : Option (Nat × Nat) :=
  if cue.endNS ≤ fromNS ∨ toNS ≤ cue.startNS then none
  else
    let startNS := if fromNS < cue.startNS then cue.startNS - fromNS else 0
    let endNS := if cue.endNS < toNS then cue.endNS - fromNS else wrapUint64 ((toNS : Int) - fromNS)
    if endNS ≤ startNS then none else some (startNS, endNS)

/-- The lines of a cue. -/
def writeCue (startNS endNS : Nat) (text : Bytes) : Bytes :=
  formatVTTClock startNS ++ ascii " --> " ++ formatVTTClock endNS ++ ascii "\n" ++ text ++
    ascii "\n\n"

/-- `renderVTT`: the text, and whether it is complete. -/
def SubtitleStore.renderVTT (s : SubtitleStore) (fromNS toNS : Nat) : Bytes × Bool :=
  let result := s.cues.foldl (fun result cue =>
    match clip fromNS toNS cue with
    | none => result
    | some (startNS, endNS) => result ++ writeCue startNS endNS cue.text) (writeVTTHeader fromNS)
  (result, toNS ≤ fromNS ∨ toNS ≤ s.videoReadTo)

/-! ## Cutting an interval -/

/-- The part of an interval between two points, if it is more than a point. -/
def part (start stop lower upper : Nat) : Option (Nat × Nat) :=
  if max start lower < min stop upper then some (max start lower, min stop upper) else none

theorem part_congr {start stop lower upper lower' upper' : Nat}
    (hmeets : max start lower < min stop upper ↔ max start lower' < min stop upper')
    (hsame : max start lower < min stop upper → max start lower = max start lower' ∧
      min stop upper = min stop upper') :
    part start stop lower upper = part start stop lower' upper' := by
  unfold part
  by_cases h : max start lower < min stop upper
  · rw [if_pos h, if_pos (hmeets.1 h), (hsame h).1, (hsame h).2]
  · rw [if_neg h, if_neg fun h' => h (hmeets.2 h')]

/-- Intervals from `start` to `stop`, each beginning where the one before ends. -/
def Abut : List (Nat × Nat) → Nat → Nat → Prop
  | [], start, stop => start = stop
  | piece :: rest, start, stop => piece.1 = start ∧ piece.1 ≤ piece.2 ∧ Abut rest piece.2 stop

theorem Abut.concat {l : List (Nat × Nat)} {start middle stop : Nat} (h : Abut l start middle)
    (hle : middle ≤ stop) :
    Abut (l ++ [(middle, stop)]) start stop := by
  induction l generalizing start with
  | nil =>
    cases h
    exact ⟨rfl, hle, rfl⟩
  | cons piece rest ih => exact ⟨h.1, h.2.1, ih h.2.2⟩

theorem Abut.map_monotone {f : Nat → Nat} (hf : ∀ a b, a ≤ b → f a ≤ f b) {l : List (Nat × Nat)}
    {start stop : Nat}
    (h : Abut l start stop) : Abut (l.map fun piece => (f piece.1, f piece.2)) (f start) (f stop) := by
  induction l generalizing start with
  | nil => exact congrArg f h
  | cons piece rest ih => exact ⟨congrArg f h.1, hf _ _ h.2.1, ih h.2.2⟩

/-- **The parts of an interval between points in order abut**, up to the last point. -/
theorem abut_parts {bound : Nat → Nat} (hbound : ∀ i, bound i ≤ bound (i + 1)) (start stop first count : Nat) :
    let parts := (List.range' first count).filterMap fun i => part start stop (bound i) (bound (i + 1))
    if max start (bound first) < min stop (bound (first + count)) then
      Abut parts (max start (bound first)) (min stop (bound (first + count)))
    else parts = [] := by
  have hmono : ∀ k, bound first ≤ bound (first + k) := by
    intro k
    induction k with
    | zero => exact Nat.le_refl _
    | succ k ih => exact Nat.le_trans ih (hbound (first + k))
  intro parts
  induction count with
  | zero =>
    rw [if_neg (by rw [Nat.add_zero]; omega)]
    rfl
  | succ count ih =>
    have hlast := hbound (first + count)
    have hfirst := hmono count
    have hparts : parts
        = ((List.range' first count).filterMap fun i => part start stop (bound i) (bound (i + 1))) ++
        (part start stop (bound (first + count)) (bound (first + count + 1))).toList := by
      unfold parts
      rw [List.range'_1_concat, List.filterMap_append]
      cases hpart : part start stop (bound (first + count)) (bound (first + count + 1)) <;> simp [hpart]
    rw [hparts, ← Nat.add_assoc]
    generalize (List.range' first count).filterMap (fun i => part start stop (bound i) (bound (i + 1))) = before
      at ih
    unfold part
    by_cases hbefore : max start (bound first) < min stop (bound (first + count))
    · rw [if_pos hbefore] at ih
      rw [if_pos (by omega)]
      by_cases hnext : max start (bound (first + count)) < min stop (bound (first + count + 1))
      · -- the interval reaches over the last point but one
        rw [if_pos hnext, show max start (bound (first + count)) = min stop (bound (first + count)) by omega]
        exact ih.concat (by omega)
      · rw [if_neg hnext, show min stop (bound (first + count + 1)) = min stop (bound (first + count)) by omega]
        simpa using ih
    · rw [if_neg hbefore] at ih
      rw [ih]
      by_cases hnext : max start (bound (first + count)) < min stop (bound (first + count + 1))
      · rw [if_pos hnext, if_pos (by omega)]
        exact ⟨by show max start (bound (first + count)) = _; omega, hnext.le, rfl⟩
      · rw [if_neg hnext, if_neg (by omega)]
        rfl

/-! ## What is printed -/

section Printing

variable {fromNS toNS : Nat}

/-- The part of a cue within the range is printed, from the start of the range on. -/
theorem clip_eq (hrange : fromNS ≤ toNS) (hto : toNS < 2 ^ 64) (cue : SubtitleCue) :
    clip fromNS toNS cue =
      (part cue.startNS cue.endNS fromNS toNS).map fun piece => (piece.1 - fromNS, piece.2 - fromNS) := by
  have hwidth : wrapUint64 ((toNS : Int) - fromNS) = toNS - fromNS := by
    unfold wrapUint64
    rw [Int.emod_eq_of_lt (by omega) (by omega)]
    omega
  unfold clip part
  rw [hwidth]
  by_cases hout : cue.endNS ≤ fromNS ∨ toNS ≤ cue.startNS
  · rw [if_pos hout, if_neg (by omega)]
    rfl
  · have hstart : (if fromNS < cue.startNS then cue.startNS - fromNS else 0)
        = max cue.startNS fromNS - fromNS := by
      split <;> omega
    have hend : (if cue.endNS < toNS then cue.endNS - fromNS else toNS - fromNS)
        = min cue.endNS toNS - fromNS := by
      split <;> omega
    rw [if_neg hout]
    simp only [hstart, hend]
    by_cases hmeets : max cue.startNS fromNS < min cue.endNS toNS
    · rw [if_pos hmeets, if_neg (by omega)]
      rfl
    · rw [if_neg hmeets, if_pos (by omega)]
      rfl

theorem renderVTT_fst (s : SubtitleStore) :
    (s.renderVTT fromNS toNS).1 = writeVTTHeader fromNS ++ (s.cues.filterMap fun cue =>
      (clip fromNS toNS cue).map fun times => writeCue times.1 times.2 cue.text).flatten := by
  have hfold : ∀ (cues : List SubtitleCue) (result : Bytes), cues.foldl (fun result cue =>
      match clip fromNS toNS cue with
      | none => result
      | some (startNS, endNS) => result ++ writeCue startNS endNS cue.text) result =
        result ++ (cues.filterMap fun cue =>
          (clip fromNS toNS cue).map fun times => writeCue times.1 times.2 cue.text).flatten := by
    intro cues
    induction cues with
    | nil => exact fun result => (List.append_nil result).symm
    | cons cue cues ih =>
      intro result
      rw [List.foldl_cons, ih]
      cases hclip : clip fromNS toNS cue <;> simp [hclip]
  exact hfold s.cues (writeVTTHeader fromNS)

/-- A time from a whole millisecond on, rounded down. -/
theorem floorMS_sub {valueNS : Nat} (hfrom : fromNS % 1000000 = 0) (hle : fromNS ≤ valueNS) :
    fromNS + floorMS (valueNS - fromNS) = floorMS valueNS := by
  unfold floorMS
  omega

theorem floorMS_mono (a b : Nat) (h : a ≤ b) : floorMS a ≤ floorMS b :=
  Nat.mul_le_mul_right _ (Nat.div_le_div_right h)

end Printing

/-! ## The ranges of the segments -/

section Ranges

variable {media : Media}

/-- The length of a segment in nanoseconds. -/
def segmentNS (media : Media) : Nat := (max media.segmentSeconds 1).toNat * 1000000000

/-- Where the segments before a number end: the media end, if it is known, is an end of all. -/
def reached (media : Media) (i : Nat) : Nat :=
  if 0 < media.durationNS then min (i * segmentNS media) (wrapUint64 media.durationNS) else i * segmentNS media

theorem wrapUint64_of_lt {n : Nat} (h : n < 2 ^ 64) : wrapUint64 (n : Int) = n := by
  unfold wrapUint64
  rw [Int.emod_eq_of_lt (by omega) (by omega)]
  omega

/-- The product of the source, as a number. -/
theorem segmentNS_cast (index : Nat) :
    (index : Int) * max media.segmentSeconds 1 * nanosecondsPerSecond = (index * segmentNS media : Nat) := by
  have hseconds : (((max media.segmentSeconds 1).toNat : Nat) : Int) = max media.segmentSeconds 1 :=
    Int.toNat_of_nonneg (by omega)
  unfold segmentNS nanosecondsPerSecond
  rw [Int.natCast_mul, Int.natCast_mul, hseconds, Int.mul_assoc]
  rfl

theorem segmentStartNS_of_lt {index : Int} (h : index.toNat * segmentNS media < 2 ^ 64) :
    segmentStartNS media index = index.toNat * segmentNS media := by
  unfold segmentStartNS
  split
  · rename_i hneg
    rw [Int.toNat_eq_zero.2 hneg, Nat.zero_mul]
  · rename_i hpos
    have hcast := @segmentNS_cast media index.toNat
    rw [Int.toNat_of_nonneg (by omega)] at hcast
    rw [hcast, wrapUint64_of_lt h]

/-- The range of a segment does not end before it starts, and ends at a `uint64`. -/
theorem subtitleRange_le (index : Int) :
    (subtitleRange media index).1 = segmentStartNS media index ∧
      (subtitleRange media index).1 ≤ (subtitleRange media index).2 ∧
        (subtitleRange media index).2 < 2 ^ 64 := by
  have hwrap : ∀ x : Int, wrapUint64 x < 2 ^ 64 := by
    intro x
    unfold wrapUint64
    omega
  have hstart : segmentStartNS media index < 2 ^ 64 := by
    unfold segmentStartNS
    split
    · decide
    · exact hwrap _
  have hend := hwrap media.durationNS
  have hsum : ∀ x, segmentStartNS media index ≤ saturatingAdd (segmentStartNS media index) x ∧
      saturatingAdd (segmentStartNS media index) x < 2 ^ 64 := by
    intro x
    unfold saturatingAdd
    split <;> omega
  have hto := hsum (wrapUint64 (max media.segmentSeconds 1 * nanosecondsPerSecond))
  unfold subtitleRange
  extract_lets fromNS durationNS toNS mediaEndNS
  have hto : fromNS ≤ toNS ∧ toNS < 2 ^ 64 := hto
  have hend : mediaEndNS < 2 ^ 64 := hend
  split
  · split
    · exact ⟨rfl, Nat.le_refl _, hstart⟩
    · split
      · exact ⟨rfl, by show fromNS ≤ mediaEndNS; omega, hend⟩
      · exact ⟨rfl, hto⟩
  · exact ⟨rfl, hto⟩

/-- The part of an interval in a segment lies between the ends of the segments before and this one. -/
theorem part_subtitleRange {i start stop : Nat} (hlength : segmentNS media < 2 ^ 64)
    (hstart : i * segmentNS media < 2 ^ 64) (hstop : stop < 2 ^ 64) :
    part start stop (subtitleRange media i).1 (subtitleRange media i).2 =
      part start stop (reached media i) (reached media (i + 1)) := by
  have hfrom : segmentStartNS media i = i * segmentNS media := @segmentStartNS_of_lt media i hstart
  have hcast := @segmentNS_cast media 1
  rw [Int.natCast_one, Int.one_mul, Nat.one_mul] at hcast
  have hduration : wrapUint64 (max media.segmentSeconds 1 * nanosecondsPerSecond) = segmentNS media := by
    rw [hcast, wrapUint64_of_lt hlength]
  unfold subtitleRange reached
  rw [hfrom, hduration, Nat.succ_mul]
  generalize i * segmentNS media = fromNS at hstart ⊢
  generalize segmentNS media = width at hlength ⊢
  generalize wrapUint64 media.durationNS = mediaEndNS
  have hto : min stop (saturatingAdd fromNS width) = min stop (fromNS + width) := by
    unfold saturatingAdd
    split <;> omega
  by_cases hknown : 0 < media.durationNS
  · simp only [if_pos hknown]
    by_cases hbehind : mediaEndNS ≤ fromNS
    · rw [if_pos hbehind]
      apply part_congr <;> omega
    · rw [if_neg hbehind]
      by_cases hover : mediaEndNS < saturatingAdd fromNS width
      · rw [if_pos hover]
        have hle : mediaEndNS ≤ fromNS + width := by
          unfold saturatingAdd at hover
          split at hover <;> omega
        apply part_congr <;> omega
      · rw [if_neg hover]
        apply part_congr <;> omega
  · simp only [if_neg hknown]
    apply part_congr <;> omega

theorem reached_le_succ (media : Media) (i : Nat) : reached media i ≤ reached media (i + 1) := by
  unfold reached
  rw [Nat.succ_mul]
  split <;> omega

end Ranges

/-- What is printed for a cue in a segment: the part in its range, in whole milliseconds. -/
def piece (media : Media) (cue : SubtitleCue) (index : Int) : Option (Nat × Nat) :=
  (part cue.startNS cue.endNS (subtitleRange media index).1 (subtitleRange media index).2).map
    fun piece => (floorMS piece.1, floorMS piece.2)

/-- The text of a segment: one interval for each cue with a part in its range, in order. -/
theorem renderVTT_eq (media : Media) (s : SubtitleStore) (index : Int) : let range := subtitleRange media index
    (s.renderVTT range.1 range.2).1 = writeVTTHeader range.1 ++ (s.cues.filterMap fun cue =>
      (part cue.startNS cue.endNS range.1 range.2).map fun piece =>
        writeCue (piece.1 - range.1) (piece.2 - range.1) cue.text).flatten := by
  intro range
  obtain ⟨-, hle, hlt⟩ := @subtitleRange_le media index
  have hclip : ∀ cue, clip range.1 range.2 cue = _ := clip_eq hle hlt
  rw [renderVTT_fst]
  simp only [hclip, Option.map_map]
  rfl

/-- The times of an interval, as they are read from the text. -/
theorem parseVTTClock_part {media : Media} {index : Int} (hstart : index.toNat * segmentNS media < 2 ^ 64)
    {cue : SubtitleCue} {times : Nat × Nat} :
    let range := subtitleRange media index
    part cue.startNS cue.endNS range.1 range.2 = some times →
      ∃ start stop, parseVTTClock (formatVTTClock (times.1 - range.1)) = some start ∧
        parseVTTClock (formatVTTClock (times.2 - range.1)) = some stop ∧
        piece media cue index = some (range.1 + start, range.1 + stop) := by
  intro range hpart
  obtain ⟨hfrom, hle, hlt⟩ := @subtitleRange_le media index
  -- the start of a segment is a whole number of seconds
  have haligned : range.1 % 1000000 = 0 := by
    show (subtitleRange media index).1 % 1000000 = 0
    rw [hfrom, segmentStartNS_of_lt hstart]
    unfold segmentNS
    rw [← Nat.mul_assoc]
    omega
  have hbounds : range.1 ≤ times.1 ∧ range.1 ≤ times.2 ∧ times.1 < 2 ^ 64 ∧ times.2 < 2 ^ 64 := by
    unfold part at hpart
    split at hpart
    · cases hpart
      have hle : range.1 ≤ range.2 := hle
      have hlt : range.2 < 2 ^ 64 := hlt
      refine ⟨?_, ?_, ?_, ?_⟩ <;> simp only <;> omega
    · cases hpart
  refine ⟨_, _, parseVTTClock_formatVTTClock (by omega), parseVTTClock_formatVTTClock (by omega), ?_⟩
  unfold piece
  rw [floorMS_sub haligned hbounds.1, floorMS_sub haligned hbounds.2.1]
  show (part cue.startNS cue.endNS range.1 range.2).map _ = _
  rw [hpart]
  rfl

/-- The pieces of a cue over consecutive segments. -/
theorem abut_pieces {media : Media} (hlength : segmentNS media < 2 ^ 64) {cue : SubtitleCue}
    (hcue : cue.endNS < 2 ^ 64) {first count : Nat} (hstarts : (first + count - 1) * segmentNS media < 2 ^ 64) :
    let pieces := (List.range' first count).filterMap fun i : Nat => piece media cue i
    let start := max cue.startNS (reached media first)
    let stop := min cue.endNS (reached media (first + count))
    (start < stop → Abut pieces (floorMS start) (floorMS stop)) ∧ (¬ start < stop → pieces = []) := by
  intro pieces start stop
  have hparts := abut_parts (reached_le_succ media) cue.startNS cue.endNS first count
  have hpieces : pieces = ((List.range' first count).filterMap fun i =>
      part cue.startNS cue.endNS (reached media i) (reached media (i + 1))).map
        fun piece => (floorMS piece.1, floorMS piece.2) := by
    unfold pieces
    rw [List.map_filterMap]
    apply List.filterMap_congr
    intro i hi
    have hle : i ≤ first + count - 1 := by
      have := List.mem_range'_1.1 hi
      omega
    have hstart : i * segmentNS media < 2 ^ 64 := Nat.lt_of_le_of_lt (Nat.mul_le_mul_right _ hle) hstarts
    unfold piece
    rw [part_subtitleRange hlength hstart hcue]
  rw [hpieces]
  constructor
  · intro hmeets
    rw [if_pos hmeets] at hparts
    exact hparts.map_monotone floorMS_mono
  · intro hmeets
    rw [if_neg hmeets] at hparts
    rw [hparts]
    rfl

/-- **`renderVTT`** prints of every cue, in order, the part in the range if it is more than a point, in whole
milliseconds; the pieces over consecutive segments abut, and are all of the cue up to where these segments or
the media end; and the text is complete if the range is empty or was read. -/
theorem renderVTT_prints (media : Media) (s : SubtitleStore) :
    (∀ index : Int, index.toNat * segmentNS media < 2 ^ 64 →
      let range := subtitleRange media index
      (s.renderVTT range.1 range.2).1 = writeVTTHeader range.1 ++ (s.cues.filterMap fun cue =>
        (part cue.startNS cue.endNS range.1 range.2).map fun times =>
          writeCue (times.1 - range.1) (times.2 - range.1) cue.text).flatten ∧
      (∀ (cue : SubtitleCue) times, part cue.startNS cue.endNS range.1 range.2 = some times →
        ∃ start stop, parseVTTClock (formatVTTClock (times.1 - range.1)) = some start ∧
          parseVTTClock (formatVTTClock (times.2 - range.1)) = some stop ∧
          range.1 + start = floorMS times.1 ∧ range.1 + stop = floorMS times.2) ∧
      ((s.renderVTT range.1 range.2).2 = true ↔ range.2 ≤ range.1 ∨ range.2 ≤ s.videoReadTo)) ∧
    (segmentNS media < 2 ^ 64 → ∀ cue ∈ s.cues, cue.endNS < 2 ^ 64 →
      ∀ first count : Nat, (first + count - 1) * segmentNS media < 2 ^ 64 →
      let pieces := (List.range' first count).filterMap fun i : Nat => piece media cue i
      let start := max cue.startNS (reached media first)
      let stop := min cue.endNS (reached media (first + count))
      (start < stop → Abut pieces (floorMS start) (floorMS stop)) ∧ (¬ start < stop → pieces = [])) := by
  refine ⟨fun index hstart => ⟨renderVTT_eq media s index, ?_, ?_⟩, ?_⟩
  · intro cue times hpart
    obtain ⟨start, stop, hread, hread', hpiece⟩ := parseVTTClock_part hstart hpart
    unfold piece at hpiece
    rw [hpart] at hpiece
    obtain ⟨hfirst, hlast⟩ := Prod.mk.inj (Option.some.inj hpiece)
    exact ⟨start, stop, hread, hread', hfirst.symm, hlast.symm⟩
  · exact decide_eq_true_iff
  · intro hlength cue _ hcue first count hstarts
    exact abut_pieces hlength hcue hstarts

/-- Segments of six seconds, and a cue from second 5 to second 13 of a film of 20 seconds. -/
theorem renderVTT_prints_three_pieces : let media : Media := ⟨6, 20000000000, [], by decide⟩
    let cue : SubtitleCue := ⟨5000000000, 13000000000, ascii "a"⟩
    let pieces := [(5000000000, 6000000000), (6000000000, 12000000000), (12000000000, 13000000000)]
    (List.range' 0 4).filterMap (fun i : Nat => piece media cue i) = pieces ∧
      Abut pieces 5000000000 13000000000 := by
  intro media cue pieces
  have hlength : segmentNS media < 2 ^ 64 := by decide +kernel
  have hmem : cue ∈ ({ cues := [cue] } : SubtitleStore).cues := List.mem_singleton.2 rfl
  have hstarts : (0 + 4 - 1) * segmentNS media < 2 ^ 64 := by decide +kernel
  have hmeets : max cue.startNS (reached media 0) < min cue.endNS (reached media (0 + 4)) := by decide +kernel
  have hstart : floorMS (max cue.startNS (reached media 0)) = 5000000000 := by decide +kernel
  have hstop : floorMS (min cue.endNS (reached media (0 + 4))) = 13000000000 := by decide +kernel
  have hpieces : (List.range' 0 4).filterMap (fun i : Nat => piece media cue i) = pieces := by decide +kernel
  obtain ⟨habut, -⟩ := (renderVTT_prints media { cues := [cue] }).2 hlength cue hmem (by decide) 0 4 hstarts
  rw [imp_iff_right hmeets, hstart, hstop, hpieces] at habut
  exact ⟨hpieces, habut⟩

/-- A segment whose start is no `uint64` starts elsewhere, and something else is printed. -/
theorem renderVTT_wraps : let media : Media := ⟨1, 0, [], by decide⟩
    let range := subtitleRange media 18446744074
    let cue : SubtitleCue := ⟨500000000, 600000000, ascii "a"⟩
    range.1 = 290448384 ∧ part cue.startNS cue.endNS range.1 range.2 = some (500000000, 600000000) ∧
      (parseVTTClock (formatVTTClock (500000000 - range.1))).map (range.1 + ·) = some 499448384 ∧
      floorMS 500000000 = 500000000 := by
  intro media range cue
  have hrange : range = (290448384, 1290448384) := by decide +kernel
  have hclock : parseVTTClock (formatVTTClock (500000000 - 290448384))
      = some (floorMS (500000000 - 290448384)) :=
    parseVTTClock_formatVTTClock (by decide)
  rw [hrange]
  refine ⟨rfl, by decide +kernel, ?_, by decide +kernel⟩
  rw [hclock]
  rfl

end TorrServer.Gstreamer
