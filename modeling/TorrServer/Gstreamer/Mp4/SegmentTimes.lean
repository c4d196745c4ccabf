/-
# Gstreamer.Mp4.SegmentTimes — the times of a segment in nanoseconds.

`timelineNanoseconds` splits a value into whole seconds and a rest, so that no product leaves 64 bits. A segment
begins with the decode time of its first fragment and ends with the `endTime` of its last, a `uint64` sum that
nothing checks: a segment whose decode times pass `2 ^ 64` ends before it begins.
-/
import TorrServer.Gstreamer.Mp4.Calls

namespace TorrServer.Gstreamer.Mp4

open Lib

variable {value value' timescale : Nat} {first : Fragment} {rest : List Fragment}

/-! ## Exact nanoseconds -/

/-- The integer part of a value in nanoseconds. -/
def nanoseconds (value timescale : Nat) : Nat := value * 1000000000 / timescale

theorem nanoseconds_mono (h : value ≤ value') (timescale : Nat) :
    nanoseconds value timescale ≤ nanoseconds value' timescale :=
  Nat.div_le_div_right (Nat.mul_le_mul_right _ h)

/-- The same time in two timescales. -/
theorem nanoseconds_eq_of_mul_eq {timescale' : Nat} (hpos : timescale ≠ 0) (hpos' : timescale' ≠ 0)
    (h : value' * timescale = value * timescale') :
    nanoseconds value' timescale' = nanoseconds value timescale := by
  have hboth : value' * 1000000000 * timescale = value * 1000000000 * timescale' := by
    rw [Nat.mul_right_comm, h, Nat.mul_right_comm]
  calc nanoseconds value' timescale'
      = value' * 1000000000 * timescale / (timescale' * timescale) :=
        (Nat.mul_div_mul_right _ _ (Nat.pos_of_ne_zero hpos)).symm
    _ = value * 1000000000 * timescale' / (timescale * timescale') := by rw [hboth, Nat.mul_comm timescale']
    _ = nanoseconds value timescale := Nat.mul_div_mul_right _ _ (Nat.pos_of_ne_zero hpos')

/-- Whole seconds and the rest give the quotient. -/
theorem nanoseconds_eq_add (value : Nat) (hpos : timescale ≠ 0) :
    nanoseconds value timescale
      = value / timescale * 1000000000 + value % timescale * 1000000000 / timescale := by
  have hvalue : value * 1000000000
      = timescale * (value / timescale * 1000000000) + value % timescale * 1000000000 := by
    rw [← Nat.mul_assoc, ← Nat.add_mul, Nat.div_add_mod]
  rw [nanoseconds, hvalue, Nat.mul_add_div (Nat.pos_of_ne_zero hpos)]

/-- The rest, in nanoseconds, is a `uint64`. -/
theorem remainder_lt (value : Nat) (hpos : timescale ≠ 0) (hlt : timescale < 2 ^ 32) :
    value % timescale * 1000000000 < 2 ^ 64 := by
  have hrem := Nat.mod_lt value (Nat.pos_of_ne_zero hpos)
  omega

/-- **`timelineNanoseconds` is exact.** -/
theorem timelineNanoseconds_eq (value : Nat) (hpos : timescale ≠ 0) (hlt : timescale < 2 ^ 32) :
    timelineNanoseconds value timescale = if nanoseconds value timescale < 2 ^ 64
      then .ok (nanoseconds value timescale) else .error "timeline nanoseconds overflow" := by
  have hmax : maxUint64 = 2 ^ 64 - 1 := rfl
  rw [timelineNanoseconds, require_bind hpos, nanoseconds_eq_add value hpos]
  dsimp only
  rw [Nat.mod_eq_of_lt (remainder_lt value hpos hlt)]
  generalize value % timescale * 1000000000 / timescale = fraction
  by_cases hseconds : value / timescale ≤ maxUint64 / 1000000000
  · rw [require_bind hseconds]
    by_cases hfraction : fraction ≤ maxUint64 - value / timescale * 1000000000
    · rw [require_of _ hfraction, if_pos (by omega)]
      rfl
    · rw [require, if_neg hfraction, if_neg (by omega)]
      rfl
  · rw [require, if_neg hseconds, if_neg (by omega)]
    rfl

theorem eq_nanoseconds_of_ok {ns : Nat} (hlt : timescale < 2 ^ 32)
    (h : timelineNanoseconds value timescale = .ok ns) :
    timescale ≠ 0 ∧ ns = nanoseconds value timescale := by
  have hpos : timescale ≠ 0 := by
    rw [timelineNanoseconds, bind_eq_ok] at h
    obtain ⟨_, hpos, -⟩ := h
    exact require_eq_ok.1 hpos
  rw [timelineNanoseconds_eq value hpos hlt] at h
  split at h
  · exact ⟨hpos, (Except.ok.inj h).symm⟩
  · cases h

/-! ## Where a segment begins and ends -/

/-- The time after fragments that follow each other, as the code has it. -/
def endOf (first : Fragment) (rest : List Fragment) : Nat :=
  (first.decodeTime + ((first :: rest).map Fragment.duration).sum) % 2 ^ 64

/-- Fragments that `validateTrack` accepts follow each other on one timescale. -/
theorem endTime_of_validateRest {previous : Fragment} (htimescale : previous.timescale = first.timescale)
    (h : validateRest first previous.endTime rest = .ok ()) :
    ∃ last, (previous :: rest).getLast? = some last ∧ last.timescale = first.timescale ∧
      last.endTime = endOf previous rest := by
  induction rest generalizing previous with
  | nil => exact ⟨previous, rfl, htimescale, by simp [endOf, Fragment.endTime]⟩
  | cons current rest ih =>
    simp only [validateRest, bind_eq_ok, require_eq_ok] at h
    obtain ⟨-, ⟨-, hscale, htime, -, -⟩, h⟩ := h
    obtain ⟨last, hlast, hsame, hend⟩ := ih hscale h
    refine ⟨last, hlast, hsame, hend.trans ?_⟩
    -- the next decode time is the end so far, modulo `2 ^ 64`
    simp only [endOf, htime, Fragment.endTime, List.map_cons, List.sum_cons]
    omega

/-- The fragments that a segment takes its times from. -/
def timedBy (video audio : List Fragment) : List Fragment := if video = [] then audio else video

theorem writeSegment_times {timeline : Timeline} {styp prefixBytes storage : Bytes} {sequence : Nat}
    {video audio : List Fragment} {segment : Segment}
    (h : writeSegment timeline styp prefixBytes storage sequence video audio = .ok segment)
    (hfragments : timedBy video audio = first :: rest) (hscale : first.timescale < 2 ^ 32) :
    first.timescale ≠ 0 ∧ segment.startNS = nanoseconds first.decodeTime first.timescale + timeline.offsetNS ∧
      segment.endNS = nanoseconds (endOf first rest) first.timescale + timeline.offsetNS := by
  have hvalid : validateTrack (first :: rest) = .ok () := by
    simp only [writeSegment, bind_eq_ok] at h
    obtain ⟨⟨⟩, hvideo, ⟨⟩, haudio, -⟩ := h
    rw [timedBy] at hfragments
    split at hfragments
    · rwa [hfragments] at haudio
    · rwa [hfragments] at hvideo
  obtain ⟨last, hlast, hsame, hend⟩ := endTime_of_validateRest rfl hvalid
  simp only [writeSegment, bind_eq_ok, require_eq_ok] at h
  obtain ⟨-, -, -, -, -, -, videoTraf, -, audioTraf, -, h⟩ := h
  rw [show (if video = [] then audio else video) = first :: rest from hfragments, hlast] at h
  simp only [List.head?_cons, bind_eq_ok, require_eq_ok, pure_eq_ok] at h
  obtain ⟨-, -, -, -, startNS, hstart, endNS, hendNS, -, -, videoPayloads, -, audioPayloads, -, rfl⟩ := h
  obtain ⟨hpos, rfl⟩ := eq_nanoseconds_of_ok hscale hstart
  rw [hsame, hend] at hendNS
  obtain ⟨-, rfl⟩ := eq_nanoseconds_of_ok hscale hendNS
  exact ⟨hpos, rfl, rfl⟩

/-- A segment as `buildSegment` emits it, with the fragments that it takes its times from. -/
structure Emits (r r' : Reader) (first : Fragment) (rest : List Fragment) (segment : Segment) : Prop where
  built : ∃ cfg videoCount audioCount allowSingleTrack,
    r.buildSegment cfg videoCount audioCount allowSingleTrack = .ok r' ∧
      timedBy (r.video.take videoCount) (r.audio.take audioCount) = first :: rest
  segments_eq : r'.segments = r.segments ++ [segment]
  /-- The timescale is a `uint32`. -/
  timescale_lt : first.timescale < 2 ^ 32

theorem Emits.times {r r' : Reader} {segment : Segment} (h : Emits r r' first rest segment) :
    first.timescale ≠ 0 ∧ segment.startNS = nanoseconds first.decodeTime first.timescale + r.timeline.offsetNS ∧
      segment.endNS = nanoseconds (endOf first rest) first.timescale + r.timeline.offsetNS := by
  obtain ⟨⟨cfg, videoCount, audioCount, allowSingleTrack, hbuild, hfragments⟩, hsegments, hscale⟩ := h
  obtain ⟨-, written, hwrite, rfl⟩ := Reader.buildSegment_eq_ok_iff.1 hbuild
  have hsame : written = segment := List.singleton_inj.1 (List.append_cancel_left hsegments)
  exact writeSegment_times (hsame ▸ hwrite) hfragments hscale

/-- While its times are below `2 ^ 64`, a segment ends no earlier than it begins. -/
theorem Emits.startNS_le_endNS {r r' : Reader} {segment : Segment} (h : Emits r r' first rest segment)
    (hfits : first.decodeTime + ((first :: rest).map Fragment.duration).sum < 2 ^ 64) :
    segment.startNS ≤ segment.endNS := by
  obtain ⟨-, hstart, hend⟩ := h.times
  rw [hstart, hend, endOf, Nat.mod_eq_of_lt hfits]
  exact Nat.add_le_add_right (nanoseconds_mono (Nat.le_add_right _ _) _) _

/-- **Times in nanoseconds.** `timelineNanoseconds` is the integer part of the quotient if it fits, without
overflow on the way, and monotone. A segment ends no earlier than it begins exactly when the `uint64` sum of its
times does. Where the next segment begins at its end, the two have the same nanoseconds exactly when the offset
has not been changed. -/
theorem segment_times {r r' : Reader} {first : Fragment} {rest : List Fragment} {segment : Segment}
    (h : Emits r r' first rest segment) :
    (∀ value timescale : Nat, value < 2 ^ 64 → timescale ≠ 0 → timescale < 2 ^ 32 →
      (timelineNanoseconds value timescale = if value * 1000000000 / timescale < 2 ^ 64
        then .ok (value * 1000000000 / timescale) else .error "timeline nanoseconds overflow") ∧
      (value / timescale ≤ maxUint64 / 1000000000 → value / timescale * 1000000000 < 2 ^ 64) ∧
      value % timescale * 1000000000 < 2 ^ 64 ∧
      ∀ value' ns ns', value ≤ value' → timelineNanoseconds value timescale = .ok ns →
        timelineNanoseconds value' timescale = .ok ns' → ns ≤ ns') ∧
    (segment.startNS ≤ segment.endNS ↔
      first.decodeTime * 1000000000 / first.timescale ≤ endOf first rest * 1000000000 / first.timescale) ∧
    ∀ {q q' : Reader} {first' : Fragment} {rest' : List Fragment} {segment' : Segment},
      Emits q q' first' rest' segment' →
      first'.decodeTime * first.timescale = endOf first rest * first'.timescale →
        (segment'.startNS = segment.endNS ↔ q.timeline.offsetNS = r.timeline.offsetNS) := by
  obtain ⟨hpos, hstart, hend⟩ := h.times
  refine ⟨fun value timescale _ hne hlt =>
    ⟨timelineNanoseconds_eq value hne hlt, ?_, remainder_lt value hne hlt, ?_⟩,
    ?_, ?_⟩
  · intro hseconds
    have hmax : maxUint64 = 2 ^ 64 - 1 := rfl
    omega
  · intro value' ns ns' hle hns hns'
    rw [(eq_nanoseconds_of_ok hlt hns).2, (eq_nanoseconds_of_ok hlt hns').2]
    exact nanoseconds_mono hle timescale
  · rw [hstart, hend, Nat.add_le_add_iff_right]
    rfl
  · intro q q' first' rest' segment' h' hcontiguous
    obtain ⟨hpos', hstart', -⟩ := h'.times
    rw [hstart', hend, nanoseconds_eq_of_mul_eq hpos hpos' hcontiguous, Nat.add_left_cancel_iff]

/-! ## Two sources -/

theorem Reader.TwoTracks.emits : Emits Reader.TwoTracks.reader
    (Reader.TwoTracks.reader.afterSegment Reader.TwoTracks.config 1 1 Reader.TwoTracks.segment)
    (Reader.TwoTracks.fragment 1 0) [] Reader.TwoTracks.segment where
  built := ⟨_, 1, 1, false, Reader.TwoTracks.buildSegment_eq, rfl⟩
  segments_eq := rfl
  timescale_lt := by decide

theorem segment_times_twoTracks :
    (Reader.TwoTracks.segment.startNS, Reader.TwoTracks.segment.endNS) = (0, 1000000000) ∧
      Reader.TwoTracks.segment.startNS ≤ Reader.TwoTracks.segment.endNS :=
  ⟨by decide +kernel, (segment_times Reader.TwoTracks.emits).2.1.2 (by decide)⟩

namespace Wrapping

/-- A video track with the finest timescale. -/
def moov : Bytes :=
  box boxMoov (box boxTrak (box boxTkhd (List.replicate 12 0 ++ put32 1) ++
    box boxMdia (box boxMdhd (List.replicate 12 0 ++ put32 (2 ^ 32 - 1)) ++
      box boxHdlr (List.replicate 8 0 ++ put32 handlerVideo))))

/-- A sample of 1000 units at the last decode time, and one that follows it. -/
def source : Bytes := moov ++ BoxReader.Source.pair 1 (2 ^ 64 - 1) [1] ++ BoxReader.Source.pair 1 999 [2]

/-- Segments of a nanosecond, which is less than 5 units. -/
def config : Config := { BoxReader.Source.config with targetUnits := fun _ => .ok 5 }

end Wrapping

/-- A segment that ends before it begins. -/
theorem segment_ends_early :
    ((BoxReader.push Wrapping.config { reader := { timeline := ⟨fun _ => .ok 0, 0⟩ } }
      Wrapping.source).toOption.map fun r => r.reader.segments.map fun s => (s.startNS, s.endNS))
        = some [(4294967297000000000, 232)] := by
  decide +kernel

end TorrServer.Gstreamer.Mp4
