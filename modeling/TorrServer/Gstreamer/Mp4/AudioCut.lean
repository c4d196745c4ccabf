/-
# Gstreamer.Mp4.AudioCut — where a regular segment cuts the audio.

Video and audio have timescales of their own, so their ends are compared as fractions. `scaledGreaterOrEqual`
does it in 128 bits, exactly for all times and timescales.

The audio of a regular segment ends with the first queued sample that reaches the end of the video. That sample
may be anywhere in a fragment; the fragment is then split behind it.
-/
import Mathlib.Algebra.Order.Field.Basic
import Mathlib.Algebra.Order.Field.Rat
import TorrServer.Gstreamer.Mp4.Selection

namespace TorrServer.Gstreamer.Mp4

open Lib List

variable {n time count time' count' : Nat} {hit : Bool} {f : Fragment}

/-! ## Samples with their times -/

/-- A queued sample with its decode time, in units of a timescale. -/
structure TimedSample where
  decodeTime : Nat
  timescale : Nat
  sample : Sample
  deriving DecidableEq, Repr

/-- A time as a number of seconds. -/
def seconds (time timescale : Nat) : ℚ := (time : ℚ) / timescale

/-- The end of a sample in units of its timescale. -/
def TimedSample.endTime (s : TimedSample) : Nat := s.decodeTime + s.sample.duration

/-- The end of a sample in seconds. -/
def TimedSample.ends (s : TimedSample) : ℚ := seconds s.endTime s.timescale

/-- Samples that follow each other without a gap. -/
def timedFrom (timescale : Nat) : Nat → List Sample → List TimedSample
  | _, [] => []
  | time, s :: samples => ⟨time, timescale, s⟩ :: timedFrom timescale (time + s.duration) samples

/-- The samples of a fragment with their times. -/
def Fragment.timed (f : Fragment) : List TimedSample := timedFrom f.timescale f.decodeTime f.samples

/-- The same for a queue. -/
def timedQueue (fragments : List Fragment) : List TimedSample := fragments.flatMap Fragment.timed

theorem timedFrom_append (timescale time : Nat) (a b : List Sample) :
    timedFrom timescale time (a ++ b)
      = timedFrom timescale time a ++ timedFrom timescale (time + durations a) b := by
  induction a generalizing time with
  | nil => rfl
  | cons s a ih =>
    rw [cons_append, timedFrom, ih, timedFrom, durations_cons, cons_append, Nat.add_assoc]

theorem timedFrom_length (timescale time : Nat) (samples : List Sample) :
    (timedFrom timescale time samples).length = samples.length := by
  induction samples generalizing time with
  | nil => rfl
  | cons s samples ih => rw [timedFrom, length_cons, ih, length_cons]

theorem timedQueue_cons (f : Fragment) (fragments : List Fragment) :
    timedQueue (f :: fragments) = f.timed ++ timedQueue fragments := rfl

theorem timedQueue_append (a b : List Fragment) : timedQueue (a ++ b) = timedQueue a ++ timedQueue b := by
  simp [timedQueue]

/-! ## The first sample that reaches the end -/

/-- The comparison of `findAudioSplitSampleCount`. -/
def TimedSample.reaches (videoTimescale videoEnd : Nat) (s : TimedSample) : Bool :=
  scaledGreaterOrEqual s.endTime videoTimescale videoEnd s.timescale

variable {s : TimedSample}

/-- The cross-multiplied comparison is the comparison of the two fractions. -/
theorem TimedSample.reaches_iff {videoTimescale videoEnd : Nat} (hvideo : videoTimescale ≠ 0)
    (hs : s.timescale ≠ 0) :
    s.reaches videoTimescale videoEnd = true ↔ seconds videoEnd videoTimescale ≤ s.ends := by
  have hv : (0 : ℚ) < videoTimescale := Nat.cast_pos.mpr (Nat.pos_of_ne_zero hvideo)
  have ha : (0 : ℚ) < s.timescale := Nat.cast_pos.mpr (Nat.pos_of_ne_zero hs)
  rw [reaches, scaledGreaterOrEqual_iff, ends, seconds, seconds, div_le_div_iff₀ hv ha]
  exact_mod_cast Iff.rfl

/-- The first `n` samples are those up to the first that satisfies `p`. -/
def StopsAfter (p : TimedSample → Bool) (samples : List TimedSample) (n : Nat) : Prop :=
  ∃ before last after, samples = before ++ last :: after ∧ n = before.length + 1 ∧
    (∀ s ∈ before, p s = false) ∧ p last = true

variable {p : TimedSample → Bool} {a b : List TimedSample}

theorem stopsAfter_of_findIdx? {i : Nat} (h : a.findIdx? p = some i) : StopsAfter p a (i + 1) := by
  obtain ⟨hlt, hlast, hbefore⟩ := findIdx?_eq_some_iff_getElem.mp h
  refine ⟨a.take i, a[i], a.drop (i + 1), ?_, ?_, ?_, hlast⟩
  · rw [getElem_cons_drop, take_append_drop]
  · rw [length_take, Nat.min_eq_left hlt.le]
  · intro s hs
    obtain ⟨j, hj, rfl⟩ := getElem_of_mem hs
    rw [getElem_take]
    rw [length_take] at hj
    exact Bool.eq_false_iff.mpr (hbefore j (by omega))

section

variable {videoTimescale videoEnd timescale : Nat}

theorem findIdx?_timedFrom (samples : List Sample) :
    (timedFrom timescale time samples).findIdx? (TimedSample.reaches videoTimescale videoEnd)
      = (sampleEnds time samples).findIdx? fun audioEnd =>
          scaledGreaterOrEqual audioEnd videoTimescale videoEnd timescale := by
  induction samples generalizing time with
  | nil => rfl
  | cons s samples ih =>
    rw [timedFrom, sampleEnds, findIdx?_cons, findIdx?_cons, ih]
    rfl

/-- What the search has found in a fragment when it returns `n` and `hit`. -/
structure Finds (videoTimescale videoEnd : Nat) (f : Fragment) (n : Nat) (hit : Bool) : Prop where
  scales : f.timescale ≠ 0 ∧ videoTimescale ≠ 0
  fits : durations (f.samples.take n) ≤ maxUint64
  found : hit = true → StopsAfter (TimedSample.reaches videoTimescale videoEnd) f.timed n
  notFound : hit = false → ∀ s ∈ f.timed, s.reaches videoTimescale videoEnd = false

/-- The timescales are not zero, and the search stops after the first sample that reaches the end. -/
theorem findAudioSplitSampleCount_finds (h : findAudioSplitSampleCount videoTimescale videoEnd f
        = .ok (n, hit)) :
    Finds videoTimescale videoEnd f n hit := by
  simp only [findAudioSplitSampleCount, bind_eq_ok, Prod.exists, require_eq_ok, pure_eq_ok, Prod.mk.injEq] at h
  obtain ⟨-, hscales, time', count, hit', hsearch, -, -, rfl, rfl⟩ := h
  obtain ⟨-, hfits, hfound, hnone⟩ := searchRuns_searched hsearch
  refine ⟨hscales, hfits.trans (Nat.sub_le _ _), fun hhit => ?_, fun hhit => ?_⟩
  · obtain ⟨hpos, hfind⟩ := hfound hhit
    rw [← findIdx?_timedFrom] at hfind
    have hstops := stopsAfter_of_findIdx? hfind
    rwa [show count - 0 - 1 + 1 = count by omega] at hstops
  · obtain ⟨-, -, hfind⟩ := hnone hhit
    rw [← findIdx?_timedFrom, findIdx?_eq_none_iff] at hfind
    exact hfind

/-- The parts of a split have the samples of the fragment, at their times. -/
theorem Divides.timed_eq {l r : Fragment} (h : Divides f n l r)
    (hfits : durations (f.samples.take n) ≤ maxUint64) :
    l.timed ++ r.timed = f.timed := by
  have hleft : l.samples = f.samples.take n := by rw [← h.samples_eq, ← h.count, take_left]
  have hduration : l.duration = durations l.samples := by
    rw [h.left_duration, hleft]
    exact Nat.mod_eq_of_lt (Nat.lt_of_le_of_lt hfits (by decide))
  rw [Fragment.timed, Fragment.timed, Fragment.timed, h.right_time, hduration, h.left_time,
    h.left_track.timescale_eq, h.right_track.timescale_eq, ← timedFrom_append, h.samples_eq]

/-! ## The cut of the queue -/

/-- The samples end with the first of them that ends at the given time or later. -/
def EndsWith (videoEnd : ℚ) (taken : List TimedSample) : Prop :=
  ∃ before last, taken = before ++ [last] ∧ videoEnd ≤ last.ends ∧ ∀ s ∈ before, s.ends < videoEnd

theorem EndsWith.append {end' : ℚ} (ha : ∀ s ∈ a, s.ends < end') (hb : EndsWith end' b) :
    EndsWith end' (a ++ b) := by
  obtain ⟨before, last, rfl, hlast, hbefore⟩ := hb
  refine ⟨a ++ before, last, by rw [append_assoc], hlast, ?_⟩
  intro s hs
  rcases mem_append.mp hs with hs | hs
  · exact ha s hs
  · exact hbefore s hs

/-- No sample of a fragment reaches the end: they all end before it. -/
theorem ends_lt (hscales : f.timescale ≠ 0 ∧ videoTimescale ≠ 0) (hs : s.timescale = f.timescale)
    (h : s.reaches videoTimescale videoEnd = false) :
    s.ends < seconds videoEnd videoTimescale := by
  rw [← not_le, ← TimedSample.reaches_iff hscales.2 (hs ▸ hscales.1), h]
  exact Bool.false_ne_true

theorem timescale_of_mem {timescale' : Nat} {samples : List Sample}
    (h : s ∈ timedFrom timescale' time samples) :
    s.timescale = timescale' := by
  induction samples generalizing time with
  | nil => cases h
  | cons x samples ih =>
    rcases mem_cons.mp h with rfl | h
    · rfl
    · exact ih h

/-- A search that stops cuts the fragment behind the first sample that reaches the end. -/
theorem StopsAfter.endsWith (hscales : f.timescale ≠ 0 ∧ videoTimescale ≠ 0)
    (h : StopsAfter (TimedSample.reaches videoTimescale videoEnd) f.timed n) :
    EndsWith (seconds videoEnd videoTimescale) (f.timed.take n) := by
  obtain ⟨before, last, after, htimed, rfl, hbefore, hlast⟩ := h
  have hscale : ∀ s ∈ before ++ last :: after, s.timescale = f.timescale := by
    intro s hs
    rw [← htimed] at hs
    exact timescale_of_mem hs
  refine ⟨before, last, ?_, ?_, ?_⟩
  · rw [htimed, take_length_add_append]
    rfl
  · exact (TimedSample.reaches_iff hscales.2 (hscale last (by simp) ▸ hscales.1)).mp hlast
  · intro s hs
    exact ends_lt hscales (hscale s (by simp [hs])) (hbefore s hs)

/-- **The cut of the queue.** What is selected ends with the first sample that reaches the end, and the rest
stays. -/
theorem selectAudioCount_cut {audio audio' : List Fragment} (hn : n ≠ 0)
    (h : selectAudioCount videoTimescale videoEnd audio = .ok (audio', n)) :
    timedQueue audio' = timedQueue audio ∧
      EndsWith (seconds videoEnd videoTimescale) (timedQueue (audio'.take n)) := by
  rw [selectAudioCount_eq_ok_iff] at h
  induction h with
  | nothing => exact absurd rfl hn
  | @further f rest rest' split count hfind hrest ih =>
    -- the end is not in this fragment
    have hfinds := findAudioSplitSampleCount_finds hfind
    have hcount : count ≠ 0 := fun hzero => hn (if_pos hzero)
    obtain ⟨hsame, hends⟩ := ih hcount
    rw [if_neg hcount, take_succ_cons, timedQueue_cons, timedQueue_cons, timedQueue_cons, hsame]
    refine ⟨rfl, hends.append ?_⟩
    intro s hs
    exact ends_lt hfinds.scales (timescale_of_mem hs) (hfinds.notFound rfl s hs)
  | @inside f l r rest split total hfind hpos htotal hlt hsplit =>
    have hfinds := findAudioSplitSampleCount_finds hfind
    have hends := (hfinds.found rfl).endsWith hfinds.scales
    have hdivides := splitFragmentAtSample_divides hsplit
    have htimed := hdivides.timed_eq hfinds.fits
    have hleft : l.timed = f.timed.take split := by
      have hlen : l.timed.length = split := by rw [Fragment.timed, timedFrom_length, hdivides.count]
      rw [← htimed, ← hlen, take_left]
    constructor
    · rw [timedQueue_cons, timedQueue_cons, timedQueue_cons, ← htimed, append_assoc]
    · rw [take_succ_cons, take_zero, timedQueue_cons, hleft]
      simpa [timedQueue] using hends
  | @atEnd f rest split hfind hpos htotal =>
    have hfinds := findAudioSplitSampleCount_finds hfind
    have hends := (hfinds.found rfl).endsWith hfinds.scales
    have hcount : f.timed.length = split := by
      simp only [fragmentSampleCount, bind_eq_ok, require_eq_ok, pure_eq_ok] at htotal
      obtain ⟨-, -, -, -, rfl⟩ := htotal
      rw [Fragment.timed, timedFrom_length, Fragment.samples, length_flatMap]
    rw [take_of_length_le (le_of_eq hcount)] at hends
    refine ⟨rfl, ?_⟩
    rw [take_succ_cons, take_zero, timedQueue_cons]
    simpa [timedQueue] using hends

end

/-! ## The audio of a regular segment -/

/-- What a regular segment of a source with audio takes from the queues. -/
structure RegularCut (r r' : Reader) (video audio : List Fragment) (last : Fragment) : Prop where
  video_eq : r.video = video ++ r'.video
  last_eq : video.getLast? = some last
  /-- The samples not taken stay queued, with the times they had. -/
  audio_eq : timedQueue audio ++ timedQueue r'.audio = timedQueue r.audio
  /-- The segment is written from what was taken. -/
  written : ∃ segment, r'.segments = r.segments ++ [segment] ∧
    writeSegment r.timeline r.styp r.prefixBytes r.sourcePayload r.sequence video audio = .ok segment
  ends : EndsWith (seconds last.endTime r.videoTrack.timescale.toNat) (timedQueue audio)

/-- **The audio of a regular segment ends with the first sample that reaches the end of its video**; what is not
taken stays queued. -/
theorem Reader.tryBuildSegment_cuts_audio {cfg : Config} {r r' : Reader} (haudio : r.audioTrack.id ≠ 0)
    (h : r.tryBuildSegment cfg = .ok (r', true)) :
    ∃ video audio last, RegularCut r r' video audio last := by
  obtain _ | ⟨videoCount, audio, audioCount, segment, hpos, -, htakes, hselects, hwrite⟩ :=
    tryBuildSegment_eq_ok_iff.mp h
  rw [TakesAudio, if_neg haudio] at htakes
  obtain ⟨hn, hselect⟩ := htakes
  obtain ⟨hsame, hends⟩ := selectAudioCount_cut hn hselect
  have hne : r.video.take videoCount ≠ [] := by
    have hle : videoCount ≤ r.video.length := hselects.video_le
    intro hnil
    have hlen := congrArg List.length hnil
    rw [length_take, length_nil] at hlen
    omega
  obtain ⟨last, hlast⟩ : ∃ last, (r.video.take videoCount).getLast? = some last :=
    ⟨_, getLast?_eq_getLast_of_ne_nil hne⟩
  refine ⟨r.video.take videoCount, audio.take audioCount, last, ?_, hlast, ?_, ⟨segment, rfl, hwrite⟩, ?_⟩
  · exact (take_append_drop _ _).symm
  · show timedQueue (audio.take audioCount) ++ timedQueue (audio.drop audioCount) = timedQueue r.audio
    rw [← timedQueue_append, take_append_drop, hsame]
  · rw [videoEnd, hlast] at hends
    exact hends

namespace CutInside

/-- Video at timescale 1000, audio at 48000. -/
def videoTrack : TrackInfo := { id := 1, timescale := 1000 }

/-- A track at 48 kHz. -/
def audioTrack : TrackInfo := { id := 2, timescale := 48000 }

/-- A video fragment of one second. -/
def video (time payloadStart : Nat) : Fragment :=
  { trackID := 1, timescale := 1000, decodeTime := time, duration := 1000, startsWithSync := true
    sampleDescriptionIndex := 1, tfhd := buildCanonicalTfhd 1 1
    runs := [{ samples := [⟨1000, 1, 0, 0⟩], version := 0, hasCompositionTimeOffsets := false
               duration := 1000, dataSize := 1, startsWithSync := true }]
    payloadStart := payloadStart, payloadLen := 1 }

/-- An audio fragment of two seconds, in four samples. -/
def audio : Fragment :=
  { trackID := 2, timescale := 48000, decodeTime := 0, duration := 96000, startsWithSync := true
    sampleDescriptionIndex := 1, tfhd := buildCanonicalTfhd 2 1
    runs := [{ samples := [⟨20000, 1, 0, 0⟩, ⟨27999, 1, 0, 0⟩, ⟨2, 1, 0, 0⟩, ⟨47999, 1, 0, 0⟩]
               version := 0, hasCompositionTimeOffsets := false, duration := 96000, dataSize := 4
               startsWithSync := true }]
    payloadStart := 2, payloadLen := 4 }

/-- A reader with two video fragments and one of audio. -/
def reader : Reader :=
  { timeline := ⟨fun _ => .ok 0, 0⟩, videoTrack := videoTrack, audioTrack := audioTrack
    sourcePayload := [1, 2, 3, 4, 5, 6], video := [video 0 0, video 1000 1], audio := [audio] }

/-- Segments of 1000 units, without cues. -/
def config : Config := ⟨false, 0, fun _ => .ok 1000, 0, 0⟩

end CutInside

/-- The second of video ends within the third of four audio samples. -/
theorem Reader.cut_after_third_sample : ∃ r', CutInside.reader.tryBuildSegment CutInside.config
      = .ok (r', true) ∧ (timedQueue r'.audio).length = 1 ∧
    ∃ video audio last, RegularCut CutInside.reader r' video audio last := by
  have hok : ((CutInside.reader.tryBuildSegment CutInside.config).map fun p =>
      (p.2, (timedQueue p.1.audio).length)).toOption = some (true, 1) := by
    decide +kernel
  cases h : CutInside.reader.tryBuildSegment CutInside.config with
  | error e =>
    rw [h] at hok
    cases hok
  | ok p =>
    obtain ⟨r', emitted⟩ := p
    rw [h] at hok
    obtain ⟨rfl, hlen⟩ : emitted = true ∧ (timedQueue r'.audio).length = 1 := by
      simpa [Except.map, Except.toOption] using hok
    exact ⟨r', rfl, hlen, tryBuildSegment_cuts_audio (by decide) h⟩

end TorrServer.Gstreamer.Mp4
