/-
# Gstreamer.Mp4.Delivery — the samples of a source, over whole runs of calls.

Over every run of `Push`, `TryProcessDeferred` and `ReleaseSegment` that meets no error, the samples emitted and
those queued are the samples of the bytes consumed (`run_conserves`); and at the end of the stream
`TryBuildEndOfStreamRemainder` leaves out no sample but audio after the end of the video.

A segment is built inside a box only if it could have been built at its beginning, which is what `NothingReady`
rules out. `Described` carries this along.
-/
import TorrServer.Gstreamer.Mp4.Conservation

namespace TorrServer.Gstreamer.Mp4.Reader

open Lib List

variable {cfg : Config} {r r' r₁ r₂ : Reader} {b : UInt8} {completed quiet : Bool} {s : Bytes}
  {boxes : List Child} {cur : Option Child} {c : Child} {size headerSize : Nat}

/-! ## What makes nothing ready -/

theorem nothingReady_of_video (h : r.video = []) : r.NothingReady cfg := by
  refine .inl ?_
  rw [selectVideoCount, h]

theorem BeginsMedia.nothingReady (h : BeginsMedia r size headerSize r') (hr : r.NothingReady cfg) :
    r'.NothingReady cfg := by
  obtain ⟨-, -, -, -, -, -, -, rfl⟩ := h.eq
  exact hr.of_same ⟨rfl, rfl, rfl, rfl, rfl, rfl, rfl, rfl⟩ rfl rfl

/-- The beginning of a box makes nothing ready. -/
theorem Begins.nothingReady (h : Begins r size headerSize r') (hr : r.NothingReady cfg)
    (hinit : InitPart boxes cur r) : r'.NothingReady cfg := by
  cases h with
  | init => exact hr.of_same ⟨rfl, rfl, rfl, rfl, rfl, rfl, rfl, rfl⟩ rfl rfl
  | first hnot _ _ hmedia =>
    obtain ⟨-, -, hvideo, -, -, -⟩ := hinit.before hnot
    exact hmedia.nothingReady (nothingReady_of_video hvideo)
  | media hdone hmedia =>
    exact hmedia.nothingReady (hr.of_same ⟨rfl, rfl, rfl, rfl, rfl, rfl, rfl, rfl⟩ rfl rfl)

/-! ## The invariant of the calls -/

/-- The reader inside a box or after a failed attempt: no segment can be built. -/
structure Described (cfg : Config) (quiet : Bool) (boxes : List Child) (cur : Option Child)
    (r : Reader) : Prop where
  standing : Standing boxes cur r
  content : Good boxes → Content boxes cur r ∧ ((quiet = true ∨ r.boxHeader ≠ []) → r.NothingReady cfg)

theorem described_start (cfg : Config) (timeline : Timeline) :
    AtBoxes (Described cfg) false [] { timeline := timeline } := by
  refine ⟨[], none, framing_start timeline, standing_start timeline, fun _ => ⟨⟨?_, ?_, fun h => by cases h⟩,
    fun _ => nothingReady_of_video rfl⟩⟩
  · exact Media.empty []
  · exact ⟨⟨[], by simp, rfl⟩, fun _ => rfl, .inl rfl⟩

theorem Content.emit (h : Content boxes none r) (hidle : r.currentTarget = .none)
    (hbuild : r.tryBuildSegment cfg = .ok (r', true)) : Content boxes none r' := by
  have hbetween := (h.between hidle).emit hbuild
  have hidle' : r'.currentTarget = .none := (frame_of_attempt hbuild).currentTarget.trans hidle
  refine ⟨?_, hbetween.front, fun h => absurd (hidle'.symm.trans h) (by decide)⟩
  rw [payloadLimit, if_neg (by simp [hidle'])]
  exact hbetween.media

/-- **An attempt**, wherever the reader stands: a segment can only be built between two boxes. -/
theorem Described.attempt (h : Described cfg quiet boxes cur r) (hframing : Framing s boxes cur r)
    (hbuild : r.tryBuildSegment cfg = .ok (r', completed)) :
    Described cfg (!completed) boxes cur r' := by
  refine ⟨h.standing.attempt hbuild, fun hgood => ?_⟩
  obtain ⟨hr, hquiet⟩ := h.content hgood
  cases completed with
  | false =>
    obtain ⟨rfl, hready⟩ := tryBuildSegment_eq_false_iff.mp hbuild
    exact ⟨hr, fun _ => hready⟩
  | true =>
    have hbetween : r.boxHeader = [] := by
      by_contra hinside
      have hfalse := tryBuildSegment_eq_false_iff.mpr ⟨rfl, hquiet (.inr hinside)⟩
      rw [hbuild] at hfalse
      simp at hfalse
    have hcur : cur = none := by
      cases cur with
      | none => rfl
      | some c =>
        obtain ⟨-, hbody, -⟩ := hframing.place
        have h8 := hbody.opens.eight_le
        have hlength := hbody.header_eq
        rw [hbetween, length_nil] at hlength
        omega
    subst hcur
    refine ⟨hr.emit (h.standing.idle rfl).1 hbuild, fun h => ?_⟩
    rcases h with h | h
    · cases h
    · exact absurd ((samePlace_of_attempt hbuild).boxHeader.trans hbetween) h

/-- **All the parts of a call keep it.** -/
theorem described_kept : KeptByBoxes cfg (fun _ => True) (Described cfg) where
  header _ _ _ h := by
    refine ⟨h.standing.header _ _ _, fun hgood => ?_⟩
    obtain ⟨hr, hquiet⟩ := h.content hgood
    exact ⟨hr.header _ _ _, fun _ =>
      (hquiet (.inl rfl)).of_same ⟨rfl, rfl, rfl, rfl, rfl, rfl, rfl, rfl⟩ rfl rfl⟩
  begins h hheader htype hlen hsize hbegins := by
    refine ⟨h.standing.begins hheader htype hlen (fun hmdat => hsize (.inr hmdat)) hbegins,
      fun hgood => ?_⟩
    obtain ⟨hr, hquiet⟩ := h.content hgood
    exact ⟨hbegins.content h.standing hr hheader,
      fun _ => hbegins.nothingReady (hquiet (.inl rfl)) h.standing.init⟩
  write b h hpos := by
    refine ⟨h.standing.write hpos b, fun hgood => ?_⟩
    obtain ⟨hr, hquiet⟩ := h.content hgood
    exact ⟨hr.write b,
      fun _ => (hquiet (.inl rfl)).of_same ⟨rfl, rfl, rfl, rfl, rfl, rfl, rfl, rfl⟩ rfl rfl⟩
  complete h htop htype hzero hcomplete := by
    refine ⟨h.standing.complete htype hcomplete, fun hgood => ?_⟩
    obtain ⟨hr, hquiet⟩ := h.content hgood.of_append
    obtain ⟨hr', hquiet'⟩ := hcomplete.content h.standing hr htop htype hzero hgood (hquiet (.inl rfl))
    refine ⟨hr', fun h => hquiet' ?_⟩
    rcases h with h | h
    · simpa using h
    · exact absurd rfl h
  attempt := Described.attempt
  release h _ := by
    refine ⟨h.standing.reclaimPayloads, fun hgood => ?_⟩
    obtain ⟨hr, hquiet⟩ := h.content hgood
    exact ⟨hr.reclaimPayloads, fun h =>
      (hquiet ((samePlace_reclaimPayloads _).boxHeader ▸ h)).reclaimPayloads⟩

/-! ## The end of the stream -/

/-- The queued audio up to the first sample that reaches the end of the queued video, if there is one. -/
def keptAudio (r : Reader) : List MediaSample :=
  let queued := queueSamples r.sourcePayload r.audio
  if r.video = [] then queued
  else
    match queued.findIdx? (reachesEnd r.videoTrack.timescale.toNat (r.videoEnd r.video.length)
        r.audioTrack.timescale.toNat) with
    | none => queued
    | some i => queued.take (i + 1)

/-- What the last segment is made of. -/
structure Remainder (r r' : Reader) (segment : Segment) (video audio : List Fragment) : Prop where
  video_held : Held r.videoTrack r.audioTrack .video r.payloadLimit video
  audio_held : Held r.videoTrack r.audioTrack .audio r.payloadLimit audio
  write : writeSegment r.timeline r.styp r.prefixBytes r.sourcePayload r.sequence video audio
    = .ok segment
  segments : r'.segments = r.segments ++ [segment]
  video_nil : r'.video = []
  audio_nil : r'.audio = []
  video_samples : queueSamples r.sourcePayload video = queueSamples r.sourcePayload r.video
  audio_samples : queueSamples r.sourcePayload audio = r.keptAudio

theorem queueSamples_take_eq {storage : Bytes} {audio audio' : List Fragment} {n : Nat}
    (h : queueSamples storage audio' = queueSamples storage audio) :
    queueSamples storage (audio'.take n)
      = (queueSamples storage audio).take (queueSamples storage (audio'.take n)).length := by
  have hsplit : queueSamples storage audio'
      = queueSamples storage (audio'.take n) ++ queueSamples storage (audio'.drop n) := by
    rw [← queueSamples_append, take_append_drop]
  rw [← h, hsplit, take_left]

/-- **The remainder** has all the queued video, and the audio as far as the video goes. -/
theorem Content.remainder (h : Content boxes cur r)
    (hbuild : r.tryBuildEndOfStreamRemainder cfg = .ok (r', true)) :
    ∃ segment video audio, Remainder r r' segment video audio := by
  have haudio : Held r.videoTrack r.audioTrack .audio r.payloadLimit r.audio := h.media.held .audio
  obtain ⟨hfalse, -⟩ | ⟨-, -, audio, m, segment, htaken, hwrite, rfl⟩ := remainder_cases hbuild
  · cases hfalse
  suffices htake : Held r.videoTrack r.audioTrack .audio r.payloadLimit (audio.take m) ∧
      queueSamples r.sourcePayload (audio.take m) = r.keptAudio from
    ⟨segment, r.video, audio.take m, h.media.held .video, htake.1, hwrite, rfl, drop_length, rfl, rfl, htake.2⟩
  split at htaken
  · rename_i hone
    obtain ⟨rfl, rfl⟩ := htaken
    rw [take_length]
    refine ⟨haudio, ?_⟩
    rw [keptAudio]
    rcases hone with hnone | hnone
    · rw [if_pos hnone]
    · rw [hnone]
      split <;> rfl
  · rename_i hboth
    obtain ⟨selected, rfl, hselect⟩ := htaken
    have hcut := selectAudioCount_spec haudio r.sourcePayload hselect
    refine ⟨hcut.held.sublist (take_subset _ _), ?_⟩
    rw [keptAudio, if_neg fun hnone => hboth (.inl hnone)]
    have hmatch := hcut.cut
    cases hfind : (queueSamples r.sourcePayload r.audio).findIdx? (reachesEnd r.videoTrack.timescale.toNat
        (r.videoEnd r.video.length) r.audioTrack.timescale.toNat) with
    | none =>
      rw [hfind] at hmatch
      obtain ⟨rfl, rfl⟩ := hmatch
      rw [if_pos rfl, take_length]
    | some i =>
      rw [hfind] at hmatch
      obtain ⟨hpos, hlength⟩ := hmatch
      rw [if_neg (by omega), queueSamples_take_eq hcut.samples, hlength]

end TorrServer.Gstreamer.Mp4.Reader

namespace TorrServer.Gstreamer.Mp4.BoxReader

open Lib Reader

variable {cfg : Config} {r : BoxReader}

/-! ## Runs of calls -/

/-- After a run the boxes of the parsed bytes describe the reader. -/
theorem content_of_run {timeline : Timeline} {calls : List Call}
    (hrun : Lib.run (BoxReader.call cfg) { reader := { timeline := timeline } } calls = some r)
    (hgood : Good (topBoxes (consumed calls r))) :
    ∃ cur, InitPart (topBoxes (consumed calls r)) cur r.reader ∧
      Content (topBoxes (consumed calls r)) cur r.reader := by
  obtain ⟨quiet, boxes, cur, hframing, hdescribed⟩ :=
    kept_run described_kept.kept (described_start cfg timeline) (each_releases _ calls) hrun
  rw [hframing.topBoxes_eq] at hgood ⊢
  exact ⟨cur, hdescribed.standing.init, (hdescribed.content hgood).1⟩

/-- The samples of a source, by the tracks the reader knows. -/
theorem sourceSamples_eq_pairsSamples {boxes : List Child} {cur : Option Child} {reader : Reader}
    (h : InitPart boxes cur reader) (kind : Kind) :
    sourceSamples boxes kind
      = pairsSamples reader.videoTrack reader.audioTrack kind (sourcePairs boxes) := by
  rw [sourceSamples, pairsSamples]
  cases hdone : reader.initDone with
  | true =>
    obtain ⟨hinit, hparse, -⟩ := h.after hdone
    rw [← hinit, hparse]
  | false =>
    obtain ⟨hnone, -⟩ := h.before hdone
    have hempty : sourcePairs boxes = [] := by
      rw [sourcePairs, pairing_of_none (not_moof_of_not_media fun b hb =>
        hnone b (List.mem_append_left _ hb))]
    rw [hempty]
    split <;> rfl

/-- **No sample is lost, repeated, reordered or changed.** On a source with explicit durations and exact
`mdat`s, each track's samples are those emitted, at times shifted by one amount, and those queued, and the
segments are numbered from one. The remainder leaves out nothing but audio behind the first sample that reaches
the end of the video. -/
theorem run_conserves {timeline : Timeline} {calls : List Call}
    (hrun : Lib.run (BoxReader.call cfg) { reader := { timeline := timeline } } calls = some r)
    (hexplicit : ExplicitDurations (topBoxes (consumed calls r)))
    (hexact : ExactPayloads (topBoxes (consumed calls r))) :
    (r.reader.initDone = true → parseInitTracks (sourceInit (topBoxes (consumed calls r)))
      = .ok (r.reader.videoTrack, r.reader.audioTrack)) ∧
    (∀ kind : Kind, ∃ done,
      sourceSamples (topBoxes (consumed calls r)) kind
        = done ++ queueSamples r.reader.sourcePayload (kind.pick r.reader.video r.reader.audio) ∧
      emittedSamples r.reader.videoTrack r.reader.audioTrack kind r.reader.segments
        = done.map (MediaSample.shift (r.reader.timeline.shift
            (kind.pick r.reader.videoTrack r.reader.audioTrack).timescale.toNat))) ∧
    r.reader.segments.map (fun segment => segmentSequence segment.bytes)
      = (List.range r.reader.segments.length).map (fun i => some ((i + 1) % 2 ^ 32)) ∧
    ∀ reader, r.reader.tryBuildEndOfStreamRemainder cfg = .ok (reader, true) →
      ∃ segment video audio, Remainder r.reader reader segment video audio ∧
        (r.reader.currentTarget ≠ .prefixBox → ∀ kind : Kind,
          segmentSamples r.reader.videoTrack r.reader.audioTrack kind segment.bytes
            = (kind.pick (queueSamples r.reader.sourcePayload r.reader.video) r.reader.keptAudio).map
                (MediaSample.shift (r.reader.timeline.shift
                  (kind.pick r.reader.videoTrack r.reader.audioTrack).timescale.toNat))) := by
  obtain ⟨cur, hinitPart, hcontent⟩ := content_of_run hrun ⟨hexplicit, hexact⟩
  refine ⟨fun hdone => ?_, fun kind => ?_, hcontent.media.numbers, fun reader hbuild => ?_⟩
  · obtain ⟨hinit, hparse, -⟩ := hinitPart.after hdone
    exact hinit ▸ hparse
  · rw [sourceSamples_eq_pairsSamples hinitPart]
    exact hcontent.media.balance kind
  · obtain ⟨segment, video, audio, hrest⟩ := hcontent.remainder hbuild
    refine ⟨segment, video, audio, hrest, fun htarget kind => ?_⟩
    obtain ⟨before, hbefore, hbytes⟩ := hcontent.front.wholeBoxes (by rw [openPrefix, if_neg htarget])
    have hsamples := (writeSegment_samples hbefore hbytes hrest.video_held.ofTrack
      hrest.audio_held.ofTrack hrest.write).1 kind
    rw [hsamples]
    cases kind with
    | video => exact congrArg _ hrest.video_samples
    | audio => exact congrArg _ hrest.audio_samples

/-! ## Two sources -/

namespace Source

/-- Two seconds of both tracks; the audio of the second one is deferred. -/
def calls : List Call :=
  [.push moov, .push (pair 1 0 [1, 2] ++ pair 2 0 [3]), .releaseSegment,
    .push (pair 1 1000 [4, 5] ++ pair 2 1000 [6]), .releaseSegment, .tryProcessDeferred]

/-- A release inside an `mdat` that has one byte more than its `moof` lists. -/
def overlong : List Call :=
  [.push (moov ++ moof 1 0 2 ++ (put32 11 ++ put32 boxMdat) ++ [1]), .releaseSegment, .push [2, 3]]

end Source

/-- The calls on two seconds of media. -/
theorem twoSeconds_conserves : ∃ r, Lib.run (call Source.config) Source.fresh Source.calls = some r ∧
    r.reader.segments.length = 1 ∧ ∀ kind : Kind, ∃ done,
      sourceSamples (topBoxes (consumed Source.calls r)) kind
        = done ++ queueSamples r.reader.sourcePayload (kind.pick r.reader.video r.reader.audio) ∧
      emittedSamples r.reader.videoTrack r.reader.audioTrack kind r.reader.segments
        = done.map (MediaSample.shift (r.reader.timeline.shift
            (kind.pick r.reader.videoTrack r.reader.audioTrack).timescale.toNat)) := by
  have hsome : (Lib.run (call Source.config) Source.fresh Source.calls).isSome = true := by decide +kernel
  have hgood : ∀ r ∈ Lib.run (call Source.config) Source.fresh Source.calls,
      ExplicitDurations (topBoxes (consumed Source.calls r)) ∧
        ExactPayloads (topBoxes (consumed Source.calls r)) ∧ r.reader.segments.length = 1 := by
    decide +kernel
  obtain ⟨r, hr⟩ := Option.isSome_iff_exists.mp hsome
  obtain ⟨hexplicit, hexact, hlength⟩ := hgood r hr
  exact ⟨r, hr, hlength, (run_conserves hr hexplicit hexact).2.1⟩

/-- The release drops the first byte of the `mdat`: the sample that is queued is not that of the source. -/
theorem release_inside_mdat_shifts : ∃ r,
    Lib.run (call Source.config) Source.fresh Source.overlong = some r ∧
    ExplicitDurations (topBoxes (consumed Source.overlong r)) ∧
    (sourceSamples (topBoxes (consumed Source.overlong r)) .video).map MediaSample.bytes = [[1, 2]] ∧
    (queueSamples r.reader.sourcePayload r.reader.video).map MediaSample.bytes = [[2, 3]] ∧
    ¬ ∃ done,
      sourceSamples (topBoxes (consumed Source.overlong r)) .video
        = done ++ queueSamples r.reader.sourcePayload r.reader.video ∧
      emittedSamples r.reader.videoTrack r.reader.audioTrack .video r.reader.segments
        = done.map (MediaSample.shift (r.reader.timeline.shift
            r.reader.videoTrack.timescale.toNat)) := by
  have hsome : (Lib.run (call Source.config) Source.fresh Source.overlong).isSome = true := by decide +kernel
  have hfacts : ∀ r ∈ Lib.run (call Source.config) Source.fresh Source.overlong,
      ExplicitDurations (topBoxes (consumed Source.overlong r)) ∧ r.reader.segments = [] ∧
      (sourceSamples (topBoxes (consumed Source.overlong r)) .video).map MediaSample.bytes = [[1, 2]] ∧
      (queueSamples r.reader.sourcePayload r.reader.video).map MediaSample.bytes = [[2, 3]] := by
    decide +kernel
  obtain ⟨r, hr⟩ := Option.isSome_iff_exists.mp hsome
  obtain ⟨hexplicit, hsegments, hsource, hqueue⟩ := hfacts r hr
  refine ⟨r, hr, hexplicit, hsource, hqueue, ?_⟩
  rintro ⟨done, hbalance, hemitted⟩
  -- nothing is emitted, so the queue would be the whole source
  have hdone : done = [] := by
    rw [hsegments] at hemitted
    exact List.map_eq_nil_iff.mp hemitted.symm
  rw [hbalance, hdone, List.nil_append, hqueue] at hsource
  exact absurd hsource (by decide)

end TorrServer.Gstreamer.Mp4.BoxReader
