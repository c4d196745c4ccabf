/-
# Gstreamer.Mp4.Emission — what `buildSegment` emits.

`buildSegment` checks the counts, writes the selected fragments and removes them from the queues. The lemmas say
once when it succeeds and what it leaves behind; the layout of the emitted segment then follows from the
writer's.
-/
import TorrServer.Gstreamer.Mp4.Reader
import TorrServer.Gstreamer.Mp4.RoundTrip

namespace TorrServer.Gstreamer.Mp4.Reader

open Lib

variable {cfg : Config} {r r' : Reader} {videoCount audioCount : Nat} {allowSingleTrack : Bool}

/-- The counts `buildSegment` accepts. -/
structure Selects (r : Reader) (videoCount audioCount : Nat) (allowSingleTrack : Bool) : Prop where
  video_le : videoCount ≤ r.video.length
  audio_le : audioCount ≤ r.audio.length
  pos : 0 < videoCount ∨ 0 < audioCount
  audio_id : 0 < audioCount → r.audioTrack.id ≠ 0
  video_pos : allowSingleTrack = false → 0 < videoCount
  audio_pos : allowSingleTrack = false → r.audioTrack.id ≠ 0 → 0 < audioCount

theorem buildSegment_eq_ok_iff : r.buildSegment cfg videoCount audioCount allowSingleTrack = .ok r' ↔
    r.Selects videoCount audioCount allowSingleTrack ∧
      ∃ segment, writeSegment r.timeline r.styp r.prefixBytes r.sourcePayload r.sequence
          (r.video.take videoCount) (r.audio.take audioCount) = .ok segment ∧
        r' = r.afterSegment cfg videoCount audioCount segment := by
  simp only [buildSegment, bind_eq_ok, require_eq_ok, pure_eq_ok, decide_eq_true_eq, bne_iff_ne]
  constructor
  · rintro ⟨-, hv, -, ha, -, hpos, -, hid, -, hvpos, -, hapos, segment, hwrite, rfl⟩
    exact ⟨⟨hv, ha, hpos, hid, hvpos, hapos⟩, segment, hwrite, rfl⟩
  · rintro ⟨⟨hv, ha, hpos, hid, hvpos, hapos⟩, segment, hwrite, rfl⟩
    exact ⟨(), hv, (), ha, (), hpos, (), hid, (), hvpos, (), hapos, segment, hwrite, rfl⟩

/-- **What `buildSegment` emits**: the optional `styp` and prefix, one `moof` and one `mdat` with exact sizes;
each `traf` reads back as the selected samples, and each data offset leads to the run's source bytes. -/
theorem buildSegment_layout (hv : ∀ f ∈ r.video, Accepted r.videoTrack r.audioTrack f)
    (ha : ∀ f ∈ r.audio, Accepted r.videoTrack r.audioTrack f)
    (h : r.buildSegment cfg videoCount audioCount allowSingleTrack = .ok r') :
    ∃ segment, r'.segments = r.segments ++ [segment] ∧
      SegmentLayout r.videoTrack r.audioTrack r.timeline r.styp r.prefixBytes r.sourcePayload
        r.sequence (r.video.take videoCount) (r.audio.take audioCount) segment := by
  obtain ⟨-, segment, hwrite, rfl⟩ := buildSegment_eq_ok_iff.mp h
  refine ⟨segment, rfl, writeSegment_layout ?_ ?_ hwrite⟩
  · intro f hf
    exact (hv f (List.mem_of_mem_take hf)).spec
  · intro f hf
    exact (ha f (List.mem_of_mem_take hf)).spec

/-! ### A reader with a fragment of each track -/

namespace TwoTracks

/-- A track with the given number. -/
def track (id : UInt32) : TrackInfo := { id := id, timescale := 1000 }

/-- A `moof` with two samples of one track, at `data_offset` 116, and a composition offset each. -/
def moof (id : Nat) : Bytes :=
  box boxMoof (box boxTraf (buildCanonicalTfhd id 1 ++ writeTfdt 0 ++
    box boxTrun (put32 0x00000f01 ++ put32 2 ++ put32 (8 + 8 + 20 + 20 + 52 + 8) ++
      [(500, 2, 0x02000000, 0), (500, 1, 0x01010000, 7)].flatMap fun (d, s, fl, c) =>
        put32 d ++ put32 s ++ put32 fl ++ put32 c)))

/-- The fragment of that `moof`, as it is queued. -/
def fragment (id payloadStart : Nat) : Fragment :=
  { trackID := id, timescale := 1000, decodeTime := 0, duration := 1000, startsWithSync := true
    sampleDescriptionIndex := 1, tfhd := buildCanonicalTfhd id 1
    runs := [{ sourceDataOffset := 116, hasSourceDataOffset := true
               samples := [⟨500, 2, 0x02000000, 0⟩, ⟨500, 1, 0x01010000, 7⟩], version := 0
               hasCompositionTimeOffsets := true, duration := 1000, dataSize := 3
               startsWithSync := true }]
    payloadStart := payloadStart, payloadLen := 3 }

/-- A configuration without catching up, for segments of a second. -/
def config : Config := ⟨false, 0, fun timescale => .ok timescale, 0, 0⟩

/-- A reader that has one fragment of each track. -/
def reader : Reader :=
  { timeline := ⟨fun _ => .ok 0, 0⟩, initDone := true, videoTrack := track 1, audioTrack := track 2
    video := [fragment 1 0], audio := [fragment 2 3], sourcePayload := [1, 2, 3, 4, 5, 6]
    styp := box boxStyp [], prefixBuf := box boxFree [9], prefixActive := true }

theorem accepted (id payloadStart : Nat) (hid : id = 1 ∨ id = 2) :
    Accepted (track 1) (track 2) (fragment id payloadStart) := by
  -- parse at position 0, then move to where the fragment is queued
  have h0 : Accepted (track 1) (track 2) (fragment id 0) := by
    rcases hid with rfl | rfl
    · exact @Accepted.parsed _ _ (moof 1) 0 0 { fragment 1 0 with payloadLen := 0 } _ 0 3 116
        (by decide +kernel) rfl (by decide +kernel)
    · exact @Accepted.parsed _ _ (moof 2) 0 0 { fragment 2 0 with payloadLen := 0 } _ 0 3 116
        (by decide +kernel) rfl (by decide +kernel)
  exact .moved payloadStart h0

/-- The segment of both fragments. -/
def segment : Segment :=
  ((writeSegment reader.timeline reader.styp reader.prefixBytes reader.sourcePayload reader.sequence
    reader.video reader.audio).toOption).getD ⟨[], [], 0, 0⟩

theorem buildSegment_eq : reader.buildSegment config 1 1 false = .ok (reader.afterSegment config 1 1 segment) :=
  buildSegment_eq_ok_iff.mpr
    ⟨⟨by decide, by decide, by decide, by decide, by decide, by decide⟩, segment, by decide +kernel, rfl⟩

end TwoTracks

/-- The segment of that reader, with both fragments selected, has the layout. -/
theorem twoTracks_layout : ∃ r' segment,
    TwoTracks.reader.buildSegment TwoTracks.config 1 1 false = .ok r' ∧ r'.segments = [segment] ∧
    SegmentLayout (TwoTracks.track 1) (TwoTracks.track 2) TwoTracks.reader.timeline (box boxStyp [])
      (box boxFree [9]) [1, 2, 3, 4, 5, 6] 1 [TwoTracks.fragment 1 0] [TwoTracks.fragment 2 3]
      segment := by
  have hv : ∀ f ∈ TwoTracks.reader.video, Accepted (TwoTracks.track 1) (TwoTracks.track 2) f := by
    intro f hf
    rw [List.mem_singleton.mp hf]
    exact TwoTracks.accepted 1 0 (.inl rfl)
  have ha : ∀ f ∈ TwoTracks.reader.audio, Accepted (TwoTracks.track 1) (TwoTracks.track 2) f := by
    intro f hf
    rw [List.mem_singleton.mp hf]
    exact TwoTracks.accepted 2 3 (.inr rfl)
  obtain ⟨segment, hsegments, hlayout⟩ := buildSegment_layout hv ha TwoTracks.buildSegment_eq
  exact ⟨_, segment, TwoTracks.buildSegment_eq, hsegments, hlayout⟩

end TorrServer.Gstreamer.Mp4.Reader
