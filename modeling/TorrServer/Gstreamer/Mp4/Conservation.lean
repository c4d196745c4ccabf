/-
# Gstreamer.Mp4.Conservation — no sample is lost, repeated or changed.

However the stream is pushed and whenever deferred bytes are processed or payload is released: the samples of
the emitted segments, followed by those of the queued fragments, are the samples of the source so far, track by
track.

Next to `Standing`, the invariant has a part for the queues and what was emitted (`Media`) and one for what
stands in front of the next segment (`Front`).
-/
import TorrServer.Gstreamer.Mp4.Standing

namespace TorrServer.Gstreamer.Mp4.Reader

open Lib List

variable {cfg : Config} {r r' r₁ r₂ : Reader} {b : UInt8} {completed : Bool} {s : Bytes}
  {boxes : List Child} {cur : Option Child} {c : Child} {size headerSize : Nat}

/-! ## The invariant -/

/-- The part of the prefix buffer that belongs to the current box. -/
def openPrefix (cur : Option Child) (r : Reader) : Bytes :=
  if r.currentTarget = .prefixBox then boxBytes cur.toList else []

/-- What stands in front of the next segment is made of boxes that are no `moof`. -/
structure Front (cur : Option Child) (r : Reader) : Prop where
  prefixBoxes : ∃ before : List Child, (∀ b ∈ before, b.IsTop ∧ b.boxType ≠ boxMoof) ∧
    r.prefixBuf = boxBytes before ++ openPrefix cur r
  inactive : r.prefixActive = false → r.prefixBuf = []
  styp : r.styp = [] ∨ ∃ b : Child, b.IsTop ∧ b.boxType = boxStyp ∧ r.styp = b.bytes

/-- The queues and what was emitted, after the given boxes and what there is of the current one. -/
structure Content (boxes : List Child) (cur : Option Child) (r : Reader) : Prop where
  media : Media r.timeline r.videoTrack r.audioTrack (sourcePairs boxes) r.sourcePayload r.payloadLimit
    r.video r.audio r.segments r.sequence
  front : Front cur r
  active : r.currentTarget = .prefixBox → r.prefixActive = true

/-- Without the current box's buffers: what a box begins with. -/
structure Between (boxes : List Child) (r : Reader) : Prop where
  media : Media r.timeline r.videoTrack r.audioTrack (sourcePairs boxes) r.sourcePayload
    r.sourcePayload.length r.video r.audio r.segments r.sequence
  front : Front none r

theorem Content.between (h : Content boxes none r) (hidle : r.currentTarget = .none) : Between boxes r := by
  have hmedia := h.media
  rw [payloadLimit, if_neg (by simp [hidle])] at hmedia
  exact ⟨hmedia, h.front⟩

theorem Between.content (h : Between boxes r) : Content boxes none r.resetBoxState :=
  ⟨h.media, ⟨by simpa [openPrefix, boxBytes, resetBoxState] using h.front.prefixBoxes, h.front.inactive,
    h.front.styp⟩, fun h => by cases h⟩

/-! ## A box begins -/

/-- A box that is copied in front of the next segment follows the ones there; others leave them. -/
theorem BeginsMedia.front (h : BeginsMedia r size headerSize r') (hidle : r.currentTarget = .none)
    (hr : Front none r) (hheader : r.boxHeader = c.bytes) :
    Front (some c) r' ∧ (r'.currentTarget = .prefixBox → r'.prefixActive = true) := by
  obtain ⟨before, hbefore, hbuffer⟩ := hr.prefixBoxes
  have hclosed : r.prefixBuf = boxBytes before := by
    rw [hbuffer, openPrefix, if_neg (by simp [hidle]), append_nil]
  have hfront : ∀ target : BoxTarget, target ≠ .prefixBox →
      r.prefixBuf = boxBytes before ++ if target = .prefixBox then boxBytes [c] else [] := by
    intro target htarget
    rw [if_neg htarget, append_nil, hclosed]
  have hsame : r.prefixBuf = boxBytes before ++ openPrefix (some c) r := by
    rw [openPrefix, hidle]
    exact hfront .none (by decide)
  cases h with
  | moof =>
    exact ⟨⟨⟨before, hbefore, hfront .moof (by decide)⟩, hr.inactive, hr.styp⟩, fun h => by cases h⟩
  | mdat =>
    exact ⟨⟨⟨before, hbefore, hfront .payload (by decide)⟩, hr.inactive, hr.styp⟩, fun h => by cases h⟩
  | sidx =>
    exact ⟨⟨⟨before, hbefore, hsame⟩, hr.inactive, hr.styp⟩,
      fun h => absurd (hidle.symm.trans h) (by decide)⟩
  | styp =>
    exact ⟨⟨⟨before, hbefore, hfront .styp (by decide)⟩, hr.inactive, hr.styp⟩, fun h => by cases h⟩
  | prefixBox =>
    refine ⟨⟨⟨before, hbefore, ?_⟩, by simp [copyTo, writeCurrentBoxData], hr.styp⟩, fun _ => rfl⟩
    show r.prefixBuf ++ r.boxHeader = boxBytes before ++
      (if BoxTarget.prefixBox = .prefixBox then boxBytes [c] else [])
    rw [if_pos rfl, hclosed, hheader]
    simp
  | terminal =>
    exact ⟨⟨⟨before, hbefore, hsame⟩, hr.inactive, hr.styp⟩,
      fun h => absurd (hidle.symm.trans h) (by decide)⟩

theorem Begins.front (h : Begins r size headerSize r') (hidle : r.currentTarget = .none)
    (hr : Front none r) (hheader : r.boxHeader = c.bytes) :
    Front (some c) r' ∧ (r'.currentTarget = .prefixBox → r'.prefixActive = true) := by
  obtain ⟨before, hbefore, hbuffer⟩ := hr.prefixBoxes
  rw [openPrefix, if_neg (by simp [hidle])] at hbuffer
  cases h with
  | init => exact ⟨⟨⟨before, hbefore, hbuffer⟩, hr.inactive, hr.styp⟩, fun h => by cases h⟩
  | first _ _ _ hmedia | media _ hmedia =>
    exact hmedia.front rfl ⟨⟨before, hbefore, hbuffer⟩, hr.inactive, hr.styp⟩ hheader

theorem Content.header (h : Content boxes none r) (header : Bytes) (required boxType : Nat) :
    Content boxes none
      { r with boxHeader := header, boxHeaderRequired := required, currentBoxType := boxType } :=
  ⟨h.media, ⟨h.front.prefixBoxes, h.front.inactive, h.front.styp⟩, h.active⟩

/-- The queues with the tracks as they were. -/
theorem Content.media_of_same (h : Content boxes cur r) (hstock : SameStock r r')
    (hvideo : r'.videoTrack = r.videoTrack) (haudio : r'.audioTrack = r.audioTrack) :
    Media r'.timeline r'.videoTrack r'.audioTrack (sourcePairs boxes) r'.sourcePayload r'.payloadLimit
      r'.video r'.audio r'.segments r'.sequence := by
  rw [hstock.timeline, hvideo, haudio, hstock.sourcePayload, hstock.limit, hstock.video, hstock.audio,
    hstock.segments, hstock.sequence]
  exact h.media

/-- **A box begins.** -/
theorem Begins.content (h : Begins r size headerSize r') (hstanding : Standing boxes none r)
    (hr : Content boxes none r) (hheader : r.boxHeader = c.bytes) : Content boxes (some c) r' := by
  have hidle := (hstanding.idle rfl).1
  have hstock := h.sameStock hidle
  obtain ⟨hfront, hactive⟩ := h.front hidle hr.front hheader
  refine ⟨?_, hfront, hactive⟩
  cases h with
  | init => exact hr.media_of_same hstock rfl rfl
  | first hinit =>
    -- the tracks are known from here on, and nothing is queued yet
    obtain ⟨hnone, -, hvideo, haudio, hsegments, -⟩ := hstanding.init.before hinit
    rw [Option.toList_none, append_nil] at hnone
    have hsequence := hr.media.sequence_eq
    rw [hsegments] at hsequence
    have hlimit : r.payloadLimit = r.sourcePayload.length := by rw [payloadLimit, if_neg (by simp [hidle])]
    rw [hstock.timeline, hstock.sourcePayload, hstock.limit, hstock.video, hstock.audio,
      hstock.segments, hstock.sequence, hvideo, haudio, hsegments, hsequence, hlimit, sourcePairs,
      pairing_of_none (not_moof_of_not_media hnone)]
    exact Media.empty _
  | media hinit hmedia =>
    have hsame := hmedia.sameInit
    exact hr.media_of_same hstock hsame.videoTrack hsame.audioTrack

/-! ## A box goes on -/

/-- The bytes in front of the next segment, after one more byte. -/
theorem Front.write (h : Front (some c) r) (hactive : r.currentTarget = .prefixBox → r.prefixActive = true)
    (b : UInt8) : Front (some { c with bytes := c.bytes ++ [b] }) (r.writeByte b) := by
  obtain ⟨before, hbefore, hbuffer⟩ := h.prefixBoxes
  rw [openPrefix] at hbuffer
  by_cases htarget : r.currentTarget = .prefixBox
  · refine ⟨⟨before, hbefore, ?_⟩, fun hoff => absurd ((hactive htarget).symm.trans hoff) (by simp), h.styp⟩
    rw [openPrefix, if_pos (show (r.writeByte b).currentTarget = .prefixBox from htarget)]
    refine (if_pos htarget).trans ?_
    rw [hbuffer, if_pos htarget]
    simp
  · refine ⟨⟨before, hbefore, (if_neg htarget).trans ?_⟩, fun hoff => (if_neg htarget).trans (h.inactive hoff),
      h.styp⟩
    rw [hbuffer, openPrefix, if_neg htarget,
      if_neg (show (r.writeByte b).currentTarget ≠ .prefixBox from htarget)]

/-- **The next byte of a body.** -/
theorem Content.write (h : Content boxes (some c) r) (b : UInt8) :
    Content boxes (some { c with bytes := c.bytes ++ [b] }) (r.writeByte b) := by
  refine ⟨?_, h.front.write h.active b, h.active⟩
  by_cases htarget : r.currentTarget = .payload
  · have hmedia := h.media
    rw [payloadLimit, if_pos htarget] at hmedia
    rw [writeByte, writeCurrentBoxData_payload htarget, payloadLimit, if_pos htarget]
    exact hmedia.append_storage [b]
  · exact h.media_of_same (sameStock_write htarget b) rfl rfl

/-! ## A box is completed -/

/-- A `moof` with explicit durations only opens a pair. -/
theorem completeMoof_eq {f : Fragment} (h : r.completeMoof = .ok r')
    (hvideo : ∀ g ∈ r.video, g.hasInferredDuration = false)
    (haudio : ∀ g ∈ r.audio, g.hasInferredDuration = false)
    (hf : parseSourceMoof r.sourceMoof r.videoTrack r.audioTrack 0 0 = .ok f) :
    ∃ vh vt ah at' fromMoof, r' =
      { r with
        pending := some f
        sourcePayloadFromMoof := fromMoof
        videoSampleDurationHint := vh
        videoSampleDurationHintTimescale := vt
        audioSampleDurationHint := ah
        audioSampleDurationHintTimescale := at' } := by
  obtain ⟨hparse, -⟩ := parseSourceMoof_explicit hf r.videoHint r.audioHint
  simp only [completeMoof, hparse, wrapError, ok_bind,
    resolvePreviousInferredDuration_eq hvideo haudio, pure_eq_ok] at h
  obtain ⟨vh, vt, ah, at', heq⟩ := rememberDuration_eq r f
  rw [heq] at h
  exact ⟨vh, vt, ah, at', _, h.symm⟩

theorem tagged_setOffsets (start : Nat) (runs : List Run) : tagged (setOffsets start runs) = tagged runs := by
  rw [tagged, tagged, flatMap_def, flatMap_def, setOffsets_map Run.tagged (fun _ _ => rfl)]

/-- With explicit durations the hints play no part in the fragment that waits. -/
theorem Standing.parse_of_pending {f : Fragment} (h : Standing boxes cur r) (hdone : r.initDone = true)
    (hgood : ExplicitDurations boxes) (hf : r.pending = some f) : ∃ moof,
      (pairing boxes).moof = some moof ∧
      parseSourceMoof moof r.videoTrack r.audioTrack 0 0 = .ok f := by
  have hawaits := h.awaits
  rw [Awaits, hf] at hawaits
  obtain ⟨-, moof, videoHint, audioHint, hmoof, hparse⟩ := hawaits
  obtain ⟨hsource, htracks, -⟩ := h.init.after hdone
  obtain ⟨b, hb, htype, rfl⟩ := exists_of_pairing_moof hmoof
  obtain ⟨f₀, hf₀⟩ := hgood _ _ (hsource ▸ htracks) b hb htype
  have hsame := (parseSourceMoof_explicit hf₀ videoHint audioHint).1
  rw [hparse] at hsame
  cases hsame
  exact ⟨b.bytes, hmoof, hf₀⟩

/-- **A pair is completed**: its samples are queued with the bytes of its `mdat`. -/
theorem completeMdat_media (hstanding : Standing boxes (some c) r) (h : Content boxes (some c) r)
    (htype : c.boxType = boxMdat) (hgood : Good (boxes ++ [c])) (hdone : r.currentBoxRemaining = 0)
    (hmdat : r.completeMdat = .ok r₁) :
    ∃ video audio,
      r₁ = { r with
        video := video, audio := audio, pending := none, sourcePayloadFromMoof := 0
        currentPayloadStart := 0, sourceMoof := [] } ∧
      Media r.timeline r.videoTrack r.audioTrack (sourcePairs (boxes ++ [c])) r.sourcePayload
        r.sourcePayload.length video audio r.segments r.sequence := by
  obtain ⟨f, g, kind, video, audio, hf, hattach, hkind, hqueue, rfl⟩ := completeMdat_cases hmdat
  refine ⟨video, audio, rfl, ?_⟩
  obtain ⟨hinit, htarget⟩ := hstanding.of_mdat htype (by simp [hf])
  obtain ⟨-, -, htail, hheader, hsize⟩ := (hstanding.target c rfl).openMdat htarget
  obtain ⟨moof, hmoof, hparse⟩ := hstanding.parse_of_pending hinit hgood.of_append.1 hf
  have hpairing : pairing (boxes ++ [c])
      = { moof := none, pairs := (pairing boxes).pairs ++ [(moof, c.body)] } := by
    rw [pairing_append, Pairing.next, if_neg (htype ▸ by decide), if_pos htype, hmoof]
    rfl
  have hmedia := h.media
  rw [payloadLimit, if_pos htarget] at hmedia
  -- the `mdat` has the bytes of the samples, so nothing of it was dropped on the way
  obtain ⟨-, hexact⟩ := hgood
  obtain ⟨hsource, hinitParse, -⟩ := hstanding.init.complete.after hinit
  rw [hsource] at hinitParse
  have hlen := hexact _ _ hinitParse (moof, c.body) (by simp [sourcePairs, hpairing]) f hparse
  have hsound := parseSourceMoof_sound hparse
  obtain ⟨hsound', hattached⟩ := attachPayload_attached hsound hattach
  obtain ⟨hg, -, -, hbytes⟩ := attachPayload_eq hattach
  have hbody : c.body.length = sizes f.samples := hlen
  have hmax : maxInt32 ≤ maxInt64 := by decide
  have hbodyLe : c.body.length ≤ c.bytes.length := by
    rw [Child.body, length_drop]
    omega
  rw [sum_dataSize hsound.runs, show f.runs.flatMap Run.samples = f.samples from rfl, ← hbody,
    toInt64_of_le (by omega)] at hbytes
  have htailEq : r.sourcePayload.drop r.currentPayloadStart = c.body := by
    refine htail.eq_of_length ?_
    rw [length_drop]
    omega
  have htrack : g.trackID = f.trackID := by rw [hg]
  have hsamples : g.samples = f.samples := by
    rw [hg]
    exact setOffsets_samples 0 f.runs
  have hstart : g.payloadStart = r.currentPayloadStart := by
    rw [hg]
    rfl
  have hlen' : g.payloadLen = c.body.length := by
    rw [hg]
    dsimp only
    omega
  have hfragment : fragmentSamples r.sourcePayload g
      = mediaSamples f.decodeTime (tagged f.runs) c.body := by
    rw [fragmentSamples, hstart, htailEq, hg]
    dsimp only
    rw [tagged_setOffsets]
  rw [sourcePairs, hpairing]
  refine hmedia.enqueue hqueue ⟨⟨hsound', hattached, hkind⟩, ?_, ?_, ?_⟩ ?_
  · rw [hg]
    exact (parseSourceMoof_explicit hparse 0 0).2
  · rw [hlen', hsamples, hbody]
  · rw [hlen', hstart]
    omega
  · intro k
    rw [hfragment, pairSamples]
    dsimp only
    rw [hparse]
    dsimp only
    rw [← htrack, hkind]
    by_cases hk : k = kind
    · rw [if_pos hk, if_pos (congrArg some hk.symm)]
    · rw [if_neg hk, if_neg fun h => hk (Option.some.inj h).symm]

/-! ## A segment is emitted -/

theorem openPrefix_none (r : Reader) : openPrefix none r = [] := by
  rw [openPrefix]
  split <;> rfl

/-- Unless such a box is under way, the bytes in front of the next segment are whole boxes. -/
theorem Front.wholeBoxes (h : Front cur r) (hopen : openPrefix cur r = []) : ∃ before : List Child,
    (∀ b ∈ before, b.IsTop ∧ b.boxType ≠ boxMoof) ∧ r.styp ++ r.prefixBytes = boxBytes before := by
  obtain ⟨before, hbefore, hbuffer⟩ := h.prefixBoxes
  rw [hopen, append_nil] at hbuffer
  have hfront : r.prefixBytes = boxBytes before := by
    rw [prefixBytes]
    split
    · exact hbuffer
    · rename_i hinactive
      rw [← hbuffer, h.inactive (by simpa using hinactive)]
  rcases h.styp with hstyp | ⟨b, htop, htype, hstyp⟩
  · exact ⟨before, hbefore, by rw [hstyp, hfront, nil_append]⟩
  · refine ⟨b :: before, ?_, by rw [hstyp, hfront, boxBytes_cons]⟩
    intro d hd
    rcases mem_cons.mp hd with rfl | hd
    · exact ⟨htop, htype ▸ by decide⟩
    · exact hbefore d hd

/-- What the audio that is taken has to do with the audio queue. -/
theorem TakesAudio.cut {videoCount audioCount limit : Nat} {audio : List Fragment}
    (h : r.TakesAudio videoCount audio audioCount)
    (hheld : Held r.videoTrack r.audioTrack .audio limit r.audio) (storage : Bytes) :
    Held r.videoTrack r.audioTrack .audio limit audio ∧
      queueSamples storage audio = queueSamples storage r.audio := by
  rw [TakesAudio] at h
  split at h
  · obtain ⟨rfl, -⟩ := h
    exact ⟨hheld, rfl⟩
  · have hcut := selectAudioCount_spec hheld storage h.2
    exact ⟨hcut.held, hcut.samples⟩

/-- **An emitted segment** takes its samples from the queues. -/
theorem Between.emit (h : Between boxes r) (hbuild : r.tryBuildSegment cfg = .ok (r', true)) :
    Between boxes r' := by
  obtain _ | ⟨n, audio, m, segment, -, -, htakes, -, hwrite⟩ := tryBuildSegment_eq_ok_iff.mp hbuild
  obtain ⟨before, hbefore, hbytes⟩ := h.front.wholeBoxes (openPrefix_none r)
  obtain ⟨haudio, hsplit⟩ := htakes.cut (h.media.held .audio) r.sourcePayload
  refine ⟨h.media.emit hbefore hbytes haudio hsplit hwrite,
    ⟨⟨[], by simp, ?_⟩, fun _ => rfl, h.front.styp⟩⟩
  exact (openPrefix_none _).symm

/-! ## All the ways a box is completed -/

/-- The bytes of the completed box leave the prefix buffer made of whole boxes. -/
theorem Front.complete (h : Front (some c) r) (htop : c.IsTop)
    (hmoof : r.currentTarget = .prefixBox → c.boxType ≠ boxMoof)
    (hbuffer : r'.prefixBuf = r.prefixBuf) (hactive : r'.prefixActive = r.prefixActive)
    (hstyp : r'.styp = [] ∨ ∃ b : Child, b.IsTop ∧ b.boxType = boxStyp ∧ r'.styp = b.bytes) :
    Front none r' := by
  obtain ⟨before, hbefore, hfront⟩ := h.prefixBoxes
  refine ⟨?_, fun hoff => ?_, hstyp⟩
  · have hopen : openPrefix none r' = [] := by
      rw [openPrefix]
      split <;> rfl
    rw [hopen, hbuffer, hfront, openPrefix]
    split
    · rename_i htarget
      refine ⟨before ++ [c], ?_, by simp⟩
      intro b hb
      rcases mem_append.mp hb with hb | hb
      · exact hbefore b hb
      · rw [mem_singleton.mp hb]
        exact ⟨htop, hmoof htarget⟩
    · exact ⟨before, hbefore, rfl⟩
  · rw [hbuffer]
    exact h.inactive (hactive ▸ hoff)

/-- **A completed box.**  If it emits nothing, then nothing is ready after it. -/
theorem Completes.content (h : Completes cfg r r' completed) (hstanding : Standing boxes (some c) r)
    (hr : Content boxes (some c) r) (htop : c.IsTop) (htype : r.currentBoxType = c.boxType)
    (hzero : r.currentBoxRemaining = 0) (hgood : Good (boxes ++ [c])) (hquiet : r.NothingReady cfg) :
    Content (boxes ++ [c]) none r'.resetBoxState ∧
      (completed = false → r'.resetBoxState.NothingReady cfg) := by
  have hmedia := hr.media
  rw [payloadLimit] at hmedia
  cases h with
  | styp hstyp =>
    -- the type has sent the bytes of the box to its buffer
    rw [htype] at hstyp
    obtain ⟨htarget, hbuffer⟩ : r.currentTarget = .styp ∧ r.sourceStyp = c.bytes := by
      cases hstanding.target c rfl with
      | init hinit =>
        have hmedia := (hstanding.init.before hinit).1 c (mem_append_right _ (by simp))
        simp [Child.isMedia, hstyp] at hmedia
      | moof _ hother => exact absurd (hstyp.symm.trans hother) (by decide)
      | payload _ hother => exact absurd (hstyp.symm.trans hother) (by decide)
      | styp _ _ htarget hbuffer => exact ⟨htarget, hbuffer⟩
      | prefixBox _ hother =>
        rw [hstyp] at hother
        exact absurd hother (by unfold IsPrefixType; decide)
      | skipped _ hother =>
        rw [hstyp] at hother
        exact absurd hother (by decide)
    rw [if_neg (by simp [htarget])] at hmedia
    refine ⟨Between.content ⟨?_, ?_⟩,
      fun _ => hquiet.of_same ⟨rfl, rfl, rfl, rfl, rfl, rfl, rfl, rfl⟩ rfl rfl⟩
    · rw [sourcePairs, pairing_append_other (hstyp ▸ by decide) (hstyp ▸ by decide)]
      exact hmedia
    · refine hr.front.complete htop (by simp [htarget]) rfl rfl ?_
      dsimp only
      split
      · exact .inr ⟨c, htop, hstyp, hbuffer⟩
      · exact hr.front.styp
  | other hstyp hmoof hmdat mfra final moov =>
    -- the pairs stay; the box may be one in front of the next segment
    rw [htype] at hmoof hmdat
    rw [if_neg (hstanding.of_other hmoof hmdat).2] at hmedia
    refine ⟨Between.content ⟨?_, hr.front.complete htop (fun _ => hmoof) rfl rfl hr.front.styp⟩,
      fun _ => hquiet.of_same ⟨rfl, rfl, rfl, rfl, rfl, rfl, rfl, rfl⟩ rfl rfl⟩
    rw [sourcePairs, pairing_append_other hmoof hmdat]
    exact hmedia
  | moof hmoof hcomplete =>
    -- with explicit durations nothing queued is re-timed; the fragment waits
    rw [htype] at hmoof
    obtain ⟨hdone, htarget, hbuffer, -⟩ := hstanding.of_moof hmoof
    rw [if_neg (by simp [htarget])] at hmedia
    obtain ⟨hsource, hparse, -⟩ := hstanding.init.complete.after hdone
    rw [hsource] at hparse
    obtain ⟨f, hf⟩ := hgood.1 _ _ hparse c (by simp) hmoof
    obtain ⟨vh, vt, ah, at', fromMoof, rfl⟩ :=
      completeMoof_eq hcomplete (fun f hf => (hmedia.held .video f hf).explicit)
      (fun f hf => (hmedia.held .audio f hf).explicit) (hbuffer ▸ hf)
    refine ⟨Between.content ⟨?_, hr.front.complete htop (by simp [htarget]) rfl rfl hr.front.styp⟩,
      fun _ => hquiet.of_same ⟨rfl, rfl, rfl, rfl, rfl, rfl, rfl, rfl⟩ rfl rfl⟩
    rw [sourcePairs, pairing_append, Pairing.next, if_pos hmoof]
    exact hmedia
  | mdat hmdat hcomplete hbuild =>
    -- the pair joins the queues; the attempt that follows emits a segment or finds nothing
    rw [htype] at hmdat
    obtain ⟨video, audio, rfl, hmedia'⟩ :=
      completeMdat_media hstanding hr hmdat hgood hzero hcomplete
    have hmoof : c.boxType ≠ boxMoof := hmdat ▸ by decide
    have hbetween : Between (boxes ++ [c])
        { r with
          video := video, audio := audio, pending := none, sourcePayloadFromMoof := 0
          currentPayloadStart := 0, sourceMoof := [] } :=
      ⟨hmedia', hr.front.complete htop (fun _ => hmoof) rfl rfl hr.front.styp⟩
    cases completed with
    | true => exact ⟨(hbetween.emit hbuild).content, fun h => (by cases h)⟩
    | false =>
      obtain ⟨rfl, hready⟩ := tryBuildSegment_eq_false_iff.mp hbuild
      exact ⟨hbetween.content,
        fun _ => hready.of_same ⟨rfl, rfl, rfl, rfl, rfl, rfl, rfl, rfl⟩ rfl rfl⟩

/-! ## Payload is released -/

/-- Releasing payload keeps what is queued. -/
theorem Content.reclaimPayloads (h : Content boxes cur r) : Content boxes cur r.reclaimPayloads := by
  obtain ⟨delta, heq, hbefore, -⟩ := r.exists_reclaimPayloads_eq
  have hqueued : ∀ f ∈ r.video ++ r.audio, delta ≤ f.payloadStart := fun f hf => by
    refine hbefore f (mem_append_left _ hf) ?_
    rcases mem_append.mp hf with hf | hf
    · exact (h.media.held .video f hf).payloadLen_pos
    · exact (h.media.held .audio f hf).payloadLen_pos
  have hmedia := h.media.reclaim hqueued
  rw [heq]
  refine ⟨?_, ⟨h.front.prefixBoxes, h.front.inactive, h.front.styp⟩, h.active⟩
  rw [payloadLimit_dropPayload]
  exact hmedia

/-- Releasing payload makes nothing ready. -/
theorem NothingReady.reclaimPayloads (h : r.NothingReady cfg) : r.reclaimPayloads.NothingReady cfg := by
  obtain ⟨delta, heq, -⟩ := r.exists_reclaimPayloads_eq
  rw [heq]
  exact h.moved ⟨rfl, rfl, rfl, rfl, rfl, rfl, rfl, rfl⟩ (shiftFragmentPayloadStarts_moves _) rfl rfl

end TorrServer.Gstreamer.Mp4.Reader
