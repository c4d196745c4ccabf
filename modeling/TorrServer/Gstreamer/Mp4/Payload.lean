/-
# Gstreamer.Mp4.Payload — where the queued payload lies, over whole runs.

The queued fragments of both tracks have their bytes in one buffer, in front of those of an `mdat` that is still
being received. A release drops what lies before the first of them, and moves the rest with the buffer
(`exists_release`); once a segment was emitted there is always a fragment of video.

`attachPayload` adds up the sizes of the runs in an `int64`. Sizes that come to `2 ^ 64` or more wrap around,
and an `mdat` of the remainder is accepted.
-/
import TorrServer.Gstreamer.Mp4.Oversized
import TorrServer.Gstreamer.Mp4.Ranges

namespace TorrServer.Gstreamer.Mp4

open Lib List

namespace Reader

variable {cfg : Config} {r r' : Reader} {completed : Bool} {boxes : List Child} {cur : Option Child}
  {c : Child} {limit : Nat}

/-! ## The queues of the reader -/

/-- The payload of a queued fragment. -/
def payloadOf (r : Reader) (f : Fragment) : Bytes := (r.sourcePayload.drop f.payloadStart).take f.payloadLen

/-- What there is of the `mdat` under way. -/
def openMdat (r : Reader) : Bytes :=
  if r.currentTarget = .payload then r.sourcePayload.drop r.currentPayloadStart else []

/-- What every completed pair of the source lists comes to less than `2 ^ 64` bytes. -/
def PayloadsFit (boxes : List Child) : Prop :=
  ∀ videoTrack audioTrack, parseInitTracks (sourceInit boxes) = .ok (videoTrack, audioTrack) →
    ∀ pair ∈ sourcePairs boxes, ∀ videoHint audioHint f,
      parseSourceMoof pair.1 videoTrack audioTrack videoHint audioHint = .ok f →
        sizes f.samples < 2 ^ 64

theorem PayloadsFit.of_append {more : List Child} (h : PayloadsFit (boxes ++ more)) : PayloadsFit boxes := by
  intro v a hinit pair hpair
  have hsame := sourceInit_append_of_pair hpair more
  exact h v a (hsame ▸ hinit) pair ((sourcePairs_mono boxes more).subset hpair)

/-- The ranges of what is queued, the bytes of an `mdat` under way, and video once a segment was emitted. -/
structure Stowed (boxes : List Child) (cur : Option Child) (r : Reader) : Prop where
  standing : Standing boxes cur r
  ranges : PayloadsFit boxes → Ranges r.payloadLimit (r.video ++ r.audio)
  mdat : PayloadsFit boxes → ∀ c ∈ cur, r.currentTarget = .payload →
    r.sourcePayload.drop r.currentPayloadStart = c.body
  emitted : r.segments ≠ [] → r.video ≠ []

/-- The queued payload is part of the buffer. -/
theorem Standing.payloadLimit_le (h : Standing boxes cur r) : r.payloadLimit ≤ r.sourcePayload.length := by
  rw [payloadLimit]
  split
  · rename_i htarget
    cases cur with
    | none => exact absurd ((h.idle rfl).1.symm.trans htarget) (by decide)
    | some c => exact ((h.target c rfl).openMdat htarget).start_le
  · exact Nat.le_refl _

/-- An attempt takes fragments off the queues, and may cut one. -/
theorem ranges_of_attempt (h : Ranges limit (r.video ++ r.audio))
    (hbuild : r.tryBuildSegment cfg = .ok (r', completed)) : Ranges limit (r'.video ++ r'.audio) := by
  cases tryBuildSegment_eq_ok_iff.mp hbuild with
  | nothing => exact h
  | emits n audio m segment _ _ htakes =>
    have hcut := htakes.elim (P := fun audio => Ranges limit (r.video ++ audio)) h fun hselect =>
      selectAudioCount_ranges hselect h
    exact hcut.sublist ((drop_sublist _ _).append (drop_sublist _ _))

/-- Once a segment was emitted there is video. -/
theorem video_of_attempt (hmode : cfg.cueMode = false) (h : r.segments ≠ [] → r.video ≠ [])
    (hbuild : r.tryBuildSegment cfg = .ok (r', completed)) : r'.segments ≠ [] → r'.video ≠ [] := by
  cases completed with
  | false =>
    obtain ⟨rfl, -⟩ := tryBuildSegment_eq_false_iff.mp hbuild
    exact h
  | true => exact fun _ => video_ne_nil_of_segment hmode hbuild

theorem Stowed.header (h : Stowed boxes none r) (header : Bytes) (required boxType : Nat) :
    Stowed boxes none
      { r with boxHeader := header, boxHeaderRequired := required, currentBoxType := boxType } :=
  ⟨h.standing.header _ _ _, h.ranges, by simp, h.emitted⟩

theorem Stowed.begins {size headerSize : Nat} (h : Stowed boxes none r) (hheader : r.boxHeader = c.bytes)
    (htype : r.currentBoxType = c.boxType) (hlen : c.bytes.length = c.headerSize)
    (hsize : c.boxType = boxMdat → c.bytes.length + (size - headerSize) ≤ maxInt32)
    (hbegins : Begins r size headerSize r') : Stowed boxes (some c) r' := by
  have hidle := (h.standing.idle rfl).1
  have hstock := hbegins.sameStock hidle
  refine ⟨h.standing.begins hheader htype hlen hsize hbegins, fun hfit => ?_, fun _ => ?_, ?_⟩
  · rw [hstock.limit, hstock.video, hstock.audio]
    exact h.ranges hfit
  · -- the `mdat` begins where the payload ends
    rintro _ ⟨⟩ htarget
    have hstart := hstock.limit
    rw [payloadLimit, if_pos htarget, payloadLimit, if_neg (by simp [hidle])] at hstart
    rw [hstart, hstock.sourcePayload, drop_length, Child.body, ← hlen, drop_length]
  · rw [hstock.segments, hstock.video]
    exact h.emitted

theorem Stowed.write (h : Stowed boxes (some c) r) (hpos : 0 < r.currentBoxRemaining) (b : UInt8) :
    Stowed boxes (some { c with bytes := c.bytes ++ [b] }) (r.writeByte b) := by
  have hstanding := h.standing.write hpos b
  by_cases htarget : r.currentTarget = .payload
  · have hlimit := h.standing.payloadLimit_le
    rw [payloadLimit, if_pos htarget] at hlimit
    rw [writeByte, writeCurrentBoxData_payload htarget] at hstanding ⊢
    refine ⟨hstanding, fun hfit => ?_, fun hfit => ?_, h.emitted⟩
    · have hranges := h.ranges hfit
      rw [payloadLimit, if_pos htarget] at hranges ⊢
      exact hranges
    · rintro _ ⟨⟩ -
      have hbody := h.mdat hfit c rfl htarget
      have hheader := ((h.standing.target c rfl).openMdat htarget).header_le
      show (r.sourcePayload ++ [b]).drop r.currentPayloadStart = (c.bytes ++ [b]).drop c.headerSize
      rw [drop_append_of_le_length hlimit, hbody, Child.body, drop_append_of_le_length hheader]
  · have hstock := sameStock_write htarget b
    refine ⟨hstanding, fun hfit => ?_, fun _ => ?_, ?_⟩
    · rw [hstock.limit, hstock.video, hstock.audio]
      exact h.ranges hfit
    · rintro _ ⟨⟩ hpayload
      exact absurd hpayload htarget
    · rw [hstock.segments, hstock.video]
      exact h.emitted

theorem perm_of_enqueue {video audio video' audio' : List Fragment} {kind : Kind} {g : Fragment}
    (h : ∀ k : Kind, k.pick video' audio' = k.pick video audio ++ if k = kind then [g] else []) :
    (video' ++ audio').Perm (g :: (video ++ audio)) := by
  have hvideo := h .video
  have haudio := h .audio
  cases kind with
  | video =>
    simp only [Kind.pick, if_true, reduceCtorEq, if_false, append_nil] at hvideo haudio
    rw [hvideo, haudio, append_assoc]
    exact perm_middle
  | audio =>
    simp only [Kind.pick, if_true, reduceCtorEq, if_false, append_nil] at hvideo haudio
    rw [hvideo, haudio, ← append_assoc]
    exact perm_append_singleton _ _

/-- The pair that a completed `mdat` makes. -/
theorem Standing.pairing_of_mdat {f : Fragment} (h : Standing boxes (some c) r)
    (htype : c.boxType = boxMdat) (hf : r.pending = some f) : ∃ moof videoHint audioHint,
      pairing (boxes ++ [c]) = { moof := none, pairs := (pairing boxes).pairs ++ [(moof, c.body)] } ∧
      parseSourceMoof moof r.videoTrack r.audioTrack videoHint audioHint = .ok f := by
  have hawaits := h.awaits
  rw [Awaits, hf] at hawaits
  obtain ⟨-, moof, videoHint, audioHint, hmoof, hparse⟩ := hawaits
  refine ⟨moof, videoHint, audioHint, ?_, hparse⟩
  rw [pairing_append, Pairing.next, if_neg (htype ▸ by decide), if_pos htype, hmoof]
  rfl

/-- **A completed `mdat`**: below `2 ^ 64` bytes of samples, the range of the fragment is that of the `mdat`. -/
theorem Stowed.completeMdat {r₁ : Reader} (h : Stowed boxes (some c) r) (htype : c.boxType = boxMdat)
    (hfit : PayloadsFit (boxes ++ [c])) (hmdat : r.completeMdat = .ok r₁) :
    Ranges r₁.sourcePayload.length (r₁.video ++ r₁.audio) := by
  obtain ⟨f, g, kind, video, audio, hf, hattach, -, hqueue, rfl⟩ := completeMdat_cases hmdat
  obtain ⟨hdone, htarget⟩ := h.standing.of_mdat htype (by simp [hf])
  obtain ⟨moof, videoHint, audioHint, hpairing, hparse⟩ := h.standing.pairing_of_mdat htype hf
  obtain ⟨hsource, htracks, -⟩ := h.standing.init.complete.after hdone
  have hlt := hfit _ _ (hsource ▸ htracks) (moof, c.body) (by simp [sourcePairs, hpairing]) _ _ f hparse
  have hsound := parseSourceMoof_sound hparse
  obtain ⟨hg, -, hpos, hbytes⟩ := attachPayload_eq hattach
  rw [sum_dataSize hsound.runs, show f.runs.flatMap Run.samples = f.samples from rfl] at hbytes
  -- the sum of the sizes has not wrapped around
  have hlen : r.sourcePayload.length - r.currentPayloadStart = sizes f.samples := by
    have hdef := @Int.bmod_def (sizes f.samples) (2 ^ 64)
    unfold toInt64 at hbytes
    omega
  have hstart := h.standing.payloadLimit_le
  have hranges := h.ranges hfit.of_append
  rw [payloadLimit, if_pos htarget] at hstart hranges
  have hsamples : g.samples = f.samples := by
    rw [hg]
    exact setOffsets_samples 0 f.runs
  have hgstart : g.payloadStart = r.currentPayloadStart := by
    rw [hg]
    rfl
  have hglen : g.payloadLen = sizes f.samples := by
    rw [hg]
    dsimp only
    omega
  have hplaced : Placed r.sourcePayload.length g := by
    refine ⟨by rw [hsamples, hglen], ?_, by omega⟩
    rw [hglen]
    exact Nat.pos_of_ne_zero hsound.sizes_ne
  exact (hranges.cons hplaced hgstart.ge).perm (perm_of_enqueue hqueue).symm

theorem video_of_completeMdat {r₁ : Reader} (h : r.segments ≠ [] → r.video ≠ [])
    (hmdat : r.completeMdat = .ok r₁) : r₁.segments ≠ [] → r₁.video ≠ [] := by
  obtain ⟨f, g, kind, video, audio, -, -, -, hqueue, rfl⟩ := completeMdat_cases hmdat
  intro hsegments hnil
  have hvideo : video = r.video ++ if Kind.video = kind then [g] else [] := hqueue .video
  exact h hsegments (append_eq_nil_iff.mp (hvideo.symm.trans hnil)).1

theorem Stowed.complete (hmode : cfg.cueMode = false) (h : Stowed boxes (some c) r)
    (htype : r.currentBoxType = c.boxType) (hcomplete : Completes cfg r r' completed) :
    Stowed (boxes ++ [c]) none r'.resetBoxState := by
  refine ⟨h.standing.complete htype hcomplete, ?_, by simp, ?_⟩
  · intro hfit
    have hranges := h.ranges hfit.of_append
    rw [payloadLimit] at hranges
    show Ranges r'.sourcePayload.length (r'.video ++ r'.audio)
    cases hcomplete with
    | styp hstyp =>
      rw [htype] at hstyp
      rwa [if_neg (h.standing.of_other (hstyp ▸ by decide) (hstyp ▸ by decide)).2] at hranges
    | other hstyp hmoof hmdat =>
      rw [htype] at hmoof hmdat
      rwa [if_neg (h.standing.of_other hmoof hmdat).2] at hranges
    | moof hmoof hmoofOk =>
      rw [htype] at hmoof
      obtain ⟨-, htarget, -, -⟩ := h.standing.of_moof hmoof
      rw [if_neg (by simp [htarget])] at hranges
      obtain ⟨f, video, audio, fromMoof, vh, vt, ah, at', -, hvideo, haudio, rfl⟩ :=
        completeMoof_cases hmoofOk
      exact hranges.of_sameBytes (rel_append hvideo haudio)
    | mdat hmdat hmdatOk hbuild =>
      rw [htype] at hmdat
      rw [(frame_of_attempt hbuild).sourcePayload]
      exact ranges_of_attempt (h.completeMdat hmdat hfit hmdatOk) hbuild
  · show r'.segments ≠ [] → r'.video ≠ []
    cases hcomplete with
    | styp => exact h.emitted
    | other => exact h.emitted
    | moof hmoof hmoofOk =>
      obtain ⟨f, video, audio, fromMoof, vh, vt, ah, at', -, hvideo, -, rfl⟩ :=
        completeMoof_cases hmoofOk
      intro hsegments hnil
      dsimp only at hnil
      rw [hnil] at hvideo
      exact h.emitted hsegments (forall₂_nil_right_iff.mp hvideo)
    | mdat hmdat hmdatOk hbuild =>
      exact video_of_attempt hmode (video_of_completeMdat h.emitted hmdatOk) hbuild

theorem Stowed.attempt (hmode : cfg.cueMode = false) (h : Stowed boxes cur r)
    (hbuild : r.tryBuildSegment cfg = .ok (r', completed)) : Stowed boxes cur r' := by
  have hframe := frame_of_attempt hbuild
  have hlimit : r'.payloadLimit = r.payloadLimit := by
    rw [payloadLimit, payloadLimit, hframe.currentTarget, hframe.currentPayloadStart, hframe.sourcePayload]
  refine ⟨h.standing.attempt hbuild, fun hfit => ?_, fun hfit c hc htarget => ?_,
    video_of_attempt hmode h.emitted hbuild⟩
  · rw [hlimit]
    exact ranges_of_attempt (h.ranges hfit) hbuild
  · rw [hframe.sourcePayload, hframe.currentPayloadStart]
    exact h.mdat hfit c hc (hframe.currentTarget.symm.trans htarget)

/-- A release drops bytes in front of the queued payload. -/
theorem exists_release (hranges : Ranges r.payloadLimit (r.video ++ r.audio)) (hvideo : r.video ≠ []) :
    ∃ delta, r.reclaimPayloads = r.dropPayload delta ∧ (∀ f ∈ r.video ++ r.audio, delta ≤ f.payloadStart) ∧
      delta ≤ r.payloadLimit := by
  obtain ⟨delta, heq, hbefore, -⟩ := r.exists_reclaimPayloads_eq
  have hle : ∀ f ∈ r.video ++ r.audio, delta ≤ f.payloadStart :=
    fun f hf => hbefore f (mem_append_left _ hf) (hranges.placed f hf).pos
  obtain ⟨f, hf⟩ := exists_mem_of_ne_nil _ hvideo
  have hfirst := hle f (mem_append_left _ hf)
  have hinside := (hranges.placed f (mem_append_left _ hf)).inside
  exact ⟨delta, heq, hle, by omega⟩

theorem map_payloadOf_dropPayload {delta : Nat} {fragments : List Fragment}
    (hranges : Ranges r.payloadLimit (r.video ++ r.audio))
    (hbefore : ∀ f ∈ r.video ++ r.audio, delta ≤ f.payloadStart) (hsub : fragments ⊆ r.video ++ r.audio) :
    (fragments.map (shiftFragmentPayloadStarts delta)).map (r.dropPayload delta).payloadOf
      = fragments.map r.payloadOf := by
  rw [map_map]
  refine map_congr_left fun f hf => ?_
  rw [Function.comp_apply, shiftFragmentPayloadStarts, if_pos (hranges.placed f (hsub hf)).pos]
  dsimp only [payloadOf, dropPayload]
  rw [drop_drop, Nat.add_sub_cancel' (hbefore f (hsub hf))]

theorem openMdat_dropPayload {delta : Nat} (hle : delta ≤ r.payloadLimit) :
    (r.dropPayload delta).openMdat = r.openMdat := by
  dsimp only [openMdat, dropPayload]
  split
  · rename_i htarget
    rw [payloadLimit, if_pos htarget] at hle
    rw [drop_drop, Nat.add_sub_cancel' hle]
  · rfl

theorem Stowed.reclaimPayloads (h : Stowed boxes cur r) (hsegments : r.segments ≠ []) :
    Stowed boxes cur r.reclaimPayloads := by
  have hvideo := h.emitted hsegments
  refine ⟨h.standing.reclaimPayloads, fun hfit => ?_, fun hfit c hc => ?_, ?_⟩
  · have hranges := h.ranges hfit
    obtain ⟨delta, heq, hbefore, -⟩ := exists_release hranges hvideo
    rw [heq, payloadLimit_dropPayload, show (r.dropPayload delta).video ++ (r.dropPayload delta).audio
      = (r.video ++ r.audio).map (shiftFragmentPayloadStarts delta) from map_append.symm]
    exact hranges.shift hbefore
  · obtain ⟨delta, heq, -, hle⟩ := exists_release (h.ranges hfit) hvideo
    rw [heq]
    intro htarget
    have hopen := openMdat_dropPayload hle
    rw [openMdat, if_pos htarget, openMdat, if_pos (show r.currentTarget = .payload from htarget)] at hopen
    exact hopen.trans (h.mdat hfit c hc htarget)
  · obtain ⟨delta, heq, -⟩ := r.exists_reclaimPayloads_eq
    rw [heq]
    exact fun _ hnil => hvideo (map_eq_nil_iff.mp hnil)

/-- A segment has been emitted. -/
def Emitted (r : Reader) : Prop := r.segments ≠ []

instance : DecidablePred Emitted := fun r => inferInstanceAs (Decidable (r.segments ≠ []))

/-- **All the parts of a call keep it**, if payload is released only after a segment. -/
theorem stowed_kept (hmode : cfg.cueMode = false) :
    KeptByBoxes cfg Emitted fun _ boxes cur r => Stowed boxes cur r where
  header _ _ _ h := h.header _ _ _
  begins h hheader htype hlen hsize hbegins :=
    h.begins hheader htype hlen (fun hmdat => hsize (.inr hmdat)) hbegins
  write b h hpos := h.write hpos b
  complete h _ htype _ hcomplete := h.complete hmode htype hcomplete
  attempt h _ hbuild := h.attempt hmode hbuild
  release h hsegments := h.reclaimPayloads hsegments

/-- With the rest of the `mdat`, `completeMdat` queues one fragment, with all of the `mdat`. -/
theorem completeMdat_payload {rest : Bytes} (htarget : r.currentTarget = .payload)
    (hstart : r.currentPayloadStart ≤ r.sourcePayload.length)
    (h : ({ r with sourcePayload := r.sourcePayload ++ rest }).completeMdat = .ok r') :
    ∃ f, (r'.video ++ r'.audio).Perm (f :: (r.video ++ r.audio)) ∧
      r'.payloadOf f = r.openMdat ++ rest := by
  obtain ⟨f, g, kind, video, audio, -, hattach, -, hqueue, rfl⟩ := completeMdat_cases h
  refine ⟨g, perm_of_enqueue hqueue, ?_⟩
  obtain ⟨rfl, -, hlen, -⟩ := attachPayload_eq hattach
  show ((r.sourcePayload ++ rest).drop (r.currentPayloadStart : Int).toNat).take _ = r.openMdat ++ rest
  rw [openMdat, if_pos htarget, Int.toNat_natCast, drop_append_of_le_length hstart]
  refine take_of_length_le ?_
  simp only [length_append, length_drop] at hlen ⊢
  omega

/-- What holds of the payload after the bytes `stream`. -/
structure PayloadSound (stream : Bytes) (r : Reader) : Prop where
  inside : ∀ f ∈ r.video ++ r.audio, f.payloadStart + f.payloadLen ≤ r.payloadLimit
  limit_le : r.payloadLimit ≤ r.sourcePayload.length
  apart : (r.video ++ r.audio).Pairwise Apart
  len : ∀ f ∈ r.video ++ r.audio, f.payloadLen = sizes f.samples
  openMdat_eq : r.currentTarget = .payload → ∃ header : Bytes, header.length = r.boxHeader.length ∧
    stream = boxBytes (topBoxes stream) ++ header ++ r.openMdat
  release : r.Emitted →
    r.reclaimPayloads.video.map r.reclaimPayloads.payloadOf = r.video.map r.payloadOf ∧
    r.reclaimPayloads.audio.map r.reclaimPayloads.payloadOf = r.audio.map r.payloadOf ∧
    r.reclaimPayloads.openMdat = r.openMdat
  attach : r.currentTarget = .payload → ∀ rest r',
    ({ r with sourcePayload := r.sourcePayload ++ rest }).completeMdat = .ok r' →
      ∃ f, (r'.video ++ r'.audio).Perm (f :: (r.video ++ r.audio)) ∧
        r'.payloadOf f = r.openMdat ++ rest

theorem Stowed.payloadSound {s : Bytes} (h : Stowed boxes cur r) (hframing : Framing s boxes cur r)
    (hfit : PayloadsFit boxes) : PayloadSound s r := by
  have hranges := h.ranges hfit
  have hlimit := h.standing.payloadLimit_le
  refine ⟨fun f hf => (hranges.placed f hf).inside, hlimit, hranges.apart,
    fun f hf => (hranges.placed f hf).len, fun htarget => ?_, fun hsegments => ?_,
    fun htarget rest r' => completeMdat_payload htarget ?_⟩
  · cases cur with
    | none => exact absurd ((h.standing.idle rfl).1.symm.trans htarget) (by decide)
    | some c =>
      obtain ⟨hs, hbody, -⟩ := hframing.place
      have hheader := ((h.standing.target c rfl).openMdat htarget).header_le
      refine ⟨c.bytes.take c.headerSize, ?_, ?_⟩
      · rw [length_take, hbody.header_eq]
        omega
      · rw [hframing.topBoxes_eq, openMdat, if_pos htarget, h.mdat hfit c rfl htarget, Child.body,
          append_assoc, take_append_drop]
        exact hs
  · have hvideo := h.emitted hsegments
    obtain ⟨delta, heq, hbefore, hle⟩ := exists_release hranges hvideo
    rw [heq]
    exact ⟨map_payloadOf_dropPayload hranges hbefore (subset_append_left _ _),
      map_payloadOf_dropPayload hranges hbefore (subset_append_right _ _), openMdat_dropPayload hle⟩
  · rwa [payloadLimit, if_pos htarget] at hlimit

end Reader

namespace BoxReader

open Reader

variable {cfg : Config} {r : BoxReader}

/-- **The payload over whole runs.** If payload is released only after a segment was emitted and no pair lists
`2 ^ 64` bytes: the queued fragments have the bytes of their samples, in ranges that do not meet, in front of
the `mdat` under way; and a release changes neither. -/
theorem payloads_sound {timeline : Timeline} {calls : List Call} (hmode : cfg.cueMode = false)
    (hrun : Lib.run (BoxReader.call cfg) { reader := { timeline := timeline } } calls = some r)
    (hrelease : Each (BoxReader.call cfg) (Releases Emitted) { reader := { timeline := timeline } } calls)
    (hfit : PayloadsFit (topBoxes (consumed calls r))) : PayloadSound (consumed calls r) r.reader := by
  have hstart : AtBoxes (fun _ boxes cur r => Stowed boxes cur r) false [] { timeline := timeline } :=
    ⟨[], none, framing_start timeline, standing_start timeline, fun _ => Ranges.nil, by simp,
      fun h => absurd rfl h⟩
  obtain ⟨-, boxes, cur, hframing, hstowed⟩ := kept_run (stowed_kept hmode).kept hstart hrelease hrun
  rw [hframing.topBoxes_eq] at hfit
  exact hstowed.payloadSound hframing hfit

/-- With explicit durations and exact payloads, the lists come to what the payloads have. -/
theorem payloadsFit_of_exact {boxes : List Child} (hexplicit : ExplicitDurations boxes)
    (hexact : ExactPayloads boxes) (hlength : ∀ pair ∈ sourcePairs boxes, pair.2.length < 2 ^ 64) :
    PayloadsFit boxes := by
  intro v a hinit pair hpair videoHint audioHint f hparse
  obtain ⟨b, hb, htype, hbytes⟩ := exists_of_mem_sourcePairs hpair
  obtain ⟨g, hg⟩ := hexplicit v a hinit b hb htype
  rw [hbytes] at hg
  have hsame := (parseSourceMoof_explicit hg videoHint audioHint).1.symm.trans hparse
  rw [Except.ok.injEq] at hsame
  rw [← hsame, ← hexact v a hinit pair hpair g hg]
  exact hlength pair hpair

namespace Source

/-- Two seconds and the beginning of a third; the first segment is emitted and released. -/
def midway : List Call :=
  [.push (moov ++ pair 1 0 [1, 2] ++ pair 2 0 [3]),
    .push (pair 1 1000 [4, 5] ++ moof 2 1000 2 ++ put32 10 ++ put32 boxMdat ++ [6]),
    .tryProcessDeferred, .releaseSegment]

end Source

theorem midway_sound : ∃ r, Lib.run (BoxReader.call Source.config) Source.fresh Source.midway = some r ∧
    r.reader.segments.length = 1 ∧ r.reader.openMdat = [6] ∧
    PayloadSound (consumed Source.midway r) r.reader := by
  have hsome : (Lib.run (BoxReader.call Source.config) Source.fresh Source.midway).isSome = true := by
    decide +kernel
  have hgood : ∀ r ∈ Lib.run (BoxReader.call Source.config) Source.fresh Source.midway,
      ExplicitDurations (topBoxes (consumed Source.midway r)) ∧
        ExactPayloads (topBoxes (consumed Source.midway r)) ∧
        (∀ pair ∈ sourcePairs (topBoxes (consumed Source.midway r)), pair.2.length < 2 ^ 64) ∧
        r.reader.segments.length = 1 ∧ r.reader.openMdat = [6] := by
    decide +kernel
  obtain ⟨r, hr⟩ := Option.isSome_iff_exists.mp hsome
  obtain ⟨hexplicit, hexact, hlength, hsegments, hopen⟩ := hgood r hr
  exact ⟨r, hr, hsegments, hopen,
    payloads_sound rfl hr (by decide +kernel) (payloadsFit_of_exact hexplicit hexact hlength)⟩

/-- **The sizes wrap around.** A fragment that lists `2 ^ 64` bytes is queued with an empty `mdat`. -/
theorem sizes_wrap_around : ∃ r,
    Lib.run (BoxReader.call Source.config) Source.fresh (Oversized.calls (2 ^ 14)) = some r ∧
    (∃ f ∈ r.reader.video, f.payloadLen = 0 ∧ sizes f.samples = 2 ^ 64) ∧
    ¬ Reader.PayloadSound (consumed (Oversized.calls (2 ^ 14)) r) r.reader := by
  obtain ⟨r, hrun, hvideo⟩ := @Oversized.run_calls (2 ^ 14) (by decide) (by decide) (by decide +kernel)
  have hsizes := Oversized.sizes_queued (2 ^ 14)
  refine ⟨_, hrun, ⟨Oversized.queued (2 ^ 14), ?_, rfl, hsizes⟩, fun h => ?_⟩
  · show _ ∈ r.video
    rw [hvideo]
    exact mem_singleton.mpr rfl
  · have hlen := h.len (Oversized.queued (2 ^ 14))
      (by
        show _ ∈ r.video ++ r.audio
        rw [hvideo]
        exact mem_cons_self ..)
    rw [hsizes] at hlen
    exact absurd hlen (by decide)

end BoxReader

end TorrServer.Gstreamer.Mp4
