/-
# Gstreamer.Mp4.Reader — the box reader.

`mp4BoxReader` takes the byte stream of the muxer in pieces of any size. It passes the initialization on, queues
the fragments of the video and the audio track, and emits a segment as soon as the queued fragments determine
one; bytes that arrive while a segment is being emitted are deferred.

The callbacks are recorded in the reader (`inits`, `segments`). A failed call reports a reader (`failAt`): the
one before the step that failed, so without what `completeBox` or a split changes before it finds the error. The
numbers that the code derives from floating-point seconds are parameters (`Config`, `Timeline`).
-/
import TorrServer.Gstreamer.Mp4.Init
import TorrServer.Gstreamer.Mp4.Segment

namespace TorrServer.Gstreamer.Mp4

open Lib

variable {videoTimescale videoEnd n : Nat} {audio audio' : List Fragment}

/-! ## State -/

/-- Where the bytes of the current box go. -/
inductive BoxTarget
  | none
  | init
  | moof
  | payload
  | styp
  | prefixBox
  deriving DecidableEq, Repr

/-- What is fixed when the reader is made: the mode, `segmentDiff`, and what is derived from `segmentSeconds`:
`toUnits`, `uint64(segmentSeconds)` and `uint64(segmentSeconds + segmentDiff)`. -/
structure Config where
  cueMode : Bool
  segmentDiff : Nat
  targetUnits : Nat → Except String Nat
  wholeSeconds : Nat
  secondsWithDiff : Nat

/-- The state of the parsing: `mp4BoxReader` but for its deferred bytes. -/
structure Reader where
  timeline : Timeline
  inits : List Bytes := []
  segments : List Segment := []
  init : Bytes := []
  sourceMoof : Bytes := []
  sourceStyp : Bytes := []
  video : List Fragment := []
  audio : List Fragment := []
  sourcePayload : Bytes := []
  prefixBuf : Bytes := []
  prefixActive : Bool := false
  pending : Option Fragment := none
  styp : Bytes := []
  boxHeader : Bytes := []
  boxHeaderRequired : Nat := 8
  currentBoxType : Nat := 0
  currentBoxRemaining : Nat := 0
  currentTarget : BoxTarget := .none
  initDone : Bool := false
  moovCompleted : Bool := false
  sourceMfraDone : Bool := false
  sourceFinalMoovDone : Bool := false
  sourcePayloadFromMoof : Int := 0
  currentPayloadStart : Nat := 0
  videoTrack : TrackInfo := {}
  audioTrack : TrackInfo := {}
  videoSampleDurationHint : UInt32 := 0
  videoSampleDurationHintTimescale : UInt32 := 0
  audioSampleDurationHint : UInt32 := 0
  audioSampleDurationHintTimescale : UInt32 := 0
  sequence : Nat := 1
  lastVideoEndTime : Nat := 0
  completedVideoSegments : Nat := 0
  hasTargetSegment : Bool := false
  targetSegmentStartNS : Nat := 0
  targetSegmentEndNS : Nat := 0
  targetToleranceNS : Nat := 0

/-- A failed call: the reader when the error was found, and the message. -/
structure Failure where
  reader : Reader
  message : String

/-- Report an error at a reader. -/
def failAt {α : Type} (r : Reader) (x : Except String α) : Except Failure α :=
  match x with
  | .ok a => .ok a
  | .error message => .error ⟨r, message⟩

/-- `fmt.Errorf` with a context before the wrapped error. -/
def wrapError {α : Type} (context : String) (x : Except String α) : Except String α :=
  match x with
  | .ok a => .ok a
  | .error message => .error (context ++ message)

namespace Reader

variable (cfg : Config) (r : Reader)

/-- Ready for the header of the next box. -/
def resetBoxState : Reader :=
  { r with boxHeader := [], boxHeaderRequired := 8, currentBoxType := 0, currentBoxRemaining := 0
           currentTarget := .none }

/-- The boxes before a `moof` are forgotten. -/
def resetPrefix : Reader := { r with prefixBuf := [], prefixActive := false }

/-- `writeCurrentBoxData`: the buffer that is the target grows. -/
def writeCurrentBoxData (data : Bytes) : Reader :=
  let written (target : BoxTarget) (buffer : Bytes) :=
    if r.currentTarget = target then buffer ++ data else buffer
  { r with
    init := written .init r.init
    sourceMoof := written .moof r.sourceMoof
    sourcePayload := written .payload r.sourcePayload
    sourceStyp := written .styp r.sourceStyp
    prefixBuf := written .prefixBox r.prefixBuf }

/-! ## Choosing fragments -/

/-- `selectVideoCount` in the normal mode: `i` fragments of total duration `duration` are behind. -/
def selectNormal (target : Nat) : List Fragment → Nat → Nat → Nat
  | f :: g :: rest, i, duration =>
    let duration := (duration + f.duration) % 2 ^ 64
    if target ≤ duration ∧ g.startsWithSync then i + 1
    else selectNormal target (g :: rest) (i + 1) duration
  | _, _, _ => 0

/-- The loop when the reader lags behind and takes the first boundary it can. -/
def selectCatchUp (target : Nat) : List Fragment → Nat → Nat → Nat → Nat
  | f :: g :: rest, i, duration, selectedCount =>
    let duration := (duration + f.duration) % 2 ^ 64
    if duration ≤ target then
      if g.startsWithSync then
        if duration = target then i + 1
        else selectCatchUp target (g :: rest) (i + 1) duration (i + 1)
      else selectCatchUp target (g :: rest) (i + 1) duration selectedCount
    else if 0 < selectedCount then selectedCount
    else if g.startsWithSync then i + 1
    else selectCatchUp target (g :: rest) (i + 1) duration selectedCount
  | _, _, _, _ => 0

/-- Is the reader so late that the first boundary is taken? -/
def takeFirstSyncBoundary : Bool :=
  let expectedEnd :=
    r.completedVideoSegments * cfg.wholeSeconds * r.videoTrack.timescale.toNat % 2 ^ 64
  let diff := cfg.secondsWithDiff * r.videoTrack.timescale.toNat % 2 ^ 64
  decide (0 < r.completedVideoSegments) && decide (0 < cfg.segmentDiff) &&
    decide (expectedEnd < r.lastVideoEndTime) && decide (diff ≤ r.lastVideoEndTime - expectedEnd)

end Reader

/-- The decode time of the first sample plus its composition offset. -/
def firstPresentationTime (f : Fragment) : Except String Int :=
  match f.runs with
  | run :: _ =>
    match run.samples with
    | sample :: _ => do
        let compositionOffset : Int :=
          if run.version = 1 then toInt32 sample.compositionTimeOffsetRaw
          else sample.compositionTimeOffsetRaw
        require (f.decodeTime ≤ maxInt64) "video decode time exceeds int64"
        require (0 < compositionOffset → (f.decodeTime : Int) ≤ maxInt64 - compositionOffset)
          "presentation time overflow"
        require (compositionOffset < 0 → -2 ^ 63 - compositionOffset ≤ (f.decodeTime : Int))
          "presentation time underflow"
        return f.decodeTime + compositionOffset
    | [] => throw "video fragment has no first sample"
  | [] => throw "video fragment has no first sample"

namespace Reader

/-- The loop of `selectCueVideoCount`. -/
def selectCue (r : Reader) (firstPresentation : Int) : List Fragment → Nat → Except String Nat
  | [], _ => .ok 0
  | boundary :: rest, i =>
    if boundary.startsWithSync = false then selectCue r firstPresentation rest (i + 1)
    else do
      let boundaryPresentation ← firstPresentationTime boundary
      require (firstPresentation < boundaryPresentation)
        "cue presentation timeline is not increasing"
      let durationNS ← timelineNanoseconds (boundaryPresentation - firstPresentation).toNat
        r.videoTrack.timescale.toNat
      let targetDuration := r.targetSegmentEndNS - r.targetSegmentStartNS
      if durationNS < targetDuration ∧ r.targetToleranceNS < targetDuration - durationNS then
        selectCue r firstPresentation rest (i + 1)
      else return i

/-- How many fragments the cue segment takes; 0 if its end is not there yet. -/
def selectCueVideoCount (r : Reader) : Except String Nat :=
  match r.video with
  | first :: second :: rest =>
    if r.hasTargetSegment = false then .ok 0
    else do
      let firstPresentation ← firstPresentationTime first
      selectCue r firstPresentation (second :: rest) 1
  | _ => .ok 0

/-- How many video fragments the next segment takes; 0 for none yet. -/
def selectVideoCount (cfg : Config) (r : Reader) : Except String Nat :=
  match r.video with
  | [] => .ok 0
  | first :: _ => do
      require (first.startsWithSync = true) "video segment starts with a non-sync sample"
      if cfg.cueMode then selectCueVideoCount r
      else
        let target ← cfg.targetUnits r.videoTrack.timescale.toNat
        return if takeFirstSyncBoundary cfg r then selectCatchUp target r.video 0 0 0
          else selectNormal target r.video 0 0

end Reader

/-- `scaledGreaterOrEqual`, with `bits.Mul64` on both sides. -/
def scaledGreaterOrEqual (left leftScale right rightScale : Nat) : Bool :=
  let leftHi := left * leftScale / 2 ^ 64
  let leftLo := left * leftScale % 2 ^ 64
  let rightHi := right * rightScale / 2 ^ 64
  let rightLo := right * rightScale % 2 ^ 64
  if leftHi ≠ rightHi then rightHi < leftHi else rightLo ≤ leftLo

/-- The loop of `findAudioSplitSampleCount` over a run: the end of the last sample, the number of samples, and
whether the end was reached. -/
def searchSamples (reached : Nat → Bool) : List Sample → Nat → Nat → Except String (Nat × Nat × Bool)
  | [], audioEnd, count => .ok (audioEnd, count, false)
  | s :: samples, audioEnd, count => do
      require (s.duration ≤ maxUint64 - audioEnd) "audio sample timeline overflow"
      if reached (audioEnd + s.duration) then return (audioEnd + s.duration, count + 1, true)
      else searchSamples reached samples (audioEnd + s.duration) (count + 1)

/-- The loop over the runs. -/
def searchRuns (reached : Nat → Bool) : List Run → Nat → Nat → Except String (Nat × Nat × Bool)
  | [], audioEnd, count => .ok (audioEnd, count, false)
  | run :: runs, audioEnd, count => do
      require (run.samples ≠ []) "audio trun has no parsed samples"
      let (audioEnd, count, hit) ← searchSamples reached run.samples audioEnd count
      if hit then return (audioEnd, count, true) else searchRuns reached runs audioEnd count

/-- How many samples of an audio fragment it takes to reach the video's end, and whether they do. -/
def findAudioSplitSampleCount (videoTimescale videoEnd : Nat) (f : Fragment) : Except String (Nat × Bool) := do
  require (f.timescale ≠ 0 ∧ videoTimescale ≠ 0) "audio/video timescale is zero"
  let reached := fun audioEnd => scaledGreaterOrEqual audioEnd videoTimescale videoEnd f.timescale
  let (audioEnd, count, hit) ← searchRuns reached f.runs f.decodeTime 0
  require (hit = true ∨ audioEnd = f.endTime) "audio sample durations do not match fragment duration"
  return (count, hit)

/-- `selectAudioCount`: the queue, whose last selected fragment may have been cut, and the count. -/
def selectAudioCount (videoTimescale videoEnd : Nat) :
    List Fragment → Except String (List Fragment × Nat)
  | [] => .ok ([], 0)
  | f :: rest => do
      let (splitSamples, reached) ← findAudioSplitSampleCount videoTimescale videoEnd f
      if reached = false then
        let (rest, count) ← selectAudioCount videoTimescale videoEnd rest
        return (f :: rest, if count = 0 then 0 else count + 1)
      else
        let totalSamples ← fragmentSampleCount f
        require (0 < splitSamples ∧ splitSamples ≤ totalSamples) "invalid audio split sample count"
        if splitSamples < totalSamples then
          let (left, right) ← splitFragmentAtSample f splitSamples
          return (left :: right :: rest, 1)
        else return (f :: rest, 1)

/-- `selectAudioCount` passes the fragments that end too early; the first one that reaches the end of the video
is cut, unless the cut is at its own end. -/
inductive SelectsAudio (videoTimescale videoEnd : Nat) : List Fragment → List Fragment → Nat → Prop
  | nothing : SelectsAudio videoTimescale videoEnd [] [] 0
  | further {f : Fragment} {rest rest' : List Fragment} {split count : Nat}
      (hfind : findAudioSplitSampleCount videoTimescale videoEnd f = .ok (split, false))
      (hrest : SelectsAudio videoTimescale videoEnd rest rest' count) :
      SelectsAudio videoTimescale videoEnd (f :: rest) (f :: rest') (if count = 0 then 0 else count + 1)
  | inside {f left right : Fragment} {rest : List Fragment} {split total : Nat}
      (hfind : findAudioSplitSampleCount videoTimescale videoEnd f = .ok (split, true)) (hpos : 0 < split)
      (htotal : fragmentSampleCount f = .ok total) (hlt : split < total)
      (hsplit : splitFragmentAtSample f split = .ok (left, right)) :
      SelectsAudio videoTimescale videoEnd (f :: rest) (left :: right :: rest) 1
  | atEnd {f : Fragment} {rest : List Fragment} {split : Nat}
      (hfind : findAudioSplitSampleCount videoTimescale videoEnd f = .ok (split, true)) (hpos : 0 < split)
      (htotal : fragmentSampleCount f = .ok split) :
      SelectsAudio videoTimescale videoEnd (f :: rest) (f :: rest) 1

theorem SelectsAudio.of_ok (h : selectAudioCount videoTimescale videoEnd audio = .ok (audio', n)) :
    SelectsAudio videoTimescale videoEnd audio audio' n := by
  induction audio generalizing audio' n with
  | nil =>
    cases h
    exact .nothing
  | cons f rest ih =>
    simp only [selectAudioCount, bind_eq_ok, Prod.exists] at h
    obtain ⟨split, reached, hfind, h⟩ := h
    cases reached with
    | false =>
      simp only [if_true, bind_eq_ok, Prod.exists, pure_eq_ok, Prod.mk.injEq] at h
      obtain ⟨rest', count, hrest, rfl, rfl⟩ := h
      exact .further hfind (ih hrest)
    | true =>
      simp only [Bool.true_eq_false, if_false, bind_eq_ok, require_eq_ok] at h
      obtain ⟨total, htotal, -, ⟨hpos, hle⟩, h⟩ := h
      split at h
      · rename_i hlt
        simp only [bind_eq_ok, Prod.exists, pure_eq_ok, Prod.mk.injEq] at h
        obtain ⟨left, right, hsplit, rfl, rfl⟩ := h
        exact .inside hfind hpos htotal hlt hsplit
      · rename_i hlt
        cases h
        obtain rfl : split = total := le_antisymm hle (not_lt.mp hlt)
        exact .atEnd hfind hpos htotal

theorem SelectsAudio.ok (h : SelectsAudio videoTimescale videoEnd audio audio' n) :
    selectAudioCount videoTimescale videoEnd audio = .ok (audio', n) := by
  induction h with
  | nothing => rfl
  | further hfind _ ih =>
    rw [selectAudioCount, hfind, ok_bind]
    simp only [if_true, ih, ok_bind]
    rfl
  | @inside f left right rest split total hfind hpos htotal hlt hsplit =>
    have hrange : 0 < split ∧ split ≤ total := ⟨hpos, le_of_lt hlt⟩
    rw [selectAudioCount, hfind, ok_bind]
    simp only [Bool.true_eq_false, if_false, htotal, ok_bind, require_of _ hrange, if_pos hlt, hsplit]
    rfl
  | @atEnd f rest split hfind hpos htotal =>
    have hrange : 0 < split ∧ split ≤ split := ⟨hpos, le_rfl⟩
    rw [selectAudioCount, hfind, ok_bind]
    simp only [Bool.true_eq_false, if_false, htotal, ok_bind, require_of _ hrange, lt_irrefl]
    rfl

theorem selectAudioCount_eq_ok_iff :
    selectAudioCount videoTimescale videoEnd audio = .ok (audio', n) ↔
      SelectsAudio videoTimescale videoEnd audio audio' n :=
  ⟨SelectsAudio.of_ok, SelectsAudio.ok⟩

namespace Reader

variable (cfg : Config) (r : Reader)

/-! ## Building a segment -/

/-- The bytes of the prefix boxes that go in front of the next segment. -/
def prefixBytes : Bytes := if r.prefixActive then r.prefixBuf else []

/-- The reader after a segment of the first fragments of the queues. -/
def afterSegment (videoCount audioCount : Nat) (segment : Segment) : Reader :=
  resetPrefix
    { r with
      segments := r.segments ++ [segment]
      sequence := (r.sequence + 1) % 2 ^ 32
      hasTargetSegment := r.hasTargetSegment && !cfg.cueMode
      lastVideoEndTime := ((r.video.take videoCount).getLast?.map Fragment.endTime).getD
        r.lastVideoEndTime
      completedVideoSegments := r.completedVideoSegments + if 0 < videoCount then 1 else 0
      video := r.video.drop videoCount
      audio := r.audio.drop audioCount }

/-- Builds a segment of the first fragments of each track and takes them off the queues. -/
def buildSegment (videoCount audioCount : Nat) (allowSingleTrack : Bool) :
    Except String Reader := do
  require (videoCount ≤ r.video.length) "invalid video fragment count"
  require (audioCount ≤ r.audio.length) "invalid audio fragment count"
  let hasVideo := decide (0 < videoCount)
  let hasAudio := decide (0 < audioCount)
  let sourceHasAudio := r.audioTrack.id != 0
  require (hasVideo = true ∨ hasAudio = true) "segment contains no fragments"
  require (hasAudio = true → sourceHasAudio = true)
    "video-only source unexpectedly contains audio fragments"
  require (allowSingleTrack = false → hasVideo = true) "regular segment must contain video"
  require (allowSingleTrack = false → sourceHasAudio = true → hasAudio = true)
    "regular segment must contain audio for an audio/video source"
  let segment ← writeSegment r.timeline r.styp r.prefixBytes r.sourcePayload r.sequence
    (r.video.take videoCount) (r.audio.take audioCount)
  return r.afterSegment cfg videoCount audioCount segment

/-- `tryBuildSegment`: the reader, and whether a segment was emitted. -/
def tryBuildSegment : Except String (Reader × Bool) := do
  let videoCount ← selectVideoCount cfg r
  if videoCount = 0 then return (r, false)
  else if r.audioTrack.id = 0 then
    let r ← buildSegment cfg r videoCount 0 false
    return (r, true)
  else
    let videoEnd := ((r.video.take videoCount).getLast?.map Fragment.endTime).getD 0
    let (audio, audioCount) ← selectAudioCount r.videoTrack.timescale.toNat videoEnd r.audio
    if audioCount = 0 then return (r, false)
    else
      let r ← buildSegment cfg { r with audio := audio } videoCount audioCount false
      return (r, true)

/-- At the end of the stream what is left may become one last segment. -/
def tryBuildEndOfStreamRemainder : Except String (Reader × Bool) :=
  if cfg.cueMode = true ∧ r.hasTargetSegment = false then .ok (r, false)
  else if r.video = [] ∧ r.audio = [] then .ok (r, false)
  else if (r.video.head?.map Fragment.startsWithSync) = some false then .ok (r, false)
  else if r.video = [] ∨ r.audio = [] then do
    let r' ← buildSegment cfg r r.video.length r.audio.length true
    return ({ r' with audio := if r.video = [] then r'.audio else [] }, true)
  else do
    let videoEnd := (r.video.getLast?.map Fragment.endTime).getD 0
    let (audio, selected) ← selectAudioCount r.videoTrack.timescale.toNat videoEnd r.audio
    let audioCount := if selected = 0 then r.audio.length else selected
    let r' ← buildSegment cfg { r with audio := audio } r.video.length audioCount true
    return ({ r' with audio := [] }, true)

/-! ## Payload -/

/-- `minQueuedPayloadStart`; `none` if nothing with payload is queued. -/
def minQueuedPayloadStart : Option Nat :=
  (((r.video ++ r.audio ++ r.pending.toList).filter fun f => decide (0 < f.payloadLen)).map
    Fragment.payloadStart).min?

/-- The payload lost its first `delta` bytes. -/
def shiftFragmentPayloadStarts (delta : Nat) (f : Fragment) : Fragment :=
  if 0 < f.payloadLen then { f with payloadStart := f.payloadStart - delta } else f

/-- Drops the payload bytes before the first queued fragment. -/
def reclaimPayloads : Reader :=
  if r.sourcePayload = [] then r
  else
    match r.minQueuedPayloadStart with
    | none => { r with sourcePayload := [], currentPayloadStart := 0 }
    | some minStart =>
      if minStart = 0 then r
      else
        { r with
          sourcePayload := r.sourcePayload.drop minStart
          video := r.video.map (shiftFragmentPayloadStarts minStart)
          audio := r.audio.map (shiftFragmentPayloadStarts minStart)
          pending := r.pending.map (shiftFragmentPayloadStarts minStart)
          currentPayloadStart := r.currentPayloadStart - minStart }

end Reader

/-! ## Completing a box -/

/-- The last duration that is not 0. -/
def lastSampleDuration (f : Fragment) : Nat :=
  ((f.samples.reverse.find? fun s => s.duration != 0).map Sample.duration).getD 0

/-- Change the last element of a list that satisfies a predicate. -/
def modifyLast {α : Type} (p : α → Bool) (change : α → α) : List α → List α
  | [] => []
  | x :: xs => if xs.any p then x :: modifyLast p change xs else if p x then change x :: xs else x :: xs

/-- A run whose last sample gets its exact duration. -/
def retimeRun (oldDuration exactDuration : Nat) (run : Run) : Run :=
  { run with
    samples := run.samples.modify (run.samples.length - 1) fun s => { s with duration := exactDuration }
    duration := (run.duration + 2 ^ 64 - oldDuration + exactDuration) % 2 ^ 64 }

/-- What `resolvePreviousInferredDuration` does with the last fragment: the fragment, and the exact duration of
its last sample. -/
def retimeFragment (previous : Fragment) (trackID decodeTime : Nat) : Except String (Fragment × Nat) :=
  match previous.runs.reverse.find? Run.hasInferredDuration with
  | none => .error "inferred sample duration marker is missing"
  | some inferredRun =>
    match inferredRun.samples.getLast? with
    | none => .error "inferred sample duration marker is missing"
    | some sample => do
        require (sample.duration ≤ previous.duration) "invalid inferred sample duration"
        let sampleStart := (previous.decodeTime + (previous.duration - sample.duration)) % 2 ^ 64
        require (sampleStart ≤ decodeTime)
          (s!"inferred sample moves decode time backwards: track={trackID} " ++
            s!"previous_tfdt={previous.decodeTime} next_tfdt={decodeTime}")
        let exactDuration := decodeTime - sampleStart
        require (exactDuration ≤ maxUint32) "inferred sample duration exceeds uint32"
        let runs := modifyLast Run.hasInferredDuration (retimeRun sample.duration exactDuration)
          previous.runs
        return ({ previous with
            runs := runs.map fun run => { run with hasInferredDuration := false }
            duration := (previous.duration - sample.duration + exactDuration) % 2 ^ 64
            hasInferredDuration := false }, exactDuration)

/-- The queue with its last fragment retimed, and the new duration hint if there is one. -/
def retimeQueue (queue : List Fragment)
    (trackID decodeTime : Nat) : Except String (List Fragment × Option Nat) :=
  match queue.getLast? with
  | none => .ok (queue, none)
  | some previous =>
    if previous.hasInferredDuration = false then .ok (queue, none)
    else do
      let (retimed, exactDuration) ← retimeFragment previous trackID decodeTime
      return (queue.dropLast ++ [retimed], if exactDuration = 0 then none else some exactDuration)

namespace Reader

variable (cfg : Config) (r : Reader)

/-- The start of a fragment settles the guessed durations of the one before it. -/
def resolvePreviousInferredDuration (current : Fragment) : Except String Reader :=
  if current.trackID = r.videoTrack.id.toNat then do
    let (video, hint) ← retimeQueue r.video current.trackID current.decodeTime
    match hint with
    | none => return { r with video := video }
    | some duration =>
      return { r with
        video := video
        videoSampleDurationHint := .ofNat duration
        videoSampleDurationHintTimescale := .ofNat current.timescale }
  else if current.trackID = r.audioTrack.id.toNat then do
    let (audio, hint) ← retimeQueue r.audio current.trackID current.decodeTime
    match hint with
    | none => return { r with audio := audio }
    | some duration =>
      return { r with
        audio := audio
        audioSampleDurationHint := .ofNat duration
        audioSampleDurationHintTimescale := .ofNat current.timescale }
  else .ok r

/-- The hints after a fragment whose durations are all its own. -/
def rememberDuration (f : Fragment) : Reader :=
  if f.hasInferredDuration = true ∨ lastSampleDuration f = 0 then r
  else if f.trackID = r.videoTrack.id.toNat then
    { r with videoSampleDurationHint := .ofNat (lastSampleDuration f)
             videoSampleDurationHintTimescale := .ofNat f.timescale }
  else if f.trackID = r.audioTrack.id.toNat then
    { r with audioSampleDurationHint := .ofNat (lastSampleDuration f)
             audioSampleDurationHintTimescale := .ofNat f.timescale }
  else r

/-- The hint that applies to the video track. -/
def videoHint : UInt32 :=
  if r.videoSampleDurationHintTimescale = r.videoTrack.timescale then r.videoSampleDurationHint else 0

/-- The hint that applies to the audio track. -/
def audioHint : UInt32 :=
  if r.audioSampleDurationHintTimescale = r.audioTrack.timescale then r.audioSampleDurationHint else 0

/-- A `moof` is complete: its fragment waits for an `mdat`. -/
def completeMoof : Except String Reader := do
  let fragment ← wrapError "unable to parse source moof: "
    (parseSourceMoof r.sourceMoof r.videoTrack r.audioTrack r.videoHint r.audioHint)
  let r ← r.resolvePreviousInferredDuration fragment
  return { r.rememberDuration fragment with
    pending := some fragment
    sourcePayloadFromMoof := r.sourceMoof.length }

/-- A fragment joins the queue of its track. -/
def enqueue (f : Fragment) : Except String Reader :=
  if f.trackID = r.videoTrack.id.toNat then .ok { r with video := r.video ++ [f] }
  else if r.audioTrack.id ≠ 0 ∧ f.trackID = r.audioTrack.id.toNat then
    .ok { r with audio := r.audio ++ [f] }
  else .error s!"unsupported track_ID={f.trackID}"

/-- An `mdat` is complete: the pending fragment joins its queue. -/
def completeMdat : Except String Reader :=
  match r.pending with
  | none => .error "completed mdat has no source moof"
  | some pending => do
      let payloadLen : Int := r.sourcePayload.length - r.currentPayloadStart
      let fragment ← attachPayload pending r.currentPayloadStart payloadLen r.sourcePayloadFromMoof
      let r ← r.enqueue fragment
      return { r with
        pending := none, sourcePayloadFromMoof := 0, currentPayloadStart := 0, sourceMoof := [] }

/-- The first media box closes the initialization. -/
def completeInit : Except String Reader := do
  require (r.moovCompleted = true ∧ r.init ≠ []) "incomplete mp4 initialization"
  let (video, audio) ← wrapError "unable to parse mp4 initialization: " (parseInitTracks r.init)
  return { r with
    videoTrack := video, audioTrack := audio, initDone := true, inits := r.inits ++ [r.init] }

/-- `completeBox`: the reader, and whether a segment was emitted. -/
def completeBox : Except String (Reader × Bool) :=
  if r.currentBoxType = boxStyp then
    .ok ({ r with styp := if r.styp = [] then r.sourceStyp else r.styp, sourceStyp := [] }, false)
  else if r.currentBoxType = boxMfra then .ok ({ r with sourceMfraDone := true }, false)
  else if r.currentBoxType = boxMoov then
    if r.initDone then do
      require (r.sourceMfraDone = true ∧ r.sourceFinalMoovDone = false)
        "unexpected moov after mp4 initialization"
      return ({ r with sourceFinalMoovDone := true }, false)
    else .ok ({ r with moovCompleted := true }, false)
  else if r.currentBoxType = boxMoof then do
    let r ← r.completeMoof
    return (r, false)
  else if r.currentBoxType = boxMdat then do
    let r ← r.completeMdat
    r.tryBuildSegment cfg
  else .ok (r, false)

/-! ## Beginning a box -/

/-- The bytes of a box go to a buffer, its header first. -/
def copyTo (target : BoxTarget) : Reader :=
  ({ r with currentTarget := target }).writeCurrentBoxData r.boxHeader

/-- A box of `size` bytes may lie between a `moof` and its `mdat`. -/
def skipBeforePayload (size : Nat) : Reader :=
  { r with
    sourcePayloadFromMoof :=
      if r.pending = none then r.sourcePayloadFromMoof else toInt64 (r.sourcePayloadFromMoof + size) }

/-- `beginBox` after the initialization. -/
def beginMediaBox (size headerSize : Nat) : Except String Reader := do
  require (r.sourceFinalMoovDone = false)
    ("unexpected top-level mp4 box after terminal moov: " ++ fourCC r.currentBoxType)
  require (r.sourceMfraDone = true → r.currentBoxType = boxMoov)
    ("only the rewritten terminal moov is allowed after mfra; got " ++ fourCC r.currentBoxType)
  if r.currentBoxType = boxMoof then
    require (r.pending = none) "a new moof appeared before the previous mdat"
    return ({ r with sourceMoof := [], sourcePayloadFromMoof := 0 }).copyTo .moof
  else if r.currentBoxType = boxMdat then
    require (r.pending ≠ none) "mdat does not follow a supported moof"
    return { r with
      currentPayloadStart := r.sourcePayload.length
      sourcePayloadFromMoof := toInt64 (r.sourcePayloadFromMoof + headerSize)
      currentTarget := .payload }
  else if r.currentBoxType = boxSidx then return r.skipBeforePayload size
  else if r.currentBoxType = boxStyp then
    require (r.pending = none) "styp cannot appear between moof and mdat"
    return ({ r with sourceStyp := [] }).copyTo .styp
  else if r.currentBoxType = boxEmsg ∨ r.currentBoxType = boxFree ∨ r.currentBoxType = boxPrft then
    return ({ r.skipBeforePayload size with prefixActive := true }).copyTo .prefixBox
  else if r.currentBoxType = boxMfra then
    require (r.pending = none) "mfra cannot appear between moof and mdat"
    require (r.sourceMfraDone = false) "duplicate terminal mfra"
    return r
  else if r.currentBoxType = boxMoov then
    require (r.sourceMfraDone = true) "unexpected moov after mp4 initialization"
    require (r.sourceFinalMoovDone = false) "duplicate terminal moov"
    require (r.pending = none) "final moov cannot appear between moof and mdat"
    return r
  else throw ("unsupported top-level mp4 box after init: " ++ fourCC r.currentBoxType)

/-- `beginBox` while the initialization goes on. -/
def beginInitBox : Except String Reader := do
  require (r.currentBoxType ≠ boxMdat) "mdat appeared before init was completed"
  require (r.currentBoxType ≠ boxMfra) "mfra appeared before init was completed"
  return r.copyTo .init

/-- The first `styp` or `moof` ends the initialization. -/
def endInit : Except String Reader :=
  if r.initDone = false ∧ (r.currentBoxType = boxStyp ∨ r.currentBoxType = boxMoof) then r.completeInit
  else .ok r

/-- A header is complete: checks the box and chooses its target. -/
def beginBox (size headerSize : Nat) : Except String Reader := do
  require (headerSize ≤ size) "invalid mp4 box size"
  require ((r.currentBoxType = boxMoof ∨ r.currentBoxType = boxMdat) → size ≤ maxInt32)
    "moof/mdat is too large"
  let r ← endInit { r with currentBoxRemaining := size - headerSize, currentTarget := .none }
  if r.initDone = false then r.beginInitBox else r.beginMediaBox size headerSize

/-! ## Bytes -/

/-- The box ends if none of its body is missing. -/
def finishBox : Except String (Reader × Bool) :=
  if r.currentBoxRemaining = 0 then do
    let (r, completed) ← r.completeBox cfg
    return (r.resetBoxState, completed)
  else .ok (r, false)

/-- A complete header: the size is still to come, or the box begins, as the flag says. The end of the
initialization is passed on before the box can fail. -/
def openBox : Except Failure (Reader × Bool) :=
  if r.boxHeaderRequired = 8 then
    let size32 := be32 r.boxHeader 0
    let r := { r with currentBoxType := be32 r.boxHeader 4 }
    if size32 = 1 then .ok ({ r with boxHeaderRequired := 16 }, false)
    else do
      failAt r (require (size32 ≠ 0) "top-level mp4 box size=0 is not supported")
      let r ← failAt r (r.beginBox size32 8)
      return (r, true)
  else do
    let r ← failAt r (r.beginBox (be64 r.boxHeader 8) 16)
    return (r, true)

/-- What follows the last byte of a box header. -/
def completeHeader : Except Failure (Reader × Bool) := do
  let (r, opened) ← r.openBox
  if opened then failAt r (r.finishBox cfg) else return (r, false)

/-- One round of `processBytes`: the reader, the data that remains, and whether a segment was emitted. -/
def processRound (data : Bytes) : Except Failure (Reader × Bytes × Bool) :=
  if r.boxHeader.length < r.boxHeaderRequired then
    let copyLen := min (r.boxHeaderRequired - r.boxHeader.length) data.length
    let r := { r with boxHeader := r.boxHeader ++ data.take copyLen }
    if r.boxHeader.length < r.boxHeaderRequired then .ok (r, data.drop copyLen, false)
    else do
      let (r, completed) ← r.completeHeader cfg
      return (r, data.drop copyLen, completed)
  else
    let bodySize := min data.length r.currentBoxRemaining
    let r := r.writeCurrentBoxData (data.take bodySize)
    let r := { r with currentBoxRemaining := r.currentBoxRemaining - bodySize }
    do
      let (r, completed) ← failAt r (r.finishBox cfg)
      return (r, data.drop bodySize, completed)

/-- The loop of `processBytes`; a round takes a byte, or the loop breaks at the end of a box. The first argument
bounds the rounds. -/
def processLoop (cfg : Config) : Nat → Reader → Bytes → Except Failure (Reader × Bytes × Bool)
  | 0, r, data => .ok (r, data, false)
  | n + 1, r, data =>
    if data = [] then .ok (r, data, false)
    else if r.boxHeaderRequired ≤ r.boxHeader.length ∧ r.currentBoxRemaining = 0 then
      .ok (r, data, false)
    else do
      let (r, rest, completed) ← r.processRound cfg data
      if completed then return (r, rest, true) else processLoop cfg n r rest

/-- `processBytes`: the reader, the data left, and whether a segment was emitted. -/
def processBytes (data : Bytes) : Except Failure (Reader × Bytes × Bool) :=
  processLoop cfg data.length r data

end Reader

/-! ## Calls -/

/-- `mp4BoxReader`: the parsing, and the bytes that wait until the emitted segment is taken. -/
structure BoxReader where
  reader : Reader
  deferred : Bytes := []

namespace BoxReader

/-- `TryProcessDeferred`: the reader, and whether a segment was emitted. -/
def tryProcessDeferred (cfg : Config) (r : BoxReader) : Except Failure (BoxReader × Bool) := do
  let (reader, completed) ← failAt r.reader (r.reader.tryBuildSegment cfg)
  if completed then return ({ r with reader := reader }, true)
  else if r.deferred = [] then return ({ r with reader := reader }, false)
  else
    let (reader, rest, completed) ← reader.processBytes cfg r.deferred
    if completed then return (⟨reader, rest⟩, true)
    else if rest ≠ [] then
      throw ⟨reader, s!"mp4 parser consumed {r.deferred.length - rest.length} of " ++
        s!"{r.deferred.length} deferred bytes"⟩
    else return (⟨reader, []⟩, false)

/-- Takes the bytes of one buffer, after what an earlier call deferred. -/
def push (cfg : Config) (r : BoxReader) (data : Bytes) : Except Failure BoxReader :=
  if data = [] then .ok r
  else do
    let (r, completed) ← r.tryProcessDeferred cfg
    if completed then return { r with deferred := r.deferred ++ data }
    else
      let (reader, rest, completed) ← r.reader.processBytes cfg data
      if completed then return ⟨reader, r.deferred ++ rest⟩ else return { r with reader := reader }

/-- The segment that was handed out is done with. -/
def releaseSegment (r : BoxReader) : BoxReader := { r with reader := r.reader.reclaimPayloads }

/-- The cue segment to cut next. -/
def setTargetSegment (cfg : Config) (r : BoxReader)
    (startNS endNS toleranceNS : Nat) : Except String BoxReader :=
  if cfg.cueMode = false then .ok r
  else do
    require (startNS < endNS) "invalid cue segment range"
    return { r with
      reader :=
        { r.reader with
          targetSegmentStartNS := startNS, targetSegmentEndNS := endNS
          targetToleranceNS := max toleranceNS 1, hasTargetSegment := true } }

/-- What is incomplete when the stream ends. -/
def endOfStreamError (r : BoxReader) : Option String :=
  let truncated := "truncated mp4 fragment at end of stream: "
  if r.reader.boxHeader ≠ [] then
    some (truncated ++ s!"incomplete top-level box header: have={r.reader.boxHeader.length}, " ++
      s!"need={r.reader.boxHeaderRequired}")
  else if r.reader.currentBoxRemaining ≠ 0 then
    some (truncated ++ s!"incomplete {fourCC r.reader.currentBoxType} box: " ++
      s!"missing={r.reader.currentBoxRemaining} body bytes")
  else if r.reader.pending ≠ none then
    some (truncated ++ s!"moof for track_ID={(r.reader.pending.map Fragment.trackID).getD 0} " ++
      "has no complete mdat")
  else if r.reader.sourcePayload ≠ [] then
    some (truncated ++ s!"{r.reader.sourcePayload.length} uncommitted mdat payload bytes")
  else if r.reader.sourceMoof ≠ [] then
    some (truncated ++ s!"{r.reader.sourceMoof.length} uncommitted moof bytes")
  else if r.deferred ≠ [] then some (truncated ++ s!"{r.deferred.length} unprocessed deferred bytes")
  else none

end BoxReader

/-! ## Seeking -/

/-- `float64` seconds: which are positive, the conversion from nanoseconds, and what is derived from an
offset. -/
structure Clock where
  Seconds : Type
  zero : Seconds
  positive : Seconds → Bool
  ofNanoseconds : Nat → Seconds
  timeline : Seconds → Timeline

namespace Reader

variable (r : Reader)

/-- Drops the source boxes that were not used up. -/
def clearSource : Reader :=
  { r with
    pending := none, sourcePayload := [], sourcePayloadFromMoof := 0, currentPayloadStart := 0
    sourceMoof := [] }

/-- Empties the queues. -/
def clearFragments : Reader := { r with video := [], audio := [] }

end Reader

namespace BoxReader

/-- Shifts the output by `offsetNS`; the largest value stands for none. -/
def setTimelineOffsetNS (clock : Clock) (r : BoxReader) (offsetNS : Nat) : BoxReader :=
  let seconds := if offsetNS = maxUint64 then clock.zero else clock.ofNanoseconds offsetNS
  { r with reader := { r.reader with timeline := clock.timeline seconds } }

/-- After a seek a new initialization is expected. -/
def seekReset (clock : Clock) (r : BoxReader) (seconds : clock.Seconds) : BoxReader :=
  let reader :=
    { r.reader with
      initDone := false
      moovCompleted := false
      sourceMfraDone := false
      sourceFinalMoovDone := false
      videoTrack := {}
      audioTrack := {}
      sequence := 1
      styp := []
      videoSampleDurationHint := 0
      videoSampleDurationHintTimescale := 0
      audioSampleDurationHint := 0
      audioSampleDurationHintTimescale := 0
      lastVideoEndTime := 0
      completedVideoSegments := 0
      hasTargetSegment := false
      targetSegmentStartNS := 0
      targetSegmentEndNS := 0
      targetToleranceNS := 0
      timeline := clock.timeline (if clock.positive seconds then seconds else clock.zero)
      init := []
      sourceMoof := []
      sourceStyp := [] }
  { reader := reader.clearSource.clearFragments.resetPrefix.resetBoxState, deferred := [] }

end BoxReader

end TorrServer.Gstreamer.Mp4
