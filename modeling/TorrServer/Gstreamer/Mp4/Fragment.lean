/-
# Gstreamer.Mp4.Fragment — movie fragments as the remuxer parses them.

A source `moof` has one `traf`; `parseTraf` turns it into a fragment: the samples of its runs with all defaults
resolved (from `tfhd`, then `trex`, then the duration hint), a canonical `tfhd`, and the decode time.
`attachPayload` ties the fragment to the bytes of its `mdat`, and `splitFragmentAtSample` cuts an audio fragment
in two.
-/
import TorrServer.Gstreamer.Mp4.Box

namespace TorrServer.Gstreamer.Mp4

open Lib

/-! ## Tracks, samples, runs, fragments -/

/-- The sample defaults of a track, from its `trex`. -/
structure TrexInfo where
  descriptionIndex : UInt32 := 0
  duration : UInt32 := 0
  size : UInt32 := 0
  flags : UInt32 := 0
  deriving DecidableEq, Repr

/-- A track of the initialization. -/
structure TrackInfo where
  id : UInt32 := 0
  timescale : UInt32 := 0
  trex : TrexInfo := {}
  deriving DecidableEq, Repr

/-- `tfhdInfo`, without the version, which is zero. -/
structure TfhdInfo where
  trackID : Nat
  sampleDescriptionIndex : Nat := 0
  hasSampleDescriptionIndex : Bool := false
  defaultDuration : Nat := 0
  defaultSize : Nat := 0
  defaultFlags : Nat := 0
  hasDefaultFlags : Bool := false
  deriving DecidableEq, Repr

/-- `mp4Sample`. -/
structure Sample where
  duration : Nat
  size : Nat
  flags : Nat
  compositionTimeOffsetRaw : Nat
  deriving DecidableEq, Repr

/-- `mp4Run`. -/
structure Run where
  sourceDataOffset : Int := 0
  hasSourceDataOffset : Bool := false
  samples : List Sample
  version : Nat
  hasCompositionTimeOffsets : Bool
  duration : Nat
  dataSize : Nat
  payloadOffset : Int := 0
  outputOffset : Int := 0
  startsWithSync : Bool
  hasInferredDuration : Bool := false
  deriving DecidableEq, Repr

/-- `mp4Fragment`. -/
structure Fragment where
  trackID : Nat
  timescale : Nat
  decodeTime : Nat
  duration : Nat := 0
  startsWithSync : Bool := false
  sampleDescriptionIndex : Nat
  tfhd : Bytes
  runs : List Run := []
  payloadStart : Nat := 0
  payloadLen : Nat := 0
  hasInferredDuration : Bool := false
  deriving DecidableEq, Repr

/-- `endTime`, a `uint64` sum. -/
def Fragment.endTime (f : Fragment) : Nat := (f.decodeTime + f.duration) % 2 ^ 64

/-- The samples of a fragment, run after run. -/
def Fragment.samples (f : Fragment) : List Sample := f.runs.flatMap Run.samples

/-! ## `tfhd` and `tfdt` -/

/-- The flags of a `tfhd`. -/
def tfhdBaseDataOffsetPresent : Nat := 0x000001
def tfhdSampleDescriptionIndexPresent : Nat := 0x000002
def tfhdDefaultSampleDurationPresent : Nat := 0x000008
def tfhdDefaultSampleSizePresent : Nat := 0x000010
def tfhdDefaultSampleFlagsPresent : Nat := 0x000020
def tfhdDurationIsEmpty : Nat := 0x010000
def tfhdDefaultBaseIsMoof : Nat := 0x020000

/-- The bits of a 24-bit flag field outside a mask. -/
def unknownFlags (flags known : Nat) : Nat := flags &&& (0xffffff ^^^ known)

/-- Is a flag of the field set? -/
def hasFlag (flags flag : Nat) : Bool := flags &&& flag != 0

/-- The `%06x` of a message. -/
def hex6 (n : Nat) : String :=
  let digits := Nat.toDigits 16 n
  String.ofList (List.replicate (6 - digits.length) '0' ++ digits)

/-- A field that is there if its flag is set: its value or the default, and the new position. -/
def readField (present : Bool) (data : Bytes) (cursor default : Nat)
    (err : String) : Except String (Nat × Nat) :=
  if present then
    match readUint32 data cursor with
    | some r => .ok r
    | none => .error err
  else .ok (default, cursor)

/-- Reads a `tfhd`: its track and the sample defaults it sets. -/
def parseTfhd (box : Bytes) (headerSize : Nat) : Except String TfhdInfo := do
  require (headerSize + 8 ≤ box.length) "tfhd is too small"
  let versionFlags := be32 box headerSize
  let version := versionFlags >>> 24
  let flags := versionFlags &&& 0x00ffffff
  require (version = 0) s!"unsupported tfhd version={version}"
  let knownFlags := tfhdBaseDataOffsetPresent ||| tfhdSampleDescriptionIndexPresent |||
    tfhdDefaultSampleDurationPresent ||| tfhdDefaultSampleSizePresent |||
    tfhdDefaultSampleFlagsPresent ||| tfhdDurationIsEmpty ||| tfhdDefaultBaseIsMoof
  let unknown := unknownFlags flags knownFlags
  require (unknown = 0) s!"unsupported tfhd flags=0x{hex6 unknown}"
  require (hasFlag flags tfhdBaseDataOffsetPresent = false)
    "tfhd.base-data-offset-present is not supported"
  require (hasFlag flags tfhdDurationIsEmpty = false) "tfhd.duration-is-empty is not supported"
  let trackID := be32 box (headerSize + 4)
  require (trackID ≠ 0) "tfhd track_ID is zero"
  let hasIndex := hasFlag flags tfhdSampleDescriptionIndexPresent
  let (index, cursor) ← readField hasIndex box (headerSize + 8) 0
    "invalid tfhd sample_description_index"
  require (hasIndex = true → index ≠ 0) "invalid tfhd sample_description_index"
  let (duration, cursor) ← readField (hasFlag flags tfhdDefaultSampleDurationPresent) box cursor 0
    "invalid tfhd default_sample_duration"
  let (size, cursor) ← readField (hasFlag flags tfhdDefaultSampleSizePresent) box cursor 0
    "invalid tfhd default_sample_size"
  let hasFlags := hasFlag flags tfhdDefaultSampleFlagsPresent
  let (defaultFlags, cursor) ← readField hasFlags box cursor 0 "invalid tfhd default_sample_flags"
  require (cursor = box.length) "invalid tfhd body"
  return { trackID := trackID, sampleDescriptionIndex := index
           hasSampleDescriptionIndex := hasIndex, defaultDuration := duration, defaultSize := size
           defaultFlags := defaultFlags, hasDefaultFlags := hasFlags }

/-- The `tfhd` that is written: data offsets count from the `moof`. -/
def buildCanonicalTfhd (trackID sampleDescriptionIndex : Nat) : Bytes :=
  put32 20 ++ put32 boxTfhd ++ put32 (tfhdSampleDescriptionIndexPresent ||| tfhdDefaultBaseIsMoof) ++
    put32 trackID ++ put32 sampleDescriptionIndex

/-- `readTfdt`; `none` if it is not valid. -/
def readTfdt (box : Bytes) (headerSize : Nat) : Option Nat :=
  if box.length < headerSize + 8 then none
  else
    let version := beAt 1 box headerSize
    let offset := headerSize + 4
    if version = 1 then if box.length < offset + 8 then none else some (be64 box offset)
    else if version = 0 then if box.length < offset + 4 then none else some (be32 box offset)
    else none

/-! ## `trun` -/

/-- The flags of a `trun`. -/
def trunDataOffsetPresent : Nat := 0x000001
def trunFirstSampleFlagsPresent : Nat := 0x000004
def trunSampleDurationPresent : Nat := 0x000100
def trunSampleSizePresent : Nat := 0x000200
def trunSampleFlagsPresent : Nat := 0x000400
def trunCompositionTimeOffsetPresent : Nat := 0x000800

/-- A `trun` with more samples is refused. -/
def maxTrunSamples : Nat := 1000000

/-- A sample that decoding can start at: not marked as non-sync, and not depending on others. -/
def isSyncSample (flags : Nat) : Bool :=
  let nonSync := 0x00010000
  let dependsOn := (flags >>> 24) &&& 0x03
  flags &&& nonSync == 0 && dependsOn != 1

/-- What the flags of a `trun` and the defaults say about its entries. -/
structure TrunLayout where
  hasDuration : Bool
  hasSize : Bool
  hasSampleFlags : Bool
  hasCompositionOffsets : Bool
  hasFirstSampleFlags : Bool
  firstSampleFlags : Nat
  defaultDuration : Nat
  defaultSize : Nat
  defaultFlags : Nat

/-- One round of the loop of `normalizeTrun` over the entries: the sample and the new position. -/
def readSample (t : TrunLayout) (box : Bytes) (first : Bool) (cursor : Nat) : Except String (Sample × Nat) := do
  let (duration, cursor) ← readField t.hasDuration box cursor t.defaultDuration
    "invalid trun sample_duration"
  let (size, cursor) ← readField t.hasSize box cursor t.defaultSize "invalid trun sample_size"
  let default := if first ∧ t.hasFirstSampleFlags then t.firstSampleFlags else t.defaultFlags
  let (flags, cursor) ← readField t.hasSampleFlags box cursor default "invalid trun sample_flags"
  let (offset, cursor) ← readField t.hasCompositionOffsets box cursor 0
    "invalid trun composition_time_offset"
  return (⟨duration, size, flags, offset⟩, cursor)

/-- The loop of `normalizeTrun`: the samples, the position after them, and the totals. -/
def readSamples (t : TrunLayout) (box : Bytes) : Nat → Bool → Nat → Nat → Nat →
    Except String (List Sample × Nat × Nat × Nat)
  | 0, _, cursor, duration, dataSize => .ok ([], cursor, duration, dataSize)
  | n + 1, first, cursor, duration, dataSize => do
      let (s, cursor) ← readSample t box first cursor
      require (s.duration ≤ maxUint64 - duration) "trun duration overflow"
      require (s.size ≤ maxUint64 - dataSize) "trun payload size overflow"
      let (rest, totals) ← readSamples t box n false cursor (duration + s.duration) (dataSize + s.size)
      return (s :: rest, totals)

/-- The number of fields of an entry. -/
def TrunLayout.fieldsPerSample (t : TrunLayout) : Nat :=
  t.hasDuration.toNat + t.hasSize.toNat + t.hasSampleFlags.toNat + t.hasCompositionOffsets.toNat

/-- Reads a `trun`, with the defaults filled in for the fields its samples leave out. -/
def normalizeTrun (box : Bytes) (headerSize defaultDuration defaultSize defaultFlags : Nat)
    (defaultDurationIsHint : Bool) : Except String Run := do
  require (headerSize + 8 ≤ box.length) "trun is too small"
  let versionFlags := be32 box headerSize
  let version := versionFlags >>> 24
  let flags := versionFlags &&& 0x00ffffff
  require (version ≤ 1) s!"unsupported trun version={version}"
  let knownFlags := trunDataOffsetPresent ||| trunFirstSampleFlagsPresent |||
    trunSampleDurationPresent ||| trunSampleSizePresent ||| trunSampleFlagsPresent |||
    trunCompositionTimeOffsetPresent
  let unknown := unknownFlags flags knownFlags
  require (unknown = 0) s!"unsupported trun flags=0x{hex6 unknown}"
  let sampleCount := be32 box (headerSize + 4)
  require (sampleCount ≠ 0) "trun sample_count is zero"
  let hasDataOffset := hasFlag flags trunDataOffsetPresent
  let (dataOffset, cursor) ← readField hasDataOffset box (headerSize + 8) 0
    "invalid trun data_offset"
  let hasFirstSampleFlags := hasFlag flags trunFirstSampleFlagsPresent
  let hasSampleFlags := hasFlag flags trunSampleFlagsPresent
  require (¬ (hasFirstSampleFlags = true ∧ hasSampleFlags = true))
    "trun first_sample_flags and sample_flags are both present"
  let (firstSampleFlags, cursor) ← readField hasFirstSampleFlags box cursor defaultFlags
    "invalid trun first_sample_flags"
  let layout : TrunLayout :=
    { hasDuration := hasFlag flags trunSampleDurationPresent
      hasSize := hasFlag flags trunSampleSizePresent
      hasSampleFlags := hasSampleFlags
      hasCompositionOffsets := hasFlag flags trunCompositionTimeOffsetPresent
      hasFirstSampleFlags := hasFirstSampleFlags
      firstSampleFlags := firstSampleFlags
      defaultDuration := defaultDuration
      defaultSize := defaultSize
      defaultFlags := defaultFlags }
  require (layout.hasDuration = true ∨ defaultDuration ≠ 0) "sample duration is absent"
  require (layout.hasSize = true ∨ defaultSize ≠ 0) "sample size is absent"
  require (sampleCount ≤ maxTrunSamples)
    s!"trun sample_count exceeds safety limit: {sampleCount}"
  require (cursor + sampleCount * layout.fieldsPerSample * 4 = box.length) "invalid trun body"
  let (samples, cursor, duration, dataSize) ← readSamples layout box sampleCount true cursor 0 0
  require (cursor = box.length ∧ duration ≠ 0 ∧ dataSize ≠ 0) "invalid trun body"
  return { sourceDataOffset := toInt32 dataOffset
           hasSourceDataOffset := hasDataOffset
           samples := samples
           version := version
           hasCompositionTimeOffsets := layout.hasCompositionOffsets
           duration := duration
           dataSize := dataSize
           startsWithSync := isSyncSample ((samples.head?.map Sample.flags).getD 0)
           hasInferredDuration := !layout.hasDuration && defaultDurationIsHint }

/-! ## `traf` and `moof` -/

/-- What the first loop of `parseTraf` has found. -/
structure TrafHeaders where
  tfhd : Option TfhdInfo := none
  tfdt : Option Nat := none

/-- One round of that loop. -/
def parseTrafChild (found : TrafHeaders) (child : Child) : Except String TrafHeaders :=
  if child.boxType = boxTfhd then do
    require (found.tfhd = none) "duplicate tfhd"
    let value ← parseTfhd child.bytes child.headerSize
    return { found with tfhd := some value }
  else if child.boxType = boxTfdt then do
    require (found.tfdt = none) "duplicate tfdt"
    match readTfdt child.bytes child.headerSize with
    | some value => return { found with tfdt := some value }
    | none => throw "invalid tfdt"
  else if child.boxType = boxTrun then return found
  else throw s!"unsupported box {fourCC child.boxType} inside traf"

/-- The track of a fragment with the duration hint for it. -/
def trafTrack (videoTrack audioTrack : TrackInfo) (videoDurationHint audioDurationHint : UInt32)
    (trackID : Nat) : Except String (TrackInfo × UInt32) :=
  if trackID = videoTrack.id.toNat then .ok (videoTrack, videoDurationHint)
  else if audioTrack.id ≠ 0 ∧ trackID = audioTrack.id.toNat then .ok (audioTrack, audioDurationHint)
  else .error s!"unsupported track_ID={trackID}"

/-- The second loop of `parseTraf`: the runs and their total duration. -/
def parseRuns (defaultDuration defaultSize defaultFlags : Nat) (defaultDurationIsHint : Bool) :
    List Child → Nat → Except String (List Run × Nat)
  | [], duration => .ok ([], duration)
  | child :: children, duration =>
    if child.boxType ≠ boxTrun then
      parseRuns defaultDuration defaultSize defaultFlags defaultDurationIsHint children duration
    else do
      let run ← normalizeTrun child.bytes child.headerSize defaultDuration defaultSize defaultFlags
        defaultDurationIsHint
      require (run.duration ≤ maxUint64 - duration) "fragment duration overflow"
      let (runs, total) ← parseRuns defaultDuration defaultSize defaultFlags defaultDurationIsHint
        children (duration + run.duration)
      return (run :: runs, total)

/-- The first of some values that is not zero. -/
def firstNonZero (a b : Nat) : Nat := if a = 0 then b else a

/-- The fragment of a `traf`: its track, decode time and runs. -/
def parseTraf (traf : Bytes) (trafHeader : Nat) (videoTrack audioTrack : TrackInfo)
    (videoDurationHint audioDurationHint : UInt32) : Except String Fragment := do
  let found ← (children traf trafHeader).foldlM parseTrafChild {}
  match found.tfhd, found.tfdt with
  | some tfhd, some decodeTime =>
    let (track, durationHint) ← trafTrack videoTrack audioTrack videoDurationHint audioDurationHint
      tfhd.trackID
    require (track.timescale ≠ 0) s!"timescale is zero for track_ID={tfhd.trackID}"
    let sampleDescriptionIndex :=
      if tfhd.hasSampleDescriptionIndex then tfhd.sampleDescriptionIndex
      else track.trex.descriptionIndex.toNat
    require (sampleDescriptionIndex ≠ 0)
      s!"sample description index is absent for track_ID={tfhd.trackID}"
    let explicitDuration := firstNonZero tfhd.defaultDuration track.trex.duration.toNat
    let defaultDuration := firstNonZero explicitDuration durationHint.toNat
    let defaultDurationIsHint := explicitDuration == 0 && defaultDuration != 0
    let defaultSize := firstNonZero tfhd.defaultSize track.trex.size.toNat
    let defaultFlags := if tfhd.hasDefaultFlags then tfhd.defaultFlags else track.trex.flags.toNat
    let (runs, duration) ← parseRuns defaultDuration defaultSize defaultFlags defaultDurationIsHint
      (children traf trafHeader) 0
    require (runs ≠ [] ∧ duration ≠ 0) "trun/duration was not found"
    return { trackID := tfhd.trackID
             timescale := track.timescale.toNat
             decodeTime := decodeTime
             duration := duration
             startsWithSync := (runs.head?.map Run.startsWithSync).getD false
             sampleDescriptionIndex := sampleDescriptionIndex
             tfhd := buildCanonicalTfhd tfhd.trackID sampleDescriptionIndex
             runs := runs
             hasInferredDuration := runs.any Run.hasInferredDuration }
  | _, _ => throw "tfhd/tfdt was not found"

/-- The loop of `parseSourceMoof` over the boxes of the `moof`. -/
def parseMoofChildren (videoTrack audioTrack : TrackInfo)
    (videoDurationHint audioDurationHint : UInt32) :
    List Child → Option Fragment → Except String (Option Fragment)
  | [], dst => .ok dst
  | child :: children, dst =>
    if child.boxType ≠ boxTraf then
      parseMoofChildren videoTrack audioTrack videoDurationHint audioDurationHint children dst
    else do
      require (dst = none) "source moof must contain one traf"
      let fragment ← parseTraf child.bytes child.headerSize videoTrack audioTrack videoDurationHint
        audioDurationHint
      parseMoofChildren videoTrack audioTrack videoDurationHint audioDurationHint children fragment

/-- The one fragment of a source `moof`. -/
def parseSourceMoof (moof : Bytes) (videoTrack audioTrack : TrackInfo)
    (videoDurationHint audioDurationHint : UInt32) : Except String Fragment := do
  match tryReadBox moof 0 with
  | some (root, position) =>
    require (root.boxType = boxMoof ∧ position = moof.length)
      "buffer does not contain exactly one moof"
    let dst ← parseMoofChildren videoTrack audioTrack videoDurationHint audioDurationHint
      (children root.bytes root.headerSize) none
    match dst with
    | some fragment => return fragment
    | none => throw "traf was not found"
  | none => throw "buffer does not contain exactly one moof"

/-! ## Payload and splitting -/

/-- The loop of `attachPayload`: the runs with their offsets, and the end of the last. -/
def attachRuns (payloadFromMoof : Int) : List Run → Int → Except String (List Run × Int)
  | [], expected => .ok ([], expected)
  | run :: runs, expected => do
      let offset :=
        if run.hasSourceDataOffset then toInt64 (run.sourceDataOffset - payloadFromMoof)
        else expected
      require (offset = expected)
        s!"non-contiguous source mdat: expected={expected}, actual={offset}"
      require (run.dataSize ≤ maxInt64) "trun payload is too large"
      let (runs, last) ← attachRuns payloadFromMoof runs (toInt64 (offset + run.dataSize))
      return ({ run with payloadOffset := offset } :: runs, last)

/-- Places the fragment's runs in the payload of its `mdat`. -/
def attachPayload (f : Fragment) (payloadStart payloadLen payloadFromMoof : Int) : Except String Fragment := do
  require (0 ≤ payloadStart ∧ 0 ≤ payloadLen) "negative source mdat payload range"
  let (runs, expected) ← attachRuns payloadFromMoof f.runs 0
  require (expected = payloadLen)
    s!"source mdat size mismatch: trun={expected}, mdat={payloadLen}"
  return { f with
    runs := runs, payloadStart := payloadStart.toNat, payloadLen := payloadLen.toNat }

/-- The loop of `buildExplicitRun` over the samples: the totals. -/
def explicitTotals : List Sample → Nat → Nat → Except String (Nat × Nat)
  | [], duration, dataSize => .ok (duration, dataSize)
  | s :: samples, duration, dataSize => do
      require (s.duration ≤ maxUint64 - duration) "derived trun duration overflow"
      require (s.size ≤ maxUint64 - dataSize) "derived trun payload size overflow"
      explicitTotals samples (duration + s.duration) (dataSize + s.size)

/-- A run of some of the template's samples, with its totals computed anew. -/
def buildExplicitRun (template : Run) (samples : List Sample) : Except String Run := do
  require (samples ≠ []) "cannot build trun without samples"
  let (duration, dataSize) ← explicitTotals samples 0 0
  require (duration ≠ 0 ∧ dataSize ≠ 0) "invalid derived trun"
  return { samples := samples
           version := template.version
           hasCompositionTimeOffsets := template.hasCompositionTimeOffsets
           duration := duration
           dataSize := dataSize
           startsWithSync := isSyncSample ((samples.head?.map Sample.flags).getD 0) }

/-- The number of samples over all runs. -/
def fragmentSampleCount (f : Fragment) : Except String Nat := do
  require (∀ run ∈ f.runs, run.samples ≠ []) "fragment trun has no parsed samples"
  let total := (f.runs.map fun run => run.samples.length).sum
  require (total ≠ 0) "fragment contains no samples"
  return total

/-- The variables of the loop of `splitFragmentAtSample`. -/
structure SplitState where
  remaining : Nat
  left : List Run := []
  right : List Run := []
  leftBytes : Nat := 0
  rightBytes : Nat := 0
  leftDuration : Nat := 0
  rightDuration : Nat := 0

/-- The part of a run that goes to the left. -/
def splitLeft (s : SplitState) (run : Run) (take : Nat) : Except String SplitState := do
  if take > 0 then
    let leftRun ← buildExplicitRun run (run.samples.take take)
    require (s.leftBytes ≤ maxInt64 ∧ leftRun.dataSize ≤ maxInt64 - s.leftBytes)
      "left audio payload offset overflow"
    return { s with
      left := s.left ++ [{ leftRun with payloadOffset := s.leftBytes }]
      leftBytes := s.leftBytes + leftRun.dataSize
      leftDuration := (s.leftDuration + leftRun.duration) % 2 ^ 64
      remaining := s.remaining - take }
  else return s

/-- The part of a run that goes to the right. -/
def splitRight (s : SplitState) (run : Run) (take : Nat) : Except String SplitState := do
  if take < run.samples.length then
    let rightRun ← buildExplicitRun run (run.samples.drop take)
    require (s.rightBytes ≤ maxInt64 ∧ rightRun.dataSize ≤ maxInt64 - s.rightBytes)
      "right audio payload offset overflow"
    return { s with
      right := s.right ++ [{ rightRun with payloadOffset := s.rightBytes }]
      rightBytes := s.rightBytes + rightRun.dataSize
      rightDuration := (s.rightDuration + rightRun.duration) % 2 ^ 64 }
  else return s

/-- One round of the loop of `splitFragmentAtSample`. -/
def splitRun (s : SplitState) (run : Run) : Except String SplitState := do
  require (run.samples ≠ []) "cannot split a run without parsed samples"
  let take := min s.remaining run.samples.length
  let s ← splitLeft s run take
  splitRight s run take

/-- One part of a fragment. -/
def Fragment.part (f : Fragment) (runs : List Run)
    (decodeTime duration payloadStart payloadLen : Nat) : Fragment :=
  { trackID := f.trackID
    timescale := f.timescale
    decodeTime := decodeTime
    duration := duration
    startsWithSync := (runs.head?.map Run.startsWithSync).getD false
    sampleDescriptionIndex := f.sampleDescriptionIndex
    tfhd := f.tfhd
    runs := runs
    payloadStart := payloadStart
    payloadLen := payloadLen }

/-- What follows the loop: the two parts, if they are the whole. -/
def finishSplit (f : Fragment) (s : SplitState) : Except String (Fragment × Fragment) := do
  require (s.remaining = 0 ∧ s.left ≠ [] ∧ s.right ≠ []) "failed to partition fragment runs"
  require ((s.leftDuration + s.rightDuration) % 2 ^ 64 = f.duration)
    "split fragment duration mismatch"
  require (s.leftBytes + s.rightBytes = f.payloadLen)
    s!"split payload mismatch: left={s.leftBytes} right={s.rightBytes} source={f.payloadLen}"
  require (s.leftBytes ≤ f.payloadLen) "left payload exceeds source payload"
  require (s.leftDuration ≤ maxUint64 - f.decodeTime) "right fragment decode time overflow"
  return (f.part s.left f.decodeTime s.leftDuration f.payloadStart s.leftBytes,
    f.part s.right (f.decodeTime + s.leftDuration) s.rightDuration (f.payloadStart + s.leftBytes)
      (f.payloadLen - s.leftBytes))

/-- Cuts a fragment in two before the sample `splitSamples`. -/
def splitFragmentAtSample (f : Fragment) (splitSamples : Nat) : Except String (Fragment × Fragment) := do
  let totalSamples ← fragmentSampleCount f
  require (0 < splitSamples ∧ splitSamples < totalSamples)
    s!"split sample must be inside fragment: split={splitSamples} total={totalSamples}"
  let s ← f.runs.foldlM splitRun { remaining := splitSamples }
  finishSplit f s

end TorrServer.Gstreamer.Mp4
