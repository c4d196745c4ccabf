/-
# Gstreamer.Mp4.Segment — writing a segment.

A segment merges the selected fragments of each track into one `moof` with one `traf` a track, followed by one
`mdat` with their payload. All sizes and offsets are computed before the bytes that they count are written:
`getTrafSize`, `assignOffsets`, then `writeTraf` and `writeCanonicalTrun`.
-/
import TorrServer.Gstreamer.Mp4.Fragment

namespace TorrServer.Gstreamer.Mp4

open Lib

/-! ## Time -/

/-- `tfdtOffsetSeconds`, as the offset in units of a timescale, which can be out of range, and in
nanoseconds. -/
structure Timeline where
  units : Nat → Except String Nat
  offsetNS : Nat

/-- A decode time on the output's timeline. -/
def addTfdtOffset (timeline : Timeline) (value timescale : Nat) : Except String Nat := do
  let offset ← timeline.units timescale
  require (offset ≤ maxUint64 - value) "tfdt offset overflow"
  return value + offset

/-- A time in whole nanoseconds; too large a one is an error. -/
def timelineNanoseconds (value timescale : Nat) : Except String Nat := do
  require (timescale ≠ 0) "timeline timescale is zero"
  let seconds := value / timescale
  let remainder := value % timescale
  require (seconds ≤ maxUint64 / 1000000000) "timeline nanoseconds overflow"
  let nanoseconds := seconds * 1000000000
  let fraction := remainder * 1000000000 % 2 ^ 64 / timescale
  require (fraction ≤ maxUint64 - nanoseconds) "timeline nanoseconds overflow"
  return nanoseconds + fraction

/-! ## Boxes -/

/-- A short box header. -/
def writeHeader (size boxType : Nat) : Bytes := put32 size ++ put32 boxType

/-- The `mfhd` with the segment's number. -/
def writeMfhd (sequence : Nat) : Bytes := put32 16 ++ put32 boxMfhd ++ put32 0 ++ put32 sequence

/-- A `tfdt` of version 1. -/
def writeTfdt (decodeTime : Nat) : Bytes :=
  put32 20 ++ put32 boxTfdt ++ put32 0x01000000 ++ put64 decodeTime

/-- The header of the `mdat`, short or long. -/
def writeMdatHeader (payloadLength headerSize : Nat) : Bytes :=
  if headerSize = 8 then writeHeader (payloadLength + 8) boxMdat
  else put32 1 ++ put32 boxMdat ++ put64 (payloadLength + 16)

/-- The length of an entry of a canonical `trun`. -/
def entrySize (run : Run) : Nat := if run.hasCompositionTimeOffsets then 16 else 12

/-- The bytes of a written `trun`. -/
def canonicalTrunSize (run : Run) : Nat := 20 + run.samples.length * entrySize run

/-- An entry of a canonical `trun`. -/
def writeEntry (hasCompositionTimeOffsets : Bool) (s : Sample) : Bytes :=
  put32 s.duration ++ put32 s.size ++ put32 s.flags ++
    (if hasCompositionTimeOffsets then put32 s.compositionTimeOffsetRaw else [])

/-- The flags of a canonical `trun`. -/
def canonicalTrunFlags (hasCompositionTimeOffsets : Bool) : Nat :=
  trunDataOffsetPresent ||| trunSampleDurationPresent ||| trunSampleSizePresent |||
    trunSampleFlagsPresent |||
    (if hasCompositionTimeOffsets then trunCompositionTimeOffsetPresent else 0)

/-- The `trun` that gives each sample its own duration, size and flags. -/
def writeCanonicalTrun (run : Run) (dataOffset : Int) : Except String Bytes := do
  require (run.samples ≠ []) "cannot write trun without samples"
  require (run.version ≤ 1) s!"unsupported trun version={run.version}"
  let size := canonicalTrunSize run
  require (size ≤ maxUint32) "canonical trun is too large"
  return put32 size ++ put32 boxTrun ++
    put32 (run.version <<< 24 ||| canonicalTrunFlags run.hasCompositionTimeOffsets) ++
    put32 run.samples.length ++ put32 (dataOffset % 2 ^ 32).toNat ++
    run.samples.flatMap (writeEntry run.hasCompositionTimeOffsets)

/-! ## Tracks

The Go functions take a queue and a count; here they take the fragments the count selects. -/

/-- The loop of `validateTrack`. -/
def validateRest (first : Fragment) : Nat → List Fragment → Except String Unit
  | _, [] => .ok ()
  | expected, current :: rest => do
      require (current.trackID = first.trackID ∧ current.timescale = first.timescale ∧
          current.decodeTime = expected ∧
          current.sampleDescriptionIndex = first.sampleDescriptionIndex ∧ current.tfhd = first.tfhd)
        s!"track {first.trackID} fragments cannot be merged into one traf"
      validateRest first current.endTime rest

/-- The fragments follow one another without a gap and have one track, timescale and `tfhd`. -/
def validateTrack : List Fragment → Except String Unit
  | [] => .error "invalid fragment count"
  | first :: rest => validateRest first first.endTime rest

/-- The check of a track, if anything of it is selected. -/
def validateSelected (fragments : List Fragment) : Except String Unit :=
  if fragments = [] then .ok () else validateTrack fragments

/-- `assignOffsets`: the fragments with their output offsets, and the offset after them. -/
def assignOffsets : List Fragment → Int → List Fragment × Int
  | [], outputOffset => ([], outputOffset)
  | f :: fragments, outputOffset =>
    let runs := f.runs.map fun run =>
      { run with outputOffset := toInt64 (outputOffset + run.payloadOffset) }
    let r := assignOffsets fragments (toInt64 (outputOffset + f.payloadLen))
    ({ f with runs := runs } :: r.1, r.2)

/-- The runs of some fragments. -/
def allRuns (fragments : List Fragment) : List Run := fragments.flatMap Fragment.runs

/-- The bytes of a written `traf`. -/
def getTrafSize (fragments : List Fragment) : Nat :=
  8 + 20 + 20 + ((allRuns fragments).map canonicalTrunSize).sum

/-- The size of a `traf`, if anything of its track is selected. -/
def selectedTrafSize (fragments : List Fragment) : Nat :=
  if fragments = [] then 0 else getTrafSize fragments

/-- The loop of `writeTraf` over the runs. -/
def writeRuns (moofSize mdatHeaderSize : Nat) : List Run → Except String Bytes
  | [] => .ok []
  | run :: runs => do
      let dataOffset := toInt64 (moofSize + mdatHeaderSize + run.outputOffset)
      require (-2 ^ 31 ≤ dataOffset ∧ dataOffset ≤ maxInt32) "trun.data_offset exceeds int32"
      let trun ← writeCanonicalTrun run dataOffset
      let truns ← writeRuns moofSize mdatHeaderSize runs
      return trun ++ truns

/-- One `traf` for all the fragments of a track. -/
def writeTraf (timeline : Timeline) (fragments : List Fragment) (moofSize mdatHeaderSize : Nat) :
    Except String Bytes := do
  let size := getTrafSize fragments
  require (size ≤ maxUint32) "combined traf is too large"
  match fragments with
  | [] => return []
  | first :: _ =>
    let decodeTime ← addTfdtOffset timeline first.decodeTime first.timescale
    let truns ← writeRuns moofSize mdatHeaderSize (allRuns fragments)
    return writeHeader size boxTraf ++ first.tfhd ++ writeTfdt decodeTime ++ truns

/-- `appendFragmentPayloadRanges`. -/
def fragmentPayloadRanges (storage : Bytes) : List Fragment → Except String (List Bytes)
  | [] => .ok []
  | f :: fragments => do
      if f.payloadLen = 0 then fragmentPayloadRanges storage fragments
      else
        require (f.payloadStart + f.payloadLen ≤ storage.length)
          "fragment payload range exceeds storage"
        let ranges ← fragmentPayloadRanges storage fragments
        return (storage.drop f.payloadStart).take f.payloadLen :: ranges

/-! ## Segments -/

/-- `Segment`, with the times in nanoseconds. -/
structure Segment where
  header : Bytes
  payloads : List Bytes
  startNS : Nat
  endNS : Nat
  deriving DecidableEq, Repr

/-- The bytes of a segment. -/
def Segment.bytes (s : Segment) : Bytes := s.header ++ s.payloads.flatten

/-- What `buildSegment` does with the selected fragments before it changes the reader. -/
def writeSegment (timeline : Timeline) (styp prefixBytes storage : Bytes) (sequence : Nat)
    (video audio : List Fragment) : Except String Segment := do
  validateSelected video
  validateSelected audio
  let v := assignOffsets video 0
  let a := assignOffsets audio v.2
  let payloadLength := (a.2 % 2 ^ 64).toNat
  let moofSize := 8 + 16 + selectedTrafSize v.1 + selectedTrafSize a.1
  require (moofSize ≤ maxUint32) "combined moof is too large"
  let mdatHeaderSize := if (payloadLength + 8) % 2 ^ 64 > maxUint32 then 16 else 8
  let videoTraf ← writeTraf timeline v.1 moofSize mdatHeaderSize
  let audioTraf ← writeTraf timeline a.1 moofSize mdatHeaderSize
  let header := styp ++ prefixBytes ++ writeHeader moofSize boxMoof ++ writeMfhd sequence ++
    videoTraf ++ audioTraf ++ writeMdatHeader payloadLength mdatHeaderSize
  let selected := if video = [] then audio else video
  match selected.head?, selected.getLast? with
  | some first, some last =>
    require (first.timescale ≠ 0) "segment first track has zero timescale"
    require (last.timescale ≠ 0) "segment last track has zero timescale"
    let startNS ← timelineNanoseconds first.decodeTime first.timescale
    let endNS ← timelineNanoseconds last.endTime last.timescale
    require (timeline.offsetNS ≤ maxUint64 - startNS ∧ timeline.offsetNS ≤ maxUint64 - endNS)
      "segment timeline offset overflow"
    let videoPayloads ← fragmentPayloadRanges storage video
    let audioPayloads ← fragmentPayloadRanges storage audio
    return { header := header
             payloads := videoPayloads ++ audioPayloads
             startNS := startNS + timeline.offsetNS
             endNS := endNS + timeline.offsetNS }
  | _, _ => throw "segment contains no fragments"

end TorrServer.Gstreamer.Mp4
