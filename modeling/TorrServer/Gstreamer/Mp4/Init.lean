/-
# Gstreamer.Mp4.Init — the tracks of an initialization segment.

`parseInitTracks` finds the video and the audio track of the `moov` through their handlers, with their
timescales and the sample defaults of `mvex`.
-/
import TorrServer.Gstreamer.Mp4.Fragment

namespace TorrServer.Gstreamer.Mp4

open Lib

/-- `findBox`: the first box of a type, with the length of its header. -/
def findBox (data : Bytes) (requiredType : Nat) : Option (Bytes × Nat) :=
  ((children data 0).find? fun child => child.boxType == requiredType).map
    fun child => (child.bytes, child.headerSize)

/-- A 32-bit field whose place depends on the version, as in `readTkhdTrackID` and `readMdhdTimescale`. -/
def versionedField (box : Bytes) (header : Nat) : Nat :=
  if box.length ≤ header then 0
  else
    let version := beAt 1 box header
    let offset := if version = 1 then some (header + 20)
      else if version = 0 then some (header + 12)
      else none
    match offset with
    | some offset => if offset + 4 ≤ box.length then be32 box offset else 0
    | none => 0

/-- The track ID, after the two times. -/
def readTkhdTrackID (box : Bytes) (header : Nat) : Nat := versionedField box header

/-- The timescale stands at the same place. -/
def readMdhdTimescale (box : Bytes) (header : Nat) : Nat := versionedField box header

/-- The handler type; 0 in a box that is too short. -/
def readHandlerType (box : Bytes) (header : Nat) : Nat :=
  let offset := header + 8
  if offset + 4 ≤ box.length then be32 box offset else 0

/-- What `readTrack` reads of a `trak`. -/
structure TrackHeader where
  trackID : Nat := 0
  timescale : Nat := 0
  handler : Nat := 0

/-- One round of the inner loop of `readTrack`, over the boxes of the `mdia`. -/
def readMediaChild (track : TrackHeader) (child : Child) : TrackHeader :=
  if child.boxType = boxMdhd then
    { track with timescale := readMdhdTimescale child.bytes child.headerSize }
  else if child.boxType = boxHdlr then
    { track with handler := readHandlerType child.bytes child.headerSize }
  else track

/-- One round of the loop of `readTrack`. -/
def readTrackChild (track : TrackHeader) (child : Child) : TrackHeader :=
  if child.boxType = boxTkhd then
    { track with trackID := readTkhdTrackID child.bytes child.headerSize }
  else if child.boxType = boxMdia then
    (children child.bytes child.headerSize).foldl readMediaChild track
  else track

/-- What the children of a `trak` say about it. -/
def readTrack (trak : Bytes) (trakHeader : Nat) : TrackHeader :=
  (children trak trakHeader).foldl readTrackChild {}

/-- `readTrex`: the track and its defaults. -/
def readTrex (box : Bytes) (header : Nat) : Option (Nat × TrexInfo) :=
  if box.length < header + 24 then none
  else
    let trackID := be32 box (header + 4)
    let descriptionIndex := be32 box (header + 8)
    if trackID = 0 ∨ descriptionIndex = 0 then none
    else some (trackID,
      { descriptionIndex := UInt32.ofNat descriptionIndex
        duration := UInt32.ofNat (be32 box (header + 12))
        size := UInt32.ofNat (be32 box (header + 16))
        flags := UInt32.ofNat (be32 box (header + 20)) })

/-- The defaults of a track, all zero without a `trex`. -/
def findTrex (entries : List (Nat × TrexInfo)) (trackID : Nat) : TrexInfo :=
  ((entries.find? fun e => e.1 == trackID).map Prod.snd).getD {}

/-- The variables of the loop of `parseInitTracks`. -/
structure InitTracks where
  videoID : Nat := 0
  videoTimescale : Nat := 0
  audioID : Nat := 0
  audioTimescale : Nat := 0
  trexEntries : List (Nat × TrexInfo) := []

/-- One round of the loop over the boxes of an `mvex`. -/
def parseMvexChild (tracks : InitTracks) (child : Child) : Except String InitTracks :=
  if child.boxType ≠ boxTrex then .ok tracks
  else
    match readTrex child.bytes child.headerSize with
    | some entry => .ok { tracks with trexEntries := tracks.trexEntries ++ [entry] }
    | none => .error "invalid trex"

/-- One round of the loop of `parseInitTracks`. -/
def parseMoovChild (tracks : InitTracks) (child : Child) : Except String InitTracks :=
  if child.boxType = boxTrak then
    let track := readTrack child.bytes child.headerSize
    if track.handler = handlerVideo then do
      require (tracks.videoID = 0) "multiple video tracks in mp4mux output"
      return { tracks with videoID := track.trackID, videoTimescale := track.timescale }
    else if track.handler = handlerAudio then do
      require (tracks.audioID = 0) "multiple audio tracks in mp4mux output"
      return { tracks with audioID := track.trackID, audioTimescale := track.timescale }
    else return tracks
  else if child.boxType = boxMvex then
    (children child.bytes child.headerSize).foldlM parseMvexChild tracks
  else return tracks

/-- `parseInitTracks`: the video and the audio track, with id zero if there is none. -/
def parseInitTracks (init : Bytes) : Except String (TrackInfo × TrackInfo) :=
  match findBox init boxMoov with
  | none => throw "moov was not found"
  | some (moov, moovHeader) => do
      let tracks ← (children moov moovHeader).foldlM parseMoovChild {}
      require (tracks.videoID ≠ 0 ∧ tracks.videoTimescale ≠ 0)
        "video track was not found through hdlr=vide"
      require (tracks.audioID ≠ 0 → tracks.audioTimescale ≠ 0) "audio timescale is zero"
      let video : TrackInfo :=
        { id := UInt32.ofNat tracks.videoID
          timescale := UInt32.ofNat tracks.videoTimescale
          trex := findTrex tracks.trexEntries tracks.videoID }
      let audio : TrackInfo :=
        if tracks.audioID ≠ 0 then
          { id := UInt32.ofNat tracks.audioID
            timescale := UInt32.ofNat tracks.audioTimescale
            trex := findTrex tracks.trexEntries tracks.audioID }
        else {}
      return (video, audio)

end TorrServer.Gstreamer.Mp4
