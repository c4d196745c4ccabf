/-
# Gstreamer.Mp4.Samples — the media samples of a source and of segments.

What the reader is for, stated without the reader: a source is a sequence of top-level boxes, each `moof` with
its `mdat` holds some samples, and a player that is given the emitted segments finds samples in them again, each
with its decode time, duration, size, flags, composition offset and bytes.
-/
import TorrServer.Gstreamer.Mp4.Init
import TorrServer.Gstreamer.Mp4.RoundTrip

namespace TorrServer.Gstreamer.Mp4

open Lib List

variable {data bytes storage traf styp prefixBytes : Bytes} {boxes before : List Child}
  {time time' moofStart sequence : Nat} {fragments video audio : List Fragment}
  {videoTrack audioTrack : TrackInfo} {first f : Fragment} {timeline : Timeline}

/-! ## Top-level boxes -/

/-- The box at the front of some data, if all of it is there, and the data after it. Unlike `tryReadBox` it
takes boxes of any length; a size of zero is not a box. -/
def readTopBox (data : Bytes) : Option (Child × Bytes) :=
  if data.length < 8 then none
  else
    let size32 := be32 data 0
    if size32 = 1 ∧ data.length < 16 then none
    else
      let size := if size32 = 1 then be64 data 8 else size32
      let headerSize := if size32 = 1 then 16 else 8
      if size < headerSize ∨ data.length < size then none
      else some (⟨be32 data 4, headerSize, data.take size⟩, data.drop size)

/-- At most `fuel` boxes. -/
def topBoxesUpTo : Nat → Bytes → List Child
  | 0, _ => []
  | fuel + 1, data =>
    match readTopBox data with
    | none => []
    | some (b, rest) => b :: topBoxesUpTo fuel rest

/-- The complete boxes some data starts with. -/
def topBoxes (data : Bytes) : List Child := topBoxesUpTo data.length data

/-- The bytes of boxes, one after the other. -/
def boxBytes (boxes : List Child) : Bytes := boxes.flatMap Child.bytes

/-- A box as it stands at top level. -/
def Child.IsTop (b : Child) : Prop := readTopBox b.bytes = some (b, [])

/-- The body of a box. -/
def Child.body (b : Child) : Bytes := b.bytes.drop b.headerSize

@[simp] theorem boxBytes_nil : boxBytes [] = [] := rfl

@[simp] theorem boxBytes_cons (b : Child) (boxes : List Child) :
    boxBytes (b :: boxes) = b.bytes ++ boxBytes boxes := rfl

@[simp] theorem boxBytes_append (a b : List Child) : boxBytes (a ++ b) = boxBytes a ++ boxBytes b := by
  simp [boxBytes]

/-- What `readTopBox` finds. -/
theorem readTopBox_eq_some {rest : Bytes} {b : Child} (h : readTopBox data = some (b, rest)) :
    8 ≤ data.length ∧ (be32 data 0 = 1 → 16 ≤ data.length) ∧ b.boxType = be32 data 4 ∧
      ∃ size, size = (if be32 data 0 = 1 then be64 data 8 else be32 data 0) ∧
        b.headerSize = (if be32 data 0 = 1 then 16 else 8) ∧ b.headerSize ≤ size ∧
        size ≤ data.length ∧ b.bytes = data.take size ∧ rest = data.drop size := by
  rw [readTopBox] at h
  split at h
  · cases h
  · rename_i h8
    dsimp only at h
    by_cases h16 : be32 data 0 = 1 ∧ data.length < 16
    · rw [if_pos h16] at h
      cases h
    · rw [if_neg h16] at h
      generalize hsize : (if be32 data 0 = 1 then be64 data 8 else be32 data 0) = size at h
      generalize hheader : (if be32 data 0 = 1 then 16 else 8) = headerSize at h
      split at h
      · cases h
      · cases h
        refine ⟨by omega, by omega, rfl, size, rfl, rfl, ?_, by omega, rfl, rfl⟩
        show headerSize ≤ size
        omega

/-- More data after a box changes nothing. -/
theorem Child.IsTop.readTopBox_append {b : Child} (h : b.IsTop) (rest : Bytes) :
    readTopBox (b.bytes ++ rest) = some (b, rest) := by
  obtain ⟨h8, h16, htype, size, hsize, hheader, hle, hlen, hbytes, hrest⟩ := readTopBox_eq_some h
  have hfull : b.bytes.length ≤ size := drop_eq_nil_iff.mp hrest.symm
  have hsize32 : be32 (b.bytes ++ rest) 0 = be32 b.bytes 0 := beAt_append_left rest (by omega)
  have htype32 : be32 (b.bytes ++ rest) 4 = be32 b.bytes 4 := beAt_append_left rest (by omega)
  have hsize' : (if be32 b.bytes 0 = 1 then be64 (b.bytes ++ rest) 8 else be32 b.bytes 0) = size := by
    rw [hsize]
    split
    · exact beAt_append_left rest (by have := h16 (by assumption); omega)
    · rfl
  have htake : (b.bytes ++ rest).take size = b.bytes := by
    rw [take_append_of_le_length hlen, take_of_length_le hfull]
  have hdrop : (b.bytes ++ rest).drop size = rest := by
    rw [drop_append_of_le_length hlen, drop_eq_nil_of_le hfull, nil_append]
  have hlong : ¬ (b.bytes ++ rest).length < 8 := by rw [length_append]; omega
  have hlong' : ¬ (be32 b.bytes 0 = 1 ∧ (b.bytes ++ rest).length < 16) := by
    rw [length_append]
    omega
  have hfits : ¬ (size < b.headerSize ∨ (b.bytes ++ rest).length < size) := by
    rw [length_append]
    omega
  rw [readTopBox]
  simp only [hsize32, htype32, hsize', if_neg hlong, if_neg hlong', ← hheader, if_neg hfits, htake,
    hdrop, ← htype]

theorem Child.IsTop.length_pos {b : Child} (h : b.IsTop) : 8 ≤ b.bytes.length :=
  (readTopBox_eq_some h).1

theorem topBoxesUpTo_append (h : ∀ b ∈ boxes, b.IsTop) (fuel : Nat) (part : Bytes) :
    topBoxesUpTo (fuel + boxes.length) (boxBytes boxes ++ part) = boxes ++ topBoxesUpTo fuel part := by
  induction boxes with
  | nil => rfl
  | cons b boxes ih =>
    rw [length_cons, ← Nat.add_assoc, boxBytes_cons, append_assoc, topBoxesUpTo,
      (h b (by simp)).readTopBox_append (boxBytes boxes ++ part)]
    simp only [ih fun c hc => h c (by simp [hc]), cons_append]

/-- **Boxes laid end to end** are found again. -/
theorem exists_topBoxes_append (h : ∀ b ∈ boxes, b.IsTop) (part : Bytes) :
    ∃ fuel, topBoxes (boxBytes boxes ++ part) = boxes ++ topBoxesUpTo fuel part := by
  have hlen : boxes.length ≤ (boxBytes boxes).length := by
    induction boxes with
    | nil => simp
    | cons b boxes ih =>
      have := (h b (by simp)).length_pos
      have := ih fun c hc => h c (by simp [hc])
      simp only [length_cons, boxBytes_cons, length_append]
      omega
  refine ⟨(boxBytes boxes ++ part).length - boxes.length, ?_⟩
  rw [← topBoxesUpTo_append h, Nat.sub_add_cancel (by rw [length_append]; omega), topBoxes]

/-- They are all there is, up to a box that is not complete. -/
theorem topBoxes_append (h : ∀ b ∈ boxes, b.IsTop) {part : Bytes} (hpart : readTopBox part = none) :
    topBoxes (boxBytes boxes ++ part) = boxes := by
  obtain ⟨fuel, hfuel⟩ := exists_topBoxes_append h part
  have hnone : topBoxesUpTo fuel part = [] := by
    cases fuel with
    | zero => rfl
    | succ fuel => simp only [topBoxesUpTo, hpart]
  rw [hfuel, hnone, append_nil]

theorem isTop_box {boxType : Nat} {body : Bytes} (htype : boxType < 2 ^ 32)
    (hsize : 8 + body.length < 2 ^ 32) : Child.IsTop ⟨boxType, 8, box boxType body⟩ := by
  have hdrop : (box boxType body).drop 0 = put32 (8 + body.length) ++ (put32 boxType ++ body) := rfl
  have hsize32 : be32 (box boxType body) 0 = 8 + body.length := be32_of_drop hdrop hsize
  have htype32 : be32 (box boxType body) 4 = boxType := be32_of_drop (drop_put32 hdrop) htype
  have hlen : (box boxType body).length = 8 + body.length := box_length boxType body
  have h1 : ¬ 8 + body.length = 1 := by omega
  simp only [Child.IsTop, readTopBox, hsize32, htype32, hlen, h1, if_false, false_and]
  rw [if_neg (by omega), if_neg (by omega), take_of_length_le (by omega), drop_eq_nil_of_le (by omega)]

theorem isTop_mdat {mdat payload : Bytes} (h : IsMdat mdat payload) :
    ∃ headerSize, Child.IsTop ⟨boxMdat, headerSize, mdat⟩ := by
  rcases h with ⟨rfl, hlen⟩ | ⟨rfl, hlen⟩
  · exact ⟨8, isTop_box (by decide) (by rwa [box_length] at hlen)⟩
  · refine ⟨16, ?_⟩
    have hdrop : (put32 1 ++ put32 boxMdat ++ put64 (16 + payload.length) ++ payload).drop 0
        = put32 1 ++ (put32 boxMdat ++ (put64 (16 + payload.length) ++ payload)) := by
      simp only [drop_zero, append_assoc]
    have hnext := drop_put32 hdrop
    have hall : (put32 1 ++ put32 boxMdat ++ put64 (16 + payload.length) ++ payload).length
        = 16 + payload.length := by
      simp only [length_append, put32_length, put64_length]
    rw [hall] at hlen
    have hsize64 : be64 _ 8 = 16 + payload.length := beAt_of_drop (drop_put32 hnext) (by omega)
    have hsize32 := be32_of_drop hdrop (by decide)
    have htype32 : be32 _ 4 = boxMdat := be32_of_drop hnext (by decide)
    simp only [Child.IsTop, readTopBox, hsize32, hsize64, htype32, hall, if_true, true_and]
    rw [if_neg (by omega), if_neg (by omega), if_neg (by omega), take_of_length_le (by omega),
      drop_eq_nil_of_le (by omega)]

/-! ## Media samples -/

/-- A sample as a player sees it; times are `uint64`. -/
structure MediaSample where
  decodeTime : Nat
  duration : Nat
  size : Nat
  flags : Nat
  compositionOffset : Int
  bytes : Bytes
  deriving DecidableEq, Repr

/-- The sample at another decode time. -/
def MediaSample.shift (offset : Nat) (s : MediaSample) : MediaSample :=
  { s with decodeTime := (s.decodeTime + offset) % 2 ^ 64 }

/-- A composition offset is signed in version 1 of a `trun`, unsigned in version 0. -/
def compositionOffset (version : Nat) (s : Sample) : Int :=
  if version = 1 then toInt32 s.compositionTimeOffsetRaw else s.compositionTimeOffsetRaw

/-- Samples that follow each other in time from `time` on, and in `data` from its front on. -/
def mediaSamples : Nat → List (Nat × Bool × Sample) → Bytes → List MediaSample
  | _, [], _ => []
  | time, (version, _, s) :: entries, data =>
    ⟨time % 2 ^ 64, s.duration, s.size, s.flags, compositionOffset version s, data.take s.size⟩ ::
      mediaSamples (time + s.duration) entries (data.drop s.size)

/-- The samples of some entries. -/
def entrySamples (entries : List (Nat × Bool × Sample)) : List Sample := entries.map fun e => e.2.2

theorem entrySamples_tagged (runs : List Run) : entrySamples (tagged runs) = runs.flatMap Run.samples :=
  (samples_eq_tagged runs).symm

@[simp] theorem entrySamples_cons (e : Nat × Bool × Sample) (entries : List (Nat × Bool × Sample)) :
    entrySamples (e :: entries) = e.2.2 :: entrySamples entries := rfl

theorem mediaSamples_append (a b : List (Nat × Bool × Sample)) (time : Nat) (data : Bytes) :
    mediaSamples time (a ++ b) data = mediaSamples time a data ++
      mediaSamples (time + durations (entrySamples a)) b (data.drop (sizes (entrySamples a))) := by
  induction a generalizing time data with
  | nil => simp [mediaSamples, entrySamples]
  | cons e a ih =>
    simp only [cons_append, mediaSamples, ih, entrySamples_cons, durations_cons, sizes_cons,
      Nat.add_assoc, drop_drop]

/-- Only the bytes of the samples themselves matter. -/
theorem mediaSamples_congr {entries : List (Nat × Bool × Sample)} {data' : Bytes} (time : Nat)
    (h : data.take (sizes (entrySamples entries)) = data'.take (sizes (entrySamples entries))) :
    mediaSamples time entries data = mediaSamples time entries data' := by
  induction entries generalizing time data data' with
  | nil => rfl
  | cons e entries ih =>
    simp only [entrySamples_cons, sizes_cons] at h
    have hhead : data.take e.2.2.size = data'.take e.2.2.size := by
      have := congrArg (List.take e.2.2.size) h
      simpa only [take_take, Nat.min_eq_left (Nat.le_add_right _ _)] using this
    have htail : (data.drop e.2.2.size).take (sizes (entrySamples entries))
        = (data'.drop e.2.2.size).take (sizes (entrySamples entries)) := by
      have := congrArg (List.drop e.2.2.size) h
      simpa only [drop_take, Nat.add_sub_cancel_left] using this
    simp only [mediaSamples, hhead, ih _ htail]

/-- Times are `uint64`. -/
theorem mediaSamples_time (h : time % 2 ^ 64 = time' % 2 ^ 64) (entries : List (Nat × Bool × Sample))
    (data : Bytes) :
    mediaSamples time entries data = mediaSamples time' entries data := by
  induction entries generalizing time time' data with
  | nil => rfl
  | cons e entries ih =>
    have hnext : (time + e.2.2.duration) % 2 ^ 64 = (time' + e.2.2.duration) % 2 ^ 64 := by omega
    simp only [mediaSamples, h, ih hnext]

theorem mediaSamples_shift (time offset : Nat) (entries : List (Nat × Bool × Sample)) (data : Bytes) :
    mediaSamples (time + offset) entries data
      = (mediaSamples time entries data).map (MediaSample.shift offset) := by
  induction entries generalizing time data with
  | nil => rfl
  | cons e entries ih =>
    simp only [mediaSamples, map_cons, MediaSample.shift, Nat.mod_add_mod]
    rw [Nat.add_right_comm, ih]

/-! ## Tracks -/

/-- The two tracks of a source. -/
inductive Kind
  | video
  | audio
  deriving DecidableEq, Repr

/-- The one of two things that belongs to a track. -/
def Kind.pick {α : Type} (video audio : α) : Kind → α
  | .video => video
  | .audio => audio

/-- The track a `track_ID` stands for. -/
def kindOf (videoTrack audioTrack : TrackInfo) (trackID : Nat) : Option Kind :=
  if trackID = videoTrack.id.toNat then some .video
  else if audioTrack.id ≠ 0 ∧ trackID = audioTrack.id.toNat then some .audio
  else none

/-! ## The source -/

/-- A `styp` or `moof`, which ends the initialization. -/
def Child.isMedia (b : Child) : Bool := b.boxType == boxStyp || b.boxType == boxMoof

/-- The initialization: what stands before the first `styp` or `moof`. -/
def sourceInit (boxes : List Child) : Bytes := boxBytes (boxes.takeWhile fun b => !b.isMedia)

/-- The last `moof` without an `mdat`, and the pairs so far. -/
structure Pairing where
  moof : Option Bytes := none
  pairs : List (Bytes × Bytes) := []

/-- An `mdat` completes the pair that a `moof` has begun. -/
def Pairing.next (p : Pairing) (b : Child) : Pairing :=
  if b.boxType = boxMoof then { p with moof := some b.bytes }
  else if b.boxType = boxMdat then
    { moof := none, pairs := p.pairs ++ (p.moof.map fun moof => (moof, b.body)).toList }
  else p

/-- The pairs of boxes. -/
def pairing (boxes : List Child) : Pairing := boxes.foldl Pairing.next {}

/-- The completed pairs of a `moof` and the body of its `mdat`. -/
def sourcePairs (boxes : List Child) : List (Bytes × Bytes) := (pairing boxes).pairs

/-- The samples of a track in a pair: those the `moof` lists, in the order of the `mdat`. -/
def pairSamples (videoTrack audioTrack : TrackInfo) (kind : Kind) (pair : Bytes × Bytes) : List MediaSample :=
  match parseSourceMoof pair.1 videoTrack audioTrack 0 0 with
  | .ok f =>
    if kindOf videoTrack audioTrack f.trackID = some kind then
      mediaSamples f.decodeTime (tagged f.runs) pair.2
    else []
  | .error _ => []

/-- The samples of a track in a source. -/
def sourceSamples (boxes : List Child) (kind : Kind) : List MediaSample :=
  match parseInitTracks (sourceInit boxes) with
  | .ok (videoTrack, audioTrack) =>
    (sourcePairs boxes).flatMap (pairSamples videoTrack audioTrack kind)
  | .error _ => []

/-- Every `moof` can be parsed without a duration hint. A default duration of zero counts as absent. -/
def ExplicitDurations (boxes : List Child) : Prop :=
  ∀ videoTrack audioTrack, parseInitTracks (sourceInit boxes) = .ok (videoTrack, audioTrack) →
    ∀ b ∈ boxes, b.boxType = boxMoof →
      ∃ f, parseSourceMoof b.bytes videoTrack audioTrack 0 0 = .ok f

instance (boxes : List Child) : Decidable (ExplicitDurations boxes) :=
  decidable_of_iff (∀ tracks ∈ (parseInitTracks (sourceInit boxes)).toOption, ∀ b ∈ boxes, b.boxType = boxMoof →
      (parseSourceMoof b.bytes tracks.1 tracks.2 0 0).toOption.isSome = true) (by
    simp only [Option.mem_def, toOption_eq_some, Option.isSome_iff_exists, ExplicitDurations, Prod.forall])

/-- Every `mdat` has exactly the bytes of the samples its `moof` lists. -/
def ExactPayloads (boxes : List Child) : Prop :=
  ∀ videoTrack audioTrack, parseInitTracks (sourceInit boxes) = .ok (videoTrack, audioTrack) →
    ∀ pair ∈ sourcePairs boxes, ∀ f, parseSourceMoof pair.1 videoTrack audioTrack 0 0 = .ok f →
      pair.2.length = sizes f.samples

instance (boxes : List Child) : Decidable (ExactPayloads boxes) :=
  decidable_of_iff (∀ tracks ∈ (parseInitTracks (sourceInit boxes)).toOption, ∀ pair ∈ sourcePairs boxes,
      ∀ f ∈ (parseSourceMoof pair.1 tracks.1 tracks.2 0 0).toOption, pair.2.length = sizes f.samples) (by
    simp only [Option.mem_def, toOption_eq_some, ExactPayloads, Prod.forall])

/-! ## Segments -/

/-- The `moof` of a segment, and the bytes from its start on. -/
def findMoof (bytes : Bytes) : Option (Child × Bytes) :=
  let boxes := topBoxes bytes
  let before := boxes.takeWhile fun b => b.boxType != boxMoof
  (boxes.drop before.length).head?.map fun moof => (moof, bytes.drop (boxBytes before).length)

/-- The number in the `mfhd` of a segment. -/
def segmentSequence (bytes : Bytes) : Option Nat := do
  let (moof, _) ← findMoof bytes
  let mfhd ← (children moof.bytes moof.headerSize).find? fun b => b.boxType == boxMfhd
  return be32 mfhd.bytes (mfhd.headerSize + 4)

/-- The samples of some runs, each run at its data offset. -/
def runSamples (fromMoof : Bytes) : Nat → List Run → List MediaSample
  | _, [] => []
  | time, run :: runs =>
    mediaSamples time run.tagged (fromMoof.drop run.sourceDataOffset.toNat) ++
      runSamples fromMoof (time + durations run.samples) runs

/-- The samples of a track in a `traf`, read without any defaults. -/
def trafSamples (videoTrack audioTrack : TrackInfo) (kind : Kind) (fromMoof : Bytes) (traf : Child) :
    List MediaSample :=
  match parseTraf traf.bytes traf.headerSize videoTrack.bare audioTrack.bare 0 0 with
  | .ok f =>
    if kindOf videoTrack audioTrack f.trackID = some kind then runSamples fromMoof f.decodeTime f.runs
    else []
  | .error _ => []

/-- The samples of a track in a segment. -/
def segmentSamples (videoTrack audioTrack : TrackInfo) (kind : Kind) (bytes : Bytes) : List MediaSample :=
  match findMoof bytes with
  | none => []
  | some (moof, fromMoof) =>
    ((children moof.bytes moof.headerSize).filter fun b => b.boxType == boxTraf).flatMap
      (trafSamples videoTrack audioTrack kind fromMoof)

/-! ## Queued fragments -/

/-- The samples of a fragment whose payload is in a buffer. -/
def fragmentSamples (storage : Bytes) (f : Fragment) : List MediaSample :=
  mediaSamples f.decodeTime (tagged f.runs) (storage.drop f.payloadStart)

/-- The samples of some fragments. -/
def queueSamples (storage : Bytes) (fragments : List Fragment) : List MediaSample :=
  fragments.flatMap (fragmentSamples storage)

/-- The fragments follow each other in time, from `time` on. -/
def Chained : Nat → List Fragment → Prop
  | _, [] => True
  | time, f :: fragments =>
    f.decodeTime % 2 ^ 64 = time % 2 ^ 64 ∧ Chained (time + durations f.samples) fragments

theorem Chained.of_mod (h : time % 2 ^ 64 = time' % 2 ^ 64) (hc : Chained time fragments) :
    Chained time' fragments := by
  induction fragments generalizing time time' with
  | nil => trivial
  | cons f fragments ih =>
    obtain ⟨hf, hrest⟩ := hc
    exact ⟨hf.trans h, ih (by omega) hrest⟩

theorem chained_of_validateRest {expected : Nat} (hsound : ∀ f ∈ fragments, f.Sound videoTrack audioTrack)
    (h : validateRest first expected fragments = .ok ()) : Chained expected fragments := by
  induction fragments generalizing expected with
  | nil => trivial
  | cons f fragments ih =>
    simp only [validateRest, bind_eq_ok, require_eq_ok] at h
    obtain ⟨-, ⟨-, -, htime, -, -⟩, h⟩ := h
    have hrest := ih (fun g hg => hsound g (by simp [hg])) h
    refine ⟨by rw [htime], hrest.of_mod ?_⟩
    rw [Fragment.endTime, (hsound f (by simp)).duration_eq, htime]
    omega

theorem chained_of_validateSelected (hsound : ∀ f ∈ first :: fragments, f.Sound videoTrack audioTrack)
    (h : validateSelected (first :: fragments) = .ok ()) :
    Chained first.decodeTime (first :: fragments) := by
  rw [validateSelected, if_neg (by simp), validateTrack] at h
  refine ⟨rfl, (chained_of_validateRest (fun g hg => hsound g (by simp [hg])) h).of_mod ?_⟩
  rw [Fragment.endTime, (hsound first (by simp)).duration_eq]
  omega

/-! ## Reading a segment back -/

/-- The samples of runs of the payload buffer, one run after the other. -/
def placedSamples (storage : Bytes) : Nat → List (Fragment × Run) → List MediaSample
  | _, [] => []
  | time, src :: srcs =>
    mediaSamples time src.2.tagged (sourceBytes storage src) ++
      placedSamples storage (time + durations src.2.samples) srcs

theorem entrySamples_run (run : Run) : entrySamples run.tagged = run.samples := by
  simp [entrySamples, Run.tagged, Function.comp_def]

/-- A run that reads back shows its samples. -/
theorem RunReadBack.mediaSamples_eq {src : Fragment × Run} {run : Run}
    (h : RunReadBack bytes storage moofStart src run) (time : Nat) :
    mediaSamples time run.tagged ((bytes.drop moofStart).drop run.sourceDataOffset.toNat)
      = mediaSamples time src.2.tagged (sourceBytes storage src) := by
  have htagged : run.tagged = src.2.tagged := by simp only [Run.tagged, h.samples, h.version, h.offsets]
  rw [htagged, drop_drop]
  refine mediaSamples_congr time ?_
  rw [entrySamples_run, ← h.payload, ← h.samples, take_take, Nat.min_self]

theorem runSamples_eq_placed {srcs : List (Fragment × Run)} {runs : List Run}
    (h : List.Forall₂ (RunReadBack bytes storage moofStart) srcs runs) (time : Nat) :
    runSamples (bytes.drop moofStart) time runs = placedSamples storage time srcs := by
  induction h generalizing time with
  | nil => rfl
  | cons hrun _ ih => rw [runSamples, placedSamples, hrun.mediaSamples_eq, hrun.samples, ih]

theorem placedSamples_append (storage : Bytes) (a b : List (Fragment × Run)) (time : Nat) :
    placedSamples storage time (a ++ b) = placedSamples storage time a ++
      placedSamples storage (time + durations (a.flatMap fun src => src.2.samples)) b := by
  induction a generalizing time with
  | nil => simp [placedSamples]
  | cons src a ih =>
    simp only [cons_append, placedSamples, ih, append_assoc, flatMap_cons, durations_append, Nat.add_assoc]

theorem placedSamples_shift (storage : Bytes) (time offset : Nat) (srcs : List (Fragment × Run)) :
    placedSamples storage (time + offset) srcs
      = (placedSamples storage time srcs).map (MediaSample.shift offset) := by
  induction srcs generalizing time with
  | nil => rfl
  | cons src srcs ih =>
    rw [placedSamples, placedSamples, map_append, mediaSamples_shift, Nat.add_right_comm, ih]

/-- Runs that lie one after the other show their samples in order. -/
theorem placedSamples_runs {runs : List Run} {start : Nat} (hsound : ∀ run ∈ runs, run.Sound)
    (h : Consecutive start runs) (hle : start + (runs.map Run.dataSize).sum ≤ maxInt64) (time : Nat) :
    placedSamples storage time (runs.map fun run => (f, run))
      = mediaSamples time (tagged runs) (storage.drop (f.payloadStart + start)) := by
  induction runs generalizing start time with
  | nil => rfl
  | cons run runs ih =>
    obtain ⟨hoffset, hrest⟩ := h
    rw [map_cons, sum_cons] at hle
    have hrun := hsound run (by simp)
    have hstart : run.payloadOffset.toNat = start := by
      rw [hoffset, toInt64_of_le (by omega)]
      rfl
    rw [map_cons, placedSamples, ih (fun r hr => hsound r (by simp [hr])) hrest (by omega),
      tagged_cons, mediaSamples_append, entrySamples_run, drop_drop, ← hrun.dataSize_eq, Nat.add_assoc]
    congr 1
    refine mediaSamples_congr time ?_
    rw [entrySamples_run, sourceBytes, hstart, ← hrun.dataSize_eq, take_take, Nat.min_self]

theorem placedSamples_fragments (h : Writable videoTrack audioTrack fragments)
    (hle : sizes (allSamples fragments) ≤ maxInt64) (hchain : Chained time fragments) :
    placedSamples storage time (sources fragments) = queueSamples storage fragments := by
  induction fragments generalizing time with
  | nil => rfl
  | cons f fragments ih =>
    rw [allSamples_cons, sizes_append] at hle
    obtain ⟨htime, hrest⟩ := hchain
    obtain ⟨hf, ha⟩ := h f (by simp)
    have hsum : (f.runs.map Run.dataSize).sum = sizes f.samples := sum_dataSize hf.runs
    have hflat : (f.runs.map fun run => (f, run)).flatMap (fun src => src.2.samples) = f.samples := by
      simp [Fragment.samples, flatMap_def, Function.comp_def]
    have hsources : sources (f :: fragments)
        = (f.runs.map fun run => (f, run)) ++ sources fragments := rfl
    rw [hsources, placedSamples_append, hflat,
      placedSamples_runs hf.runs ha.consecutive (by omega), Nat.add_zero,
        ih (fun g hg => h g (by simp [hg])) (by omega)
        hrest, mediaSamples_time htime.symm]
    rfl

/-- What `addTfdtOffset` adds to the decode times of a timescale. -/
def Timeline.shift (timeline : Timeline) (timescale : Nat) : Nat :=
  match timeline.units timescale with
  | .ok offset => offset
  | .error _ => 0

theorem addTfdtOffset_eq {value timescale result : Nat}
    (h : addTfdtOffset timeline value timescale = .ok result) :
    result = value + timeline.shift timescale := by
  simp only [addTfdtOffset, bind_eq_ok, require_eq_ok, pure_eq_ok] at h
  obtain ⟨offset, hunits, -, -, rfl⟩ := h
  rw [Timeline.shift, hunits]

variable {kind : Kind}

theorem Fragment.Sound.timescale_eq (h : f.Sound videoTrack audioTrack)
    (hkind : kindOf videoTrack audioTrack f.trackID = some kind) :
    f.timescale = (kind.pick videoTrack audioTrack).timescale.toNat := by
  obtain ⟨t, ht, hts⟩ := h.track
  rw [hts]
  rw [kindOf] at hkind
  rcases trafTrack_eq_ok_iff.1 ht with ⟨hid, rfl, -⟩ | ⟨hne, hid, rfl, -⟩
  · rw [if_pos hid] at hkind
    cases hkind
    rfl
  · rw [if_neg hne, if_pos hid] at hkind
    cases hkind
    rfl

/-- What is selected of a track: sound and attached fragments of that track. -/
structure Fragment.OfTrack (videoTrack audioTrack : TrackInfo) (kind : Kind) (f : Fragment) : Prop where
  sound : f.Sound videoTrack audioTrack
  attached : f.Attached
  kind : kindOf videoTrack audioTrack f.trackID = some kind

theorem Writable.of_track (h : ∀ f ∈ fragments, f.OfTrack videoTrack audioTrack kind) :
    Writable videoTrack audioTrack fragments := fun f hf => ⟨(h f hf).sound, (h f hf).attached⟩

/-- A `traf` that reads back shows the samples of its fragments, shifted. -/
theorem TrafReadBack.samples_eq
    (h : TrafReadBack videoTrack audioTrack timeline bytes storage moofStart (first :: fragments) traf)
    (htrack : ∀ f ∈ first :: fragments, f.OfTrack videoTrack audioTrack kind)
    (hle : sizes (allSamples (first :: fragments)) ≤ maxInt64)
    (hchain : Chained first.decodeTime (first :: fragments)) (kind' : Kind) :
    trafSamples videoTrack audioTrack kind' (bytes.drop moofStart) ⟨boxTraf, 8, traf⟩ =
      if kind = kind' then (queueSamples storage (first :: fragments)).map
        (MediaSample.shift (timeline.shift (kind.pick videoTrack audioTrack).timescale.toNat))
      else [] := by
  obtain ⟨parsed, hparse, ⟨f, hf, htrackID, -, htime⟩, hruns⟩ := h.parsed
  cases hf
  obtain ⟨hfirst, -, hkind⟩ := htrack first (by simp)
  simp only [trafSamples, hparse, htrackID, hkind, Option.some.injEq]
  split
  · rw [runSamples_eq_placed hruns, addTfdtOffset_eq htime, hfirst.timescale_eq hkind,
      ← placedSamples_fragments (.of_track htrack) hle hchain]
    exact placedSamples_shift _ _ _ _
  · rfl

/-- The `moof` is found after boxes of other types. -/
theorem findMoof_eq {moof mdat : Child} (hbefore : ∀ b ∈ before, b.IsTop ∧ b.boxType ≠ boxMoof)
    (hmoof : moof.IsTop) (htype : moof.boxType = boxMoof) (hmdat : mdat.IsTop) :
    findMoof (boxBytes before ++ (moof.bytes ++ mdat.bytes))
      = some (moof, moof.bytes ++ mdat.bytes) := by
  have hboxes : topBoxes (boxBytes before ++ (moof.bytes ++ mdat.bytes)) = before ++ [moof, mdat] := by
    have hall : ∀ b ∈ before ++ [moof, mdat], b.IsTop := by
      intro b hb
      simp only [mem_append, mem_cons, not_mem_nil, or_false] at hb
      rcases hb with hb | rfl | rfl
      · exact (hbefore b hb).1
      · exact hmoof
      · exact hmdat
    have hwalk := topBoxes_append hall (show readTopBox [] = none from rfl)
    rwa [boxBytes_append, boxBytes_cons, boxBytes_cons, boxBytes_nil, append_nil, append_nil] at hwalk
  have htake : (before ++ [moof, mdat]).takeWhile (fun b => b.boxType != boxMoof) = before := by
    rw [takeWhile_append_of_pos fun b hb => by simpa using (hbefore b hb).2,
      takeWhile_cons_of_neg (by simp [htype]), append_nil]
  simp only [findMoof, hboxes, htake, drop_left, head?_cons, Option.map_some]

/-- The boxes of an emitted `moof`. -/
theorem children_moof {trafs : List Bytes}
    (hlen : (box boxMoof (mfhdBox sequence ++ (trafs.map (box boxTraf)).flatten)).length ≤ maxInt32) :
    children (box boxMoof (mfhdBox sequence ++ (trafs.map (box boxTraf)).flatten)) 8
      = ⟨boxMfhd, 8, mfhdBox sequence⟩ :: trafs.map fun traf => ⟨boxTraf, 8, box boxTraf traf⟩ := by
  have hflat : mfhdBox sequence ++ (trafs.map (box boxTraf)).flatten
      = (((boxMfhd, put32 0 ++ put32 sequence) :: trafs.map fun traf => (boxTraf, traf)).map
        fun b => box b.1 b.2).flatten := by
    simp [mfhdBox, Function.comp_def]
  have hheader : ∀ body, box boxMoof body = (put32 (8 + body.length) ++ put32 boxMoof) ++ body := by
    intro body
    rw [box, append_assoc]
  have hsmall : ∀ traf ∈ trafs, 8 + traf.length ≤ maxInt32 := by
    intro traf htraf
    have hle := (sublist_flatten_of_mem (mem_map_of_mem (f := box boxTraf) htraf)).length_le
    rw [box_length] at hle
    rw [box_length, length_append] at hlen
    omega
  have hwalk := children_boxes
    (put32 (8 + (mfhdBox sequence ++ (trafs.map (box boxTraf)).flatten).length) ++ put32 boxMoof)
    ((boxMfhd, put32 0 ++ put32 sequence) :: trafs.map fun traf => (boxTraf, traf)) ?_ ?_
  · rw [← hflat, ← hheader] at hwalk
    simpa [mfhdBox, Function.comp_def] using hwalk
  · intro b hb
    rcases mem_cons.mp hb with rfl | hb
    · exact (by decide : boxMfhd < 2 ^ 32)
    · obtain ⟨traf, -, rfl⟩ := mem_map.mp hb
      exact (by decide : boxTraf < 2 ^ 32)
  · intro b hb
    rcases mem_cons.mp hb with rfl | hb
    · simp only [length_append, put32_length]
      decide
    · obtain ⟨traf, htraf, rfl⟩ := mem_map.mp hb
      exact hsmall traf htraf

theorem be32_mfhd (sequence : Nat) : be32 (mfhdBox sequence) (8 + 4) = sequence % 2 ^ 32 := by
  have hsplit : mfhdBox sequence
      = (put32 16 ++ (put32 boxMfhd ++ put32 0)) ++ (beBytes 4 sequence ++ []) := by
    rw [mfhdBox, box, append_nil, append_assoc, append_assoc]
    rfl
  have hread := beAt_append_right 4 (put32 16 ++ (put32 boxMfhd ++ put32 0))
    (beBytes 4 sequence ++ []) 0
  rw [beAt_beBytes] at hread
  rw [hsplit]
  exact hread

/-- What a track contributes to the `moof` of a segment, and the samples in it. -/
theorem trafs_of_readBack (h : if fragments = [] then traf = [] else
      TrafReadBack videoTrack audioTrack timeline bytes storage moofStart fragments traf)
    (htrack : ∀ f ∈ fragments, f.OfTrack videoTrack audioTrack kind)
    (hle : sizes (allSamples fragments) ≤ maxInt64) (hvalid : validateSelected fragments = .ok ()) :
    ∃ trafs : List Bytes, traf = (trafs.map (box boxTraf)).flatten ∧ ∀ kind',
      (trafs.flatMap fun traf =>
          trafSamples videoTrack audioTrack kind' (bytes.drop moofStart) ⟨boxTraf, 8, box boxTraf traf⟩)
        = if kind = kind' then (queueSamples storage fragments).map
            (MediaSample.shift (timeline.shift (kind.pick videoTrack audioTrack).timescale.toNat))
          else [] := by
  cases fragments with
  | nil =>
    rw [if_pos rfl] at h
    exact ⟨[], h, fun kind' => by simp [queueSamples]⟩
  | cons first fragments =>
    rw [if_neg (by simp)] at h
    obtain ⟨tfhd, tfdt, truns, rfl, -⟩ := h.boxes
    refine ⟨[_], by rw [map_singleton, flatten_singleton], fun kind' => ?_⟩
    rw [flatMap_singleton]
    exact h.samples_eq htrack hle (chained_of_validateSelected (fun f hf => (htrack f hf).sound) hvalid) kind'

theorem writeSegment_valid {segment : Segment}
    (h : writeSegment timeline styp prefixBytes storage sequence video audio = .ok segment) :
    validateSelected video = .ok () ∧ validateSelected audio = .ok () := by
  simp only [writeSegment, bind_eq_ok] at h
  obtain ⟨⟨⟩, hvideo, ⟨⟩, haudio, -⟩ := h
  exact ⟨hvideo, haudio⟩

/-- **The samples of a written segment** are those of its fragments, with the decode times of each track shifted
by one amount, and its `mfhd` has the sequence number. -/
theorem writeSegment_samples {segment : Segment} (hbefore : ∀ b ∈ before, b.IsTop ∧ b.boxType ≠ boxMoof)
    (hbytes : styp ++ prefixBytes = boxBytes before)
    (hvideo : ∀ f ∈ video, f.OfTrack videoTrack audioTrack .video)
    (haudio : ∀ f ∈ audio, f.OfTrack videoTrack audioTrack .audio)
    (h : writeSegment timeline styp prefixBytes storage sequence video audio = .ok segment) :
    (∀ kind, segmentSamples videoTrack audioTrack kind segment.bytes =
      (queueSamples storage (kind.pick video audio)).map
        (MediaSample.shift (timeline.shift (kind.pick videoTrack audioTrack).timescale.toNat))) ∧
    segmentSequence segment.bytes = some (sequence % 2 ^ 32) := by
  have hv := Writable.of_track hvideo
  have ha := Writable.of_track haudio
  obtain ⟨videoTraf, audioTraf, mdat, hseg, hlen, hmdat, hvtraf, hatraf⟩ :=
    (writeSegment_layout hv ha h).layout
  obtain ⟨_, _, _, _, _, _, _, hw⟩ := writeSegment_written h
  have hsizes := (hw.bounds hv ha).2
  obtain ⟨hvvalid, havalid⟩ := writeSegment_valid h
  obtain ⟨vs, rfl, hvs⟩ := trafs_of_readBack hvtraf hvideo (by omega) hvvalid
  obtain ⟨as, rfl, has⟩ := trafs_of_readBack hatraf haudio (by omega) havalid
  rw [← flatten_append, ← map_append] at hseg hlen
  -- the `moof` and the bytes from it on
  obtain ⟨headerSize, hmdatTop⟩ := isTop_mdat hmdat
  have hmax : maxInt32 < 2 ^ 32 := by decide
  have hmoofTop := isTop_box (show boxMoof < 2 ^ 32 by decide)
    (show 8 + (mfhdBox sequence ++ ((vs ++ as).map (box boxTraf)).flatten).length
      < 2 ^ 32 by rw [← box_length boxMoof]; omega)
  have hfind := findMoof_eq hbefore hmoofTop rfl hmdatTop
  rw [hbytes, append_assoc] at hseg
  rw [← hseg] at hfind
  have hdrop : segment.bytes.drop (styp ++ prefixBytes).length
      = box boxMoof (mfhdBox sequence ++ ((vs ++ as).map (box boxTraf)).flatten) ++ mdat := by
    rw [hbytes, hseg, drop_left]
  have hchildren := children_moof hlen
  constructor
  · intro kind
    have hfilter : ((vs ++ as).map fun traf => (⟨boxTraf, 8, box boxTraf traf⟩ : Child)).filter
        (fun b => b.boxType == boxTraf)
          = (vs ++ as).map fun traf => (⟨boxTraf, 8, box boxTraf traf⟩ : Child) := by
      rw [filter_eq_self]
      intro b hb
      obtain ⟨traf, -, rfl⟩ := mem_map.mp hb
      exact beq_self_eq_true _
    simp only [segmentSamples, hfind, hchildren]
    rw [filter_cons_of_neg (by show ¬ (boxMfhd == boxTraf) = true; decide), hfilter, flatMap_map,
      flatMap_append, ← hdrop, hvs kind, has kind]
    cases kind <;> simp [Kind.pick]
  · simp only [segmentSequence, hfind, hchildren, Option.bind_eq_bind, Option.bind_some]
    rw [find?_cons_of_pos (by exact beq_self_eq_true boxMfhd)]
    simp only [Option.bind_some, be32_mfhd]
    rfl

end TorrServer.Gstreamer.Mp4
