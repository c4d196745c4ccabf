/-
# Gstreamer.Runner — `gstRunner`, which drives a GStreamer pipeline.

The runner starts the pipeline, seeks in it and stops it (freezing), and reads its output until the
initialization or a segment is complete. GStreamer is taken as ideal: started or sought at the start of segment
`k`, the pipeline produces the segments `k`, `k + 1` and so on. A segment is its number in the media, `next` is
the one that the pipeline produces next, and times are whole seconds. What the pipeline does during a call, and
whether its context is cancelled, is up to `Env`.

`Stands` and `Holds` say where a running runner is.
-/
import Mathlib.Algebra.Order.Ring.Int
import Mathlib.Tactic.Basic

namespace TorrServer.Gstreamer

/-! ## The model -/

/-- `SegmentSeconds`, which `normalized` has made positive, and the duration and the audio tracks of the
probe. -/
structure Media where
  segmentSeconds : Int
  durationNS : Int
  audioTracks : List Nat
  segmentSeconds_pos : 0 < segmentSeconds

/-- How a request can fail. -/
inductive TaskError
  | canceled
  | segmentNotReady
  | endOfStreamExhausted
  | invalidIdentifier
  | pipeline
  deriving DecidableEq, Repr

/-- What `drainEndOfStream` comes to. -/
inductive Drained
  | segment
  | exhausted
  | failed

/-- What a round of a reading loop meets: a context that is done, an error, bytes that complete something, or
the end of the stream. -/
inductive Round
  | canceled
  | failed
  | sample (init segment : Bool)
  | endOfStream (drained : Drained)

/-- What a call of the runner meets: whether the pipeline starts or seeks, the rounds, and an error on the
bus. -/
structure Env where
  starts : Bool := true
  rounds : List Round := []
  busError : Bool := false

/-- How a reading loop ends: it finds what it reads for, freezes the runner, or is given up. -/
inductive Ending
  | found
  | frozen
  | givenUp
  deriving DecidableEq

/-- The ending of a loop, read off the rounds it meets. -/
def ending (ends : Round → Option Ending) (busError : Bool) : List Round → Ending
  | [] => if busError then .frozen else .givenUp
  | round :: rounds => (ends round).getD (ending ends busError rounds)

/-- What a round means to the loop of `EnsureInit`. -/
def initRound : Round → Option Ending
  | .canceled => some .givenUp
  | .failed => some .frozen
  | .endOfStream _ => some .frozen
  | .sample init segment => if init || segment then some .found else none

/-- What a round means to the loop of `GetSegment`. -/
def segmentRound : Round → Option Ending
  | .canceled => some .givenUp
  | .failed => some .frozen
  | .endOfStream .segment => some .found
  | .endOfStream .exhausted => some .givenUp
  | .endOfStream .failed => some .frozen
  | .sample _ segment => if segment then some .found else none

/-- `gstRunner`, with `initMP4` of its task and `initDone` of the reader. -/
structure Runner where
  audioIndex : Int
  statePlaying : Bool := false
  readyIndex : Int := -1
  readyComplete : Bool := false
  readySegment : Int := 0
  position : Int := 0
  frozen : Bool := false
  pipeline : Bool := false
  next : Int := 0
  initDone : Bool := false
  initMP4 : Bool := false
  deriving DecidableEq

namespace Media

/-- `validAudioIndex`: the first audio track stands in for a track that there is not. -/
def validAudioIndex (media : Media) (requested : Int) : Int :=
  if requested ∈ media.audioTracks.map Nat.cast then requested
  else ((media.audioTracks.head?.map Nat.cast).getD (-1))

/-- Where a segment starts, without cues. -/
def segmentStartSeconds (media : Media) (index : Int) : Int :=
  if 0 < index then index * media.segmentSeconds else 0

/-- The segment that the pipeline produces first when it starts at a time. -/
def segmentAt (media : Media) (seconds : Int) : Int := seconds / media.segmentSeconds

end Media

namespace Runner

variable (media : Media) (r : Runner)

/-- The finished segment is dropped. -/
def discardReadySegment : Runner :=
  { r with readyIndex := -1, readyComplete := false, readySegment := 0 }

/-- The pipeline is torn down; a later request starts it again at `seconds`. -/
def freezeAtPosition (seconds : Int) : Runner :=
  { r.discardReadySegment with
    pipeline := false, initDone := false, initMP4 := false, frozen := true, position := seconds
    statePlaying := false }

/-- The same, at the start of a segment. -/
def freezeAtSegment (index : Int) : Runner :=
  r.freezeAtPosition (if 0 ≤ index then media.segmentStartSeconds index else r.position)

/-- `Seek`, which reuses the pipeline or starts it; the flag is its result. -/
def seek (works : Bool) (seconds : Int) : Runner × Bool :=
  let r := r.discardReadySegment
  if works then
    ({ r with
      pipeline := true, next := media.segmentAt seconds, initDone := false, frozen := false
      position := seconds, statePlaying := true }, true)
  else (r.freezeAtPosition seconds, false)

/-- The callback of the reader for the initialization. -/
def acceptInit : Runner := { r with initDone := true, initMP4 := true }

/-- `acceptSegment`, its callback for a segment. -/
def acceptSegment : Runner :=
  { r with
    next := r.next + 1, readySegment := r.next, readyComplete := true
    position := (r.next + 1) * media.segmentSeconds }

/-- A sample goes through the reader; there is no segment before the initialization. -/
def push (init segment : Bool) : Runner :=
  let r := if (init || segment) && !r.initDone then r.acceptInit else r
  if segment then r.acceptSegment media else r

/-- The finished segment was the one of this index. -/
def completeReadySegment (index : Int) : Runner :=
  { r with readyIndex := if 0 < index then index else 0 }

/-- The audio track changes, if the task has it; the pipeline has to be made anew. -/
def selectAudio (audio index : Int) : Runner :=
  let targetAudio := media.validAudioIndex audio
  if 0 ≤ targetAudio ∧ r.audioIndex ≠ targetAudio then
    ({ r with audioIndex := targetAudio }).freezeAtPosition (media.segmentStartSeconds index)
  else r

/-- The first start of the pipeline, if it works. -/
def start (audio index : Int) : Runner :=
  let startSeconds := media.segmentStartSeconds index
  let r := { r with statePlaying := true, audioIndex := media.validAudioIndex audio }
  let r := if 0 < startSeconds then { r with initDone := false, position := startSeconds } else r
  { r with pipeline := true, next := media.segmentAt startSeconds }

/-- The end of `EnsureInit` when there is an initialization. -/
def labelReady (startIndex : Int) : Runner :=
  if r.readyComplete then r.completeReadySegment startIndex else r

/-- `pullOutputSample` fails without a pipeline. -/
def pullOutputSample : Round → Round
  | .canceled => .canceled
  | round => if r.pipeline then round else .failed

/-- The loop of `EnsureInit`; without rounds left the deadline has passed. -/
def readInit (startIndex : Int) (busError : Bool) : List Round → Runner → Runner × Except TaskError Unit
  | [], r =>
    if busError then (r.freezeAtSegment media startIndex, .error .pipeline)
    else (r, .error .segmentNotReady)
  | round :: rounds, r =>
    match r.pullOutputSample round with
    | .canceled => (r, .error .canceled)
    | .failed => (r.freezeAtSegment media startIndex, .error .pipeline)
    | .endOfStream _ => (r.freezeAtSegment media startIndex, .error .segmentNotReady)
    | .sample init segment =>
      let r := r.push media init segment
      if r.initMP4 then (r.labelReady startIndex, .ok ()) else readInit startIndex busError rounds r

/-- `EnsureInit` once the pipeline is there. -/
def finishInit (env : Env) (startIndex : Int) : Runner × Except TaskError Unit :=
  if r.initMP4 then (r.labelReady startIndex, .ok ())
  else r.readInit media startIndex env.busError env.rounds

/-- `EnsureInit` where it seeks. -/
def seekInit (env : Env) (startIndex : Int) : Runner × Except TaskError Unit :=
  let (r, works) := r.seek media env.starts (media.segmentStartSeconds startIndex)
  if works then r.finishInit media env startIndex else (r, .error .segmentNotReady)

/-- Starts the pipeline if need be and reads up to the initialization. -/
def ensureInit (env : Env) (audio startIndex : Int) : Runner × Except TaskError Unit :=
  let startIndex := max startIndex 0
  let r := r.selectAudio media audio startIndex
  let startSeconds := media.segmentStartSeconds startIndex
  if r.frozen then r.seekInit media env startIndex
  else if r.statePlaying = false then
    if env.starts then (r.start media audio startIndex).finishInit media env startIndex
    else
      (({ r with audioIndex := media.validAudioIndex audio }).freezeAtPosition startSeconds,
        .error .pipeline)
  else if 0 < startIndex ∧ r.position ≠ startSeconds then r.seekInit media env startIndex
  else r.finishInit media env startIndex

/-- The loop of `GetSegment`. -/
def readSegment (index : Int) (busError : Bool) : List Round → Runner → Runner × Except TaskError Int
  | [], r =>
    if busError then (r.freezeAtSegment media index, .error .pipeline)
    else (r, .error .segmentNotReady)
  | round :: rounds, r =>
    match r.pullOutputSample round with
    | .canceled => (r, .error .canceled)
    | .failed => (r.freezeAtSegment media index, .error .pipeline)
    | .endOfStream .segment =>
      let r := (r.push media false true).completeReadySegment index
      (r, .ok r.readySegment)
    | .endOfStream .exhausted => (r, .error .endOfStreamExhausted)
    | .endOfStream .failed => (r.freezeAtSegment media index, .error .pipeline)
    | .sample init segment =>
      let r := r.push media init segment
      if r.readyComplete then
        let r := r.completeReadySegment index
        (r, .ok r.readySegment)
      else readSegment index busError rounds r

/-- `GetSegment` once the pipeline is there. -/
def finishSegment (env : Env) (index : Int) : Runner × Except TaskError Int :=
  if r.readyIndex = index ∧ r.readyComplete = true then (r, .ok r.readySegment)
  else r.discardReadySegment.readSegment media index env.busError env.rounds

/-- Starts the pipeline if need be and reads the segment of this index. -/
def getSegment (env : Env) (index audio : Int) : Runner × Except TaskError Int :=
  let r := r.selectAudio media audio index
  if r.frozen then
    let (r, works) := r.seek media env.starts r.position
    if works then r.finishSegment media env index else (r, .error .segmentNotReady)
  else if r.statePlaying = false then
    if env.starts then (r.start media audio index).finishSegment media env index
    else
      (({ r with audioIndex := media.validAudioIndex audio }).freezeAtPosition
        (media.segmentStartSeconds index), .error .pipeline)
  else r.finishSegment media env index

/-! ## Where the runner is -/

variable {media} {r r' : Runner} {env : Env} {audio index startIndex n content : Int}

/-- The audio track that is asked for is the one that plays. -/
def Matches (media : Media) (audio : Int) (r : Runner) : Prop :=
  0 ≤ media.validAudioIndex audio → r.audioIndex = media.validAudioIndex audio

/-- The pipeline runs. -/
structure Running (r : Runner) : Prop where
  frozen : r.frozen = false
  playing : r.statePlaying = true
  init : r.initDone = true → r.initMP4 = true

/-- The runner holds no segment, and segment `n` comes next. -/
structure Stands (n : Int) (r : Runner) : Prop where
  running : Running r
  empty : r.readyComplete = false
  next : r.next = n

/-- The runner holds the segment `content` as that of the index. -/
structure Holds (index content : Int) (r : Runner) : Prop where
  running : Running r
  complete : r.readyComplete = true
  label : r.readyIndex = index
  segment : r.readySegment = content
  after : r.next = content + 1
  initMP4 : r.initMP4 = true

/-- There has been no pipeline yet. -/
structure Unstarted (r : Runner) : Prop where
  frozen : r.frozen = false
  playing : r.statePlaying = false
  empty : r.readyComplete = false
  init : r.initDone = true → r.initMP4 = true

/-- What a call may come to when segment `n` comes next: the runner gives it, and holds it; or gives nothing,
and freezes or stays. -/
def Serves (media : Media) (audio index n : Int) : Runner × Except TaskError Int → Prop
  | (r, .ok content) => content = n ∧ Matches media audio r ∧ Holds index n r
  | (r, .error _) => r.frozen = true ∨ Matches media audio r ∧ Stands n r

/-- What a call for the initialization may come to. -/
def Prepares (media : Media) (audio startIndex n : Int) : Runner × Except TaskError Unit → Prop
  | (r, .ok _) => Matches media audio r ∧ (Stands n r ∨ Holds startIndex n r)
  | (r, .error _) => r.frozen = true ∨ Matches media audio r ∧ Stands n r

theorem segmentAt_segmentStartSeconds (media : Media) (hindex : 0 ≤ index) :
    media.segmentAt (media.segmentStartSeconds index) = index := by
  rw [Media.segmentAt, Media.segmentStartSeconds]
  split
  · exact Int.mul_ediv_cancel index (ne_of_gt media.segmentSeconds_pos)
  · rw [Int.zero_ediv]
    omega

/-! ## Reading -/

theorem Stands.acceptInit (h : Stands n r) : Stands n r.acceptInit :=
  ⟨⟨h.running.frozen, h.running.playing, fun _ => rfl⟩, h.empty, h.next⟩

theorem Stands.push (h : Stands n r) (media : Media) (init : Bool) : Stands n (r.push media init false) := by
  show Stands n (if (init || false) && !r.initDone then r.acceptInit else r)
  split
  · exact h.acceptInit
  · exact h

theorem Stands.complete (h : Stands n r) (media : Media) (init : Bool) (hindex : 0 ≤ index) :
    Holds index n ((r.push media init true).completeReadySegment index) := by
  have hlabel : (if 0 < index then index else 0) = index := by
    split <;> omega
  have hafter : ∀ {q : Runner}, Stands n q → q.initMP4 = true →
      Holds index n ((q.acceptSegment media).completeReadySegment index) := by
    intro q hq hinit
    exact ⟨⟨hq.running.frozen, hq.running.playing, fun _ => hinit⟩, rfl, hlabel, hq.next,
      congrArg (· + 1) hq.next, hinit⟩
  show Holds index n (((if (init || true) && !r.initDone then r.acceptInit else r).acceptSegment
    media).completeReadySegment index)
  split
  · exact hafter h.acceptInit rfl
  · rename_i hdone
    exact hafter h (h.running.init (by simpa using hdone))

theorem audioIndex_push (r : Runner) (init segment : Bool) :
    (r.push media init segment).audioIndex = r.audioIndex := by
  have hinit : ∀ c : Bool, (if c then r.acceptInit else r).audioIndex = r.audioIndex := by
    intro c
    cases c <;> rfl
  cases segment with
  | true => exact hinit ((init || true) && !r.initDone)
  | false => exact hinit ((init || false) && !r.initDone)

theorem Matches.of_eq (h : Matches media audio r) (heq : r'.audioIndex = r.audioIndex) :
    Matches media audio r' := fun hvalid => heq.trans (h hvalid)

/-- **The loop of `GetSegment`**, by induction on the rounds. -/
theorem Stands.readSegment (h : Stands n r) (hmatch : Matches media audio r) (hindex : 0 ≤ index)
    (busError : Bool) (rounds : List Round) :
    Serves media audio index n (r.readSegment media index busError rounds) := by
  induction rounds generalizing r with
  | nil =>
    rw [Runner.readSegment]
    split
    · exact .inl rfl
    · exact .inr ⟨hmatch, h⟩
  | cons round rounds ih =>
    rw [Runner.readSegment]
    split
    · exact .inr ⟨hmatch, h⟩
    · exact .inl rfl
    · have hholds := h.complete media false hindex
      exact ⟨hholds.segment, hmatch.of_eq (audioIndex_push r _ _), hholds⟩
    · exact .inr ⟨hmatch, h⟩
    · exact .inl rfl
    · rename_i init segment _
      have hmatch' : Matches media audio (r.push media init segment) :=
        hmatch.of_eq (audioIndex_push r _ _)
      cases segment with
      | true =>
        have hholds := h.complete media init hindex
        have hcomplete : (r.push media init true).readyComplete = true := hholds.complete
        dsimp only
        rw [if_pos hcomplete]
        exact ⟨hholds.segment, hmatch', hholds⟩
      | false =>
        have hstands := h.push media init
        dsimp only
        rw [if_neg (by rw [hstands.empty]; simp)]
        exact ih hstands hmatch'

/-- **The loop of `EnsureInit`.** -/
theorem Stands.readInit (h : Stands n r) (hmatch : Matches media audio r) (hindex : 0 ≤ startIndex)
    (busError : Bool) (rounds : List Round) :
    Prepares media audio startIndex n (r.readInit media startIndex busError rounds) := by
  induction rounds generalizing r with
  | nil =>
    rw [Runner.readInit]
    split
    · exact .inl rfl
    · exact .inr ⟨hmatch, h⟩
  | cons round rounds ih =>
    rw [Runner.readInit]
    split
    · exact .inr ⟨hmatch, h⟩
    · exact .inl rfl
    · exact .inl rfl
    · rename_i init segment _
      have hmatch' : Matches media audio (r.push media init segment) :=
        hmatch.of_eq (audioIndex_push r _ _)
      cases segment with
      | true =>
        have hholds := h.complete media init hindex
        have hinit : (r.push media init true).initMP4 = true := hholds.initMP4
        have hcomplete : (r.push media init true).readyComplete = true := hholds.complete
        dsimp only
        rw [if_pos hinit, labelReady, if_pos hcomplete]
        exact ⟨hmatch', .inr hholds⟩
      | false =>
        have hstands := h.push media init
        dsimp only
        split
        · rw [labelReady, if_neg (by rw [hstands.empty]; simp)]
          exact ⟨hmatch', .inl hstands⟩
        · exact ih hstands hmatch'

/-- A call that leaves the runner frozen, or has succeeded. -/
def Settled {α : Type} (result : Runner × Except TaskError α) : Prop :=
  result.1.frozen = true ∨ result.2.isOk = true

theorem pullOutputSample_cases (r : Runner) (round : Round) :
    r.pullOutputSample round = round ∨ r.pullOutputSample round = .failed := by
  unfold pullOutputSample
  split
  · exact .inl rfl
  · split
    · exact .inl rfl
    · exact .inr rfl

/-- **The loop of `GetSegment` ends as its rounds say**, whatever the runner is. -/
theorem readSegment_settled {busError : Bool} {rounds : List Round}
    (h : ending segmentRound busError rounds ≠ .givenUp) :
    Settled (r.readSegment media index busError rounds) := by
  induction rounds generalizing r with
  | nil =>
    cases busError with
    | true => exact .inl rfl
    | false => exact absurd rfl h
  | cons round rounds ih =>
    rw [Runner.readSegment]
    rcases pullOutputSample_cases r round with heq | heq <;> rw [heq]
    · rcases round with _ | _ | ⟨init, _ | _⟩ | _ | _ | _
      · exact absurd rfl h
      · exact .inl rfl
      · dsimp only
        split
        · exact .inr rfl
        · exact ih h
      · exact .inr rfl
      · exact .inr rfl
      · exact absurd rfl h
      · exact .inl rfl
    · exact .inl rfl

/-- **The loop of `EnsureInit` ends as its rounds say**, if its reader has given no initialization yet. -/
theorem readInit_ending {busError : Bool} {rounds : List Round} (hdone : r.initDone = false) :
    (ending initRound busError rounds ≠ .givenUp → Settled (r.readInit media startIndex busError rounds)) ∧
      (r.initMP4 = false → ending initRound busError rounds = .frozen →
        (r.readInit media startIndex busError rounds).1.frozen = true) := by
  induction rounds with
  | nil =>
    cases busError with
    | true => exact ⟨fun _ => .inl rfl, fun _ _ => rfl⟩
    | false => exact ⟨fun h => absurd rfl h, fun _ h => by cases h⟩
  | cons round rounds ih =>
    rw [Runner.readInit, ending]
    rcases pullOutputSample_cases r round with heq | heq <;> rw [heq]
    · rcases round with _ | _ | ⟨init, segment⟩ | drained
      · exact ⟨fun h => absurd rfl h, fun _ h => by cases h⟩
      · exact ⟨fun _ => .inl rfl, fun _ _ => rfl⟩
      · by_cases hany : (init || segment) = true
        · have hmp4 : (r.push media init segment).initMP4 = true := by
            cases segment <;> simp_all [push, acceptInit, acceptSegment]
          simp only [initRound, if_pos hany, if_pos hmp4]
          exact ⟨fun _ => .inr rfl, fun _ h => by cases h⟩
        · -- a sample that brings nothing leaves the runner as it is
          obtain ⟨rfl, rfl⟩ : init = false ∧ segment = false := by simpa using hany
          show (ending initRound busError rounds ≠ .givenUp → Settled (if r.initMP4 then _ else _)) ∧ (_ → _ →
            (if r.initMP4 then _ else _ : Runner × Except TaskError Unit).1.frozen = true)
          split
          · rename_i hmp4
            exact ⟨fun _ => .inr rfl, fun h => absurd (h.symm.trans hmp4) (by simp)⟩
          · exact ih
      · exact ⟨fun _ => .inl rfl, fun _ _ => rfl⟩
    · exact ⟨fun _ => .inl rfl, fun _ _ => rfl⟩

/-! ## Starting -/

theorem Stands.discardReadySegment (h : Stands n r) : Stands n r.discardReadySegment :=
  ⟨⟨h.running.frozen, h.running.playing, h.running.init⟩, rfl, h.next⟩

theorem Holds.discardReadySegment (h : Holds index content r) : Stands (content + 1) r.discardReadySegment :=
  ⟨⟨h.running.frozen, h.running.playing, h.running.init⟩, rfl, h.after⟩

/-- A seek that works, whatever was before. -/
theorem stands_seek (media : Media) (r : Runner) (hindex : 0 ≤ index) :
    Stands index (r.seek media true (media.segmentStartSeconds index)).1 :=
  ⟨⟨rfl, rfl, fun h => absurd h (by simp [seek])⟩, rfl, segmentAt_segmentStartSeconds media hindex⟩

theorem Unstarted.start (h : Unstarted r) (hindex : 0 ≤ index) : Stands index (r.start media audio index) := by
  have hnext := segmentAt_segmentStartSeconds media hindex
  rw [Runner.start]
  split
  · exact ⟨⟨h.frozen, rfl, fun hdone => absurd hdone (by simp)⟩, h.empty, hnext⟩
  · exact ⟨⟨h.frozen, rfl, h.init⟩, h.empty, hnext⟩

theorem matches_start (r : Runner) : Matches media audio (r.start media audio index) := by
  intro _
  rw [Runner.start]
  split <;> rfl

theorem start_initMP4 (media : Media) (audio index : Int) (r : Runner) :
    (r.start media audio index).initMP4 = r.initMP4 ∧
    ((r.start media audio index).initDone = true → r.initDone = true) := by
  rw [Runner.start]
  split
  · exact ⟨rfl, fun h => by cases h⟩
  · exact ⟨rfl, id⟩

theorem selectAudio_of_matches (h : Matches media audio r) : r.selectAudio media audio index = r := by
  rw [selectAudio]
  exact if_neg fun hother => hother.2 (h hother.1)

/-- With another track the runner freezes at the index. -/
theorem selectAudio_of_not_matches (h : ¬ Matches media audio r) (index : Int) :
    (r.selectAudio media audio index).frozen = true ∧
      (r.selectAudio media audio index).position = media.segmentStartSeconds index ∧
      (r.selectAudio media audio index).initMP4 = false ∧
      Matches media audio (r.selectAudio media audio index) := by
  rw [Matches, Classical.not_imp] at h
  rw [selectAudio, if_pos h]
  exact ⟨rfl, rfl, rfl, fun _ => rfl⟩

/-! ## `GetSegment` -/

theorem Stands.finishSegment (h : Stands n r) (hmatch : Matches media audio r) (hindex : 0 ≤ index) :
    Serves media audio index n (r.finishSegment media env index) := by
  rw [Runner.finishSegment, if_neg (by rw [h.empty]; simp)]
  exact h.discardReadySegment.readSegment (hmatch.of_eq rfl) hindex _ _

/-- A runner that holds another segment discards it. -/
theorem Holds.finishSegment {label : Int} (h : Holds label content r) (hlabel : label ≠ index)
    (hmatch : Matches media audio r) (hindex : 0 ≤ index) :
    Serves media audio index (content + 1) (r.finishSegment media env index) := by
  rw [Runner.finishSegment, if_neg fun hsame => hlabel (h.label.symm.trans hsame.1)]
  exact h.discardReadySegment.readSegment (hmatch.of_eq rfl) hindex _ _

theorem getSegment_of_running (h : Running r) (hmatch : Matches media audio r) :
    r.getSegment media env index audio = r.finishSegment media env index := by
  rw [getSegment, selectAudio_of_matches hmatch]
  dsimp only
  rw [if_neg (by rw [h.frozen]; simp), if_neg (by rw [h.playing]; simp)]

theorem getSegment_stands (h : Stands n r) (hmatch : Matches media audio r) (hindex : 0 ≤ index) :
    Serves media audio index n (r.getSegment media env index audio) := by
  rw [getSegment_of_running h.running hmatch]
  exact h.finishSegment hmatch hindex

theorem getSegment_holds_other {label : Int} (h : Holds label content r) (hlabel : label ≠ index)
    (hmatch : Matches media audio r) (hindex : 0 ≤ index) :
    Serves media audio index (content + 1) (r.getSegment media env index audio) := by
  rw [getSegment_of_running h.running hmatch]
  exact h.finishSegment hlabel hmatch hindex

theorem getSegment_holds (h : Holds index content r) (hmatch : Matches media audio r) :
    r.getSegment media env index audio = (r, .ok content) := by
  rw [getSegment_of_running h.running hmatch, Runner.finishSegment, if_pos ⟨h.label, h.complete⟩, h.segment]

theorem getSegment_unstarted (h : Unstarted r) (hmatch : Matches media audio r) (hindex : 0 ≤ index) :
    Serves media audio index index (r.getSegment media env index audio) := by
  rw [getSegment, selectAudio_of_matches hmatch]
  dsimp only
  rw [if_neg (by rw [h.frozen]; simp), if_pos h.playing]
  split
  · exact (h.start hindex).finishSegment (matches_start r) hindex
  · exact .inl rfl

theorem getSegment_other_audio (hmatch : ¬ Matches media audio r) (hindex : 0 ≤ index) :
    Serves media audio index index (r.getSegment media env index audio) := by
  obtain ⟨hfrozen, hposition, -, hmatches⟩ := selectAudio_of_not_matches hmatch index
  rw [getSegment]
  dsimp only
  rw [if_pos hfrozen, hposition]
  cases hstarts : env.starts with
  | true =>
    have hstands := stands_seek media (r.selectAudio media audio index) hindex
    exact hstands.finishSegment (hmatches.of_eq rfl) hindex
  | false => exact .inl rfl

/-- **After a seek to the index** it comes next, on whatever track the runner was. -/
theorem getSegment_of_seek (h : Stands index r) (hindex : 0 ≤ index) :
    Serves media audio index index (r.getSegment media env index audio) := by
  by_cases hmatch : Matches media audio r
  · exact getSegment_stands h hmatch hindex
  · exact getSegment_other_audio hmatch hindex

/-- **`GetSegment` ends as its rounds say**, whatever the runner is. -/
theorem getSegment_settled (h : ending segmentRound env.busError env.rounds ≠ .givenUp) :
    Settled (r.getSegment media env index audio) := by
  have hfinish : ∀ q : Runner, Settled (q.finishSegment media env index) := by
    intro q
    rw [Runner.finishSegment]
    split
    · exact .inr rfl
    · exact readSegment_settled h
  rw [getSegment]
  dsimp only
  split
  · cases env.starts with
    | true => exact hfinish _
    | false => exact .inl rfl
  · split
    · split
      · exact hfinish _
      · exact .inl rfl
    · exact hfinish _

/-! ## `EnsureInit` -/

theorem Stands.finishInit (h : Stands n r) (hmatch : Matches media audio r) (hindex : 0 ≤ startIndex) :
    Prepares media audio startIndex n (r.finishInit media env startIndex) := by
  rw [Runner.finishInit]
  split
  · rw [labelReady, if_neg (by rw [h.empty]; simp)]
    exact ⟨hmatch, .inl h⟩
  · exact h.readInit hmatch hindex _ _

theorem seekInit_prepares (hmatch : Matches media audio r) (hindex : 0 ≤ startIndex) :
    Prepares media audio startIndex startIndex (r.seekInit media env startIndex) := by
  rw [seekInit]
  cases hstarts : env.starts with
  | true => exact (stands_seek media r hindex).finishInit (hmatch.of_eq rfl) hindex
  | false => exact .inl rfl

/-- **Wherever `EnsureInit` seeks or starts**, the index comes next. -/
theorem ensureInit_prepares (h : r.frozen = true ∨ Unstarted r ∨ ¬ Matches media audio r ∨
      r.statePlaying = true ∧ 0 < startIndex ∧ r.position ≠ media.segmentStartSeconds startIndex)
    (hindex : 0 ≤ startIndex) :
    Prepares media audio startIndex startIndex (r.ensureInit media env audio startIndex) := by
  rw [ensureInit, max_eq_left hindex]
  by_cases hmatch : Matches media audio r
  · rw [selectAudio_of_matches hmatch]
    split
    · exact seekInit_prepares hmatch hindex
    · rename_i hfrozen
      split
      · rename_i hplaying
        rcases h with h | h | h | h
        · exact absurd h hfrozen
        · split
          · exact (h.start hindex).finishInit (matches_start r) hindex
          · exact .inl rfl
        · exact absurd hmatch h
        · exact absurd h.1 (by rw [hplaying]; simp)
      · rename_i hplaying
        rcases h with h | h | h | h
        · exact absurd h hfrozen
        · exact absurd h.playing hplaying
        · exact absurd hmatch h
        · rw [if_pos h.2]
          exact seekInit_prepares hmatch hindex
  · obtain ⟨hfrozen, -, -, hmatches⟩ := selectAudio_of_not_matches hmatch startIndex
    rw [if_pos hfrozen]
    exact seekInit_prepares hmatches hindex

theorem ensureInit_stands (h : Stands startIndex r) (hmatch : Matches media audio r)
    (hindex : 0 ≤ startIndex) :
    Prepares media audio startIndex startIndex (r.ensureInit media env audio startIndex) := by
  rw [ensureInit, max_eq_left hindex, selectAudio_of_matches hmatch, if_neg (by rw [h.running.frozen]; simp),
    if_neg (by rw [h.running.playing]; simp)]
  split
  · exact seekInit_prepares hmatch hindex
  · exact h.finishInit hmatch hindex

/-- The call ends as its rounds say, for a runner that has an initialization or not. -/
def EndsInit (env : Env) (initMP4 : Bool) (result : Runner × Except TaskError Unit) : Prop :=
  (ending initRound env.busError env.rounds ≠ .givenUp → Settled result) ∧
    (initMP4 = false → ending initRound env.busError env.rounds = .frozen → result.1.frozen = true)

theorem endsInit_of_frozen {initMP4 : Bool} {result : Runner × Except TaskError Unit}
    (h : result.1.frozen = true) :
    EndsInit env initMP4 result :=
  ⟨fun _ => .inl h, fun _ _ => h⟩

theorem finishInit_ending (hinit : r.initDone = true → r.initMP4 = true) :
    EndsInit env r.initMP4 (r.finishInit media env startIndex) := by
  rw [Runner.finishInit]
  split
  · rename_i hmp4
    exact ⟨fun _ => .inr rfl, fun h => absurd (h.symm.trans hmp4) (by simp)⟩
  · rename_i hmp4
    exact readInit_ending (by simpa using fun hdone => hmp4 (hinit hdone))

theorem seekInit_ending (media : Media) (env : Env) (startIndex : Int) (r : Runner) :
    EndsInit env r.initMP4 (r.seekInit media env startIndex) ∧
      (env.starts = false → (r.seekInit media env startIndex).1.frozen = true) := by
  rw [seekInit]
  cases env.starts with
  | true =>
    refine ⟨?_, fun h => by cases h⟩
    exact finishInit_ending (r := (r.seek media true _).1) fun h => by cases h
  | false => exact ⟨endsInit_of_frozen rfl, fun _ => rfl⟩

/-- `EnsureInit` makes the runner start or seek. -/
def Moves (media : Media) (startIndex : Int) (r : Runner) : Prop :=
  r.frozen = true ∨ r.statePlaying = false ∨ 0 < startIndex ∧ r.position ≠ media.segmentStartSeconds startIndex

/-- **`EnsureInit` ends as its rounds say**, and freezes where it cannot start or seek. -/
theorem ensureInit_ending (media : Media) (env : Env) (audio : Int)
    (hinit : r.frozen = false → r.initDone = true → r.initMP4 = true) (hindex : 0 ≤ startIndex) :
    EndsInit env r.initMP4 (r.ensureInit media env audio startIndex) ∧
      (Moves media startIndex r → env.starts = false →
        (r.ensureInit media env audio startIndex).1.frozen = true) := by
  rw [ensureInit, max_eq_left hindex]
  by_cases hmatch : Matches media audio r
  · rw [selectAudio_of_matches hmatch]
    split
    · exact ⟨(seekInit_ending media env startIndex r).1, fun _ => (seekInit_ending media env startIndex r).2⟩
    · rename_i hfrozen
      have hinit := hinit (by simpa using hfrozen)
      split
      · split
        · rename_i hstarts
          obtain ⟨hmp4, hdone⟩ := start_initMP4 media audio startIndex r
          refine ⟨hmp4 ▸ finishInit_ending fun h => ?_, fun _ h => absurd (h.symm.trans hstarts) (by simp)⟩
          exact hmp4.trans (hinit (hdone h))
        · exact ⟨endsInit_of_frozen rfl, fun _ _ => rfl⟩
      · rename_i hplaying
        split
        · exact ⟨(seekInit_ending media env startIndex r).1, fun _ =>
            (seekInit_ending media env startIndex r).2⟩
        · rename_i hseek
          exact ⟨finishInit_ending hinit, fun h =>
            absurd ((h.resolve_left hfrozen).resolve_left hplaying) hseek⟩
  · -- another track: the runner freezes and has no initialization
    obtain ⟨hfrozen, -, hmp4, -⟩ := selectAudio_of_not_matches hmatch startIndex
    rw [if_pos hfrozen]
    obtain ⟨hends, hfails⟩ := seekInit_ending media env startIndex (r.selectAudio media audio startIndex)
    exact ⟨⟨hends.1, fun _ => hends.2 hmp4⟩, fun _ => hfails⟩

end Runner

end TorrServer.Gstreamer
