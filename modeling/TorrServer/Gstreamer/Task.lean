/-
# Gstreamer.Task — a task serves the segments of a media file by their numbers.

`Task` sits between the requests for segments and the runner. It remembers the segment that it sent last, and
decides from it whether the runner has to seek: the next segment, or the same one again, is just asked for, and
so are the segments up to a minute ahead. Nothing ties this number to the place where the runner is. `Placed`
says that they agree; `Steady` calls keep it, and give the segments that are asked for.
-/
import TorrServer.Lib.Runs
import TorrServer.Gstreamer.Runner

namespace TorrServer.Gstreamer

open Lib

/-! ## The model -/

/-- What a call of `WithSegment` meets: its seek, for each segment on the way the context and the runner, and
the context at the end. -/
structure SegmentEnv where
  seeks : Bool := true
  skipped : List (Bool × Env) := []
  last : Env := {}
  canceled : Bool := false

/-- `Task`, with the segments handed out: the index that was asked for, and the segment. -/
structure Task where
  audio : Int
  lastSentSegment : Int := -1
  runner : Runner
  handed : List (Int × Int) := []

/-- `math.MaxInt64`. -/
def maxInt64 : Int := 2 ^ 63 - 1

/-- `time.Second`. -/
def nanosecondsPerSecond : Int := 1000000000

/-- How far ahead a request may be to be reached by reading on. -/
def maxSegmentCatchupSeconds : Int := 60

namespace Task

variable (media : Media) (t : Task)

/-- `NewTask`. -/
def new (audio : Int) : Task :=
  { audio := audio, runner := { audioIndex := media.validAudioIndex audio } }

/-- Refuses an index that is negative, overflows or lies past the end. -/
def validateSegmentIndex (index : Int) : Option TaskError :=
  let segmentDurationNS := media.segmentSeconds * nanosecondsPerSecond
  if index < 0 then some .invalidIdentifier
  else if maxInt64 / nanosecondsPerSecond < media.segmentSeconds then some .invalidIdentifier
  else if maxInt64 / segmentDurationNS < index then some .invalidIdentifier
  else if 0 < media.durationNS ∧ 1 + (media.durationNS - 1) / segmentDurationNS ≤ index then
    some .endOfStreamExhausted
  else none

/-- `clearInitMP4`. -/
def clearInitMP4 : Task := { t with runner := { t.runner with initMP4 := false } }

/-- Freezes the runner where it is. -/
def freezeLocked : Task :=
  if t.runner.frozen then t
  else clearInitMP4 { t with runner := t.runner.freezeAtPosition t.runner.position }

/-- `EnsureInit` has nothing to do. -/
def HasInit (audio startIndex : Int) : Prop :=
  t.audio = audio ∧ t.runner.initMP4 = true ∧ (startIndex = 0 ∨ t.lastSentSegment ≠ -1)

instance (t : Task) (audio startIndex : Int) : Decidable (t.HasInit audio startIndex) :=
  inferInstanceAs (Decidable (_ ∧ _ ∧ _))

/-- The task turns to another audio track. -/
def changeAudio (audio : Int) : Task :=
  if t.audio = audio then t else (clearInitMP4 { t with audio := audio }).freezeLocked

/-- Makes the initialization for an audio track, starting at a segment. -/
def ensureInit (t : Task) (env : Env) (audio startIndex : Int) : Task × Except TaskError Unit :=
  let startIndex := max startIndex 0
  match validateSegmentIndex media startIndex with
  | some e => (t, .error e)
  | none =>
    if t.HasInit audio startIndex then (t, .ok ())
    else
      let t := t.changeAudio audio
      match t.runner.ensureInit media env audio startIndex with
      | (runner, .error e) => ({ t with runner := runner }, .error e)
      | (runner, .ok _) =>
        ({ t with
          runner := runner
          lastSentSegment :=
            if 0 < startIndex ∧ t.lastSentSegment = -1 then startIndex - 1
            else t.lastSentSegment }, .ok ())

/-- The end of `segmentLocked`. -/
def lastSegment (env : Env) (index audio : Int) : Task × Except TaskError Int :=
  match t.runner.getSegment media env index audio with
  | (runner, .error e) => ({ t with runner := runner }, .error e)
  | (runner, .ok segment) => ({ t with runner := runner, lastSentSegment := index }, .ok segment)

/-- `seekToSegmentLocked` and the rest of `segmentLocked`. -/
def seekSegment (env : SegmentEnv) (index audio : Int) : Task × Except TaskError Int :=
  match t.runner.seek media env.seeks (index * media.segmentSeconds) with
  | (runner, false) => ({ t with runner := runner }, .error .segmentNotReady)
  | (runner, true) => ({ t with runner := runner }).lastSegment media env.last index audio

/-- The loop of `segmentLocked` that skips segments. -/
def skipSegments (audio : Int) : Nat → List (Bool × Env) → Task → Task × Except TaskError Unit
  | 0, _, t => (t, .ok ())
  | n + 1, envs, t =>
    let (canceled, env) := envs.headD (false, {})
    if canceled then (t, .error .canceled)
    else
      match t.lastSegment media env (t.lastSentSegment + 1) audio with
      | (t, .error e) => (t, .error e)
      | (t, .ok _) => skipSegments audio n envs.tail t

/-- A segment for a client: the next or the same again, one a little ahead by reading on, others by a seek. -/
def segmentLocked (env : SegmentEnv) (index audio : Int) : Task × Except TaskError Int :=
  match validateSegmentIndex media index with
  | some e => (t, .error e)
  | none =>
    if t.audio ≠ audio then (clearInitMP4 { t with audio := audio }).seekSegment media env index audio
    else if t.runner.frozen then t.seekSegment media env index audio
    else if t.lastSentSegment = -1 ∧ 0 < index then t.seekSegment media env index audio
    else if t.lastSentSegment ≠ -1 ∧ t.lastSentSegment ≠ index ∧ index ≠ t.lastSentSegment + 1 then
      let diff := index - t.lastSentSegment
      if 0 < diff ∧ diff ≤ maxSegmentCatchupSeconds / media.segmentSeconds then
        match t.skipSegments media audio (diff - 1).toNat env.skipped with
        | (t, .error e) => (t, .error e)
        | (t, .ok _) => t.lastSegment media env.last index audio
      else t.seekSegment media env index audio
    else t.lastSegment media env.last index audio

/-- `WithSegment`, for a consumer that accepts the segment. -/
def withSegment (env : SegmentEnv) (index audio : Int) : Task × Except TaskError Unit :=
  match t.segmentLocked media env index audio with
  | (t, .error e) => (t, .error e)
  | (t, .ok segment) =>
    if env.canceled then (t, .error .canceled)
    else ({ t with handed := t.handed ++ [(index, segment)] }, .ok ())

/-- A call; `freezeIfInactive` is told whether the last activity was before the cutoff. -/
inductive Call
  | ensureInit (audio startIndex : Int) (env : Env)
  | withSegment (index audio : Int) (env : SegmentEnv)
  | frozen
  | freezeIfInactive (inactive : Bool)

/-- The task after a call, however the call ends. -/
def call : Call → Option Task
  | .ensureInit audio startIndex env => some (t.ensureInit media env audio startIndex).1
  | .withSegment index audio env => some (t.withSegment media env index audio).1
  | .frozen => some t.freezeLocked
  | .freezeIfInactive inactive => some (if inactive then t.freezeLocked else t)

/-! ## In step -/

open Runner

variable {media} {t t' : Task} {r : Runner} {audio index startIndex last : Int} {env : SegmentEnv}

/-- The runner is where the last number says: frozen, not started, or about to give the next segment; it may
hold that or the last one. -/
inductive Placed (media : Media) (audio last : Int) (r : Runner) : Prop
  | frozen (h : r.frozen = true)
  | unstarted (h : Unstarted r) (hmatch : Matches media audio r) (hlast : last = -1)
  | stands (h : Stands (last + 1) r) (hmatch : Matches media audio r)
  | sent (h : Holds last last r) (hmatch : Matches media audio r) (hlast : 0 ≤ last)
  | ready (h : Holds (last + 1) (last + 1) r) (hmatch : Matches media audio r)

/-- Task and runner agree on what was sent, and what was handed out is what was asked for. -/
structure InStep (media : Media) (t : Task) : Prop where
  last : -1 ≤ t.lastSentSegment
  placed : Placed media t.audio t.lastSentSegment t.runner
  handed : ∀ pair ∈ t.handed, pair.2 = pair.1

/-- The call makes the runner seek. -/
def Seeks (media : Media) (t : Task) (index audio : Int) : Prop :=
  t.audio ≠ audio ∨ t.runner.frozen = true ∨ (t.lastSentSegment = -1 ∧ 0 < index) ∨
    (t.lastSentSegment ≠ -1 ∧ t.lastSentSegment ≠ index ∧ index ≠ t.lastSentSegment + 1 ∧
      ¬ (0 < index - t.lastSentSegment ∧
        index - t.lastSentSegment ≤ maxSegmentCatchupSeconds / media.segmentSeconds))

/-- What a call may come to: the segment that is asked for, or none; and the runner is where the number says. -/
structure Answers (media : Media) (before : List (Int × Int)) (index audio : Int)
    (result : Task × Except TaskError Int) : Prop where
  track : result.1.audio = audio
  handed : result.1.handed = before
  last : -1 ≤ result.1.lastSentSegment
  placed : Placed media audio result.1.lastSentSegment result.1.runner
  segment : ∀ segment, result.2 = .ok segment →
    segment = index ∧ result.1.lastSentSegment = index ∧ result.1.runner.frozen = false

theorem nonneg_of_valid (h : validateSegmentIndex media index = none) : 0 ≤ index := by
  rw [validateSegmentIndex] at h
  split at h
  · cases h
  · omega

theorem segmentStartSeconds_eq (hindex : 0 ≤ index) :
    media.segmentStartSeconds index = index * media.segmentSeconds := by
  rw [Media.segmentStartSeconds]
  split
  · rfl
  · rw [show index = 0 by omega, Int.zero_mul]

/-! ## `WithSegment` -/

/-- **The segment itself**, if the runner serves it. -/
theorem lastSegment_answers {env : Env}
    (hserves : Serves media audio index index (t.runner.getSegment media env index audio))
    (haudio : t.audio = audio) (hindex : 0 ≤ index) (hlast : -1 ≤ t.lastSentSegment)
    (hback : index = t.lastSentSegment + 1 ∨ Settled (t.runner.getSegment media env index audio)) :
    Answers media t.handed index audio (t.lastSegment media env index audio) := by
  rw [lastSegment]
  generalize t.runner.getSegment media env index audio = result at hserves hback ⊢
  obtain ⟨r, segment | segment⟩ := result
  · refine ⟨haudio, rfl, hlast, ?_, fun _ h => by cases h⟩
    rcases hserves with hfrozen | ⟨hmatch, hstands⟩
    · exact .frozen hfrozen
    · rcases hback with rfl | hback | hback
      · exact .stands hstands hmatch
      · exact .frozen hback
      · cases hback
  · obtain ⟨rfl, hmatch, hholds⟩ := hserves
    have hge : -1 ≤ segment := by omega
    refine ⟨haudio, rfl, hge, .sent hholds hmatch hindex, fun _ h => ?_⟩
    cases h
    exact ⟨rfl, rfl, hholds.running.frozen⟩

theorem seekSegment_answers (haudio : t.audio = audio) (hindex : 0 ≤ index) (hlast : -1 ≤ t.lastSentSegment)
    (hback : index = t.lastSentSegment + 1 ∨ env.seeks = false ∨
      ending segmentRound env.last.busError env.last.rounds ≠ .givenUp) :
    Answers media t.handed index audio (t.seekSegment media env index audio) := by
  rw [seekSegment, ← segmentStartSeconds_eq hindex]
  cases hseeks : env.seeks with
  | false => exact ⟨haudio, rfl, hlast, .frozen rfl, fun _ h => by cases h⟩
  | true =>
    refine lastSegment_answers (t := { t with
      runner := (t.runner.seek media true (media.segmentStartSeconds index)).1 }) ?_ haudio hindex hlast ?_
    · exact getSegment_of_seek (stands_seek media t.runner hindex) hindex
    · exact hback.imp_right fun h => getSegment_settled (h.resolve_left (by simp [hseeks]))

/-- **The next segment**, from wherever the runner may be in step. -/
theorem lastSegment_next (env : Env) (h : Placed media audio t.lastSentSegment t.runner)
    (hfrozen : t.runner.frozen = false) (haudio : t.audio = audio) (hlast : -1 ≤ t.lastSentSegment) :
    Answers media t.handed (t.lastSentSegment + 1) audio
      (t.lastSegment media env (t.lastSentSegment + 1) audio) := by
  have hindex : 0 ≤ t.lastSentSegment + 1 := by omega
  refine lastSegment_answers ?_ haudio hindex hlast (.inl rfl)
  cases h with
  | frozen h => exact absurd (hfrozen.symm.trans h) (by simp)
  | unstarted h hmatch _ => exact getSegment_unstarted h hmatch hindex
  | stands h hmatch => exact getSegment_stands h hmatch hindex
  | sent h hmatch _ => exact getSegment_holds_other h (by omega) hmatch hindex
  | ready h hmatch =>
    rw [getSegment_holds h hmatch]
    exact ⟨rfl, hmatch, h⟩

/-- **The segments that are skipped**, by induction on their number. -/
theorem skipSegments_answers {n : Nat} {envs : List (Bool × Env)}
    (h : Placed media audio t.lastSentSegment t.runner) (hfrozen : t.runner.frozen = false)
    (haudio : t.audio = audio) (hlast : -1 ≤ t.lastSentSegment) {result : Except TaskError Unit}
    (hskip : t.skipSegments media audio n envs = (t', result)) :
    t'.audio = audio ∧ t'.handed = t.handed ∧ -1 ≤ t'.lastSentSegment ∧
      Placed media audio t'.lastSentSegment t'.runner ∧
      (result = .ok () → t'.lastSentSegment = t.lastSentSegment + n ∧ t'.runner.frozen = false) := by
  induction n generalizing t envs with
  | zero =>
    cases hskip
    exact ⟨haudio, rfl, hlast, h, fun _ => ⟨by simp, hfrozen⟩⟩
  | succ n ih =>
    rw [skipSegments] at hskip
    dsimp only at hskip
    split at hskip
    · cases hskip
      exact ⟨haudio, rfl, hlast, h, fun h => by cases h⟩
    · have hnext := lastSegment_next (envs.headD (false, {})).2 h hfrozen haudio hlast
      split at hskip
      · rename_i t₁ e heq
        rw [heq] at hnext
        cases hskip
        exact ⟨hnext.track, hnext.handed, hnext.last, hnext.placed, fun h => by cases h⟩
      · rename_i t₁ segment heq
        rw [heq] at hnext
        obtain ⟨-, hlast₁, hfrozen₁⟩ := hnext.segment segment rfl
        dsimp only at hlast₁ hfrozen₁
        obtain ⟨haudio', hhanded', hlast', hplaced', hok⟩ :=
          ih hnext.placed hfrozen₁ hnext.track hnext.last hskip
        refine ⟨haudio', hhanded'.trans hnext.handed, hlast', hplaced', fun hresult => ?_⟩
        obtain ⟨heq', hfrozen'⟩ := hok hresult
        refine ⟨?_, hfrozen'⟩
        rw [heq', hlast₁]
        omega

/-- The condition on a call for a segment: where it seeks, the segment is the next one, or the seek fails, or
the rounds that follow do not make the loop give up; and a repeated segment is still held. -/
def SteadySegment (media : Media) (t : Task) (index audio : Int) (env : SegmentEnv) : Prop :=
  (Seeks media t index audio → index = t.lastSentSegment + 1 ∨ env.seeks = false ∨
      ending segmentRound env.last.busError env.last.rounds ≠ .givenUp) ∧
    (¬ Seeks media t index audio → index = t.lastSentSegment →
      t.runner.readyComplete = true ∧ t.runner.readyIndex = index)

theorem segmentLocked_of_seeks (env : SegmentEnv) (hvalid : validateSegmentIndex media index = none)
    (h : Seeks media t index audio) :
    ∃ t₁ : Task, t₁.audio = audio ∧ t₁.lastSentSegment = t.lastSentSegment ∧ t₁.handed = t.handed ∧
      t.segmentLocked media env index audio = t₁.seekSegment media env index audio := by
  rw [segmentLocked, hvalid]
  dsimp only
  by_cases haudio : t.audio = audio
  · refine ⟨t, haudio, rfl, rfl, ?_⟩
    rw [if_neg (by simpa using haudio)]
    split
    · rfl
    · rename_i hfrozen
      split
      · rfl
      · rename_i hfirst
        obtain ⟨hne, hother, hnext, hfar⟩ :=
          ((h.resolve_left (by simpa using haudio)).resolve_left hfrozen).resolve_left hfirst
        rw [if_pos ⟨hne, hother, hnext⟩, if_neg hfar]
  · exact ⟨clearInitMP4 { t with audio := audio }, rfl, rfl, rfl, by rw [if_pos haudio]⟩

/-- Without a seek: the last segment again, the next one, or one a little further on. -/
theorem segmentLocked_of_not_seeks (env : SegmentEnv) (hvalid : validateSegmentIndex media index = none)
    (h : ¬ Seeks media t index audio) :
    t.audio = audio ∧ t.runner.frozen = false ∧
      ((index = t.lastSentSegment ∨ index = t.lastSentSegment + 1) ∧
          t.segmentLocked media env index audio = t.lastSegment media env.last index audio ∨
        t.lastSentSegment < index ∧ t.segmentLocked media env index audio =
          match t.skipSegments media audio (index - t.lastSentSegment - 1).toNat env.skipped with
          | (t, .error e) => (t, .error e)
          | (t, .ok _) => t.lastSegment media env.last index audio) := by
  rw [Seeks, not_or, not_or, not_or, not_not] at h
  obtain ⟨haudio, hfrozen, hfirst, hfar⟩ := h
  have hindex := nonneg_of_valid hvalid
  refine ⟨haudio, by simpa using hfrozen, ?_⟩
  rw [segmentLocked, hvalid]
  dsimp only
  rw [if_neg (by simpa using haudio), if_neg hfrozen, if_neg hfirst]
  split
  · rename_i hskip
    right
    have hnear : 0 < index - t.lastSentSegment ∧
        index - t.lastSentSegment ≤ maxSegmentCatchupSeconds / media.segmentSeconds := by
      by_contra hnot
      exact hfar ⟨hskip.1, hskip.2.1, hskip.2.2, hnot⟩
    rw [if_pos hnear]
    exact ⟨by omega, rfl⟩
  · rename_i hdirect
    left
    refine ⟨?_, rfl⟩
    by_contra hnot
    rw [not_or] at hnot
    by_cases hnone : t.lastSentSegment = -1
    · have : ¬ 0 < index := fun hpos => hfirst ⟨hnone, hpos⟩
      omega
    · exact hdirect ⟨hnone, fun hsame => hnot.1 hsame.symm, hnot.2⟩

/-- **`segmentLocked`** under the condition. -/
theorem segmentLocked_answers (hlast : -1 ≤ t.lastSentSegment)
    (h : Placed media t.audio t.lastSentSegment t.runner)
    (hvalid : validateSegmentIndex media index = none) (hsteady : SteadySegment media t index audio env) :
    Answers media t.handed index audio (t.segmentLocked media env index audio) := by
  have hindex := nonneg_of_valid hvalid
  obtain ⟨hseek, hrepeat⟩ := hsteady
  by_cases hseeks : Seeks media t index audio
  · obtain ⟨t₁, haudio, hlast₁, hhanded, heq⟩ := segmentLocked_of_seeks env hvalid hseeks
    have hback := hseek hseeks
    rw [← hlast₁] at hback
    rw [heq, ← hhanded]
    exact seekSegment_answers haudio hindex (by omega) hback
  · obtain ⟨haudio, hfrozen, ⟨hdirect, heq⟩ | ⟨hlt, heq⟩⟩ :=
      segmentLocked_of_not_seeks env hvalid hseeks
    · rw [heq]
      rw [haudio] at h
      rcases hdirect with hsame | rfl
      · -- the last segment again: the runner holds it
        obtain ⟨hcomplete, hlabel⟩ := hrepeat hseeks hsame
        have hholds : Holds index index t.runner ∧ Matches media audio t.runner := by
          cases h with
          | frozen h => exact absurd (hfrozen.symm.trans h) (by simp)
          | unstarted h => exact absurd (hcomplete.symm.trans h.empty) (by simp)
          | stands h => exact absurd (hcomplete.symm.trans h.empty) (by simp)
          | sent h hmatch => exact ⟨hsame ▸ h, hmatch⟩
          | ready h =>
            have := h.label
            omega
        have hget : t.runner.getSegment media env.last index audio = (t.runner, .ok index) :=
          getSegment_holds hholds.1 hholds.2
        refine lastSegment_answers ?_ haudio hindex hlast (.inr (.inr ?_))
        · rw [hget]
          exact ⟨rfl, hholds.2, hholds.1⟩
        · rw [hget]
          rfl
      · exact lastSegment_next env.last h hfrozen haudio hlast
    · rw [heq]
      rw [haudio] at h
      -- a little ahead: the segments on the way are read and dropped
      cases hskip : t.skipSegments media audio (index - t.lastSentSegment - 1).toNat env.skipped with
      | mk t₁ result =>
        obtain ⟨haudio₁, hhanded₁, hlast₁, hplaced₁, hok⟩ :=
          skipSegments_answers h hfrozen haudio hlast hskip
        cases result with
        | error e => exact ⟨haudio₁, hhanded₁, hlast₁, hplaced₁, fun _ h => by cases h⟩
        | ok done =>
          obtain ⟨hcount, hfrozen₁⟩ := hok rfl
          have hnext : index = t₁.lastSentSegment + 1 := by omega
          have hanswers := lastSegment_next env.last hplaced₁ hfrozen₁ haudio₁ hlast₁
          rw [← hnext, hhanded₁] at hanswers
          exact hanswers

/-! ## `EnsureInit` -/

/-- The condition on a call for the initialization: it is for the next segment; or the pipeline does not start;
or there is no initialization and the rounds freeze the runner; or no segment has been sent yet, the runner has
to start or seek, and the rounds do not make the loop give up. -/
def SteadyInit (media : Media) (t : Task) (audio startIndex : Int) (env : Env) : Prop :=
  startIndex = t.lastSentSegment + 1 ∨
    (env.starts = false ∧ (t.audio ≠ audio ∨ Moves media startIndex t.runner)) ∨
    (ending initRound env.busError env.rounds = .frozen ∧ (t.audio ≠ audio ∨ t.runner.initMP4 = false)) ∨
    (t.lastSentSegment = -1 ∧ (t.audio ≠ audio ∨ Moves media startIndex t.runner) ∧
      ending initRound env.busError env.rounds ≠ .givenUp)

theorem frozen_freezeLocked (t : Task) : t.freezeLocked.runner.frozen = true := by
  rw [freezeLocked]
  split
  · assumption
  · rfl

theorem freezeLocked_same (t : Task) : t.freezeLocked.audio = t.audio ∧
    t.freezeLocked.lastSentSegment = t.lastSentSegment ∧ t.freezeLocked.handed = t.handed := by
  rw [freezeLocked]
  split <;> exact ⟨rfl, rfl, rfl⟩

theorem changeAudio_cases (t : Task) (audio : Int) :
    (t.changeAudio audio).audio = audio ∧ (t.changeAudio audio).lastSentSegment = t.lastSentSegment ∧
      (t.changeAudio audio).handed = t.handed ∧
      (t.audio = audio ∧ t.changeAudio audio = t ∨
        (t.changeAudio audio).runner.frozen = true ∧ (t.changeAudio audio).runner.initMP4 = false) := by
  rw [changeAudio]
  split
  · rename_i haudio
    exact ⟨haudio, rfl, rfl, .inl ⟨haudio, rfl⟩⟩
  · obtain ⟨haudio, hlast, hhanded⟩ := freezeLocked_same (clearInitMP4 { t with audio := audio })
    refine ⟨haudio, hlast, hhanded, .inr ⟨frozen_freezeLocked _, ?_⟩⟩
    rw [Task.freezeLocked]
    split <;> rfl

/-- Where the condition holds, the index comes next when the runner is ready. -/
theorem ensureInit_prepares_next {env : Env} (hplaced : Placed media t.audio t.lastSentSegment t.runner)
    (hindex : 0 ≤ startIndex) (hinit : ¬ t.HasInit audio startIndex)
    (hmoves : startIndex = t.lastSentSegment + 1 ∨ t.audio ≠ audio ∨ Moves media startIndex t.runner) :
    Prepares media audio startIndex startIndex
      ((t.changeAudio audio).runner.ensureInit media env audio startIndex) := by
  obtain ⟨-, -, -, ⟨haudio, hsame⟩ | ⟨hfrozen, -⟩⟩ := changeAudio_cases t audio
  swap
  · exact ensureInit_prepares (.inl hfrozen) hindex
  rw [hsame]
  rw [haudio] at hplaced
  have hseek : ∀ {label content : Int}, (Stands label t.runner ∨ Holds label content t.runner) →
      startIndex ≠ t.lastSentSegment + 1 →
      Prepares media audio startIndex startIndex (t.runner.ensureInit media env audio startIndex) := by
    intro label content hrunning hne
    have hrun : Running t.runner := hrunning.elim Stands.running Holds.running
    rcases hmoves.resolve_left hne with h | h | h | h
    · exact absurd haudio h
    · exact absurd (hrun.frozen.symm.trans h) (by simp)
    · exact absurd (hrun.playing.symm.trans h) (by simp)
    · exact ensureInit_prepares (.inr (.inr (.inr ⟨hrun.playing, h⟩))) hindex
  by_cases hnext : startIndex = t.lastSentSegment + 1
  · cases hplaced with
    | frozen h => exact ensureInit_prepares (.inl h) hindex
    | unstarted h => exact ensureInit_prepares (.inr (.inl h)) hindex
    | stands h hmatch => exact ensureInit_stands (hnext ▸ h) hmatch hindex
    | sent h _ hlast => exact absurd ⟨haudio, h.initMP4, .inr (by omega)⟩ hinit
    | ready h =>
      refine absurd ⟨haudio, h.initMP4, ?_⟩ hinit
      by_cases hnone : t.lastSentSegment = -1
      · exact .inl (by omega)
      · exact .inr hnone
  · cases hplaced with
    | frozen h => exact ensureInit_prepares (.inl h) hindex
    | unstarted h => exact ensureInit_prepares (.inr (.inl h)) hindex
    | stands h => exact @hseek _ 0 (.inl h) hnext
    | sent h => exact hseek (.inr h) hnext
    | ready h => exact hseek (.inr h) hnext

/-- What the condition on the rounds comes to. -/
theorem SteadyInit.outcome {env : Env} (h : SteadyInit media t audio startIndex env) (hindex : 0 ≤ startIndex)
    (hplaced : Placed media t.audio t.lastSentSegment t.runner) :
    let result := (t.changeAudio audio).runner.ensureInit media env audio startIndex
    startIndex = t.lastSentSegment + 1 ∨ result.1.frozen = true ∨
      t.lastSentSegment = -1 ∧ result.2.isOk = true ∧ (t.audio ≠ audio ∨ Moves media startIndex t.runner) := by
  intro result
  obtain ⟨-, -, -, hchange⟩ := changeAudio_cases t audio
  have hinit : (t.changeAudio audio).runner.frozen = false → (t.changeAudio audio).runner.initDone = true →
      (t.changeAudio audio).runner.initMP4 = true := by
    intro hfrozen
    rcases hchange with ⟨-, hsame⟩ | ⟨hchanged, -⟩
    · rw [hsame] at hfrozen ⊢
      cases hplaced with
      | frozen h => exact absurd (hfrozen.symm.trans h) (by simp)
      | unstarted h => exact h.init
      | stands h => exact h.running.init
      | sent h => exact h.running.init
      | ready h => exact h.running.init
    · exact absurd (hfrozen.symm.trans hchanged) (by simp)
  have hmoves : t.audio ≠ audio ∨ Moves media startIndex t.runner →
      Moves media startIndex (t.changeAudio audio).runner := by
    intro h
    rcases hchange with ⟨haudio, hsame⟩ | ⟨hchanged, -⟩
    · rw [hsame]
      exact h.resolve_left (not_not_intro haudio)
    · exact .inl hchanged
  obtain ⟨⟨hsettled, hfreezes⟩, hfails⟩ := Runner.ensureInit_ending media env audio hinit hindex
  rcases h with h | ⟨hstarts, h⟩ | ⟨hends, h⟩ | ⟨hnone, h, hends⟩
  · exact .inl h
  · exact .inr (.inl (hfails (hmoves h) hstarts))
  · refine .inr (.inl (hfreezes ?_ hends))
    rcases hchange with ⟨haudio, hsame⟩ | ⟨-, hmp4⟩
    · rw [hsame]
      exact h.resolve_left (not_not_intro haudio)
    · exact hmp4
  · rcases hsettled hends with hfrozen | hok
    · exact .inr (.inl hfrozen)
    · exact .inr (.inr ⟨hnone, hok, h⟩)

/-- A negative index counts as the first one. -/
theorem ensureInit_max (t : Task) (env : Env) (audio startIndex : Int) :
    t.ensureInit media env audio startIndex = t.ensureInit media env audio (max startIndex 0) := by
  rw [ensureInit, ensureInit, max_eq_left (le_max_right startIndex 0)]

/-- **`EnsureInit`** under the condition. -/
theorem InStep.ensureInit {env : Env} (h : InStep media t) (hindex : 0 ≤ startIndex)
    (hsteady : validateSegmentIndex media startIndex = none → ¬ t.HasInit audio startIndex →
      SteadyInit media t audio startIndex env) :
    InStep media (t.ensureInit media env audio startIndex).1 := by
  obtain ⟨haudio, hlast, hhanded, -⟩ := changeAudio_cases t audio
  have hge := h.last
  have hprepares := @ensureInit_prepares_next media t audio startIndex env h.placed hindex
  have hserved : ∀ pair ∈ (t.changeAudio audio).handed, pair.2 = pair.1 := hhanded ▸ h.handed
  rw [Task.ensureInit, max_eq_left hindex]
  cases hvalid : validateSegmentIndex media startIndex with
  | some e => exact h
  | none =>
    dsimp only
    split
    · exact h
    · rename_i hinit
      have hsteady := (hsteady hvalid hinit).outcome hindex h.placed
      have hprepares := hprepares hinit
      dsimp only at hsteady
      generalize (t.changeAudio audio).runner.ensureInit media env audio startIndex = result
        at hsteady hprepares ⊢
      obtain ⟨r, e | done⟩ := result
      · -- an error leaves the number
        refine ⟨hlast ▸ hge, ?_, hserved⟩
        show Placed media (t.changeAudio audio).audio (t.changeAudio audio).lastSentSegment r
        rw [haudio, hlast]
        rcases hsteady with hnext | hfrozen | ⟨-, hok, -⟩
        · rcases hprepares (.inl hnext) with hfrozen | ⟨hmatch, hstands⟩
          · exact .frozen hfrozen
          · exact .stands (hnext ▸ hstands) hmatch
        · exact .frozen hfrozen
        · cases hok
      · -- the number moves only if no segment was sent
        have hlast' : (if 0 < startIndex ∧ t.lastSentSegment = -1 then startIndex - 1
            else t.lastSentSegment) ≥ -1 := by
          split <;> omega
        refine ⟨?_, ?_, hserved⟩
        · show -1 ≤ if 0 < startIndex ∧ (t.changeAudio audio).lastSentSegment = -1 then startIndex - 1
            else (t.changeAudio audio).lastSentSegment
          rw [hlast]
          exact hlast'
        · show Placed media (t.changeAudio audio).audio
            (if 0 < startIndex ∧ (t.changeAudio audio).lastSentSegment = -1 then startIndex - 1
              else (t.changeAudio audio).lastSentSegment) r
          rw [haudio, hlast]
          have hplaced : ∀ {last : Int}, startIndex = last + 1 →
              Prepares media audio startIndex startIndex (r, .ok done) → Placed media audio last r := by
            rintro last rfl ⟨hmatch, hstands | hholds⟩
            · exact .stands hstands hmatch
            · exact .ready hholds hmatch
          rcases hsteady with hnext | hfrozen | ⟨hnone, -, hmoves⟩
          · refine hplaced ?_ (hprepares (.inl hnext))
            split <;> omega
          · exact .frozen hfrozen
          · refine hplaced ?_ (hprepares (.inr hmoves))
            split <;> omega

/-! ## Runs -/

/-- The condition on a call. -/
def Steady (media : Media) (t : Task) : Call → Prop
  | .ensureInit audio startIndex env =>
    validateSegmentIndex media (max startIndex 0) = none → ¬ t.HasInit audio (max startIndex 0) →
      SteadyInit media t audio (max startIndex 0) env
  | .withSegment index audio env =>
    validateSegmentIndex media index = none → SteadySegment media t index audio env
  | .frozen => True
  | .freezeIfInactive _ => True

theorem InStep.freezeLocked (h : InStep media t) : InStep media t.freezeLocked := by
  obtain ⟨-, hlast, hhanded⟩ := freezeLocked_same t
  exact ⟨hlast ▸ h.last, .frozen (frozen_freezeLocked t), hhanded ▸ h.handed⟩

/-- **`WithSegment`** under the condition. -/
theorem InStep.withSegment (h : InStep media t)
    (hsteady : validateSegmentIndex media index = none → SteadySegment media t index audio env) :
    InStep media (t.withSegment media env index audio).1 := by
  rw [Task.withSegment]
  cases hvalid : validateSegmentIndex media index with
  | some e =>
    rw [segmentLocked, hvalid]
    exact h
  | none =>
    have hanswers := segmentLocked_answers h.last h.placed hvalid (hsteady hvalid)
    generalize t.segmentLocked media env index audio = result at hanswers ⊢
    obtain ⟨t₁, e | segment⟩ := result
    · exact ⟨hanswers.last, hanswers.track ▸ hanswers.placed, hanswers.handed ▸ h.handed⟩
    · have hplaced : Placed media t₁.audio t₁.lastSentSegment t₁.runner :=
        hanswers.track ▸ hanswers.placed
      dsimp only
      split
      · exact ⟨hanswers.last, hplaced, hanswers.handed ▸ h.handed⟩
      · refine ⟨hanswers.last, hplaced, fun pair hpair => ?_⟩
        rcases List.mem_append.mp hpair with hbefore | hthis
        · exact h.handed pair (hanswers.handed ▸ hbefore)
        · rw [List.mem_singleton.mp hthis]
          exact (hanswers.segment segment rfl).1

/-- **One call.** -/
theorem InStep.call {c : Call} (h : InStep media t) (hsteady : Steady media t c)
    (hcall : t.call media c = some t') : InStep media t' := by
  cases c with
  | ensureInit audio startIndex env =>
    cases hcall
    rw [ensureInit_max]
    exact h.ensureInit (le_max_right _ _) hsteady
  | withSegment index audio env =>
    cases hcall
    exact h.withSegment hsteady
  | frozen =>
    cases hcall
    exact h.freezeLocked
  | freezeIfInactive inactive =>
    cases hcall
    split
    · exact h.freezeLocked
    · exact h

theorem inStep_new (media : Media) (audio : Int) : InStep media (new media audio) :=
  ⟨Int.le_refl _, .unstarted ⟨rfl, rfl, rfl, fun h => absurd h (by simp [new])⟩ (fun _ => rfl) rfl,
    by simp [new]⟩

/-- **Every segment that is handed out is the one that was asked for**, in every run of steady calls. -/
theorem steady_run_hands_what_is_asked (audio : Int) (calls : List Call)
    (hsteady : Each (call media) (Steady media) (new media audio) calls) :
    Along (call media) (fun t => ∀ pair ∈ t.handed, pair.2 = pair.1) (new media audio) calls := by
  have hinstep : Along (call media) (InStep media) (new media audio) calls :=
    hsteady.along (fun _ _ _ h hok hcall => h.call hok hcall) (inStep_new media audio)
  exact hinstep.mono fun _ h => h.handed

instance (t : Task) (index audio : Int) : Decidable (Seeks media t index audio) :=
  inferInstanceAs (Decidable (_ ∨ _ ∨ _ ∨ _))

instance (startIndex : Int) (r : Runner) : Decidable (Moves media startIndex r) :=
  inferInstanceAs (Decidable (_ ∨ _ ∨ _))

instance (t : Task) : (c : Call) → Decidable (Steady media t c)
  | .ensureInit _ _ _ => inferInstanceAs (Decidable (_ → _ → _ ∨ _ ∨ _ ∨ _))
  | .withSegment _ _ _ => inferInstanceAs (Decidable (_ → (_ → _ ∨ _) ∧ (_ → _ → _)))
  | .frozen => .isTrue trivial
  | .freezeIfInactive _ => .isTrue trivial

/-! ## Runs of a film -/

namespace Film

/-- Six seconds to a segment, two audio tracks, no known duration. -/
def film : Media := ⟨6, 0, [1, 2], by decide⟩

/-- The pipeline works, and the initialization or a segment is there at once. -/
def init : Env := { rounds := [.sample true false] }

/-- The pipeline gives one segment. -/
def segment : Env := { rounds := [.sample false true] }

/-- The context is done before there is anything. -/
def gone : Env := { rounds := [.canceled] }

/-- A request for a segment. -/
def ask (index : Int) : Call :=
  .withSegment index 1 { last := segment, skipped := List.replicate 9 (false, segment) }

/-- From the middle, in order, again, a little ahead, after a pause, and on the other track. -/
def watch : List Call :=
  [.ensureInit 1 5 init, ask 5, ask 6, ask 6, ask 9, .freezeIfInactive true, .ensureInit 1 10 init, ask 10,
    .frozen, ask 3, .withSegment 4 2 { last := segment }]

end Film

/-- What a run has handed out. -/
def handedBy (media : Media) (t : Task) (calls : List Call) : List (Int × Int) :=
  ((run (call media) t calls).map handed).getD []

/-- The film as it is watched. -/
theorem watch_hands_what_is_asked :
    Along (call Film.film) (fun t => ∀ pair ∈ t.handed, pair.2 = pair.1) (new Film.film 1) Film.watch ∧
      handedBy Film.film (new Film.film 1) Film.watch
        = [(5, 5), (6, 6), (6, 6), (9, 9), (10, 10), (3, 3), (4, 4)] :=
  ⟨steady_run_hands_what_is_asked 1 Film.watch (by decide +kernel), by decide +kernel⟩

/-- Wrong segments: after a pause the initialization is fetched for a segment ahead, and those up to it are
skipped again; the segment before that of the initialization; and after requests that were given up, the next
segment, the last one again, or the first one. -/
theorem wake_and_skip_ahead :
    handedBy Film.film (new Film.film 1)
        [Film.ask 7, .frozen, .ensureInit 1 10 Film.init, Film.ask 10] = [(7, 7), (10, 12)] ∧
      handedBy Film.film (new Film.film 1) [.ensureInit 1 5 Film.init, Film.ask 4] = [(4, 5)] ∧
      handedBy Film.film (new Film.film 1)
        [Film.ask 3, .withSegment 100 1 { last := Film.gone }, Film.ask 4] = [(3, 3), (4, 100)] ∧
      handedBy Film.film (new Film.film 1)
        [Film.ask 3, .withSegment 4 1 { last := Film.gone }, Film.ask 3] = [(3, 3), (3, 4)] ∧
      handedBy Film.film (new Film.film 1) [.ensureInit 1 5 Film.gone, Film.ask 0] = [(0, 5)] := by
  decide +kernel

end Task

end TorrServer.Gstreamer
