/-
# Gstreamer.Cue — segments from the cues of a Matroska file.

`parseCueTimeline` collects the times of the cue points of the video track, sorts them and cuts the duration at
them. Of several elements of one kind inside of another the last one counts, whether it can be read or not, and
an element that does not end where its content ends is rejected as a whole (`HoldsTime`, `HoldsPosition`).
-/
import TorrServer.Lib.Sort
import TorrServer.Gstreamer.Ebml

namespace TorrServer.Gstreamer

open List

open Lib (Bytes)

/-! ## The model -/

/-- The IDs of the elements below `Cues`. -/
def cuePointID : Nat := 0xBB
def cueTimeID : Nat := 0xB3
def cueTrackPositionsID : Nat := 0xB7
def cueTrackID : Nat := 0xF7
def cueClusterPositionID : Nat := 0xF1

/-- More cue points than this are an error. -/
def maxMatroskaCuePoints : Nat := 1000000

/-- A segment between two cue times; `endNS` is its exclusive end. -/
structure CueSegment where
  startNS : Nat
  endNS : Nat
  deriving DecidableEq, Repr

/-- `DurationNS`, a difference of `uint64`s. -/
def CueSegment.durationNS (s : CueSegment) : Nat := wrapUint64 ((s.endNS : Int) - s.startNS)

/-- The segments of a file, with the unit of its times. -/
structure CueTimeline where
  segments : List CueSegment
  timestampScaleNS : Nat
  maxDurationNS : Nat
  deriving DecidableEq, Repr

section Model

variable (data : Bytes) (videoTrack timestampScaleNS durationNS : Nat)

/-- The body of `hasVideoCuePosition`: the track, and whether there is a cluster position. -/
def positionStep (s : Nat × Bool) (child : EbmlElement) : Option (Nat × Bool) :=
  if child.id = cueTrackID then some ((readEBMLUnsigned data child).getD 0, s.2)
  else if child.id = cueClusterPositionID then some (s.1, (readEBMLUnsigned data child).isSome)
  else some s

/-- Whether the positions name the video track and a cluster. -/
def hasVideoCuePosition (positions : EbmlElement) : Bool :=
  match overChildren data positions (positionStep data) (0, false) with
  | none => false
  | some (track, hasCluster) => track = videoTrack && hasCluster

/-- The body of `readVideoCueTime`: the time so far, and whether there is a position. -/
def timeStep (s : Option Nat × Bool) (child : EbmlElement) : Option (Option Nat × Bool) :=
  if child.id = cueTimeID then some (readEBMLUnsigned data child, s.2)
  else if child.id = cueTrackPositionsID ∧ hasVideoCuePosition data videoTrack child then some (s.1, true)
  else some s

/-- The time of a cue point with a position of the video. -/
def readVideoCueTime (point : EbmlElement) : Option Nat :=
  match overChildren data point (timeStep data videoTrack) (none, false) with
  | none => none
  | some (cueTime, hasPosition) => if hasPosition then cueTime else none

/-- The time of a cue point that is taken. -/
def cueTimeNS (point : EbmlElement) : Option Nat :=
  if point.id = cuePointID then
    match readVideoCueTime data videoTrack point with
    | none => none
    | some cueTime =>
      if cueTime ≤ (2 ^ 64 - 1) / timestampScaleNS then
        let timeNS := cueTime * timestampScaleNS % 2 ^ 64
        if timeNS < durationNS then some timeNS else none
      else none
  else none

/-- The body of the loop over the cue points. -/
def timesStep (times : List Nat) (point : EbmlElement) : Option (List Nat) :=
  match cueTimeNS data videoTrack timestampScaleNS durationNS point with
  | none => some times
  | some timeNS => if maxMatroskaCuePoints < (times ++ [timeNS]).length then none else some (times ++ [timeNS])

/-- The loop over the sorted times: the segments, and where the last one ends. -/
def cutStep (s : List CueSegment × Nat) (current : Nat) : List CueSegment × Nat :=
  if current ≤ s.2 then s else (s.1 ++ [⟨s.2, current⟩], current)

/-- The end of `parseCueTimeline`, from the sorted times on. -/
def cutTimeline (first : Nat) (later : List Nat) : Option CueTimeline :=
  let (segments, previous) := later.foldl cutStep ([], first)
  let segments := if previous < durationNS then segments ++ [⟨previous, durationNS⟩] else segments
  if segments.length = 0 then none
  else
    let maxDurationNS := segments.foldl (fun m segment => max m segment.durationNS) 0
    some { segments, timestampScaleNS, maxDurationNS }

/-- The timeline of a `Cues` element, from its video cue points. -/
def parseCueTimeline (cues : EbmlElement) : Option CueTimeline :=
  match overChildren data cues (timesStep data videoTrack timestampScaleNS durationNS) [] with
  | none => none
  | some times =>
    if times.length < 2 then none
    else
      match Lib.sortStable (fun a b => decide (a < b)) times with
      | [] => none
      | first :: later => cutTimeline timestampScaleNS durationNS first later

end Model

/-! ## What a cue point holds -/

section Holds

variable (data : Bytes)

/-- The number in the last of the elements of one kind. -/
def lastRead (id : Nat) (children : List EbmlElement) : Option Nat :=
  (children.filter (·.id = id)).getLast?.bind (readEBMLUnsigned data)

/-- A `CueTrackPositions` with a position in a cluster for the track. -/
def HoldsPosition (videoTrack : Nat) (positions : EbmlElement) : Prop :=
  ∃ children, Children data positions children ∧ (lastRead data cueTrackID children).getD 0 = videoTrack ∧
    (lastRead data cueClusterPositionID children).isSome = true

/-- A `CuePoint` with a time and a position for the track. -/
def HoldsTime (videoTrack : Nat) (point : EbmlElement) (cueTime : Nat) : Prop :=
  ∃ children, Children data point children ∧ lastRead data cueTimeID children = some cueTime ∧
    ∃ positions ∈ children, positions.id = cueTrackPositionsID ∧ HoldsPosition data videoTrack positions

/-- The time of a cue point is accepted: scaled it is a `uint64` and before the end. -/
def Accepted (videoTrack timestampScaleNS durationNS : Nat) (point : EbmlElement) (timeNS : Nat) : Prop :=
  point.id = cuePointID ∧ ∃ cueTime, HoldsTime data videoTrack point cueTime ∧
    timeNS = cueTime * timestampScaleNS ∧ timeNS < 2 ^ 64 ∧ timeNS < durationNS

end Holds

section Reading

variable {data : Bytes} {videoTrack timestampScaleNS durationNS : Nat}

theorem lastRead_concat (id : Nat) (children : List EbmlElement) (child : EbmlElement) :
    lastRead data id (children ++ [child]) =
      if child.id = id then readEBMLUnsigned data child else lastRead data id children := by
  unfold lastRead
  rw [filter_append]
  split
  · rename_i h
    simp [h]
  · rename_i h
    simp [h]

theorem foldlM_concat {σ α : Type} (f : σ → α → Option σ) (s : σ) (l : List α) (a : α) :
    (l ++ [a]).foldlM f s = (l.foldlM f s).bind (f · a) := by
  simp [foldlM_append]

theorem foldlM_positionStep (children : List EbmlElement) :
    children.foldlM (positionStep data) (0, false) =
      some ((lastRead data cueTrackID children).getD 0,
        (lastRead data cueClusterPositionID children).isSome) := by
  induction children using List.reverseRecOn with
  | nil => rfl
  | append_singleton children child ih =>
    rw [foldlM_concat, ih, lastRead_concat, lastRead_concat, Option.bind_some]
    unfold positionStep
    by_cases htrack : child.id = cueTrackID
    · have hne : child.id ≠ cueClusterPositionID := by
        rw [htrack]
        decide
      rw [if_pos htrack, if_pos htrack, if_neg hne]
    · rw [if_neg htrack, if_neg htrack]
      by_cases hcluster : child.id = cueClusterPositionID
      · rw [if_pos hcluster, if_pos hcluster]
      · rw [if_neg hcluster, if_neg hcluster]

theorem hasVideoCuePosition_iff (positions : EbmlElement) :
    hasVideoCuePosition data videoTrack positions = true ↔ HoldsPosition data videoTrack positions := by
  have hmatch : hasVideoCuePosition data videoTrack positions = true ↔
      ∃ s, overChildren data positions (positionStep data) (0, false) = some s ∧ s.1 = videoTrack ∧
        s.2 = true := by
    unfold hasVideoCuePosition
    cases overChildren data positions (positionStep data) (0, false) <;> simp
  rw [hmatch]
  exact exists_overChildren_iff foldlM_positionStep

theorem foldlM_timeStep (children : List EbmlElement) :
    children.foldlM (timeStep data videoTrack) (none, false) =
      some (lastRead data cueTimeID children, children.any fun child =>
        child.id = cueTrackPositionsID && hasVideoCuePosition data videoTrack child) := by
  induction children using List.reverseRecOn with
  | nil => rfl
  | append_singleton children child ih =>
    rw [foldlM_concat, ih, lastRead_concat, any_append, Option.bind_some]
    unfold timeStep
    by_cases htime : child.id = cueTimeID
    · have hne : child.id ≠ cueTrackPositionsID := by
        rw [htime]
        decide
      rw [if_pos htime, if_pos htime]
      simp [hne]
    · rw [if_neg htime, if_neg htime]
      by_cases hposition : child.id = cueTrackPositionsID ∧ hasVideoCuePosition data videoTrack child = true
      · rw [if_pos hposition]
        simp [hposition]
      · rw [if_neg hposition]
        have hfalse : (child.id = cueTrackPositionsID && hasVideoCuePosition data videoTrack child)
            = false := by
          simpa using hposition
        simp [hfalse]

theorem readVideoCueTime_eq_some_iff {point : EbmlElement} {cueTime : Nat} :
    readVideoCueTime data videoTrack point = some cueTime ↔ HoldsTime data videoTrack point cueTime := by
  have hmatch : readVideoCueTime data videoTrack point = some cueTime ↔
      ∃ s, overChildren data point (timeStep data videoTrack) (none, false) = some s ∧ s.1 = some cueTime ∧
        s.2 = true := by
    unfold readVideoCueTime
    cases overChildren data point (timeStep data videoTrack) (none, false) <;> simp [and_comm]
  rw [hmatch, exists_overChildren_iff foldlM_timeStep]
  simp only [any_eq_true, Bool.and_eq_true, decide_eq_true_eq, hasVideoCuePosition_iff]
  rfl

/-- **Which times are taken.** -/
theorem cueTimeNS_eq_some_iff (hscale : timestampScaleNS ≠ 0) {point : EbmlElement} {timeNS : Nat} :
    cueTimeNS data videoTrack timestampScaleNS durationNS point = some timeNS ↔
      Accepted data videoTrack timestampScaleNS durationNS point timeNS := by
  have hfits : ∀ cueTime, cueTime ≤ (2 ^ 64 - 1) / timestampScaleNS ↔ cueTime * timestampScaleNS < 2 ^ 64 := by
    intro cueTime
    rw [Nat.le_div_iff_mul_le (Nat.pos_of_ne_zero hscale)]
    omega
  unfold cueTimeNS Accepted
  simp only [← readVideoCueTime_eq_some_iff]
  by_cases hid : point.id = cuePointID
  · rw [if_pos hid]
    cases htime : readVideoCueTime data videoTrack point with
    | none => simp
    | some cueTime =>
      simp only [hfits, Option.some.injEq, hid, true_and, exists_eq_left']
      by_cases hfit : cueTime * timestampScaleNS < 2 ^ 64
      · rw [if_pos hfit, Nat.mod_eq_of_lt hfit]
        constructor
        · intro h
          split at h
          · cases h
            exact ⟨rfl, hfit, by assumption⟩
          · cases h
        · rintro ⟨rfl, -, hlt⟩
          rw [if_pos hlt]
      · rw [if_neg hfit]
        refine ⟨fun h => (nomatch h), ?_⟩
        rintro ⟨rfl, hlt, -⟩
        exact absurd hlt hfit
  · rw [if_neg hid]
    exact ⟨fun h => (nomatch h), fun h => absurd h.1 hid⟩

/-- The loop over the cue points keeps the times that are taken, up to a number. -/
theorem foldlM_timesStep (points : List EbmlElement) {times : List Nat} :
    points.foldlM (timesStep data videoTrack timestampScaleNS durationNS) [] = some times ↔
      times = points.filterMap (cueTimeNS data videoTrack timestampScaleNS durationNS) ∧
        times.length ≤ maxMatroskaCuePoints := by
  induction points using List.reverseRecOn generalizing times with
  | nil =>
    constructor
    · intro h
      cases h
      exact ⟨rfl, Nat.zero_le _⟩
    · rintro ⟨rfl, -⟩
      rfl
  | append_singleton points point ih =>
    rw [foldlM_concat, Option.bind_eq_some_iff, filterMap_append]
    unfold timesStep
    cases htime : cueTimeNS data videoTrack timestampScaleNS durationNS point with
    | none =>
      simp only [filterMap_cons, htime, filterMap_nil, append_nil, Option.some.injEq, exists_eq_right]
      exact ih
    | some timeNS =>
      simp only [filterMap_cons, htime, filterMap_nil]
      constructor
      · rintro ⟨before, hbefore, h⟩
        obtain ⟨rfl, -⟩ := ih.1 hbefore
        split at h
        · cases h
        · cases h
          exact ⟨rfl, by omega⟩
      · rintro ⟨rfl, hle⟩
        refine ⟨_, ih.2 ⟨rfl, ?_⟩, if_neg (by omega)⟩
        rw [length_append] at hle
        omega

end Reading

/-! ## The segments -/

/-- A segment as a range of times. -/
def CueSegment.range (s : CueSegment) : Nat × Nat := (s.startNS, s.endNS)

/-- The times at which the segments so far start, with the one at which the next starts. -/
def Starts (s : List CueSegment × Nat) (t : Nat) : Prop := t = s.2 ∨ ∃ segment ∈ s.1, segment.startNS = t

/-- The segments cut the time from the first of `times` to the end at these times. -/
structure CueTimeline.Cuts (timeline : CueTimeline) (times : List Nat) (durationNS : Nat) : Prop where
  nonempty : timeline.segments ≠ []
  tiles : ∃ first ∈ times, (∀ t ∈ times, first ≤ t) ∧
    Tiles (timeline.segments.map CueSegment.range) first durationNS
  boundaries : ∀ t, t ∈ times ↔ ∃ segment ∈ timeline.segments, segment.startNS = t
  widest : ∃ segment ∈ timeline.segments, segment.endNS - segment.startNS = timeline.maxDurationNS
  bounded : ∀ segment ∈ timeline.segments, segment.endNS - segment.startNS ≤ timeline.maxDurationNS

section Cutting

variable {segments : List CueSegment} {first previous durationNS : Nat}

theorem tiles_concat (h : Tiles (segments.map CueSegment.range) first previous) {stop : Nat}
    (hlt : previous < stop) :
    Tiles ((segments ++ [(⟨previous, stop⟩ : CueSegment)]).map CueSegment.range) first stop := by
  rw [map_append]
  exact h.append ⟨rfl, hlt, rfl⟩

theorem starts_cutStep {s : List CueSegment × Nat} {current : Nat} (h : s.2 ≤ current) (t : Nat) :
    Starts (cutStep s current) t ↔ Starts s t ∨ t = current := by
  unfold cutStep Starts
  by_cases hle : current ≤ s.2
  · have heq : current = s.2 := Nat.le_antisymm hle h
    rw [if_pos hle, heq]
    constructor
    · exact .inl
    · rintro (hstarts | rfl)
      · exact hstarts
      · exact .inl rfl
  · rw [if_neg hle]
    simp only [mem_append, mem_singleton]
    constructor
    · rintro (rfl | ⟨segment, hmem | rfl, hstart⟩)
      · exact .inr rfl
      · exact .inl (.inr ⟨segment, hmem, hstart⟩)
      · exact .inl (.inl hstart.symm)
    · rintro ((rfl | ⟨segment, hmem, hstart⟩) | rfl)
      · exact .inr ⟨⟨s.2, current⟩, .inr rfl, rfl⟩
      · exact .inr ⟨segment, .inl hmem, hstart⟩
      · exact .inl rfl

theorem cutStep_snd {s : List CueSegment × Nat} {current : Nat} (h : s.2 ≤ current) :
    (cutStep s current).2 = current := by
  unfold cutStep
  split
  · rename_i hle
    exact Nat.le_antisymm h hle
  · rfl

/-- The segments reach the last of the sorted times and start at all of them. -/
theorem foldl_cutStep {later : List Nat} {s : List CueSegment × Nat} (hsorted : (s.2 :: later).Pairwise (· ≤ ·))
    (htiles : Tiles (s.1.map CueSegment.range) first s.2) :
    Tiles ((later.foldl cutStep s).1.map CueSegment.range) first (later.foldl cutStep s).2 ∧
      (∀ t, Starts (later.foldl cutStep s) t ↔ Starts s t ∨ t ∈ later) ∧
      (later.foldl cutStep s).2 ∈ s.2 :: later := by
  induction later generalizing s with
  | nil => exact ⟨htiles, fun t => by simp, mem_cons_self⟩
  | cons current later ih =>
    obtain ⟨hnext, hrest⟩ := pairwise_cons.1 hsorted
    have hle := hnext current mem_cons_self
    have htiles' : Tiles ((cutStep s current).1.map CueSegment.range) first (cutStep s current).2 := by
      unfold cutStep
      split
      · exact htiles
      · rename_i hgt
        exact tiles_concat htiles (Nat.lt_of_not_le hgt)
    rw [foldl_cons]
    obtain ⟨hcut, hstarts, hlast⟩ := ih (by rw [cutStep_snd hle]; exact hrest) htiles'
    refine ⟨hcut, fun t => ?_, ?_⟩
    · rw [hstarts t, starts_cutStep hle, mem_cons, or_assoc]
    · rw [cutStep_snd hle] at hlast
      exact mem_cons_of_mem _ hlast

/-- The widths of non-empty segments below `2 ^ 64` do not wrap. -/
theorem durationNS_eq {segment : CueSegment} (h : segment.startNS < segment.endNS)
    (hend : segment.endNS < 2 ^ 64) :
    segment.durationNS = segment.endNS - segment.startNS := by
  unfold CueSegment.durationNS wrapUint64
  rw [Int.emod_eq_of_lt (by omega) (by omega)]
  omega

theorem Tiles.mem {l : List (Nat × Nat)} {start stop : Nat} (h : Tiles l start stop) {range : Nat × Nat}
    (hmem : range ∈ l) : range.1 < range.2 ∧ range.2 ≤ stop := by
  have hle : ∀ {l : List (Nat × Nat)} {start : Nat}, Tiles l start stop → start ≤ stop := by
    intro l
    induction l with
    | nil => exact fun h => le_of_eq h
    | cons range rest ih =>
      intro start h
      have hrest := ih h.2.2
      have hstart := h.1
      have hwidth := h.2.1
      omega
  induction l generalizing start with
  | nil => cases hmem
  | cons first rest ih =>
    rcases mem_cons.1 hmem with rfl | hmem
    · exact ⟨h.2.1, hle h.2.2⟩
    · exact ih h.2.2 hmem

theorem foldl_max {α : Type} (f : α → Nat) (l : List α) (m : Nat) :
    (∀ a ∈ l, f a ≤ l.foldl (fun m a => max m (f a)) m) ∧ m ≤ l.foldl (fun m a => max m (f a)) m ∧
      (l.foldl (fun m a => max m (f a)) m = m ∨ ∃ a ∈ l, f a = l.foldl (fun m a => max m (f a)) m) := by
  induction l generalizing m with
  | nil => exact ⟨fun _ h => (nomatch h), le_refl m, .inl rfl⟩
  | cons a l ih =>
    obtain ⟨hall, hle, hattained⟩ := ih (max m (f a))
    rw [foldl_cons]
    refine ⟨?_, (le_max_left _ _).trans hle, ?_⟩
    · intro b hb
      rcases mem_cons.1 hb with rfl | hb
      · exact (le_max_right _ _).trans hle
      · exact hall b hb
    · rcases hattained with heq | ⟨b, hb, heq⟩
      · rcases max_choice m (f a) with hmax | hmax
        · exact .inl (heq.trans hmax)
        · exact .inr ⟨a, mem_cons_self, (heq.trans hmax).symm⟩
      · exact .inr ⟨b, mem_cons_of_mem _ hb, heq⟩

/-- Sorted times before the end give a timeline that cuts at them. -/
theorem cutTimeline_cuts {timestampScaleNS : Nat} {later : List Nat}
    (hsorted : (first :: later).Pairwise (· ≤ ·))
    (hbefore : ∀ t ∈ first :: later, t < durationNS) (hduration : durationNS < 2 ^ 64) :
    ∃ timeline, cutTimeline timestampScaleNS durationNS first later = some timeline ∧
      timeline.timestampScaleNS = timestampScaleNS ∧ timeline.Cuts (first :: later) durationNS := by
  obtain ⟨htiles, hstarts, hlast⟩ := @foldl_cutStep first later ([], first) hsorted rfl
  generalize hfold : later.foldl cutStep ([], first) = cut at htiles hstarts hlast
  obtain ⟨segments, previous⟩ := cut
  have hprevious : previous < durationNS := hbefore previous hlast
  have htiles' := tiles_concat htiles hprevious
  generalize hsegments : segments ++ [(⟨previous, durationNS⟩ : CueSegment)] = all at htiles'
  have hwidth : ∀ segment ∈ all, segment.durationNS = segment.endNS - segment.startNS := by
    intro segment hsegment
    obtain ⟨hlt, hle⟩ := htiles'.mem (mem_map_of_mem hsegment)
    exact durationNS_eq hlt (Nat.lt_of_le_of_lt hle hduration)
  have hne : all ≠ [] := by
    rw [← hsegments]
    simp
  have hcut : cutTimeline timestampScaleNS durationNS first later =
      some ⟨all, timestampScaleNS, all.foldl (fun m segment => max m segment.durationNS) 0⟩ := by
    unfold cutTimeline
    rw [hfold]
    simp only [if_pos hprevious, hsegments]
    exact if_neg fun h => hne (length_eq_zero_iff.1 h)
  obtain ⟨hall, -, hattained⟩ := foldl_max CueSegment.durationNS all 0
  refine ⟨_, hcut, rfl, hne, ⟨first, mem_cons_self, ?_, htiles'⟩, fun t => ?_, ?_, ?_⟩
  · intro t ht
    rcases mem_cons.1 ht with rfl | ht
    · exact le_refl t
    · exact (pairwise_cons.1 hsorted).1 t ht
  · -- the last segment starts where the loop has got to
    have hstart : t ∈ first :: later ↔ Starts (segments, previous) t := by
      rw [hstarts t, mem_cons]
      simp [Starts]
    rw [hstart, ← hsegments]
    unfold Starts
    simp only [mem_append, mem_singleton]
    constructor
    · rintro (rfl | ⟨segment, hmem, heq⟩)
      · exact ⟨_, .inr rfl, rfl⟩
      · exact ⟨segment, .inl hmem, heq⟩
    · rintro ⟨segment, hmem | rfl, heq⟩
      · exact .inr ⟨segment, hmem, heq⟩
      · exact .inl heq.symm
  · rcases hattained with hzero | ⟨segment, hmem, heq⟩
    · -- no width is zero
      obtain ⟨segment, hmem⟩ := exists_mem_of_ne_nil all hne
      have hle := hall segment hmem
      rw [hzero, hwidth segment hmem] at hle
      have hlt := (htiles'.mem (mem_map_of_mem hmem)).1
      have hlt : segment.startNS < segment.endNS := hlt
      omega
    · exact ⟨segment, hmem, (hwidth segment hmem).symm.trans heq⟩
  · intro segment hmem
    rw [← hwidth segment hmem]
    exact hall segment hmem

end Cutting

/-- Only which times there are counts, not their order. -/
theorem CueTimeline.Cuts.of_perm {timeline : CueTimeline} {times times' : List Nat} {durationNS : Nat}
    (h : timeline.Cuts times durationNS) (hperm : times.Perm times') : timeline.Cuts times' durationNS where
  nonempty := h.nonempty
  tiles := by
    obtain ⟨first, hmem, hle, htiles⟩ := h.tiles
    exact ⟨first, hperm.mem_iff.1 hmem, fun t ht => hle t (hperm.mem_iff.2 ht), htiles⟩
  boundaries := fun t => hperm.mem_iff.symm.trans (h.boundaries t)
  widest := h.widest
  bounded := h.bounded

section Parsing

variable {data : Bytes} {videoTrack timestampScaleNS durationNS : Nat}

theorem exists_cutTimeline {times : List Nat} (hlen : 2 ≤ times.length) (hbefore : ∀ t ∈ times, t < durationNS)
    (hduration : durationNS < 2 ^ 64) :
    ∃ first later, Lib.sortStable (fun a b => decide (a < b)) times = first :: later ∧
      ∃ timeline, cutTimeline timestampScaleNS durationNS first later = some timeline ∧
        timeline.timestampScaleNS = timestampScaleNS ∧ timeline.Cuts times durationNS := by
  have hperm := Lib.perm_sortStable (fun a b => decide (a < b)) times
  have hless : ∀ a ∈ times, ∀ b ∈ times, decide (a < b) = true ↔ id a < id b := by simp
  have hsorted := Lib.sorted_sortStable id hless
  cases hsort : Lib.sortStable (fun a b => decide (a < b)) times with
  | nil =>
    have hzero := hperm.length_eq
    rw [hsort, length_nil] at hzero
    omega
  | cons first later =>
    rw [hsort] at hperm hsorted
    obtain ⟨timeline, hcut, hscale, hcuts⟩ := cutTimeline_cuts hsorted
      (fun t ht => hbefore t (hperm.mem_iff.1 ht)) hduration
    exact ⟨first, later, rfl, timeline, hcut, hscale, hcuts.of_perm hperm⟩

end Parsing

/-- **`parseCueTimeline`** succeeds exactly if the cues are well formed with two to a million accepted times,
and cuts the duration at these. -/
theorem parseCueTimeline_cuts (data : Bytes) (cues : EbmlElement) (videoTrack timestampScaleNS durationNS : Nat)
    (hscale : timestampScaleNS ≠ 0) (hduration : durationNS < 2 ^ 64) :
    let times := fun points : List EbmlElement =>
      points.filterMap (cueTimeNS data videoTrack timestampScaleNS durationNS)
    ((∃ timeline, parseCueTimeline data videoTrack timestampScaleNS durationNS cues = some timeline) ↔
      ∃ points, Children data cues points ∧ 2 ≤ (times points).length ∧
        (times points).length ≤ maxMatroskaCuePoints) ∧
    ∀ timeline, parseCueTimeline data videoTrack timestampScaleNS durationNS cues = some timeline →
      ∃ points, Children data cues points ∧ timeline.timestampScaleNS = timestampScaleNS ∧
        timeline.Cuts (times points) durationNS ∧
        ∀ t, t ∈ times points ↔
          ∃ point ∈ points, Accepted data videoTrack timestampScaleNS durationNS point t := by
  intro times
  have hmem : ∀ points t, t ∈ times points ↔
      ∃ point ∈ points, Accepted data videoTrack timestampScaleNS durationNS point t := by
    intro points t
    simp only [times, mem_filterMap, cueTimeNS_eq_some_iff hscale]
  have hbefore : ∀ points, ∀ t ∈ times points, t < durationNS := by
    intro points t ht
    obtain ⟨point, -, -, cueTime, -, -, -, hlt⟩ := (hmem points t).1 ht
    exact hlt
  have hloop : ∀ found, overChildren data cues (timesStep data videoTrack timestampScaleNS durationNS) [] =
      some found ↔ ∃ points, Children data cues points ∧ found = times points ∧
        found.length ≤ maxMatroskaCuePoints := by
    intro found
    rw [overChildren_eq_some_iff]
    simp only [foldlM_timesStep, times]
  -- what the loop has found decides the rest
  have hparse : ∀ points, Children data cues points → (times points).length ≤ maxMatroskaCuePoints →
      2 ≤ (times points).length →
      ∃ timeline, parseCueTimeline data videoTrack timestampScaleNS durationNS cues = some timeline ∧
        timeline.timestampScaleNS = timestampScaleNS ∧ timeline.Cuts (times points) durationNS := by
    intro points hpoints hmax hmin
    obtain ⟨first, later, hsort, timeline, hcut, hkept, hcuts⟩ :=
      @exists_cutTimeline timestampScaleNS durationNS (times points) hmin (hbefore points) hduration
    refine ⟨timeline, ?_, hkept, hcuts⟩
    unfold parseCueTimeline
    rw [(hloop (times points)).2 ⟨points, hpoints, rfl, hmax⟩]
    show (if (times points).length < 2 then none else _) = some timeline
    rw [if_neg (by omega), hsort]
    exact hcut
  have hfound : ∀ timeline, parseCueTimeline data videoTrack timestampScaleNS durationNS cues = some timeline →
      ∃ points, Children data cues points ∧ 2 ≤ (times points).length ∧
        (times points).length ≤ maxMatroskaCuePoints := by
    intro timeline h
    unfold parseCueTimeline at h
    split at h
    · cases h
    · rename_i found hover
      obtain ⟨points, hpoints, rfl, hmax⟩ := (hloop found).1 hover
      split at h
      · cases h
      · rename_i hmin
        exact ⟨points, hpoints, by omega, hmax⟩
  refine ⟨⟨?_, ?_⟩, ?_⟩
  · rintro ⟨timeline, h⟩
    exact hfound timeline h
  · rintro ⟨points, hpoints, hmin, hmax⟩
    obtain ⟨timeline, h, -⟩ := hparse points hpoints hmax hmin
    exact ⟨timeline, h⟩
  · intro timeline h
    obtain ⟨points, hpoints, hmin, hmax⟩ := hfound timeline h
    obtain ⟨timeline', h', hkept, hcuts⟩ := hparse points hpoints hmax hmin
    cases h.symm.trans h'
    exact ⟨points, hpoints, hkept, hcuts, hmem points⟩

/-- Two cue points of track 1: the first with the times 1 and 2, the second with the time 5. -/
def twoTimes : Bytes :=
  [0xBB, 0x8E, 0xB3, 0x81, 1, 0xB3, 0x81, 2, 0xB7, 0x86, 0xF7, 0x81, 1, 0xF1, 0x81, 0,
    0xBB, 0x8B, 0xB3, 0x81, 5, 0xB7, 0x86, 0xF7, 0x81, 1, 0xF1, 0x81, 0]

/-- The `Cues` element of the bytes above. -/
def twoTimesCues : EbmlElement :=
  { id := 0x1C53BB6B, offset := 0, dataOffset := 0, size := 29, unknownSize := false }

theorem parseCueTimeline_cuts_twoTimes :
    ∃ timeline points, parseCueTimeline twoTimes 1 1 10 twoTimesCues = some timeline ∧
      timeline.segments = [⟨2, 5⟩, ⟨5, 10⟩] ∧ timeline.maxDurationNS = 5 ∧
        Children twoTimes twoTimesCues points ∧
      ∀ segment ∈ timeline.segments, ∃ point ∈ points, Accepted twoTimes 1 1 10 point segment.startNS := by
  have hparse : parseCueTimeline twoTimes 1 1 10 twoTimesCues = some ⟨[⟨2, 5⟩, ⟨5, 10⟩], 1, 5⟩ := by
    decide +kernel
  obtain ⟨points, hpoints, -, hcuts, htimes⟩ :=
    (parseCueTimeline_cuts twoTimes twoTimesCues 1 1 10 (by decide) (by decide)).2 _ hparse
  refine ⟨_, points, hparse, rfl, rfl, hpoints, fun segment hmem => ?_⟩
  exact (htimes segment.startNS).1 ((hcuts.boundaries segment.startNS).2 ⟨segment, hmem, rfl⟩)

/-- A cue point with two times, the first with a position for the track: no segment starts there. -/
theorem parseCueTimeline_skips_first_time :
    ∃ timeline point time positions, parseCueTimeline twoTimes 1 1 10 twoTimesCues = some timeline ∧
      readEBMLElement twoTimes 0 = some point ∧ point.id = cuePointID ∧
      readEBMLElement twoTimes point.dataOffset = some time ∧ time.id = cueTimeID ∧
      readEBMLUnsigned twoTimes time = some 1 ∧
      readEBMLElement twoTimes 8 = some positions ∧ positions.id = cueTrackPositionsID ∧
      hasVideoCuePosition twoTimes 1 positions = true ∧ positions.endOffset = point.endOffset ∧
      ∀ segment ∈ timeline.segments, segment.startNS ≠ 1 := by
  refine ⟨⟨[⟨2, 5⟩, ⟨5, 10⟩], 1, 5⟩, ⟨0xBB, 0, 2, 14, false⟩, ⟨0xB3, 2, 4, 1, false⟩,
    ⟨0xB7, 8, 10, 6, false⟩, ?_⟩
  decide +kernel

end TorrServer.Gstreamer
