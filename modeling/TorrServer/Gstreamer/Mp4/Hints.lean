/-
# Gstreamer.Mp4.Hints — guessed durations over whole runs.

`Reached` is every state a reader can be in: bytes come one by one, segments are attempted and released, targets
are set, the stream ends, a seek starts over. It carries a history: for each track the last fragment whose
`mdat` was completed, as it was parsed.

The last queued fragment of a track is that fragment, or what a cut of the audio left of it. Only in the first
case the next `moof` of the track corrects a guessed duration.
-/
import TorrServer.Gstreamer.Mp4.Retiming
import TorrServer.Gstreamer.Mp4.Standing

namespace TorrServer.Gstreamer.Mp4

open Lib List

/-! ## Runs with a history -/

/-- For each track, the fragment of the last complete `moof` and `mdat`, as it was parsed. -/
structure History where
  video : Option Fragment := none
  audio : Option Fragment := none

/-- The last fragment of a track. -/
def History.last (h : History) (kind : Kind) : Option Fragment := kind.pick h.video h.audio

/-- The history when a fragment of a track is complete. -/
def History.record (h : History) (f : Fragment) : Option Kind → History
  | some .video => { h with video := some f }
  | some .audio => { h with audio := some f }
  | none => h

/-- A step from `r` to `r'` completes the fragment that waits in `r`, if none waits in `r'`. -/
def History.next (h : History) (r r' : Reader) : History :=
  match r.pending, r'.pending with
  | some f, none => h.record f (kindOf r'.videoTrack r'.audioTrack f.trackID)
  | _, _ => h

/-- The queue of a track. -/
def Reader.queue (r : Reader) (kind : Kind) : List Fragment := kind.pick r.video r.audio

/-- The states of a reader over all its runs, with their history. -/
inductive Reached (cfg : Config) (clock : Clock) : History → Reader → Prop
  | fresh (timeline : Timeline) : Reached cfg clock {} { timeline := timeline }
  | feed {h : History} {r r' : Reader} {b : UInt8} {completed : Bool} (hr : Reached cfg clock h r)
      (hfeed : r.feed cfg b = .ok (r', completed)) : Reached cfg clock (h.next r r') r'
  | attempt {h : History} {r r' : Reader} {completed : Bool} (hr : Reached cfg clock h r)
      (hbuild : r.tryBuildSegment cfg = .ok (r', completed)) : Reached cfg clock h r'
  | release {h : History} {r : Reader} (hr : Reached cfg clock h r) :
      Reached cfg clock h r.reclaimPayloads
  | remainder {h : History} {r r' : Reader} {completed : Bool} (hr : Reached cfg clock h r)
      (hbuild : r.tryBuildEndOfStreamRemainder cfg = .ok (r', completed)) : Reached cfg clock h r'
  | target {h : History} {r r' : BoxReader} {startNS endNS toleranceNS : Nat}
      (hr : Reached cfg clock h r.reader)
      (htarget : r.setTargetSegment cfg startNS endNS toleranceNS = .ok r') :
      Reached cfg clock h r'.reader
  | offset {h : History} {r : BoxReader} (offsetNS : Nat) (hr : Reached cfg clock h r.reader) :
      Reached cfg clock h (r.setTimelineOffsetNS clock offsetNS).reader
  | seek {h : History} {r : BoxReader} (seconds : clock.Seconds) (hr : Reached cfg clock h r.reader) :
      Reached cfg clock {} (r.seekReset clock seconds).reader

/-- **Runs of calls are among them.** -/
theorem reached_of_calls {cfg : Config} {timeline : Timeline} {calls : List BoxReader.Call} {r : BoxReader}
    (clock : Clock) (hrun : run (BoxReader.call cfg) { reader := { timeline := timeline } } calls = some r) :
    ∃ h, Reached cfg clock h r.reader := by
  have hboxes : Reader.Kept cfg (fun _ => True) (Reader.AtBoxes fun _ _ _ _ => True) := by
    apply Reader.KeptByBoxes.kept
    constructor <;> intros <;> trivial
  have hkept : Reader.Kept cfg (fun _ => True) fun quiet s r =>
      Reader.AtBoxes (fun _ _ _ _ => True) quiet s r ∧ ∃ h, Reached cfg clock h r := by
    constructor
    · exact fun h => hboxes.expecting h.1
    · rintro s r r' b completed ⟨hat, h, hr⟩ hfeed
      exact ⟨hboxes.feed hat hfeed, _, hr.feed hfeed⟩
    · rintro quiet s r r' completed ⟨hat, h, hr⟩ hbuild
      exact ⟨hboxes.attempt hat hbuild, _, hr.attempt hbuild⟩
    · rintro quiet s r ⟨hat, h, hr⟩ hrelease
      exact ⟨hboxes.release hat hrelease, _, hr.release⟩
  have hstart : Reader.AtBoxes (fun _ _ _ _ => True) false [] { timeline := timeline } :=
    ⟨[], none, framing_start timeline, trivial⟩
  obtain ⟨-, -, hreached⟩ :=
    BoxReader.kept_run hkept ⟨hstart, {}, .fresh timeline⟩ (BoxReader.each_releases _ calls) hrun
  exact hreached

/-! ## What a byte does to the queues -/

namespace Reader

variable {cfg : Config} {r r' r₁ r₂ : Reader} {b : UInt8} {completed : Bool} {size headerSize : Nat}

/-- The queues and what waits are as before, and the tracks too once they are known. -/
structure KeepsQueues (r r' : Reader) : Prop where
  video : r'.video = r.video
  audio : r'.audio = r.audio
  pending : r'.pending = r.pending
  tracks : r.initDone = true →
    r'.videoTrack = r.videoTrack ∧ r'.audioTrack = r.audioTrack ∧ r'.initDone = true

theorem KeepsQueues.trans (h : KeepsQueues r r₁) (h' : KeepsQueues r₁ r₂) : KeepsQueues r r₂ := by
  refine ⟨h'.video.trans h.video, h'.audio.trans h.audio, h'.pending.trans h.pending, fun hinit => ?_⟩
  obtain ⟨hv, ha, hdone⟩ := h.tracks hinit
  obtain ⟨hv', ha', hdone'⟩ := h'.tracks hdone
  exact ⟨hv'.trans hv, ha'.trans ha, hdone'⟩

theorem BeginsMedia.keepsQueues (h : BeginsMedia r size headerSize r') : KeepsQueues r r' := by
  obtain ⟨-, -, -, -, -, -, -, rfl⟩ := h.eq
  exact ⟨rfl, rfl, rfl, fun hinit => ⟨rfl, rfl, hinit⟩⟩

theorem Begins.keepsQueues (h : Begins r size headerSize r') : KeepsQueues r r' := by
  cases h with
  | init => exact ⟨rfl, rfl, rfl, fun hinit => ⟨rfl, rfl, hinit⟩⟩
  | first hinit _ _ hmedia =>
    have h := hmedia.keepsQueues
    exact ⟨h.video, h.audio, h.pending, fun hdone => absurd (hinit.symm.trans hdone) (by simp)⟩
  | media _ hmedia =>
    have h := hmedia.keepsQueues
    exact ⟨h.video, h.audio, h.pending, h.tracks⟩

/-- Nothing waits while a `moof` is being read, and the tracks are known. -/
def MoofAlone (r : Reader) : Prop := r.currentBoxType = boxMoof → r.pending = none ∧ r.initDone = true

/-- The same for a box whose header is complete. -/
def OpenAlone (r : Reader) : Prop := r.boxHeaderRequired ≤ r.boxHeader.length → r.MoofAlone

theorem BeginsMedia.moofAlone (h : BeginsMedia r size headerSize r') (hinit : r.initDone = true) :
    r'.MoofAlone := by
  intro hmoof
  have hplace := h.samePlace.currentBoxType
  rw [hmoof] at hplace
  cases h with
  | moof _ hpending => exact ⟨hpending, hinit⟩
  | mdat htype => exact absurd (hplace.trans htype) (by decide)
  | sidx htype => exact absurd (hplace.trans htype) (by decide)
  | styp htype => exact absurd (hplace.trans htype) (by decide)
  | prefixBox htype =>
    rw [IsPrefixType, ← hplace] at htype
    exact absurd htype (by decide)
  | terminal htype =>
    rw [← hplace] at htype
    exact absurd htype (by decide)

theorem Begins.moofAlone (h : Begins r size headerSize r') : r'.MoofAlone := by
  cases h with
  | init _ _ hmoof _ => exact fun htype => absurd htype hmoof
  | first _ _ _ hmedia => exact hmedia.moofAlone rfl
  | media hinit hmedia => exact hmedia.moofAlone hinit

/-- What a byte can do to the queues: nothing, or what the completion of a box does. -/
inductive Feeds (cfg : Config) (r : Reader) (completed : Bool) : Reader → Prop
  | keeps {r' : Reader} (hkeeps : KeepsQueues r r') (hopen : r'.OpenAlone) : Feeds cfg r completed r'
  | completes {r₁ r₂ : Reader} (hkeeps : KeepsQueues r r₁) (halone : r₁.MoofAlone)
      (hcompletes : Completes cfg r₁ r₂ completed) : Feeds cfg r completed r₂.resetBoxState

theorem feeds_of_finish (hkeeps : KeepsQueues r r₁) (halone : r₁.MoofAlone)
    (h : r₁.finishBox cfg = .ok (r', completed)) : Feeds cfg r completed r' := by
  rw [finishBox] at h
  split at h
  · simp only [bind_eq_ok, Prod.exists, pure_eq_ok, Prod.mk.injEq] at h
    obtain ⟨r₂, completed', hcomplete, rfl, rfl⟩ := h
    exact .completes hkeeps halone (completeBox_cases hcomplete)
  · cases h
    exact .keeps hkeeps fun _ => halone

/-- **A byte** goes to a buffer or completes a box. -/
theorem feed_feeds (hopen : r.OpenAlone) (hfeed : r.feed cfg b = .ok (r', completed)) :
    Feeds cfg r completed r' := by
  have hsame : ∀ (header : Bytes) (required boxType : Nat), KeepsQueues r
      { r with boxHeader := header, boxHeaderRequired := required, currentBoxType := boxType } :=
    fun _ _ _ => ⟨rfl, rfl, rfl, fun hinit => ⟨rfl, rfl, hinit⟩⟩
  rcases byteStep_cases hfeed with ⟨henters, rfl⟩ | ⟨r₁, henters, hfinish⟩
  · cases henters with
    | more hmore =>
      refine .keeps (hsame _ _ _) fun hle => ?_
      have hlen : r.boxHeaderRequired ≤ (r.boxHeader ++ [b]).length := hle
      rw [length_append, length_singleton] at hlen
      omega
    | wide _ hlen =>
      refine .keeps (hsame _ _ _) fun hle => ?_
      have hlong : 16 ≤ (r.boxHeader ++ [b]).length := hle
      rw [length_append, length_singleton] at hlong
      omega
  · cases henters with
    | short _ _ _ hbegin =>
      obtain ⟨-, -, hbegins⟩ := beginBox_cases hbegin
      exact feeds_of_finish ((hsame _ _ _).trans hbegins.keepsQueues) hbegins.moofAlone hfinish
    | long _ _ hbegin =>
      obtain ⟨-, -, hbegins⟩ := beginBox_cases hbegin
      exact feeds_of_finish ((hsame _ _ _).trans hbegins.keepsQueues) hbegins.moofAlone hfinish
    | body hfull =>
      have hkeeps : KeepsQueues r (r.writeByte b) := ⟨rfl, rfl, rfl, fun hinit => ⟨rfl, rfl, hinit⟩⟩
      exact feeds_of_finish hkeeps (hopen hfull) hfinish

end Reader

/-! ## What is left of the last fragment -/

/-- The duration of the last sample is a guess. -/
def Fragment.EndsGuessed (f : Fragment) : Prop :=
  ∃ run, f.runs.getLast? = some run ∧ run.hasInferredDuration = true

/-- `f` is what is queued of `origin`: all of it, or the rest behind a cut, which has no mark. -/
structure Stems (origin f : Fragment) : Prop where
  mark_eq : origin.hasInferredDuration = origin.runs.any Run.hasInferredDuration
  kept : f.samples.length = origin.samples.length ∧
      f.hasInferredDuration = origin.hasInferredDuration ∨
    f.samples.length < origin.samples.length ∧ f.hasInferredDuration = false

/-- What a step can leave of the last fragment of a queue. -/
inductive Leaves (f : Fragment) : Fragment → Prop
  | all : Leaves f f
  | moved (start : Nat) : Leaves f { f with payloadStart := start }
  | rest {l r : Fragment} {n : Nat} (hsplit : splitFragmentAtSample f n = .ok (l, r)) : Leaves f r

theorem Stems.leaves {origin f f' : Fragment} (h : Stems origin f) (hleaves : Leaves f f') :
    Stems origin f' := by
  cases hleaves with
  | all => exact h
  | moved start => exact ⟨h.mark_eq, h.kept⟩
  | rest hsplit =>
    have hdivides := splitFragmentAtSample_divides hsplit
    have hlen := congrArg List.length hdivides.samples_eq
    rw [length_append, hdivides.count] at hlen
    have hinside := hdivides.inside
    obtain ⟨s, -, -, -, -, -, -, -, hright⟩ := splitFragmentAtSample_eq_ok hsplit
    have hmark : f'.hasInferredDuration = false := by
      rw [hright]
      rfl
    refine ⟨h.mark_eq, .inr ⟨?_, hmark⟩⟩
    rcases h.kept with ⟨hkept, -⟩ | ⟨hkept, -⟩ <;> omega

/-- The last fragment of `q'` is what a step left of the last fragment of `q`. -/
def LastLeft (q q' : List Fragment) : Prop :=
  ∀ f', q'.getLast? = some f' → ∃ f, q.getLast? = some f ∧ Leaves f f'

theorem LastLeft.refl (q : List Fragment) : LastLeft q q := fun f' h => ⟨f', h, .all⟩

theorem LastLeft.drop (q : List Fragment) (n : Nat) : LastLeft q (q.drop n) := by
  intro f' h
  rw [getLast?_drop] at h
  split at h
  · cases h
  · exact ⟨f', h, .all⟩

theorem LastLeft.nil (q : List Fragment) : LastLeft q [] := by
  intro f' h
  cases h

theorem LastLeft.shift (q : List Fragment) (delta : Nat) :
    LastLeft q (q.map (Reader.shiftFragmentPayloadStarts delta)) := by
  intro f' h
  rw [getLast?_map, Option.map_eq_some_iff] at h
  obtain ⟨f, hf, rfl⟩ := h
  refine ⟨f, hf, ?_⟩
  rw [Reader.shiftFragmentPayloadStarts]
  split
  · exact .moved _
  · exact .all

theorem LastLeft.cons {f : Fragment} {rest q : List Fragment} (h : LastLeft rest q) :
    LastLeft (f :: rest) q := by
  intro f' hf'
  obtain ⟨g, hg, hleaves⟩ := h f' hf'
  cases rest with
  | nil => cases hg
  | cons x rest =>
    refine ⟨g, ?_, hleaves⟩
    rw [getLast?_cons_cons]
    exact hg

/-- What a segment leaves of the audio. -/
theorem LastLeft.of_select {videoTimescale videoEnd n : Nat} {audio audio' : List Fragment} (hn : n ≠ 0)
    (h : selectAudioCount videoTimescale videoEnd audio = .ok (audio', n)) :
    LastLeft audio (audio'.drop n) := by
  rw [selectAudioCount_eq_ok_iff] at h
  induction h with
  | nothing => exact absurd rfl hn
  | @further f rest rest' split count hfind hrest ih =>
    have hcount : count ≠ 0 := fun hzero => hn (if_pos hzero)
    rw [if_neg hcount, drop_succ_cons]
    exact (ih hcount).cons
  | @inside f left right rest split total hfind hpos htotal hlt hsplit =>
    cases rest with
    | nil =>
      intro f' hf'
      cases hf'
      exact ⟨f, rfl, .rest hsplit⟩
    | cons x rest =>
      -- the last fragment is behind the cut one
      refine LastLeft.cons fun f' hf' => ⟨f', ?_, .all⟩
      rw [drop_succ_cons, drop_zero, getLast?_cons_cons] at hf'
      exact hf'
  | @atEnd f rest => exact (LastLeft.refl rest).cons

/-! ## The invariant -/

/-- The history is that of the last queued fragments, unless the next one is on its way. -/
structure Remembers (h : History) (r : Reader) : Prop where
  before : r.initDone = false → r.video = [] ∧ r.audio = [] ∧ r.pending = none
  waits : ∀ g, r.pending = some g → ∃ moof videoHint audioHint,
    parseSourceMoof moof r.videoTrack r.audioTrack videoHint audioHint = .ok g
  last : ∀ kind f, (r.queue kind).getLast? = some f →
    (∀ g, r.pending = some g → kindOf r.videoTrack r.audioTrack g.trackID ≠ some kind) →
      ∃ origin, h.last kind = some origin ∧ Stems origin f

/-- A step that leaves what waits and the tracks, and takes from the queues. -/
structure Thins (r r' : Reader) : Prop where
  pending : r'.pending = r.pending
  tracks : r'.videoTrack = r.videoTrack ∧ r'.audioTrack = r.audioTrack ∧ r'.initDone = r.initDone
  left : ∀ kind, LastLeft (r.queue kind) (r'.queue kind)

theorem lastLeft_nil {q : List Fragment} (h : LastLeft [] q) : q = [] := by
  cases hlast : q.getLast? with
  | none => exact getLast?_eq_none_iff.mp hlast
  | some f =>
    obtain ⟨g, hg, -⟩ := h f hlast
    cases hg

theorem Remembers.thins {h : History} {r r' : Reader} (hr : Remembers h r) (hthins : Thins r r') :
    Remembers h r' := by
  obtain ⟨hvideo, haudio, hinit⟩ := hthins.tracks
  constructor
  · intro hdone
    rw [hinit] at hdone
    obtain ⟨hv, ha, hp⟩ := hr.before hdone
    have hv' := hthins.left .video
    have ha' := hthins.left .audio
    rw [show r.queue .video = [] from hv] at hv'
    rw [show r.queue .audio = [] from ha] at ha'
    exact ⟨lastLeft_nil hv', lastLeft_nil ha', hthins.pending.trans hp⟩
  · intro g hg
    rw [hvideo, haudio]
    exact hr.waits g (hthins.pending ▸ hg)
  · intro kind f' hf' hother
    obtain ⟨f, hf, hleaves⟩ := hthins.left kind f' hf'
    rw [hthins.pending, hvideo, haudio] at hother
    obtain ⟨origin, horigin, hstems⟩ := hr.last kind f hf hother
    exact ⟨origin, horigin, hstems.leaves hleaves⟩

theorem History.next_eq {h : History} {r r' : Reader} (hpending : r'.pending = r.pending) :
    h.next r r' = h := by
  rw [History.next, hpending]
  cases r.pending <;> rfl

theorem History.last_record (h : History) (f : Fragment) (kind : Kind) :
    (h.record f (some kind)).last kind = some f := by
  cases kind <;> rfl

theorem History.last_record_of_ne (h : History) (f : Fragment) {kind kind' : Kind} (hne : kind ≠ kind') :
    (h.record f (some kind')).last kind = h.last kind := by
  cases kind <;> cases kind' <;> first | rfl | exact absurd rfl hne

/-! ## Steps that take from the queues -/

namespace Reader

variable {cfg : Config} {r r' r₁ r₂ : Reader} {completed : Bool} {h : History}

theorem KeepsQueues.queue (hkeeps : KeepsQueues r r') (kind : Kind) : r'.queue kind = r.queue kind := by
  rw [Reader.queue, Reader.queue, hkeeps.video, hkeeps.audio]

theorem thins_of_attempt (hbuild : r.tryBuildSegment cfg = .ok (r', completed)) : Thins r r' := by
  cases tryBuildSegment_eq_ok_iff.mp hbuild with
  | nothing => exact ⟨rfl, ⟨rfl, rfl, rfl⟩, fun kind => .refl _⟩
  | emits n audio m segment _ _ htakes =>
    refine ⟨rfl, ⟨rfl, rfl, rfl⟩, fun kind => ?_⟩
    cases kind with
    | video => exact .drop r.video n
    | audio =>
      rw [TakesAudio] at htakes
      split at htakes
      · obtain ⟨rfl, rfl⟩ := htakes
        exact .drop r.audio 0
      · exact .of_select htakes.1 htakes.2

theorem thins_reclaimPayloads (hwaits : ∀ g, r.pending = some g → g.payloadLen = 0) :
    Thins r r.reclaimPayloads := by
  obtain ⟨delta, heq, -⟩ := r.exists_reclaimPayloads_eq
  rw [heq]
  refine ⟨?_, ⟨rfl, rfl, rfl⟩, fun kind => ?_⟩
  · show r.pending.map (shiftFragmentPayloadStarts delta) = r.pending
    cases hpending : r.pending with
    | none => rfl
    | some g => rw [Option.map_some, shiftFragmentPayloadStarts, hwaits g hpending, if_neg (by omega)]
  · cases kind with
    | video => exact .shift r.video delta
    | audio => exact .shift r.audio delta

/-- The end of the stream empties the queues, or leaves everything. -/
theorem thins_of_remainder (hbuild : r.tryBuildEndOfStreamRemainder cfg = .ok (r', completed)) :
    Thins r r' ∧ SamePlace r r' := by
  obtain ⟨-, rfl⟩ | ⟨-, -, audio, m, segment, -, -, rfl⟩ := remainder_cases hbuild
  · exact ⟨⟨rfl, ⟨rfl, rfl, rfl⟩, fun kind => .refl _⟩, ⟨rfl, rfl, rfl, rfl⟩⟩
  · refine ⟨⟨rfl, ⟨rfl, rfl, rfl⟩, fun kind => ?_⟩, ⟨rfl, rfl, rfl, rfl⟩⟩
    cases kind with
    | video => exact .drop r.video _
    | audio => exact .nil r.audio

/-! ## Steps that add to them -/

/-- What `completeMoof` does to the queues: the one of the new fragment's track is retimed. -/
theorem completeMoof_retimes (hmoof : r.completeMoof = .ok r') :
    ∃ g, r'.pending = some g ∧
      (∃ moof videoHint audioHint,
        parseSourceMoof moof r.videoTrack r.audioTrack videoHint audioHint = .ok g) ∧
      (r'.videoTrack = r.videoTrack ∧ r'.audioTrack = r.audioTrack ∧ r'.initDone = r.initDone) ∧
      ∀ kind, if kindOf r.videoTrack r.audioTrack g.trackID = some kind
        then ∃ hint, retimeQueue (r.queue kind) g.trackID g.decodeTime = .ok (r'.queue kind, hint)
        else r'.queue kind = r.queue kind := by
  simp only [completeMoof, bind_eq_ok, wrapError_eq_ok, pure_eq_ok] at hmoof
  obtain ⟨g, hparse, r₁, hresolve, rfl⟩ := hmoof
  obtain ⟨vh, vt, ah, at', hremember⟩ := rememberDuration_eq r₁ g
  rw [hremember]
  have hid := (parseSourceMoof_sound hparse).trackID_ne
  refine ⟨g, rfl, ⟨_, _, _, hparse⟩, ?_⟩
  rw [resolvePreviousInferredDuration] at hresolve
  split at hresolve
  · rename_i hvideo
    have hkind : kindOf r.videoTrack r.audioTrack g.trackID = some .video := if_pos hvideo
    simp only [bind_eq_ok, Prod.exists] at hresolve
    obtain ⟨video, hint, hretime, hresolve⟩ := hresolve
    rw [hkind]
    -- with and without a new hint: the queue of the track, and the other one
    cases hint <;> cases hresolve <;> refine ⟨⟨rfl, rfl, rfl⟩, fun kind => ?_⟩ <;> cases kind
    · rw [if_pos rfl]
      exact ⟨_, hretime⟩
    · rw [if_neg (by simp)]
      rfl
    · rw [if_pos rfl]
      exact ⟨_, hretime⟩
    · rw [if_neg (by simp)]
      rfl
  · rename_i hvideo
    split at hresolve
    · rename_i haudio
      have hne : r.audioTrack.id ≠ 0 := by
        intro hzero
        rw [hzero] at haudio
        exact hid haudio
      have hkind : kindOf r.videoTrack r.audioTrack g.trackID = some .audio := by
        rw [kindOf, if_neg hvideo, if_pos ⟨hne, haudio⟩]
      simp only [bind_eq_ok, Prod.exists] at hresolve
      obtain ⟨audio, hint, hretime, hresolve⟩ := hresolve
      rw [hkind]
      cases hint <;> cases hresolve <;> refine ⟨⟨rfl, rfl, rfl⟩, fun kind => ?_⟩ <;> cases kind
      · rw [if_neg (by simp)]
        rfl
      · rw [if_pos rfl]
        exact ⟨_, hretime⟩
      · rw [if_neg (by simp)]
        rfl
      · rw [if_pos rfl]
        exact ⟨_, hretime⟩
    · rename_i haudio
      have hkind : kindOf r.videoTrack r.audioTrack g.trackID = none := by
        rw [kindOf, if_neg hvideo, if_neg fun h => haudio h.2]
      cases hresolve
      rw [hkind]
      refine ⟨⟨rfl, rfl, rfl⟩, fun kind => ?_⟩
      rw [if_neg (by simp)]
      rfl

theorem remembers_of_moof (hr : Remembers h r) (halone : r.pending = none ∧ r.initDone = true)
    (hmoof : r.completeMoof = .ok r') : Remembers h r' := by
  obtain ⟨g, hpending, hparse, ⟨hvideo, haudio, hinit⟩, hqueues⟩ := completeMoof_retimes hmoof
  constructor
  · intro hnot
    rw [hinit, halone.2] at hnot
    cases hnot
  · intro g' hg'
    rw [hpending] at hg'
    cases hg'
    rw [hvideo, haudio]
    exact hparse
  · intro kind f hf hother
    have hkind := hother g hpending
    have hqueue := hqueues kind
    rw [hvideo, haudio] at hkind
    rw [if_neg hkind] at hqueue
    rw [hqueue] at hf
    -- the queue of the other track is as it was
    refine hr.last kind f hf fun g' hg' => ?_
    rw [halone.1] at hg'
    cases hg'

theorem remembers_of_mdat {f : Fragment} (hr : Remembers h r) (hpending : r.pending = some f)
    (hmdat : r.completeMdat = .ok r') :
    Remembers (h.record f (kindOf r.videoTrack r.audioTrack f.trackID)) r' := by
  obtain ⟨f', g, kind, video, audio, hf', hattach, hkind, hqueues, rfl⟩ := completeMdat_cases hmdat
  rw [hpending] at hf'
  cases hf'
  obtain ⟨rfl, -⟩ := attachPayload_eq hattach
  obtain ⟨moof, videoHint, audioHint, hparse⟩ := hr.waits f hpending
  rw [show kindOf r.videoTrack r.audioTrack f.trackID = some kind from hkind]
  constructor
  · intro hdone
    have hnone := (hr.before hdone).2.2
    rw [hpending] at hnone
    cases hnone
  · intro g' hg'
    cases hg'
  · intro kind' f₁ hlast _
    replace hlast : (kind'.pick video audio).getLast? = some f₁ := hlast
    rw [hqueues kind'] at hlast
    by_cases hsame : kind' = kind
    · -- the new fragment is the last one of its track
      subst hsame
      rw [if_pos rfl, getLast?_concat] at hlast
      cases hlast
      refine ⟨f, History.last_record h f kind', (parseSourceMoof_unattached hparse).2, .inl ⟨?_, rfl⟩⟩
      exact congrArg List.length (setOffsets_samples 0 f.runs)
    · rw [if_neg hsame, append_nil] at hlast
      rw [History.last_record_of_ne h f hsame]
      refine hr.last kind' f₁ hlast fun g' hg' => ?_
      rw [hpending] at hg'
      cases hg'
      rw [show kindOf r.videoTrack r.audioTrack f.trackID = some kind from hkind]
      exact fun heq => hsame (Option.some.inj heq).symm

theorem remembers_of_keeps (hr : Remembers h r) (hkeeps : KeepsQueues r r') : Remembers h r' := by
  by_cases hdone : r.initDone = true
  · obtain ⟨hvideo, haudio, hinit⟩ := hkeeps.tracks hdone
    refine hr.thins ⟨hkeeps.pending, ⟨hvideo, haudio, hinit.trans hdone.symm⟩, fun kind => ?_⟩
    rw [hkeeps.queue kind]
    exact .refl _
  · -- before the tracks are known there is nothing to remember
    obtain ⟨hv, ha, hp⟩ := hr.before (Bool.eq_false_iff.mpr hdone)
    refine ⟨fun _ => ⟨hkeeps.video.trans hv, hkeeps.audio.trans ha, hkeeps.pending.trans hp⟩,
      fun g hg => ?_, fun kind f hf _ => ?_⟩
    · rw [hkeeps.pending, hp] at hg
      cases hg
    · rw [hkeeps.queue kind, queue, hv, ha] at hf
      cases kind <;> cases hf

theorem remembers_of_same (hr : Remembers h r₁) (hkeeps : KeepsQueues r r₁) (hthins : Thins r₁ r₂) :
    Remembers (h.next r r₂) r₂ := by
  rw [History.next_eq (hthins.pending.trans hkeeps.pending)]
  exact hr.thins hthins

/-- **A byte** keeps the history right. -/
theorem remembers_of_feeds (hr : Remembers h r) (hfeeds : Feeds cfg r completed r') :
    Remembers (h.next r r') r' := by
  cases hfeeds with
  | keeps hkeeps _ =>
    rw [History.next_eq hkeeps.pending]
    exact remembers_of_keeps hr hkeeps
  | @completes r₁ r₂ hkeeps halone hcompletes =>
    have hr₁ := remembers_of_keeps hr hkeeps
    cases hcompletes with
    | styp =>
      exact remembers_of_same hr₁ hkeeps ⟨rfl, ⟨rfl, rfl, rfl⟩, fun kind => .refl _⟩
    | other =>
      exact remembers_of_same hr₁ hkeeps ⟨rfl, ⟨rfl, rfl, rfl⟩, fun kind => .refl _⟩
    | moof htype hmoof =>
      obtain ⟨g, hpending, -⟩ := completeMoof_retimes hmoof
      have hnext : h.next r r₂.resetBoxState = h := by
        rw [History.next, show r₂.resetBoxState.pending = some g from hpending]
        cases r.pending <;> rfl
      rw [hnext]
      exact (remembers_of_moof hr₁ (halone htype) hmoof).thins
        ⟨rfl, ⟨rfl, rfl, rfl⟩, fun kind => .refl _⟩
    | @mdat r₃ _ _ htype hmdat hbuild =>
      obtain ⟨f, g, kind, video, audio, hpending, -, -, -, hr₃⟩ := completeMdat_cases hmdat
      have hthins := thins_of_attempt hbuild
      have hnext : h.next r r₂.resetBoxState
          = h.record f (kindOf r₁.videoTrack r₁.audioTrack f.trackID) := by
        have hnone : r₂.resetBoxState.pending = none := by
          show r₂.pending = none
          rw [hthins.pending, hr₃]
        have hsome : r.pending = some f := hkeeps.pending.symm.trans hpending
        have hvideo : r₂.resetBoxState.videoTrack = r₁.videoTrack := by
          show r₂.videoTrack = r₁.videoTrack
          rw [hthins.tracks.1, hr₃]
        have haudio : r₂.resetBoxState.audioTrack = r₁.audioTrack := by
          show r₂.audioTrack = r₁.audioTrack
          rw [hthins.tracks.2.1, hr₃]
        rw [History.next, hsome, hnone, hvideo, haudio]
      rw [hnext]
      exact ((remembers_of_mdat hr₁ hpending hmdat).thins hthins).thins
        ⟨rfl, ⟨rfl, rfl, rfl⟩, fun kind => .refl _⟩

end Reader

/-! ## Whole runs -/

section

variable {cfg : Config} {clock : Clock} {h : History} {r r' : Reader}

/-- A state in the same place with thinner queues. -/
theorem remembers_of_thins (hr : Remembers h r ∧ r.OpenAlone) (hthins : Thins r r')
    (hplace : Reader.SamePlace r r') : Remembers h r' ∧ r'.OpenAlone := by
  refine ⟨hr.1.thins hthins, fun hle htype => ?_⟩
  rw [hplace.boxHeader, hplace.boxHeaderRequired] at hle
  rw [hthins.pending, hthins.tracks.2.2]
  exact hr.2 hle (hplace.currentBoxType ▸ htype)

/-- A reader with nothing queued at the beginning of a stream. -/
theorem remembers_of_nothing (hvideo : r.video = []) (haudio : r.audio = []) (hpending : r.pending = none)
    (hheader : r.boxHeader = []) (hrequired : r.boxHeaderRequired = 8) :
    Remembers {} r ∧ r.OpenAlone := by
  refine ⟨⟨fun _ => ⟨hvideo, haudio, hpending⟩, fun g hg => ?_, fun kind f hf _ => ?_⟩, fun hle => ?_⟩
  · rw [hpending] at hg
    cases hg
  · rw [Reader.queue, hvideo, haudio] at hf
    cases kind <;> cases hf
  · rw [hheader, hrequired] at hle
    exact absurd hle (by decide)

/-- **In every state of every run** the history is that of the last queued fragments. -/
theorem Reached.remembers (hr : Reached cfg clock h r) : Remembers h r ∧ r.OpenAlone := by
  induction hr with
  | fresh timeline => exact remembers_of_nothing rfl rfl rfl rfl rfl
  | @feed h r r' b completed _ hfeed ih =>
    have hfeeds := Reader.feed_feeds ih.2 hfeed
    refine ⟨Reader.remembers_of_feeds ih.1 hfeeds, ?_⟩
    cases hfeeds with
    | keeps _ hopen => exact hopen
    | completes => exact fun hle => absurd hle (by simp [Reader.resetBoxState])
  | attempt _ hbuild ih =>
    exact remembers_of_thins ih (Reader.thins_of_attempt hbuild) (Reader.samePlace_of_attempt hbuild)
  | release _ ih =>
    have hthins := Reader.thins_reclaimPayloads fun g hg => by
      obtain ⟨moof, videoHint, audioHint, hparse⟩ := ih.1.waits g hg
      exact (parseSourceMoof_unattached hparse).1
    exact remembers_of_thins ih hthins (Reader.samePlace_reclaimPayloads _)
  | remainder _ hbuild ih =>
    obtain ⟨hthins, hplace⟩ := Reader.thins_of_remainder hbuild
    exact remembers_of_thins ih hthins hplace
  | target _ htarget ih =>
    rw [BoxReader.setTargetSegment] at htarget
    split at htarget
    · cases htarget
      exact ih
    · simp only [bind_eq_ok, require_eq_ok, pure_eq_ok] at htarget
      obtain ⟨-, -, rfl⟩ := htarget
      exact remembers_of_thins ih ⟨rfl, ⟨rfl, rfl, rfl⟩, fun kind => .refl _⟩ ⟨rfl, rfl, rfl, rfl⟩
  | offset offsetNS _ ih =>
    exact remembers_of_thins ih ⟨rfl, ⟨rfl, rfl, rfl⟩, fun kind => .refl _⟩ ⟨rfl, rfl, rfl, rfl⟩
  | seek seconds _ ih => exact remembers_of_nothing rfl rfl rfl rfl rfl

/-- What the retiming of a queue does to its last fragment. -/
theorem retimeQueue_last {queue queue' : List Fragment} {f : Fragment} {trackID decodeTime : Nat}
    {hint : Option Nat} (htime : decodeTime < 2 ^ 64)
    (hretime : retimeQueue (queue ++ [f]) trackID decodeTime = .ok (queue', hint)) :
    ∃ f', queue' = queue ++ [f'] ∧
      if f.hasInferredDuration then f'.endTime = decodeTime else f' = f := by
  rw [retimeQueue, getLast?_concat] at hretime
  dsimp only at hretime
  cases hmark : f.hasInferredDuration with
  | false =>
    rw [hmark, if_pos rfl] at hretime
    cases hretime
    exact ⟨f, rfl, rfl⟩
  | true =>
    rw [hmark, if_neg (by simp)] at hretime
    simp only [bind_eq_ok, Prod.exists, pure_eq_ok, Prod.mk.injEq, dropLast_concat] at hretime
    obtain ⟨f', exactDuration, hf', rfl, -⟩ := hretime
    obtain ⟨before, after, run, samples, s, hretimes⟩ := retimeFragment_retimes hf'
    exact ⟨f', rfl, hretimes.endTime_eq htime⟩

/-- **A guessed duration is corrected exactly while the fragment is whole.** The queued fragment ends at the new
`tfdt` if nothing was cut off it, and otherwise where it ended before. -/
theorem Reached.guess_corrected_iff {b : UInt8} {completed : Bool} {kind : Kind} {queue : List Fragment}
    {f g origin : Fragment} (hr : Reached cfg clock h r) (hfeed : r.feed cfg b = .ok (r', completed))
    (hnone : r.pending = none) (hmoof : r'.pending = some g)
    (hkind : kindOf r'.videoTrack r'.audioTrack g.trackID = some kind)
    (hqueue : r.queue kind = queue ++ [f]) (horigin : h.last kind = some origin)
    (hguess : origin.EndsGuessed) :
    ∃ f', r'.queue kind = queue ++ [f'] ∧
      (f'.endTime = g.decodeTime ↔
        f.samples.length = origin.samples.length ∨ f.endTime = g.decodeTime) := by
  obtain ⟨hremembers, hopen⟩ := hr.remembers
  obtain ⟨origin', horigin', hstems⟩ := hremembers.last kind f
    (by rw [hqueue, getLast?_concat]) fun g' hg' => by
      rw [hnone] at hg'
      cases hg'
  rw [horigin] at horigin'
  cases horigin'
  have hmark : origin.hasInferredDuration = true := by
    obtain ⟨run, hrun, hinferred⟩ := hguess
    rw [hstems.mark_eq, any_eq_true]
    exact ⟨run, mem_of_getLast? hrun, hinferred⟩
  -- the byte completed a `moof`
  cases Reader.feed_feeds hopen hfeed with
  | keeps hkeeps _ =>
    rw [hkeeps.pending, hnone] at hmoof
    cases hmoof
  | @completes r₁ r₂ hkeeps _ hcompletes =>
    have hnone₁ := hkeeps.pending.trans hnone
    cases hcompletes with
    | styp => exact absurd (hnone₁.symm.trans hmoof) (by simp)
    | other => exact absurd (hnone₁.symm.trans hmoof) (by simp)
    | mdat htype hmdat hbuild =>
      obtain ⟨f₀, _, _, _, _, hpending, -⟩ := Reader.completeMdat_cases hmdat
      rw [hnone₁] at hpending
      cases hpending
    | moof htype hcomplete =>
      obtain ⟨g', hg', ⟨moof, videoHint, audioHint, hparse⟩, ⟨hvideo, haudio, -⟩, hqueues⟩ :=
        Reader.completeMoof_retimes hcomplete
      cases hg'.symm.trans hmoof
      have hthis := hqueues kind
      rw [show kindOf r₁.videoTrack r₁.audioTrack g.trackID = some kind by
        rw [← hvideo, ← haudio]; exact hkind, if_pos rfl, hkeeps.queue kind, hqueue] at hthis
      obtain ⟨hint, hretime⟩ := hthis
      obtain ⟨f', hf', hend⟩ := retimeQueue_last (parseSourceMoof_sound hparse).decodeTime_lt hretime
      refine ⟨f', hf', ?_⟩
      rcases hstems.kept with ⟨hlen, hkept⟩ | ⟨hlen, hkept⟩
      · rw [hkept, hmark, if_pos rfl] at hend
        exact ⟨fun _ => .inl hlen, fun _ => hend⟩
      · rw [hkept, if_neg Bool.false_ne_true] at hend
        rw [hend]
        exact ⟨fun h => .inr h, fun h => h.resolve_left (by omega)⟩

end

/-! ## A run with a guess -/

namespace Guess

/-- A `moof` with one sample of the given duration. -/
def timed (id time duration flags : Nat) : Bytes :=
  box boxMoof (box boxTraf (buildCanonicalTfhd id 1 ++ writeTfdt time ++
    box boxTrun (put32 0x00000700 ++ put32 1 ++ put32 duration ++ put32 1 ++ put32 flags)))

/-- An audio `moof` with two samples and no durations. -/
def untimed (time : Nat) : Bytes :=
  box boxMoof (box boxTraf (buildCanonicalTfhd 2 1 ++ writeTfdt time ++
    box boxTrun (put32 0x00000200 ++ put32 2 ++ put32 1 ++ put32 1)))

/-- An `mdat` of the stream below. -/
def mdat (payload : Bytes) : Bytes := box boxMdat payload

/-- A second of audio, then two samples whose durations are guessed to be a second each. -/
def audio : Bytes :=
  BoxReader.Source.moov ++ timed 2 0 1000 0 ++ mdat [1] ++ untimed 1000 ++ mdat [2, 3]

/-- The next audio begins half a second before the second guess ends. -/
def next : Bytes := timed 2 2500 1000 0

/-- Segments of a second, without catching up. -/
def config : Config := BoxReader.Source.config

/-- Times without an offset. -/
def timeline : Timeline := ⟨fun _ => .ok 0, 0⟩

/-- A clock that stands still. -/
def clock : Clock := ⟨Unit, (), fun _ => false, fun _ => (), fun _ => timeline⟩

/-- Bytes with the history they leave. -/
def feedAll : History → Reader → Bytes → Option (History × Reader)
  | h, r, [] => some (h, r)
  | h, r, b :: data =>
    match r.feed config b with
    | .ok (r', _) => feedAll (h.next r r') r' data
    | .error _ => none

theorem reached_feedAll {h h' : History} {r r' : Reader} {data : Bytes} (hr : Reached config clock h r)
    (hfeed : feedAll h r data = some (h', r')) : Reached config clock h' r' := by
  induction data generalizing h r with
  | nil =>
    cases hfeed
    exact hr
  | cons b data ih =>
    rw [feedAll] at hfeed
    cases hbyte : r.feed config b with
    | error e =>
      rw [hbyte] at hfeed
      cases hfeed
    | ok p =>
      rw [hbyte] at hfeed
      exact ih (hr.feed hbyte) hfeed

/-- All but the last byte of the next `moof`. -/
def before : Option (History × Reader) :=
  feedAll {} { timeline := timeline } (audio ++ next.dropLast)

/-- The `tfdt`, and the samples of the queued fragment and of its origin. -/
def atLastByte (p : History × Reader) : Option (Nat × Option Kind × Nat × Nat × Bool) := do
  let (r', _) ← (p.2.feed config 0).toOption
  let g ← r'.pending
  let f ← p.2.audio.getLast?
  let origin ← p.1.audio
  let run ← origin.runs.getLast?
  if p.2.pending = none then
    return (g.decodeTime, kindOf r'.videoTrack r'.audioTrack g.trackID, f.samples.length,
      origin.samples.length, run.hasInferredDuration)
  else none

/-- Segments of a second of video each; the second one cuts the guessed fragment. -/
def calls : List BoxReader.Call :=
  [.push audio, .push (timed 1 0 1000 0 ++ mdat [9]), .push (timed 1 1000 1000 0 ++ mdat [9]),
    .push (timed 1 2000 1000 0 ++ mdat [9])]

/-- More audio, and video without a boundary at 3000. -/
def more : List BoxReader.Call :=
  [.push (mdat [4]), .push (timed 2 3500 1000 0 ++ mdat [5]), .push (timed 1 3000 1000 0x10000 ++ mdat [9])]

/-- The start and the end of the queued audio fragments. -/
def audioTimes (r : BoxReader) : List (Nat × Nat) :=
  r.reader.audio.map fun f => (f.decodeTime, f.endTime)

/-- The audio before and after the `moof` at 2500, its `tfdt`, and the error. -/
def cutRun : Option (List (Nat × Nat) × Option Nat × List (Nat × Nat) × String) := do
  let r ← Lib.run (BoxReader.call config) { reader := { timeline := timeline } } calls
  let r' ← (r.push config next).toOption
  let r'' ← Lib.run (BoxReader.call config) r' more
  match r''.push config (timed 1 4000 1000 0 ++ mdat [9]) with
  | .ok _ => none
  | .error failure =>
    if r.reader.pending = none then
      return (audioTimes r, r'.reader.pending.map Fragment.decodeTime, audioTimes r', failure.message)
    else none

end Guess

/-- Uncut, the guess is corrected. -/
theorem uncut_guess_corrected : ∃ h r r' g f', Reached Guess.config Guess.clock h r ∧
    r.feed Guess.config 0 = .ok r' ∧ r'.1.pending = some g ∧ g.decodeTime = 2500 ∧
    (r'.1.queue .audio).getLast? = some f' ∧ f'.endTime = g.decodeTime := by
  have hrun : Guess.before.bind Guess.atLastByte = some (2500, some .audio, 2, 2, true) := by decide +kernel
  obtain ⟨⟨h, r⟩, hbefore, hlast⟩ := Option.bind_eq_some_iff.mp hrun
  have hr : Reached Guess.config Guess.clock h r := Guess.reached_feedAll (.fresh _) hbefore
  simp only [Guess.atLastByte, Option.bind_eq_bind, Option.bind_eq_some_iff, Prod.exists] at hlast
  obtain ⟨r', completed, hfeed, g, hg, f, hf, origin, horigin, run, hlastRun, hlast⟩ := hlast
  split at hlast
  · rename_i hnone
    simp only [Option.pure_def, Option.some.injEq, Prod.mk.injEq] at hlast
    obtain ⟨htime, hkind, hlen, hlen', hinferred⟩ := hlast
    rw [toOption_eq_some] at hfeed
    have hqueue : r.queue .audio = r.audio.dropLast ++ [f] :=
      (dropLast_append_getLast? f hf).symm
    obtain ⟨f', hf', hiff⟩ := hr.guess_corrected_iff hfeed hnone hg hkind hqueue horigin
      ⟨run, hlastRun, hinferred⟩
    refine ⟨h, r, (r', completed), g, f', hr, hfeed, hg, htime, ?_, hiff.mpr (.inl (hlen.trans hlen'.symm))⟩
    rw [hf', getLast?_concat]
  · cases hlast

/-- **Cut, it is not.** The `moof` at 2500 leaves the second guessed sample at 2000 to 3000, and the next
segment that merges the fragments fails. -/
theorem cut_guess_not_corrected : ∃ r r' r'' failure,
    (parseSourceMoof (Guess.untimed 1000) { id := 1, timescale := 1000 } { id := 2, timescale := 1000 } 0
      1000).map (fun f => f.runs.map Run.hasInferredDuration) = .ok [true] ∧
    Lib.run (BoxReader.call Guess.config) { reader := { timeline := Guess.timeline } } Guess.calls
      = some r ∧ Guess.audioTimes r = [(2000, 3000)] ∧ r.reader.pending = none ∧
    r.push Guess.config Guess.next = .ok r' ∧ r'.reader.pending.map Fragment.decodeTime = some 2500 ∧
    Guess.audioTimes r' = [(2000, 3000)] ∧
    Lib.run (BoxReader.call Guess.config) r' Guess.more = some r'' ∧
    r''.push Guess.config (Guess.timed 1 4000 1000 0 ++ Guess.mdat [9]) = .error failure ∧
    failure.message = "track 2 fragments cannot be merged into one traf" := by
  have hrun : Guess.cutRun = some ([(2000, 3000)], some 2500, [(2000, 3000)],
      "track 2 fragments cannot be merged into one traf") := by
    decide +kernel
  simp only [Guess.cutRun, Option.bind_eq_bind, Option.bind_eq_some_iff] at hrun
  obtain ⟨r, hr, r', hr', r'', hr'', hrun⟩ := hrun
  split at hrun
  · cases hrun
  · rename_i failure hfailure
    split at hrun
    · rename_i hnone
      simp only [Option.pure_def, Option.some.injEq, Prod.mk.injEq] at hrun
      obtain ⟨htimes, htime, htimes', hmessage⟩ := hrun
      exact ⟨r, r', r'', failure, by decide +kernel, hr, htimes, hnone, toOption_eq_some.mp hr', htime,
        htimes', hr'', hfailure, hmessage⟩
    · cases hrun

end TorrServer.Gstreamer.Mp4
