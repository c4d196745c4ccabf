/-
# Gstreamer.Mp4.EndOfStream — the verdict on the end of the stream.

At the end of the stream the runner drains the reader: it takes the segments that the deferred bytes still give,
then one of what is queued, and releases each. Only then does it ask `EndOfStreamError` whether the stream was
cut off. The drain keeps the header and the rest of an incomplete box, and the `moof` that waits; what else the
verdict looks at is empty after it (`Settled`).
-/
import TorrServer.Gstreamer.Mp4.Standing

namespace TorrServer.Gstreamer.Mp4

open Lib List

namespace Reader

variable {cfg : Config} {r r' : Reader} {completed quiet : Bool} {s : Bytes} {boxes : List Child}
  {cur : Option Child} {c : Child} {size headerSize : Nat}

/-! ## Nothing is left behind -/

/-- The queued video can be decoded from its beginning. -/
def SyncHead (r : Reader) : Prop := r.video.head?.map Fragment.startsWithSync ≠ some false

/-- After a failed attempt the queued video can be decoded; and with nothing queued the only payload is that of
the `mdat` under way. -/
structure Settled (quiet : Bool) (boxes : List Child) (cur : Option Child) (r : Reader) : Prop where
  standing : Standing boxes cur r
  sync : quiet = true → SyncHead r
  used : r.video = [] → r.audio = [] → r.currentTarget ≠ .payload → r.sourcePayload = []

/-- An attempt looks at the first sample. -/
theorem syncHead_of_attempt (hbuild : r.tryBuildSegment cfg = .ok (r', completed)) : SyncHead r := by
  simp only [tryBuildSegment, bind_eq_ok] at hbuild
  obtain ⟨count, hcount, -⟩ := hbuild
  rw [SyncHead]
  rw [selectVideoCount] at hcount
  split at hcount
  · rename_i hvideo
    simp [hvideo]
  · rename_i first rest hvideo
    simp only [bind_eq_ok, require_eq_ok] at hcount
    obtain ⟨-, hfirst, -⟩ := hcount
    simp [hvideo, hfirst]

theorem Settled.attempt (hmode : cfg.cueMode = false) (h : Settled quiet boxes cur r)
    (hbuild : r.tryBuildSegment cfg = .ok (r', completed)) : Settled (!completed) boxes cur r' := by
  have hstanding := h.standing.attempt hbuild
  cases completed with
  | false =>
    obtain ⟨rfl, -⟩ := tryBuildSegment_eq_false_iff.mp hbuild
    exact ⟨hstanding, fun _ => syncHead_of_attempt hbuild, h.used⟩
  | true =>
    exact ⟨hstanding, by simp, fun hvideo => absurd hvideo (video_ne_nil_of_segment hmode hbuild)⟩

theorem Settled.header (h : Settled true boxes none r) (header : Bytes) (required boxType : Nat) :
    Settled true boxes none
      { r with boxHeader := header, boxHeaderRequired := required, currentBoxType := boxType } :=
  ⟨h.standing.header _ _ _, h.sync, h.used⟩

theorem Settled.begins (h : Settled true boxes none r) (hheader : r.boxHeader = c.bytes)
    (htype : r.currentBoxType = c.boxType) (hlen : c.bytes.length = c.headerSize)
    (hsize : c.boxType = boxMdat → c.bytes.length + (size - headerSize) ≤ maxInt32)
    (hbegins : Begins r size headerSize r') : Settled true boxes (some c) r' := by
  have hidle := (h.standing.idle rfl).1
  have hstock := hbegins.sameStock hidle
  refine ⟨h.standing.begins hheader htype hlen hsize hbegins, fun _ => ?_, ?_⟩
  · rw [SyncHead, hstock.video]
    exact h.sync rfl
  · rw [hstock.video, hstock.audio, hstock.sourcePayload]
    exact fun hvideo haudio _ => h.used hvideo haudio (by simp [hidle])

theorem Settled.write (h : Settled true boxes (some c) r) (hpos : 0 < r.currentBoxRemaining) (b : UInt8) :
    Settled true boxes (some { c with bytes := c.bytes ++ [b] }) (r.writeByte b) := by
  by_cases htarget : r.currentTarget = .payload
  · exact ⟨h.standing.write hpos b, h.sync, fun _ _ hother => absurd htarget hother⟩
  · have hstock := sameStock_write htarget b
    refine ⟨h.standing.write hpos b, fun _ => ?_, ?_⟩
    · rw [SyncHead, hstock.video]
      exact h.sync rfl
    · rw [hstock.video, hstock.audio, hstock.sourcePayload]
      exact fun hvideo haudio _ => h.used hvideo haudio htarget

/-- A fragment that gets its durations starts with the same sample. -/
theorem head_sync_of_sameBytes {video video' : List Fragment} (h : List.Forall₂ SameBytes video video') :
    video'.head?.map Fragment.startsWithSync = video.head?.map Fragment.startsWithSync := by
  cases h with
  | nil => rfl
  | cons hfirst _ => simp [hfirst.startsWithSync]

theorem Settled.complete (hmode : cfg.cueMode = false) (h : Settled true boxes (some c) r)
    (htype : r.currentBoxType = c.boxType) (hcomplete : Completes cfg r r' completed) :
    Settled (!completed) (boxes ++ [c]) none r'.resetBoxState := by
  have hstanding := h.standing.complete htype hcomplete
  cases hcomplete with
  | styp hstyp =>
    rw [htype] at hstyp
    have htarget := h.standing.of_other (hstyp ▸ by decide) (hstyp ▸ by decide)
    exact ⟨hstanding, h.sync, fun hvideo haudio _ => h.used hvideo haudio htarget.2⟩
  | other hstyp hmoof hmdat =>
    rw [htype] at hmoof hmdat
    have htarget := h.standing.of_other hmoof hmdat
    exact ⟨hstanding, h.sync, fun hvideo haudio _ => h.used hvideo haudio htarget.2⟩
  | moof hmoof hmoofOk =>
    rw [htype] at hmoof
    obtain ⟨-, htarget, -, -⟩ := h.standing.of_moof hmoof
    obtain ⟨f, video, audio, fromMoof, vh, vt, ah, at', -, hvideo, haudio, rfl⟩ :=
      completeMoof_cases hmoofOk
    refine ⟨hstanding, fun _ => ?_, fun hvideoNil haudioNil _ => ?_⟩
    · show video.head?.map Fragment.startsWithSync ≠ some false
      rw [head_sync_of_sameBytes hvideo]
      exact h.sync rfl
    · -- the queues are as long as before
      obtain rfl : video = [] := hvideoNil
      obtain rfl : audio = [] := haudioNil
      exact h.used (forall₂_nil_right_iff.mp hvideo) (forall₂_nil_right_iff.mp haudio)
        (by simp [htarget])
  | mdat hmdat hmdatOk hbuild =>
    obtain ⟨f, g, kind, video, audio, -, -, -, hqueue, rfl⟩ := completeMdat_cases hmdatOk
    cases completed with
    | false =>
      obtain ⟨rfl, -⟩ := tryBuildSegment_eq_false_iff.mp hbuild
      have hsync : SyncHead _ := syncHead_of_attempt hbuild
      refine ⟨hstanding, fun _ => hsync, fun hvideo haudio _ => ?_⟩
      -- the new fragment is in one of the queues
      have hnil := hqueue kind
      have hboth : kind.pick video audio = [] := by
        cases kind
        · exact hvideo
        · exact haudio
      rw [hboth, if_pos rfl] at hnil
      simp at hnil
    | true =>
      have hvideo := video_ne_nil_of_segment hmode hbuild
      exact ⟨hstanding, by simp, fun hnil => absurd hnil hvideo⟩

theorem Settled.reclaimPayloads (h : Settled quiet boxes cur r) :
    Settled quiet boxes cur r.reclaimPayloads := by
  have hstanding := h.standing.reclaimPayloads
  obtain ⟨delta, heq, -⟩ := r.exists_reclaimPayloads_eq
  have hsync : Fragment.startsWithSync ∘ shiftFragmentPayloadStarts delta = Fragment.startsWithSync := by
    funext f
    rw [Function.comp_apply, shiftFragmentPayloadStarts]
    split <;> rfl
  rw [heq] at hstanding ⊢
  refine ⟨hstanding, fun hquiet => ?_, fun hvideo haudio htarget => ?_⟩
  · show (r.video.map (shiftFragmentPayloadStarts delta)).head?.map Fragment.startsWithSync ≠ _
    rw [head?_map, Option.map_map, hsync]
    exact h.sync hquiet
  · -- nothing is queued, so there was nothing to drop
    show r.sourcePayload.drop delta = []
    rw [h.used (map_eq_nil_iff.mp hvideo) (map_eq_nil_iff.mp haudio) htarget, drop_nil]

/-- **All the parts of a call keep it.** -/
theorem settled_kept (hmode : cfg.cueMode = false) : KeptByBoxes cfg (fun _ => True) Settled where
  header _ _ _ h := h.header _ _ _
  begins h hheader htype hlen hsize hbegins :=
    h.begins hheader htype hlen (fun hmdat => hsize (.inr hmdat)) hbegins
  write b h hpos := h.write hpos b
  complete h _ htype _ hcomplete := h.complete hmode htype hcomplete
  attempt h _ hbuild := h.attempt hmode hbuild
  release h _ := h.reclaimPayloads

/-! ## The remainder -/

/-- What the last segment takes, and what it does not touch. -/
structure TakesAll (r r' : Reader) : Prop where
  frame : Frame r r'
  place : SamePlace r r'
  video : r'.video = []
  audio : r'.audio = []
  queued : ¬ (r.video = [] ∧ r.audio = [])

theorem takesAll_of_remainder (hbuild : r.tryBuildEndOfStreamRemainder cfg = .ok (r', true)) :
    TakesAll r r' := by
  obtain ⟨h, -⟩ | ⟨-, hqueued, audio, m, segment, -, -, rfl⟩ := remainder_cases hbuild
  · cases h
  · exact ⟨⟨⟨rfl, rfl, rfl, rfl⟩, rfl, rfl, rfl, rfl, rfl, rfl, rfl⟩, ⟨rfl, rfl, rfl, rfl⟩, drop_length,
      rfl, hqueued⟩

/-- There is no remainder only if nothing is queued, or it cannot be decoded. -/
theorem of_no_remainder (hmode : cfg.cueMode = false)
    (hbuild : r.tryBuildEndOfStreamRemainder cfg = .ok (r', false)) :
    r' = r ∧ (r.video = [] ∧ r.audio = [] ∨ ¬ SyncHead r) := by
  rw [tryBuildEndOfStreamRemainder, if_neg (by simp [hmode])] at hbuild
  split at hbuild
  · cases hbuild
    exact ⟨rfl, .inl ‹_›⟩
  · split at hbuild
    · cases hbuild
      exact ⟨rfl, .inr (not_not_intro ‹_›)⟩
    · split at hbuild <;>
        simp only [bind_eq_ok, pure_eq_ok, Prod.mk.injEq, Bool.true_eq_false, and_false, exists_false]
          at hbuild

/-- **The remainder and its release.** -/
theorem Settled.remainder (h : Settled quiet boxes cur r)
    (hbuild : r.tryBuildEndOfStreamRemainder cfg = .ok (r', true)) :
    Settled true boxes cur r'.reclaimPayloads := by
  have htakes := takesAll_of_remainder hbuild
  have hdone : r.initDone = true := by
    by_contra hnot
    obtain ⟨-, -, hvideo, haudio, -⟩ := h.standing.init.before (by simpa using hnot)
    exact htakes.queued ⟨hvideo, haudio⟩
  have hstanding : Standing boxes cur r' :=
    h.standing.of_frame htakes.frame (h.standing.init.of_done hdone htakes.frame.toSameInit)
  have hmin : r'.minQueuedPayloadStart = none := by
    rw [minQueuedPayloadStart, htakes.video, htakes.audio, min?_eq_none_iff, map_eq_nil_iff, filter_eq_nil_iff]
    intro f hf
    rw [append_nil, nil_append, Option.mem_toList] at hf
    have hawaits := hstanding.awaits
    rw [Awaits, hf] at hawaits
    simp [hawaits.1]
  have hreclaimed := hstanding.reclaimPayloads
  obtain ⟨delta, heq, -, hall⟩ := r'.exists_reclaimPayloads_eq
  rw [heq] at hreclaimed ⊢
  exact ⟨hreclaimed, fun _ => by simp [SyncHead, dropPayload, htakes.video], fun _ _ _ => hall hmin⟩

/-! ## The rounds of the drain -/

/-- A byte adds at most one fragment to the video, and a segment takes at least one. -/
def VideoBelow (cap : Nat) (quiet : Bool) (s : Bytes) (r : Reader) : Prop :=
  r.Expecting ∧ r.video.length + (if quiet then 0 else 1) ≤ cap + s.length

theorem BeginsMedia.video (h : BeginsMedia r size headerSize r') : r'.video = r.video := by
  obtain ⟨-, -, -, -, -, -, -, rfl⟩ := h.eq
  rfl

theorem Begins.video (h : Begins r size headerSize r') : r'.video = r.video := by
  cases h with
  | init => rfl
  | first _ _ _ hmedia | media _ hmedia => exact hmedia.video

/-- A segment takes video. -/
theorem video_length_of_attempt (hbuild : r.tryBuildSegment cfg = .ok (r', completed)) :
    r'.video.length + (if completed then 1 else 0) ≤ r.video.length := by
  cases tryBuildSegment_eq_ok_iff.mp hbuild with
  | nothing => simp
  | emits n audio m segment hne _ _ hselects =>
    show (r.video.drop n).length + 1 ≤ r.video.length
    have hle : n ≤ r.video.length := hselects.video_le
    rw [length_drop]
    omega

/-- A box adds at most one fragment. -/
theorem video_length_of_complete (hcomplete : r.completeBox cfg = .ok (r', completed)) :
    r'.video.length + (if completed then 1 else 0) ≤ r.video.length + 1 := by
  cases completeBox_cases hcomplete with
  | styp => simp
  | other => simp
  | moof _ hmoof =>
    obtain ⟨f, video, audio, fromMoof, vh, vt, ah, at', -, hvideo, -, rfl⟩ := completeMoof_cases hmoof
    simp [hvideo.length_eq]
  | mdat _ hmdat hbuild =>
    obtain ⟨f, g, kind, video, audio, -, -, -, hqueue, rfl⟩ := completeMdat_cases hmdat
    have hadded : video.length ≤ r.video.length + 1 := by
      rw [show video = r.video ++ if Kind.video = kind then [g] else [] from hqueue .video]
      split <;> simp
    exact Nat.le_trans (video_length_of_attempt hbuild) hadded

theorem video_length_of_finish (hfinish : r.finishBox cfg = .ok (r', completed)) :
    r'.video.length + (if completed then 1 else 0) ≤ r.video.length + 1 := by
  rw [finishBox] at hfinish
  split at hfinish
  · simp only [bind_eq_ok, Prod.exists, pure_eq_ok, Prod.mk.injEq] at hfinish
    obtain ⟨r₁, completed, hcomplete, rfl, rfl⟩ := hfinish
    have hlength := video_length_of_complete hcomplete
    exact hlength
  · cases hfinish
    simp

theorem video_length_of_feed {b : UInt8} (hfeed : r.feed cfg b = .ok (r', completed)) :
    r'.video.length + (if completed then 1 else 0) ≤ r.video.length + 1 := by
  rcases byteStep_cases hfeed with ⟨henters, rfl⟩ | ⟨r₁, henters, hfinish⟩
  · cases henters <;> simp
  · have hvideo : r₁.video = r.video := by
      cases henters with
      | short _ _ _ hbegin => exact (beginBox_cases hbegin).2.2.video
      | long _ _ hbegin => exact (beginBox_cases hbegin).2.2.video
      | body => rfl
    rw [← hvideo]
    exact video_length_of_finish hfinish

theorem SamePlace.expecting (h : SamePlace r r') (hr : r.Expecting) : r'.Expecting := by
  rw [Expecting, h.boxHeader, h.boxHeaderRequired, h.currentBoxRemaining]
  exact hr

theorem video_length_reclaimPayloads (r : Reader) : r.reclaimPayloads.video.length = r.video.length := by
  obtain ⟨delta, heq, -⟩ := r.exists_reclaimPayloads_eq
  rw [heq]
  exact length_map _

/-- **The parts of a call keep the bound.** -/
theorem videoBelow_kept (cap : Nat) : Kept cfg (fun _ => True) (VideoBelow cap) := by
  refine ⟨fun h => h.1, ?_, ?_, ?_⟩
  · rintro s r r' b completed ⟨-, hle⟩ hfeed
    refine ⟨feed_expecting hfeed, ?_⟩
    have hlength := video_length_of_feed hfeed
    rw [length_append, length_singleton]
    cases completed <;> simp at hle hlength ⊢ <;> omega
  · rintro quiet s r r' completed ⟨hexpecting, hle⟩ hbuild
    refine ⟨(samePlace_of_attempt hbuild).expecting hexpecting, ?_⟩
    have hlength := video_length_of_attempt hbuild
    cases completed <;> simp at hlength ⊢ <;> omega
  · rintro quiet s r ⟨hexpecting, hle⟩ -
    refine ⟨r.samePlace_reclaimPayloads.expecting hexpecting, ?_⟩
    rw [video_length_reclaimPayloads]
    exact hle

end Reader

namespace BoxReader

open Reader

variable {cfg : Config} {r r' : BoxReader} {emitted quiet : Bool} {stream : Bytes}

/-! ## The drain -/

/-- `drainEndOfStream` before its verdict; the flag says whether a segment was emitted. -/
def drainRound (cfg : Config) (r : BoxReader) : Except Failure (BoxReader × Bool) := do
  let (r, completed) ← r.tryProcessDeferred cfg
  if completed then return (r, true)
  else
    let (reader, completed) ← failAt r.reader (r.reader.tryBuildEndOfStreamRemainder cfg)
    return ({ r with reader := reader }, completed)

/-- At most `rounds` calls of `drainEndOfStream` with releases; `none` if the last one still gave a segment. -/
def drain (cfg : Config) : Nat → BoxReader → Except Failure (Option BoxReader)
  | 0, _ => .ok none
  | rounds + 1, r => do
      let (r, emitted) ← r.drainRound cfg
      if emitted then drain cfg rounds r.releaseSegment else return some r

/-- The last round has found nothing queued and nothing deferred. -/
structure Drained (r : BoxReader) : Prop where
  deferred : r.deferred = []
  video : r.reader.video = []
  audio : r.reader.audio = []

/-- **A round** with the release of its segment. -/
theorem After.drainRound (hmode : cfg.cueMode = false) (h : After (AtBoxes Settled) quiet stream r)
    (hround : r.drainRound cfg = .ok (r', emitted)) :
    (emitted = true → ∃ quiet, After (AtBoxes Settled) quiet stream r'.releaseSegment) ∧
      (emitted = false → After (AtBoxes Settled) true stream r' ∧ Drained r') := by
  simp only [BoxReader.drainRound, bind_eq_ok, Prod.exists] at hround
  obtain ⟨r₁, completed, hdeferred, hround⟩ := hround
  obtain ⟨hafter, hempty⟩ := h.tryProcessDeferred (settled_kept hmode).kept hdeferred
  cases completed with
  | true =>
    cases hround
    obtain ⟨s, hs, hsettled⟩ := hafter
    exact ⟨fun _ => ⟨_, s, hs, (settled_kept hmode).kept.release hsettled trivial⟩, by simp⟩
  | false =>
    simp only [Bool.false_eq_true, if_false, bind_eq_ok, Prod.exists, failAt_eq_ok, pure_eq_ok,
      Prod.mk.injEq] at hround
    obtain ⟨reader, completed, hremainder, rfl, rfl⟩ := hround
    obtain ⟨s, hs, boxes, cur, hframing, hsettled⟩ := hafter
    cases completed with
    | true =>
      refine ⟨fun _ => ⟨true, s, hs, boxes, cur, ?_, hsettled.remainder hremainder⟩, by simp⟩
      exact (samePlace_reclaimPayloads reader).framing
        ((takesAll_of_remainder hremainder).place.framing hframing)
    | false =>
      obtain ⟨rfl, hnone⟩ := of_no_remainder hmode hremainder
      obtain ⟨hvideo, haudio⟩ := hnone.resolve_right fun hnot => hnot (hsettled.sync rfl)
      exact ⟨by simp, fun _ => ⟨⟨s, hs, boxes, cur, hframing, hsettled⟩, hempty rfl, hvideo, haudio⟩⟩

/-- **The whole drain**, by induction on the rounds. -/
theorem After.drain {rounds : Nat} (hmode : cfg.cueMode = false)
    (h : After (AtBoxes Settled) quiet stream r) (hdrain : drain cfg rounds r = .ok (some r')) :
    After (AtBoxes Settled) true stream r' ∧ Drained r' := by
  induction rounds generalizing quiet r with
  | zero => cases hdrain
  | succ rounds ih =>
    simp only [BoxReader.drain, bind_eq_ok, Prod.exists] at hdrain
    obtain ⟨r₁, emitted, hround, hdrain⟩ := hdrain
    obtain ⟨hnext, hdone⟩ := h.drainRound hmode hround
    cases emitted with
    | true =>
      obtain ⟨quiet, hreleased⟩ := hnext rfl
      exact ih hreleased hdrain
    | false =>
      cases hdrain
      exact hdone rfl

theorem Drained.drainRound (h : Drained r) : r.drainRound cfg = .ok (r, false) := by
  obtain ⟨reader, deferred⟩ := r
  obtain rfl : deferred = [] := h.deferred
  have hbuild : reader.tryBuildSegment cfg = .ok (reader, false) := by
    rw [tryBuildSegment, selectVideoCount, show reader.video = [] from h.video]
    rfl
  have hremainder : reader.tryBuildEndOfStreamRemainder cfg = .ok (reader, false) := by
    rw [tryBuildEndOfStreamRemainder]
    split
    · rfl
    · rw [if_pos ⟨h.video, h.audio⟩]
  have hdeferred : tryProcessDeferred cfg ⟨reader, []⟩ = .ok (⟨reader, []⟩, false) := by
    simp [tryProcessDeferred, hbuild, failAt, pure, Except.pure]
  rw [BoxReader.drainRound, hdeferred, ok_bind]
  simp [hremainder, failAt, pure, Except.pure]

theorem Drained.releaseSegment (h : Drained r) : Drained r.releaseSegment := by
  obtain ⟨delta, heq, -⟩ := r.reader.exists_reclaimPayloads_eq
  refine ⟨h.deferred, ?_, ?_⟩
  · show r.reader.reclaimPayloads.video = []
    rw [heq]
    exact map_eq_nil_iff.mpr h.video
  · show r.reader.reclaimPayloads.audio = []
    rw [heq]
    exact map_eq_nil_iff.mpr h.audio

/-- A call that gives a segment takes a fragment or a deferred byte; others take all deferred bytes. -/
theorem tryProcessDeferred_progress {completed : Bool} (h : r.reader.Expecting)
    (hdeferred : r.tryProcessDeferred cfg = .ok (r', completed)) :
    r'.reader.Expecting ∧
      (completed = true →
        r'.reader.video.length + r'.deferred.length < r.reader.video.length + r.deferred.length) ∧
      (completed = false → r'.deferred = []) := by
  have hstart : After (VideoBelow r.reader.video.length) true r.deferred r :=
    ⟨[], rfl, h, Nat.le_refl _⟩
  obtain ⟨⟨s, hs, hexpecting, hle⟩, hempty⟩ := hstart.tryProcessDeferred (videoBelow_kept _) hdeferred
  refine ⟨hexpecting, fun hcompleted => ?_, hempty⟩
  have hlen := congrArg List.length hs
  rw [length_append] at hlen
  simp only [hcompleted, Bool.not_true, Bool.false_eq_true, if_false] at hle
  omega

/-- **A round that gives a segment** takes a fragment or a deferred byte, or all that is queued. -/
theorem drainRound_progress (h : r.reader.Expecting) (hround : r.drainRound cfg = .ok (r', true)) :
    r'.reader.Expecting ∧ (Drained r' ∨
      r'.reader.video.length + r'.deferred.length < r.reader.video.length + r.deferred.length) := by
  simp only [BoxReader.drainRound, bind_eq_ok, Prod.exists] at hround
  obtain ⟨r₁, completed, hdeferred, hround⟩ := hround
  obtain ⟨hexpecting, hless, hempty⟩ := tryProcessDeferred_progress h hdeferred
  cases completed with
  | true =>
    cases hround
    exact ⟨hexpecting, .inr (hless rfl)⟩
  | false =>
    simp only [Bool.false_eq_true, if_false, bind_eq_ok, Prod.exists, failAt_eq_ok, pure_eq_ok,
      Prod.mk.injEq] at hround
    obtain ⟨reader, completed, hremainder, rfl, rfl⟩ := hround
    have htakes := takesAll_of_remainder hremainder
    exact ⟨htakes.place.expecting hexpecting, .inl ⟨hempty rfl, htakes.video, htakes.audio⟩⟩

/-- **The drain ends** at most two rounds after all fragments of video and deferred bytes. -/
theorem drain_ends {n : Nat} (h : r.reader.Expecting)
    (hlt : r.reader.video.length + r.deferred.length < n) : drain cfg (n + 1) r ≠ .ok none := by
  induction n generalizing r with
  | zero => omega
  | succ n ih =>
    intro hdrain
    rw [BoxReader.drain] at hdrain
    simp only [bind_eq_ok, Prod.exists] at hdrain
    obtain ⟨r₁, emitted, hround, hdrain⟩ := hdrain
    cases emitted with
    | false => cases hdrain
    | true =>
      rw [if_pos rfl] at hdrain
      obtain ⟨hexpecting, hdrained | hless⟩ := drainRound_progress h hround
      · rw [BoxReader.drain, hdrained.releaseSegment.drainRound, ok_bind] at hdrain
        cases hdrain
      · refine ih (r₁.reader.samePlace_reclaimPayloads.expecting hexpecting) ?_ hdrain
        show r₁.reader.reclaimPayloads.video.length + r₁.deferred.length < n
        rw [video_length_reclaimPayloads]
        omega

/-! ## The verdict -/

/-- The stream ends where a box ends, and no `moof` waits for its `mdat`. -/
def Complete (stream : Bytes) : Prop :=
  boxBytes (topBoxes stream) = stream ∧ (pairing (topBoxes stream)).moof = none

/-- There is no error if nothing is left. -/
theorem endOfStreamError_eq_none_iff : r.endOfStreamError = none ↔
    r.reader.boxHeader = [] ∧ r.reader.currentBoxRemaining = 0 ∧ r.reader.pending = none ∧
      r.reader.sourcePayload = [] ∧ r.reader.sourceMoof = [] ∧ r.deferred = [] := by
  simp only [endOfStreamError]
  constructor
  · intro h
    split at h
    · cases h
    split at h
    · cases h
    split at h
    · cases h
    split at h
    · cases h
    split at h
    · cases h
    split at h
    · cases h
    simp only [ne_eq, not_not] at *
    exact ⟨‹_›, ‹_›, ‹_›, ‹_›, ‹_›, ‹_›⟩
  · rintro ⟨hheader, hremaining, hpending, hpayload, hmoof, hdeferred⟩
    simp [hheader, hremaining, hpending, hpayload, hmoof, hdeferred]

/-- What waits is a `moof` of the stream without its `mdat`. -/
theorem pending_eq_none_iff {boxes : List Child} {cur : Option Child} {reader : Reader}
    (h : Standing boxes cur reader) : reader.pending = none ↔ (pairing boxes).moof = none := by
  have hawaits := h.awaits
  rw [Awaits] at hawaits
  cases hpending : reader.pending with
  | none => simpa [hpending] using hawaits
  | some f =>
    rw [hpending] at hawaits
    obtain ⟨-, moof, -, -, hmoof, -⟩ := hawaits
    simp [hmoof]

theorem ne_boxBytes_of_body {s : Bytes} {boxes : List Child} {c : Child} {reader : Reader}
    (h : Framing s boxes (some c) reader) : boxBytes boxes ≠ s := by
  obtain ⟨rfl, hbody, -⟩ := h.place
  have hheader := hbody.opens.header_le
  have height := hbody.opens.eight_le
  intro hbytes
  have hlen := congrArg List.length hbytes
  rw [length_append] at hlen
  omega

/-- The reader is between two boxes if the stream is. -/
theorem boxHeader_eq_nil_iff {s : Bytes} {boxes : List Child} {cur : Option Child} {reader : Reader}
    (h : Framing s boxes cur reader) : reader.boxHeader = [] ↔ boxBytes boxes = s := by
  cases cur with
  | none =>
    obtain ⟨part, rfl, hheader⟩ := h.place
    rw [hheader.header]
    simp
  | some c =>
    obtain ⟨-, hbody, -⟩ := h.place
    have height := hbody.opens.eight_le
    have hlen := hbody.header_eq
    refine ⟨fun hnil => ?_, fun hbytes => absurd hbytes (ne_boxBytes_of_body h)⟩
    rw [hnil, length_nil] at hlen
    omega

/-- Where nothing is queued or deferred the verdict is read off the place in the stream. -/
theorem Drained.verdict (hdrained : Drained r) (h : After (AtBoxes Settled) quiet stream r) :
    r.endOfStreamError = none ↔ Complete stream := by
  obtain ⟨s, hs, boxes, cur, hframing, hsettled⟩ := h
  rw [hdrained.deferred, append_nil] at hs
  subst hs
  rw [endOfStreamError_eq_none_iff, Complete, hframing.topBoxes_eq, boxHeader_eq_nil_iff hframing,
    pending_eq_none_iff hsettled.standing]
  constructor
  · rintro ⟨hbytes, -, hmoof, -⟩
    exact ⟨hbytes, hmoof⟩
  · rintro ⟨hbytes, hmoof⟩
    have hpending := (pending_eq_none_iff hsettled.standing).mpr hmoof
    have hcur : cur = none := by
      cases cur with
      | none => rfl
      | some c => exact absurd hbytes (ne_boxBytes_of_body hframing)
    obtain ⟨htarget, hremaining⟩ := hsettled.standing.idle hcur
    exact ⟨hbytes, hremaining, hmoof,
      hsettled.used hdrained.video hdrained.audio (by simp [htarget]),
      hsettled.standing.moofBuffer hpending (by simp [htarget]), hdrained.deferred⟩

/-- **The verdict on the end of the stream.** The drain ends, and without an error `EndOfStreamError` reports
nothing just when the stream is complete. -/
theorem endOfStreamError_iff_complete {timeline : Timeline} {calls : List Call}
    (hmode : cfg.cueMode = false)
    (hrun : Lib.run (BoxReader.call cfg) { reader := { timeline := timeline } } calls = some r) :
    (∃ rounds, drain cfg rounds r ≠ .ok none) ∧ ∀ rounds r', drain cfg rounds r = .ok (some r') →
      (r'.endOfStreamError = none ↔ Complete (calls.flatMap Call.bytes)) := by
  have hstart : After (AtBoxes Settled) false [] { reader := { timeline := timeline } } :=
    ⟨[], rfl, [], none, framing_start timeline, standing_start timeline, by simp, fun _ _ _ => rfl⟩
  obtain ⟨quiet, hafter⟩ := hstart.run (settled_kept hmode).kept (each_releases _ calls) hrun
  rw [nil_append] at hafter
  refine ⟨⟨_, drain_ends ?_ (Nat.lt_succ_self _)⟩, fun rounds r' hdrain => ?_⟩
  · obtain ⟨s, -, hsettled⟩ := hafter
    exact (settled_kept hmode).kept.expecting hsettled
  · obtain ⟨hend, hdrained⟩ := hafter.drain hmode hdrain
    exact hdrained.verdict hend

namespace Source

/-- A second of media, and the `moof` of another. -/
def cutOff : List Call :=
  [.push (moov ++ pair 1 0 [1, 2] ++ pair 2 0 [3]), .push (moof 1 1000 2)]

end Source

/-- The drain gives the one segment, and the `moof` is reported. -/
theorem cutOff_reported : ∃ r r', Lib.run (call Source.config) Source.fresh Source.cutOff = some r ∧
    drain Source.config 2 r = .ok (some r') ∧ r'.reader.segments.length = 1 ∧
    ¬ Complete (Source.cutOff.flatMap Call.bytes) ∧ r'.endOfStreamError ≠ none := by
  have hsome : (Lib.run (call Source.config) Source.fresh Source.cutOff).isSome = true := by decide +kernel
  have hdrains : ∀ r ∈ Lib.run (call Source.config) Source.fresh Source.cutOff,
      ((drain Source.config 2 r).toOption.join.map fun r' => r'.reader.segments.length) = some 1 := by
    decide +kernel
  have hcut : ¬ Complete (Source.cutOff.flatMap Call.bytes) := by
    rw [Complete]
    decide +kernel
  obtain ⟨r, hr⟩ := Option.isSome_iff_exists.mp hsome
  have hdrain := hdrains r hr
  cases hresult : drain Source.config 2 r with
  | error e => simp [hresult, Except.toOption] at hdrain
  | ok result =>
    cases result with
    | none => simp [hresult, Except.toOption] at hdrain
    | some r' =>
      have hverdict := (endOfStreamError_iff_complete rfl hr).2 2 r' hresult
      exact ⟨r, r', hr, hresult, by simpa [hresult, Except.toOption] using hdrain, hcut,
        fun hnone => hcut (hverdict.mp hnone)⟩

end BoxReader

end TorrServer.Gstreamer.Mp4
