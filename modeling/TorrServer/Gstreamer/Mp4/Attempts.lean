/-
# Gstreamer.Mp4.Attempts — attempts while more arrives.

An attempt looks at the first fragments of the queues. Once these determine a segment, fragments that join the
queues behind them do not change it (`Grows.emits`); nor do they mend an attempt that fails (`Grows.fails`).
-/
import TorrServer.Gstreamer.Mp4.Ranges

namespace TorrServer.Gstreamer.Mp4

open Lib List

variable {front more audio' fragments : List Fragment}
    {target i total duration selectedCount videoTimescale n : Nat}
  {storage : Bytes}

/-! ## Selection with more fragments -/

namespace Reader

/-! Once the loop of `selectVideoCount` has an answer, it stays: it has not looked at the duration queued
last, nor at what comes behind. -/

theorem selectNormal_goesOn {last : Fragment} (h : selectNormal target (front ++ [last]) i total ≠ 0) :
    selectNormal target (front ++ { last with duration := duration } :: more) i total
      = selectNormal target (front ++ [last]) i total := by
  induction front generalizing i total with
  | nil => exact absurd rfl h
  | cons f front ih =>
    cases front with
    | nil =>
      simp only [cons_append, nil_append, selectNormal] at h ⊢
      split_ifs at h ⊢ with hcut
      · rfl
      · exact absurd rfl h
    | cons g front =>
      simp only [cons_append, selectNormal] at h ih ⊢
      split_ifs at h ⊢ with hcut
      · rfl
      · exact ih h

theorem selectCatchUp_goesOn {last : Fragment}
    (h : selectCatchUp target (front ++ [last]) i total selectedCount ≠ 0) :
    selectCatchUp target (front ++ { last with duration := duration } :: more) i total selectedCount
      = selectCatchUp target (front ++ [last]) i total selectedCount := by
  induction front generalizing i total selectedCount with
  | nil => exact absurd rfl h
  | cons f front ih =>
    cases front with
    | nil =>
      simp only [cons_append, nil_append, selectCatchUp] at h ⊢
      split_ifs at h ⊢ <;> first | rfl | exact absurd rfl h
    | cons g front =>
      simp only [cons_append, selectCatchUp] at h ih ⊢
      split_ifs at h ⊢ <;> first | rfl | exact ih h

theorem selectNormal_append {video : List Fragment} (h : selectNormal target video i duration ≠ 0)
    (more : List Fragment) :
    selectNormal target (video ++ more) i duration = selectNormal target video i duration := by
  rcases eq_nil_or_concat' video with rfl | ⟨front, last, rfl⟩
  · exact absurd rfl h
  · have hgoes : selectNormal target (front ++ { last with duration := last.duration } :: more) i duration
        = selectNormal target (front ++ [last]) i duration := selectNormal_goesOn h
    rw [append_assoc]
    exact hgoes

theorem selectCatchUp_append {video : List Fragment}
    (h : selectCatchUp target video i duration selectedCount ≠ 0) (more : List Fragment) :
    selectCatchUp target (video ++ more) i duration selectedCount
      = selectCatchUp target video i duration selectedCount := by
  rcases eq_nil_or_concat' video with rfl | ⟨front, last, rfl⟩
  · exact absurd rfl h
  · have hgoes : selectCatchUp target (front ++ { last with duration := last.duration } :: more) i duration
        selectedCount = selectCatchUp target (front ++ [last]) i duration selectedCount :=
      selectCatchUp_goesOn h
    rw [append_assoc]
    exact hgoes

end Reader

theorem selectAudioCount_append {videoEnd : Nat} {audio : List Fragment}
    (h : selectAudioCount videoTimescale videoEnd audio = .ok (audio', n)) (hn : n ≠ 0) (more : List Fragment) :
    selectAudioCount videoTimescale videoEnd (audio ++ more) = .ok (audio' ++ more, n) := by
  rw [selectAudioCount_eq_ok_iff] at h ⊢
  induction h with
  | nothing => exact absurd rfl hn
  | further hfind _ ih =>
    have hcount : _ ≠ 0 := fun hzero => hn (if_pos hzero)
    exact .further hfind (ih hcount)
  | inside hfind hpos htotal hlt hsplit => exact .inside hfind hpos htotal hlt hsplit
  | atEnd hfind hpos htotal => exact .atEnd hfind hpos htotal

theorem selectAudioCount_append_error {videoEnd : Nat} {audio : List Fragment} {e : String}
    (h : selectAudioCount videoTimescale videoEnd audio = .error e) (more : List Fragment) :
    selectAudioCount videoTimescale videoEnd (audio ++ more) = .error e := by
  induction audio with
  | nil => cases h
  | cons f rest ih =>
    rw [cons_append]
    rw [selectAudioCount] at h ⊢
    cases hfind : findAudioSplitSampleCount videoTimescale videoEnd f with
    | error e' =>
      rw [hfind] at h
      exact h
    | ok result =>
      obtain ⟨split, hit⟩ := result
      rw [hfind] at h
      cases hit with
      | true =>
        simp only [ok_bind, Bool.true_eq_false, if_false] at h ⊢
        cases htotal : fragmentSampleCount f with
        | error e' =>
          rw [htotal] at h
          exact h
        | ok total =>
          rw [htotal, ok_bind] at h
          rw [ok_bind]
          by_cases hbounds : 0 < split ∧ split ≤ total
          · rw [require_of _ hbounds, ok_bind] at h ⊢
            split at h
            · rename_i hlt
              rw [if_pos hlt]
              cases hsplit : splitFragmentAtSample f split with
              | error e' =>
                rw [hsplit] at h
                exact h
              | ok parts =>
                rw [hsplit] at h
                cases h
            · cases h
          · rw [require, if_neg hbounds] at h ⊢
            exact h
      | false =>
        cases hrest : selectAudioCount videoTimescale videoEnd rest with
        | error e' =>
          simp only [hrest, ok_bind, if_true, error_bind] at h
          simp only [ok_bind, if_true, ih (hrest.trans h), error_bind]
        | ok result =>
          simp only [hrest, ok_bind, if_true] at h
          cases h

/-! ## Writing from a longer buffer -/

/-- The ranges of fragments are inside a buffer. -/
def Inside (storage : Bytes) (fragments : List Fragment) : Prop :=
  ∀ f ∈ fragments, 0 < f.payloadLen → f.payloadStart + f.payloadLen ≤ storage.length

theorem Inside.mono (h : Inside storage fragments) (more : Bytes) : Inside (storage ++ more) fragments := by
  intro f hf hpos
  have hle := h f hf hpos
  rw [length_append]
  omega

/-- No more is selected than there is, and a cut stays inside. -/
theorem selectAudioCount_inside {videoEnd : Nat} {audio : List Fragment}
    (h : selectAudioCount videoTimescale videoEnd audio = .ok (audio', n)) (hinside : Inside storage audio) :
    n ≤ audio'.length ∧ Inside storage audio' := by
  rw [selectAudioCount_eq_ok_iff] at h
  induction h with
  | nothing => exact ⟨Nat.zero_le _, hinside⟩
  | further hfind _ ih =>
    have hf := hinside _ mem_cons_self
    obtain ⟨hle, hinside'⟩ := ih fun g hg => hinside g (mem_cons_of_mem _ hg)
    refine ⟨?_, ?_⟩
    · rw [length_cons]
      split <;> omega
    · rintro g (_ | ⟨_, hg⟩)
      · exact hf
      · exact hinside' g hg
  | inside hfind hpos htotal hlt hsplit =>
    have hf := hinside _ mem_cons_self
    have hcut := splitFragmentAtSample_range hsplit
    have hlen := hcut.len_eq
    have hleft := hcut.left_start
    have hright := hcut.right_start
    refine ⟨by simp, ?_⟩
    rintro g (_ | ⟨_, _ | ⟨_, hg⟩⟩) hpos
    · have := hf (by omega)
      omega
    · have := hf (by omega)
      omega
    · exact hinside g (mem_cons_of_mem _ hg) hpos
  | atEnd => exact ⟨by simp, hinside⟩

theorem fragmentPayloadRanges_append (h : Inside storage fragments) (more : Bytes) :
    fragmentPayloadRanges (storage ++ more) fragments = fragmentPayloadRanges storage fragments := by
  induction fragments with
  | nil => rfl
  | cons f fragments ih =>
    have hrest := ih fun g hg => h g (mem_cons_of_mem _ hg)
    rw [fragmentPayloadRanges, fragmentPayloadRanges, hrest]
    split
    · rfl
    · rename_i hne
      have hle := h f (mem_cons_self ..) (Nat.pos_of_ne_zero hne)
      rw [require_of _ hle, require_of _ (by rw [length_append]; omega), ok_bind, ok_bind,
        drop_append_of_le_length (by omega), take_append_of_le_length]
      rw [length_drop]
      omega

theorem writeSegment_append {video audio : List Fragment} (hvideo : Inside storage video)
    (haudio : Inside storage audio) (timeline : Timeline) (styp prefixBytes more : Bytes) (sequence : Nat) :
    writeSegment timeline styp prefixBytes (storage ++ more) sequence video audio
      = writeSegment timeline styp prefixBytes storage sequence video audio := by
  simp only [writeSegment, fragmentPayloadRanges_append hvideo, fragmentPayloadRanges_append haudio]

namespace Reader

variable {cfg : Config} {r r' t : Reader}

/-! ## What an attempt takes from -/

/-- The queues, what was emitted, and what goes in front of the next segment. -/
structure Stock where
  video : List Fragment
  audio : List Fragment
  segments : List Segment
  prefixBuf : Bytes
  prefixActive : Bool
  sequence : Nat
  lastVideoEndTime : Nat
  completedVideoSegments : Nat
  hasTargetSegment : Bool

/-- Fragments join the queues. -/
def Stock.join (k : Stock) (video audio : List Fragment) : Stock :=
  { k with video := k.video ++ video, audio := k.audio ++ audio }

/-- The stock of a reader. -/
def stock (r : Reader) : Stock :=
  ⟨r.video, r.audio, r.segments, r.prefixBuf, r.prefixActive, r.sequence, r.lastVideoEndTime,
    r.completedVideoSegments, r.hasTargetSegment⟩

/-- The reader with another stock. -/
def withStock (r : Reader) (k : Stock) : Reader :=
  { r with
    video := k.video, audio := k.audio, segments := k.segments, prefixBuf := k.prefixBuf
    prefixActive := k.prefixActive, sequence := k.sequence, lastVideoEndTime := k.lastVideoEndTime
    completedVideoSegments := k.completedVideoSegments, hasTargetSegment := k.hasTargetSegment }

/-- The queues and the payload grow; all else that an attempt looks at is as before. -/
structure Grows (r r' : Reader) (video audio : List Fragment) (payload : Bytes) : Prop where
  stock : r'.stock = r.stock.join video audio
  sourcePayload : r'.sourcePayload = r.sourcePayload ++ payload
  timeline : r'.timeline = r.timeline
  styp : r'.styp = r.styp
  videoTrack : r'.videoTrack = r.videoTrack
  audioTrack : r'.audioTrack = r.audioTrack

/-- An attempt only takes from the stock. -/
theorem attempt_eq_withStock {completed : Bool} (h : r.tryBuildSegment cfg = .ok (t, completed)) :
    t = r.withStock t.stock := by
  cases tryBuildSegment_eq_ok_iff.mp h with
  | nothing => rfl
  | emits => rfl

section

variable {video audio : List Fragment} {payload : Bytes}

theorem Grows.video_eq (h : Grows r r' video audio payload) : r'.video = r.video ++ video :=
  congrArg Stock.video h.stock

theorem Grows.audio_eq (h : Grows r r' video audio payload) : r'.audio = r.audio ++ audio :=
  congrArg Stock.audio h.stock

theorem Grows.takeFirstSyncBoundary (h : Grows r r' video audio payload) :
    r'.takeFirstSyncBoundary cfg = r.takeFirstSyncBoundary cfg := by
  have hlast : r'.lastVideoEndTime = r.lastVideoEndTime := congrArg Stock.lastVideoEndTime h.stock
  have hdone : r'.completedVideoSegments = r.completedVideoSegments :=
    congrArg Stock.completedVideoSegments h.stock
  simp only [Reader.takeFirstSyncBoundary, h.videoTrack, hlast, hdone]

/-- The count of a segment stays, and so does an error. -/
theorem Grows.selectVideoCount (h : Grows r r' video audio payload) (hmode : cfg.cueMode = false)
    (hzero : r.selectVideoCount cfg ≠ .ok 0) :
    r'.selectVideoCount cfg = r.selectVideoCount cfg := by
  rw [Reader.selectVideoCount] at hzero ⊢
  rw [Reader.selectVideoCount, h.video_eq]
  cases hvideo : r.video with
  | nil => simp [hvideo] at hzero
  | cons first rest =>
    simp only [hvideo, hmode, Bool.false_eq_true, if_false, cons_append, h.videoTrack,
      h.takeFirstSyncBoundary] at hzero ⊢
    by_cases hsync : first.startsWithSync = true
    · rw [require_of _ hsync, ok_bind] at hzero ⊢
      cases htarget : cfg.targetUnits r.videoTrack.timescale.toNat with
      | error e => rfl
      | ok target =>
        rw [htarget, ok_bind] at hzero
        simp only [ok_bind]
        split
        · rename_i hcatch
          rw [if_pos hcatch] at hzero
          have hne : selectCatchUp target (first :: rest) 0 0 0 ≠ 0 := fun hz => hzero (by rw [hz]; rfl)
          rw [← cons_append, selectCatchUp_append hne]
        · rename_i hcatch
          rw [if_neg hcatch] at hzero
          have hne : selectNormal target (first :: rest) 0 0 ≠ 0 := fun hz => hzero (by rw [hz]; rfl)
          rw [← cons_append, selectNormal_append hne]
    · rw [require, if_neg hsync]
      rfl

/-- **The same segment is built**, and what has joined the queues stays. -/
theorem Grows.buildSegment {m : Nat} (h : Grows r r' video audio payload) (hn : n ≤ r.video.length)
    (hm : m ≤ r.audio.length) (hvideo : Inside r.sourcePayload r.video)
    (haudio : Inside r.sourcePayload r.audio) (allowSingleTrack : Bool) :
    r'.buildSegment cfg n m allowSingleTrack
      = (r.buildSegment cfg n m allowSingleTrack).map fun t => r'.withStock (t.stock.join video audio) := by
  have hn' : n ≤ r'.video.length := by
    rw [h.video_eq, length_append]
    omega
  have hm' : m ≤ r'.audio.length := by
    rw [h.audio_eq, length_append]
    omega
  have htakeV : r'.video.take n = r.video.take n := by rw [h.video_eq, take_append_of_le_length hn]
  have htakeA : r'.audio.take m = r.audio.take m := by rw [h.audio_eq, take_append_of_le_length hm]
  have hfront : r'.prefixBytes = r.prefixBytes := by
    have hbuf : r'.prefixBuf = r.prefixBuf := congrArg Stock.prefixBuf h.stock
    have hactive : r'.prefixActive = r.prefixActive := congrArg Stock.prefixActive h.stock
    rw [prefixBytes, prefixBytes, hbuf, hactive]
  have hsequence : r'.sequence = r.sequence := congrArg Stock.sequence h.stock
  have hwrite : writeSegment r'.timeline r'.styp r'.prefixBytes r'.sourcePayload r'.sequence
      (r'.video.take n) (r'.audio.take m)
      = writeSegment r.timeline r.styp r.prefixBytes r.sourcePayload r.sequence (r.video.take n)
          (r.audio.take m) := by
    rw [htakeV, htakeA, hfront, hsequence, h.timeline, h.styp, h.sourcePayload]
    exact writeSegment_append (fun f hf => hvideo f (mem_of_mem_take hf))
      (fun f hf => haudio f (mem_of_mem_take hf)) _ _ _ _ _
  have hafter : ∀ segment, r'.afterSegment cfg n m segment
      = r'.withStock ((r.afterSegment cfg n m segment).stock.join video audio) := by
    intro segment
    have hsegments : r'.segments = r.segments := congrArg Stock.segments h.stock
    have htarget : r'.hasTargetSegment = r.hasTargetSegment := congrArg Stock.hasTargetSegment h.stock
    have hlast : r'.lastVideoEndTime = r.lastVideoEndTime := congrArg Stock.lastVideoEndTime h.stock
    have hdone : r'.completedVideoSegments = r.completedVideoSegments :=
      congrArg Stock.completedVideoSegments h.stock
    have hdropV : r'.video.drop n = r.video.drop n ++ video := by rw [h.video_eq, drop_append_of_le_length hn]
    have hdropA : r'.audio.drop m = r.audio.drop m ++ audio := by rw [h.audio_eq, drop_append_of_le_length hm]
    simp only [afterSegment, resetPrefix, withStock, Reader.stock, Stock.join, hsegments, hsequence,
      htarget, hlast, hdone, htakeV, hdropV, hdropA]
  rw [Reader.buildSegment, Reader.buildSegment, require_of _ hn, require_of _ hm, require_of _ hn',
    require_of _ hm', hwrite, h.audioTrack]
  simp only [ok_bind, map_bind, hafter]
  rfl

theorem Grows.videoEnd (h : Grows r r' video audio payload) (hn : n ≤ r.video.length) :
    r'.videoEnd n = r.videoEnd n := by
  rw [Reader.videoEnd, Reader.videoEnd, h.video_eq, take_append_of_le_length hn]

/-- The audio queue after a cut has grown as well. -/
theorem Grows.withAudio (h : Grows r r' video audio payload) (cut : List Fragment) :
    Grows { r with audio := cut } { r' with audio := cut ++ audio } video audio payload := by
  refine ⟨?_, h.sourcePayload, h.timeline, h.styp, h.videoTrack, h.audioTrack⟩
  have hstock := h.stock
  simp only [Reader.stock, Stock.join, Stock.mk.injEq, true_and] at hstock ⊢
  exact ⟨hstock.1, hstock.2.2⟩

/-- **A segment that is ready stays the same.** -/
theorem Grows.emits (h : Grows r r' video audio payload) (hmode : cfg.cueMode = false)
    (hvideo : Inside r.sourcePayload r.video) (haudio : Inside r.sourcePayload r.audio)
    (hbuild : r.tryBuildSegment cfg = .ok (t, true)) :
    r'.tryBuildSegment cfg = .ok (r'.withStock (t.stock.join video audio), true) := by
  obtain _ | ⟨n, cut, m, segment, hne, hcount, htakes, hselects, hwrite⟩ := tryBuildSegment_eq_ok_iff.mp hbuild
  have hn : n ≤ r.video.length := hselects.video_le
  have hcount' : r'.selectVideoCount cfg = .ok n := by
    rw [h.selectVideoCount hmode, hcount]
    rw [hcount]
    simpa using hne
  have hcut : Inside r.sourcePayload cut := htakes.elim haudio fun hselect =>
    (selectAudioCount_inside hselect haudio).2
  have htakes' : r'.TakesAudio n (cut ++ audio) m := by
    rw [TakesAudio] at htakes ⊢
    rw [h.audioTrack, h.videoTrack, h.videoEnd hn, h.audio_eq]
    split
    · rename_i hid
      rw [if_pos hid] at htakes
      exact ⟨by rw [htakes.1], htakes.2⟩
    · rename_i hid
      rw [if_neg hid] at htakes
      exact ⟨htakes.1, selectAudioCount_append htakes.2 htakes.1 audio⟩
  refine tryBuildSegment_eq_ok_iff.mpr (.of_build hne hcount' htakes' ?_)
  rw [(h.withAudio cut).buildSegment hselects.video_le hselects.audio_le hvideo hcut,
    buildSegment_eq_ok_iff.mpr ⟨hselects, segment, hwrite, rfl⟩]
  rfl

/-- **An attempt that fails still does.** -/
theorem Grows.fails {e : String} (h : Grows r r' video audio payload) (hmode : cfg.cueMode = false)
    (hvideo : Inside r.sourcePayload r.video) (haudio : Inside r.sourcePayload r.audio)
    (hbuild : r.tryBuildSegment cfg = .error e) : r'.tryBuildSegment cfg = .error e := by
  have hzero : r.selectVideoCount cfg ≠ .ok 0 := by
    intro hzero
    rw [tryBuildSegment, hzero, ok_bind, if_pos rfl] at hbuild
    cases hbuild
  rw [tryBuildSegment] at hbuild ⊢
  rw [h.selectVideoCount hmode hzero]
  cases hcount : r.selectVideoCount cfg with
  | error e' =>
    rw [hcount] at hbuild
    exact hbuild
  | ok n =>
    -- the video is chosen as before: the error is from the audio or from the writer
    have hne : n ≠ 0 := fun hn => hzero (hn ▸ hcount)
    obtain ⟨f, hf, -⟩ := selectVideoCount_sync hmode hcount hne
    have hn : n ≤ r.video.length := by
      obtain ⟨hlt, -⟩ := List.getElem?_eq_some_iff.mp hf
      omega
    rw [hcount, ok_bind, if_neg hne] at hbuild
    rw [ok_bind, if_neg hne]
    split at hbuild
    · rename_i hid
      rw [if_pos (show r'.audioTrack.id = 0 by rw [h.audioTrack, hid]),
        h.buildSegment hn (Nat.zero_le _) hvideo haudio]
      cases hsegment : r.buildSegment cfg n 0 false with
      | error e' =>
        rw [hsegment] at hbuild
        exact hbuild
      | ok t =>
        rw [hsegment] at hbuild
        cases hbuild
    · rename_i hid
      rw [if_neg (show ¬ r'.audioTrack.id = 0 by rw [h.audioTrack]; exact hid)]
      have hend := h.videoEnd hn
      rw [Reader.videoEnd, Reader.videoEnd] at hend
      dsimp only at hbuild ⊢
      rw [hend, show r'.videoTrack.timescale = r.videoTrack.timescale by rw [h.videoTrack], h.audio_eq]
      cases hselect : selectAudioCount r.videoTrack.timescale.toNat
          (((r.video.take n).getLast?.map Fragment.endTime).getD 0) r.audio with
      | error e' =>
        rw [selectAudioCount_append_error hselect]
        rw [hselect] at hbuild
        exact hbuild
      | ok result =>
        obtain ⟨cut, m⟩ := result
        simp only [hselect, ok_bind] at hbuild
        split at hbuild
        · cases hbuild
        · rename_i hm
          obtain ⟨hle, hcut⟩ := selectAudioCount_inside hselect haudio
          rw [selectAudioCount_append hselect hm]
          simp only [ok_bind]
          rw [if_neg hm, (h.withAudio cut).buildSegment hn hle hvideo hcut]
          cases hsegment : ({ r with audio := cut }).buildSegment cfg n m false with
          | error e' =>
            rw [hsegment] at hbuild
            exact hbuild
          | ok t =>
            rw [hsegment] at hbuild
            cases hbuild

/-- **An attempt that finds nothing finds nothing in the same queues.** -/
theorem Grows.idle (h : Grows r r' [] [] payload) (hmode : cfg.cueMode = false)
    (hbuild : r.tryBuildSegment cfg = .ok (r, false)) : r'.tryBuildSegment cfg = .ok (r', false) := by
  have hvideo : r'.video = r.video := by rw [h.video_eq, append_nil]
  have haudio : r'.audio = r.audio := by rw [h.audio_eq, append_nil]
  have hcount : r'.selectVideoCount cfg = r.selectVideoCount cfg := by
    simp only [Reader.selectVideoCount, hvideo, hmode, h.videoTrack, h.takeFirstSyncBoundary]
    rfl
  obtain ⟨-, hnothing⟩ := tryBuildSegment_eq_false_iff.mp hbuild
  refine tryBuildSegment_eq_false_iff.mpr ⟨rfl, ?_⟩
  rw [NothingReady] at hnothing ⊢
  rw [hcount, h.audioTrack, h.videoTrack, haudio]
  have hend : ∀ n, r'.videoEnd n = r.videoEnd n := by
    intro n
    rw [Reader.videoEnd, Reader.videoEnd, hvideo]
  simp only [hend]
  exact hnothing

end

end Reader

end TorrServer.Gstreamer.Mp4
