/-
# Gstreamer.Mp4.Selection — which fragments a segment takes.

Video is cut between fragments, at a sync sample. Audio is cut at the first sample that reaches the end of the
video, which can be inside a fragment; `selectAudioCount` then splits that fragment. The lemmas say that the
split leaves the queued samples as they are, and where the cut is.
-/
import TorrServer.Gstreamer.Mp4.Emission
import TorrServer.Gstreamer.Mp4.Explicit
import TorrServer.Gstreamer.Mp4.Samples

namespace TorrServer.Gstreamer.Mp4

open Lib List

variable {reached : Nat → Bool} {time count time' count' videoTimescale n split : Nat} {hit : Bool}
    {f l : Fragment}
  {rest audio : List Fragment}

/-! ## The search for the cut -/

theorem scaledGreaterOrEqual_iff (left leftScale right rightScale : Nat) :
    scaledGreaterOrEqual left leftScale right rightScale = true ↔
      right * rightScale ≤ left * leftScale := by
  have hl := Nat.div_add_mod (left * leftScale) (2 ^ 64)
  have hr := Nat.div_add_mod (right * rightScale) (2 ^ 64)
  have hlm := Nat.mod_lt (left * leftScale) (show 2 ^ 64 > 0 by decide)
  have hrm := Nat.mod_lt (right * rightScale) (show 2 ^ 64 > 0 by decide)
  simp only [scaledGreaterOrEqual]
  split <;> rw [decide_eq_true_eq] <;> omega

/-- Does a sample end at a time for which `reached` holds? -/
def MediaSample.ends (reached : Nat → Bool) (s : MediaSample) : Bool :=
  reached (s.decodeTime + s.duration)

/-- The ends of samples that follow each other from `time` on. -/
def sampleEnds : Nat → List Sample → List Nat
  | _, [] => []
  | time, s :: samples => (time + s.duration) :: sampleEnds (time + s.duration) samples

theorem sampleEnds_length (time : Nat) (samples : List Sample) :
    (sampleEnds time samples).length = samples.length := by
  induction samples generalizing time with
  | nil => rfl
  | cons s samples ih => rw [sampleEnds, length_cons, ih, length_cons]

/-- A search from `time` and `count` on finds the samples up to the first that reaches the end, or all. -/
structure Searched (reached : Nat → Bool) (samples : List Sample) (time count time' count' : Nat) (hit : Bool) :
    Prop where
  count_le : count ≤ count'
  fits : durations (samples.take (count' - count)) ≤ maxUint64 - time
  found : hit = true → count < count' ∧ (sampleEnds time samples).findIdx? reached = some (count' - count - 1)
  notFound : hit = false → time' = time + durations samples ∧ count' = count + samples.length ∧
    (sampleEnds time samples).findIdx? reached = none

theorem searchSamples_searched {samples : List Sample}
    (h : searchSamples reached samples time count = .ok (time', count', hit)) :
    Searched reached samples time count time' count' hit := by
  induction samples generalizing time count with
  | nil =>
    cases h
    exact ⟨le_rfl, by simp, fun h => (by cases h), fun _ => ⟨rfl, rfl, rfl⟩⟩
  | cons s samples ih =>
    simp only [searchSamples, bind_eq_ok, require_eq_ok] at h
    obtain ⟨-, hfits, h⟩ := h
    have hcons : (sampleEnds time (s :: samples)).findIdx? reached = _ := findIdx?_cons
    split at h
    · -- this sample reaches the end
      rename_i hreached
      cases h
      have hone : count + 1 - count = 1 := by omega
      refine ⟨by omega, ?_, fun _ => ⟨by omega, ?_⟩, fun h => (by cases h)⟩
      · simpa [hone] using hfits
      · rw [hcons, if_pos hreached, hone]
    · rename_i hreached
      obtain ⟨hle, hrest, hfound, hnone⟩ := ih h
      have hsucc : count' - count = (count' - (count + 1)) + 1 := by omega
      rw [if_neg hreached] at hcons
      refine ⟨by omega, ?_, fun hhit => ?_, fun hhit => ?_⟩
      · rw [hsucc, take_succ_cons, durations_cons]
        omega
      · obtain ⟨hlt, hfind⟩ := hfound hhit
        rw [hcons, hfind]
        exact ⟨by omega, congrArg some (show _ + 1 = _ by omega)⟩
      · obtain ⟨rfl, rfl, hfind⟩ := hnone hhit
        rw [hcons, hfind, durations_cons, length_cons]
        exact ⟨by omega, by omega, rfl⟩

theorem searchSamples_append (a b : List Sample) : searchSamples reached (a ++ b) time count = (do
    let (time, count, hit) ← searchSamples reached a time count
    if hit then return (time, count, true) else searchSamples reached b time count) := by
  induction a generalizing time count with
  | nil => rfl
  | cons s a ih =>
    rw [cons_append, searchSamples, searchSamples]
    by_cases hle : s.duration ≤ maxUint64 - time
    · rw [require_bind hle, require_bind hle]
      split
      · rfl
      · exact ih
    · rw [require, if_neg hle]
      rfl

/-- The loop over the runs searches their samples. -/
theorem searchRuns_searched {runs : List Run}
    (h : searchRuns reached runs time count = .ok (time', count', hit)) :
    Searched reached (runs.flatMap Run.samples) time count time' count' hit := by
  apply searchSamples_searched
  induction runs generalizing time count with
  | nil => exact h
  | cons run runs ih =>
    simp only [searchRuns, bind_eq_ok, Prod.exists, require_eq_ok] at h
    obtain ⟨-, -, time₁, count₁, hit₁, hrun, h⟩ := h
    rw [flatMap_cons, searchSamples_append, hrun, ok_bind]
    cases hit₁ with
    | true => exact h
    | false => exact ih h

theorem mediaSamples_length (time : Nat) (entries : List (Nat × Bool × Sample)) (data : Bytes) :
    (mediaSamples time entries data).length = entries.length := by
  induction entries generalizing time data with
  | nil => rfl
  | cons e entries ih => simp [mediaSamples, ih]

/-- As long as the times do not wrap, the queued samples end where the search takes them to end. -/
theorem mediaSamples_ends (entries : List (Nat × Bool × Sample)) (data : Bytes)
    (h : time + durations ((entrySamples entries).take n) ≤ maxUint64) :
    ((mediaSamples time entries data).take n).map (fun s => s.decodeTime + s.duration)
      = (sampleEnds time (entrySamples entries)).take n := by
  induction entries generalizing time data n with
  | nil => simp [mediaSamples, entrySamples, sampleEnds]
  | cons e entries ih =>
    obtain ⟨version, sync, s⟩ := e
    cases n with
    | zero => rfl
    | succ n =>
      have hmax : maxUint64 = 2 ^ 64 - 1 := rfl
      rw [entrySamples_cons, take_succ_cons, durations_cons] at h
      dsimp only at h
      rw [mediaSamples, entrySamples_cons, sampleEnds, take_succ_cons, take_succ_cons, map_cons,
        ih _ (by omega), Nat.mod_eq_of_lt (by omega)]

theorem Searched.findIdx?_mediaSamples {entries : List (Nat × Bool × Sample)} (htime : time ≤ maxUint64)
    (h : Searched reached (entrySamples entries) time count time' count' hit) (data : Bytes) :
    (mediaSamples time entries data).findIdx? (MediaSample.ends reached)
      = (sampleEnds time (entrySamples entries)).findIdx? reached := by
  have hfits : time + durations ((entrySamples entries).take (count' - count)) ≤ maxUint64 := by
    have := h.fits
    omega
  have hends := congrArg (findIdx? reached) (mediaSamples_ends entries data hfits)
  rw [findIdx?_map] at hends
  cases hit with
  | true =>
    obtain ⟨hlt, hfind⟩ := h.found rfl
    rw [findIdx?_take, findIdx?_take, hfind] at hends
    obtain ⟨i, hi, hguard⟩ := Option.bind_eq_some_iff.mp (hends.trans (if_pos (by simp; omega)))
    rw [hfind]
    exact hi.trans (congrArg some (Option.guard_eq_some_iff.mp hguard).1)
  | false =>
    obtain ⟨-, rfl, -⟩ := h.notFound rfl
    rw [Nat.add_sub_cancel_left, take_of_length_le (by rw [mediaSamples_length, entrySamples, length_map]),
      take_of_length_le (by rw [sampleEnds_length])] at hends
    exact hends

/-- Does an audio sample reach the end of the video? -/
def reachesEnd (videoTimescale videoEnd audioTimescale : Nat) (s : MediaSample) : Bool :=
  s.ends fun audioEnd => scaledGreaterOrEqual audioEnd videoTimescale videoEnd audioTimescale

/-- **Where `findAudioSplitSampleCount` cuts**: after the first sample that reaches the end. -/
theorem findAudioSplitSampleCount_spec {videoTrack audioTrack : TrackInfo} {videoEnd : Nat}
    (hf : f.Sound videoTrack audioTrack) (storage : Bytes)
    (h : findAudioSplitSampleCount videoTimescale videoEnd f = .ok (n, hit)) :
    if hit then (fragmentSamples storage f).findIdx? (reachesEnd videoTimescale videoEnd f.timescale)
        = some (n - 1) ∧ 0 < n
      else (fragmentSamples storage f).findIdx? (reachesEnd videoTimescale videoEnd f.timescale)
        = none := by
  simp only [findAudioSplitSampleCount, bind_eq_ok, Prod.exists, require_eq_ok, pure_eq_ok, Prod.mk.injEq] at h
  obtain ⟨-, -, time, count, hit', hsearch, -, -, rfl, rfl⟩ := h
  have hlt := hf.decodeTime_lt
  have hmax : maxUint64 = 2 ^ 64 - 1 := rfl
  have hspec := searchRuns_searched hsearch
  rw [← entrySamples_tagged] at hspec
  have hfind := hspec.findIdx?_mediaSamples (by omega) (storage.drop f.payloadStart)
  rw [fragmentSamples]
  cases hit' with
  | true => exact ⟨hfind.trans (hspec.found rfl).2, (hspec.found rfl).1⟩
  | false => exact hfind.trans (hspec.notFound rfl).2.2

/-! ## Queues -/

/-- A queued fragment of a track: sound, with explicit durations and payload inside `limit` bytes. -/
structure Fragment.Held (videoTrack audioTrack : TrackInfo) (kind : Kind) (limit : Nat) (f : Fragment) :
    Prop extends f.OfTrack videoTrack audioTrack kind where
  explicit : f.hasInferredDuration = false
  len : f.payloadLen = sizes f.samples
  inside : f.payloadStart + f.payloadLen ≤ limit

/-- The queue of a track. -/
def Held (videoTrack audioTrack : TrackInfo) (kind : Kind) (limit : Nat) (fragments : List Fragment) : Prop :=
  ∀ f ∈ fragments, f.Held videoTrack audioTrack kind limit

section

variable {videoTrack audioTrack : TrackInfo} {kind : Kind} {limit : Nat} {fragments : List Fragment}

theorem Held.ofTrack (h : Held videoTrack audioTrack kind limit fragments) :
    ∀ f ∈ fragments, f.OfTrack videoTrack audioTrack kind := fun f hf => (h f hf).toOfTrack

theorem Held.nil : Held videoTrack audioTrack kind limit [] := fun _ h => absurd h not_mem_nil

theorem Held.sublist {part : List Fragment} (h : Held videoTrack audioTrack kind limit fragments)
    (hpart : part ⊆ fragments) : Held videoTrack audioTrack kind limit part := fun f hf => h f (hpart hf)

theorem Held.append {more : List Fragment} (h : Held videoTrack audioTrack kind limit fragments)
    (hmore : Held videoTrack audioTrack kind limit more) :
    Held videoTrack audioTrack kind limit (fragments ++ more) := forall_mem_append.mpr ⟨h, hmore⟩

theorem queueSamples_append (storage : Bytes) (a b : List Fragment) :
    queueSamples storage (a ++ b) = queueSamples storage a ++ queueSamples storage b := by
  simp [queueSamples]

theorem queueSamples_cons (storage : Bytes) (f : Fragment) (fragments : List Fragment) :
    queueSamples storage (f :: fragments)
      = fragmentSamples storage f ++ queueSamples storage fragments := rfl

/-- **A split leaves the samples as they are.** -/
theorem IsSplit.samples_eq {r : Fragment} (h : IsSplit videoTrack audioTrack f n l r) (storage : Bytes) :
    fragmentSamples storage f = fragmentSamples storage l ++ fragmentSamples storage r ∧
      (fragmentSamples storage l).length = n := by
  have hentries : tagged f.runs = tagged l.runs ++ tagged r.runs := by
    rw [h.left_tagged, h.right_tagged, take_append_drop]
  have hleft : entrySamples (tagged l.runs) = l.samples := entrySamples_tagged l.runs
  constructor
  · rw [fragmentSamples, hentries, mediaSamples_append, hleft, ← h.left_sound.duration_eq,
      ← h.left_len, drop_drop, ← h.right_time, ← h.right_start, ← h.left_time, ← h.left_start]
    rfl
  · rw [fragmentSamples, mediaSamples_length, h.left_tagged, length_take]
    have := h.inside
    omega

/-- The two halves are held where the fragment was. -/
theorem IsSplit.held {r : Fragment} (h : IsSplit videoTrack audioTrack f n l r)
    (hf : f.Held videoTrack audioTrack kind limit) :
    l.Held videoTrack audioTrack kind limit ∧ r.Held videoTrack audioTrack kind limit := by
  have hinside := hf.inside
  have hlen := h.len_eq
  have hstart := h.left_start
  have hstart' := h.right_start
  refine ⟨
    ⟨⟨h.left_sound, ⟨h.left_consecutive, ?_⟩, h.left_track ▸ hf.kind⟩, h.left_explicit, h.left_len, by omega⟩,
    ⟨⟨h.right_sound, ⟨h.right_consecutive, ?_⟩, h.right_track ▸ hf.kind⟩, h.right_explicit, h.right_len,
      by omega⟩⟩
  · rw [← h.left_len, toInt64_of_le h.len_le.1]
  · rw [← h.right_len, toInt64_of_le h.len_le.2]

/-- A fragment of the audio queue that is passed over has no sample that reaches the end. -/
theorem Fragment.Held.search_miss {videoEnd : Nat} (hheld : f.Held videoTrack audioTrack .audio limit)
    (storage : Bytes) (hfind : findAudioSplitSampleCount videoTimescale videoEnd f = .ok (split, false)) :
    (fragmentSamples storage f).findIdx? (reachesEnd videoTimescale videoEnd audioTrack.timescale.toNat)
      = none := by
  have htimescale : f.timescale = audioTrack.timescale.toNat := hheld.sound.timescale_eq hheld.kind
  rw [← htimescale]
  exact findAudioSplitSampleCount_spec hheld.sound storage hfind

theorem Fragment.Held.search_hit {videoEnd : Nat} (hheld : f.Held videoTrack audioTrack .audio limit)
    (storage : Bytes)
    (rest : List Fragment) (hfind : findAudioSplitSampleCount videoTimescale videoEnd f = .ok (split, true)) :
    (queueSamples storage (f :: rest)).findIdx?
      (reachesEnd videoTimescale videoEnd audioTrack.timescale.toNat) = some (split - 1) := by
  have htimescale : f.timescale = audioTrack.timescale.toNat := hheld.sound.timescale_eq hheld.kind
  have hidx := (findAudioSplitSampleCount_spec hheld.sound storage hfind).1
  rw [htimescale] at hidx
  rw [queueSamples_cons, findIdx?_append, hidx]
  rfl

/-- `selectAudioCount` may split a fragment, and cuts after the first sample that reaches the end. -/
structure AudioCut (videoTrack audioTrack : TrackInfo) (limit : Nat) (storage : Bytes)
    (reaches : MediaSample → Bool) (audio audio' : List Fragment) (n : Nat) : Prop where
  held : Held videoTrack audioTrack .audio limit audio'
  samples : queueSamples storage audio' = queueSamples storage audio
  le : n ≤ audio'.length
  cut : match (queueSamples storage audio).findIdx? reaches with
    | none => n = 0 ∧ audio' = audio
    | some i => 0 < n ∧ (queueSamples storage (audio'.take n)).length = i + 1

/-- **`selectAudioCount`** changes no sample and cuts after the first that reaches the end. -/
theorem selectAudioCount_spec {videoEnd : Nat} {audio' : List Fragment}
    (hheld : Held videoTrack audioTrack .audio limit audio) (storage : Bytes)
    (h : selectAudioCount videoTimescale videoEnd audio = .ok (audio', n)) :
    AudioCut videoTrack audioTrack limit storage
      (reachesEnd videoTimescale videoEnd audioTrack.timescale.toNat) audio audio' n := by
  rw [selectAudioCount_eq_ok_iff] at h
  induction h with
  | nothing => exact ⟨hheld, rfl, le_rfl, rfl, rfl⟩
  | @further f rest rest' split count hfind hselect ih =>
    -- the end is not in this fragment
    obtain ⟨hfirst, hrest⟩ := forall_mem_cons.mp hheld
    have hnone := hfirst.search_miss storage hfind
    have hcut := ih hrest
    generalize reachesEnd videoTimescale videoEnd audioTrack.timescale.toNat = reaches at hnone hcut ⊢
    refine ⟨forall_mem_cons.mpr ⟨hfirst, hcut.held⟩, ?_, ?_, ?_⟩
    · rw [queueSamples_cons, queueSamples_cons, hcut.samples]
    · have := hcut.le
      split <;> simp only [length_cons] <;> omega
    · have hwhere := hcut.cut
      rw [queueSamples_cons, findIdx?_append, hnone, Option.none_or]
      cases hidx : (queueSamples storage rest).findIdx? reaches with
      | none =>
        rw [hidx] at hwhere
        obtain ⟨rfl, rfl⟩ := hwhere
        exact ⟨rfl, rfl⟩
      | some i =>
        rw [hidx] at hwhere
        obtain ⟨hpos, hlen⟩ := hwhere
        simp only [Option.map_some]
        rw [if_neg (by omega), take_succ_cons, queueSamples_cons, length_append, hlen]
        exact ⟨by omega, by omega⟩
  | @inside f l r rest split total hfind hpos htotal hlt hsplit =>
    obtain ⟨hfirst, hrest⟩ := forall_mem_cons.mp hheld
    have hs := splitFragmentAtSample_spec hfirst.sound hsplit
    obtain ⟨hleft, hright⟩ := hs.held hfirst
    obtain ⟨hsamples, hlen⟩ := hs.samples_eq storage
    refine ⟨forall_mem_cons.mpr ⟨hleft, forall_mem_cons.mpr ⟨hright, hrest⟩⟩, ?_, by simp, ?_⟩
    · rw [queueSamples_cons, queueSamples_cons, queueSamples_cons, hsamples, append_assoc]
    · rw [hfirst.search_hit storage rest hfind]
      refine ⟨by omega, ?_⟩
      rw [take_succ_cons, take_zero, queueSamples_cons, length_append, hlen]
      simp only [queueSamples, flatMap_nil, length_nil]
      omega
  | @atEnd f rest split hfind hpos htotal =>
    have hcount : split = (tagged f.runs).length := by
      simp only [fragmentSampleCount, bind_eq_ok, require_eq_ok, pure_eq_ok] at htotal
      obtain ⟨-, -, -, -, rfl⟩ := htotal
      exact sum_length_eq_tagged f.runs
    refine ⟨hheld, rfl, by simp, ?_⟩
    rw [(hheld f (by simp)).search_hit storage rest hfind]
    refine ⟨by omega, ?_⟩
    rw [take_succ_cons, take_zero, queueSamples_cons, length_append, fragmentSamples, mediaSamples_length]
    simp only [queueSamples, flatMap_nil, length_nil]
    omega

end

namespace Reader

variable {cfg : Config} {r r' : Reader}

/-! ## The video of a segment -/

/-- The fragment at the given place begins with a sync sample. -/
def SyncAt (video : List Fragment) (n : Nat) : Prop := ∃ f, video[n]? = some f ∧ f.startsWithSync = true

theorem selectNormal_sync {target : Nat} {done video : List Fragment} {duration : Nat}
    (h : selectNormal target video done.length duration ≠ 0) :
    SyncAt (done ++ video) (selectNormal target video done.length duration) := by
  induction video generalizing done duration with
  | nil => exact absurd rfl h
  | cons f video ih =>
    cases video with
    | nil => exact absurd rfl h
    | cons g rest =>
      simp only [selectNormal] at h ⊢
      split at h
      · rename_i hcut
        rw [if_pos hcut]
        exact ⟨g, by simp, hcut.2⟩
      · rename_i hcut
        rw [if_neg hcut]
        have hih := @ih (done ++ [f]) ((duration + f.duration) % 2 ^ 64)
        rw [length_append, length_singleton, append_assoc] at hih
        exact hih h

theorem selectCatchUp_sync {target : Nat} {done video : List Fragment} {duration selectedCount : Nat}
    (hselected : selectedCount ≠ 0 → SyncAt (done ++ video) selectedCount)
    (h : selectCatchUp target video done.length duration selectedCount ≠ 0) :
    SyncAt (done ++ video) (selectCatchUp target video done.length duration selectedCount) := by
  induction video generalizing done duration selectedCount with
  | nil => exact absurd rfl h
  | cons f video ih =>
    cases video with
    | nil => exact absurd rfl h
    | cons g rest =>
      have hstep : ∀ d c, (c ≠ 0 → SyncAt (done ++ f :: g :: rest) c) →
          selectCatchUp target (g :: rest) (done.length + 1) d c ≠ 0 →
          SyncAt (done ++ f :: g :: rest)
            (selectCatchUp target (g :: rest) (done.length + 1) d c) := by
        intro d c hc hne
        have hih := @ih (done ++ [f]) d c
        rw [length_append, length_singleton, append_assoc] at hih
        exact hih hc hne
      have hnext : g.startsWithSync = true → SyncAt (done ++ f :: g :: rest) (done.length + 1) :=
        fun hsync => ⟨g, by simp, hsync⟩
      simp only [selectCatchUp] at h ⊢
      split_ifs at h ⊢ with hle hsync heq hpos hsync'
      · exact hnext hsync
      · exact hstep _ _ (fun _ => hnext hsync) h
      · exact hstep _ _ hselected h
      · exact hselected (by omega)
      · exact hnext hsync'
      · exact hstep _ _ hselected h

/-- **Where the video is cut**: in the normal mode, in front of a queued sync sample. -/
theorem selectVideoCount_sync (hmode : cfg.cueMode = false) (h : r.selectVideoCount cfg = .ok n) (hn : n ≠ 0) :
    SyncAt r.video n := by
  rw [selectVideoCount] at h
  split at h
  · cases h
    exact absurd rfl hn
  · simp only [hmode, bind_eq_ok, require_eq_ok, Bool.false_eq_true, if_false, pure_eq_ok] at h
    obtain ⟨-, -, target, -, rfl⟩ := h
    split at hn
    · rename_i hcatch
      rw [if_pos hcatch]
      exact @selectCatchUp_sync target [] r.video 0 0 (fun h => absurd rfl h) hn
    · rename_i hcatch
      rw [if_neg hcatch]
      exact @selectNormal_sync target [] r.video 0 hn

/-! ## Attempts -/

/-- The end of the first `count` video fragments. -/
def videoEnd (r : Reader) (count : Nat) : Nat :=
  ((r.video.take count).getLast?.map Fragment.endTime).getD 0

/-- The queues do not determine a segment. -/
def NothingReady (cfg : Config) (r : Reader) : Prop :=
  r.selectVideoCount cfg = .ok 0 ∨
    r.audioTrack.id ≠ 0 ∧ ∃ count audio, count ≠ 0 ∧ r.selectVideoCount cfg = .ok count ∧
      selectAudioCount r.videoTrack.timescale.toNat (r.videoEnd count) r.audio = .ok (audio, 0)

/-- What is taken of the audio queue: nothing without an audio track. -/
def TakesAudio (r : Reader) (videoCount : Nat) (audio : List Fragment) (audioCount : Nat) : Prop :=
  if r.audioTrack.id = 0 then audio = r.audio ∧ audioCount = 0
  else audioCount ≠ 0 ∧ selectAudioCount r.videoTrack.timescale.toNat (r.videoEnd videoCount) r.audio
    = .ok (audio, audioCount)

theorem TakesAudio.elim {audio : List Fragment} {audioCount : Nat} {P : List Fragment → Prop}
    (h : r.TakesAudio n audio audioCount) (hall : P r.audio)
    (hcut : ∀ {timescale stop}, selectAudioCount timescale stop r.audio = .ok (audio, audioCount) → P audio) :
    P audio := by
  rw [TakesAudio] at h
  split at h
  · rw [h.1]
    exact hall
  · exact hcut h.2

/-- What an attempt does: it changes nothing; or it takes some video, and audio up to the end of it. -/
inductive Attempted (cfg : Config) (r : Reader) : Reader → Bool → Prop
  | nothing (hnothing : r.NothingReady cfg) : Attempted cfg r r false
  | emits (n : Nat) (audio : List Fragment) (m : Nat) (segment : Segment) (hne : n ≠ 0)
      (hcount : r.selectVideoCount cfg = .ok n) (htakes : r.TakesAudio n audio m)
      (hselects : Selects { r with audio := audio } n m false)
      (hwrite : writeSegment r.timeline r.styp r.prefixBytes r.sourcePayload r.sequence (r.video.take n)
        (audio.take m) = .ok segment) :
      Attempted cfg r (({ r with audio := audio }).afterSegment cfg n m segment) true

theorem Attempted.of_build {audio : List Fragment} {m : Nat} (hne : n ≠ 0)
    (hcount : r.selectVideoCount cfg = .ok n) (htakes : r.TakesAudio n audio m)
    (hbuild : ({ r with audio := audio }).buildSegment cfg n m false = .ok r') : Attempted cfg r r' true := by
  obtain ⟨hselects, segment, hwrite, rfl⟩ := buildSegment_eq_ok_iff.mp hbuild
  exact .emits n audio m segment hne hcount htakes hselects hwrite

theorem tryBuildSegment_eq_ok_iff {completed : Bool} :
    r.tryBuildSegment cfg = .ok (r', completed) ↔ Attempted cfg r r' completed := by
  simp only [tryBuildSegment, bind_eq_ok]
  constructor
  · rintro ⟨n, hcount, h⟩
    split at h
    · rename_i hzero
      cases h
      exact .nothing (.inl (hzero ▸ hcount))
    rename_i hne
    split at h
    · rename_i hid
      simp only [bind_eq_ok, pure_eq_ok, Prod.mk.injEq] at h
      obtain ⟨r', hbuild, rfl, rfl⟩ := h
      exact .of_build hne hcount (by rw [TakesAudio, if_pos hid]; exact ⟨rfl, rfl⟩) hbuild
    rename_i hid
    simp only [bind_eq_ok, Prod.exists] at h
    obtain ⟨audio, m, hselect, h⟩ := h
    split at h
    · rename_i hzero
      cases h
      exact .nothing (.inr ⟨hid, n, audio, hne, hcount, hzero ▸ hselect⟩)
    · rename_i hm
      simp only [bind_eq_ok, pure_eq_ok, Prod.mk.injEq] at h
      obtain ⟨r', hbuild, rfl, rfl⟩ := h
      exact .of_build hne hcount (by rw [TakesAudio, if_neg hid]; exact ⟨hm, hselect⟩) hbuild
  · rintro (⟨hzero | ⟨hid, n, audio, hne, hcount, hselect⟩⟩ | ⟨n, audio, m, segment, hne, hcount, htakes,
      hselects, hwrite⟩)
    · exact ⟨0, hzero, by rw [if_pos rfl]; rfl⟩
    · refine ⟨n, hcount, ?_⟩
      rw [if_neg hne, if_neg hid]
      exact bind_eq_ok.mpr ⟨(audio, 0), hselect, rfl⟩
    · have hbuild := (@buildSegment_eq_ok_iff cfg).mpr ⟨hselects, segment, hwrite, rfl⟩
      refine ⟨_, hcount, ?_⟩
      rw [if_neg hne]
      rw [TakesAudio] at htakes
      split at htakes
      · rename_i hid
        obtain ⟨rfl, rfl⟩ := htakes
        rw [if_pos hid]
        exact bind_eq_ok.mpr ⟨_, hbuild, rfl⟩
      · rename_i hid
        rw [if_neg hid]
        refine bind_eq_ok.mpr ⟨_, htakes.2, ?_⟩
        dsimp only
        rw [if_neg htakes.1]
        exact bind_eq_ok.mpr ⟨_, hbuild, rfl⟩

/-- An attempt that emits nothing changes nothing. -/
theorem tryBuildSegment_eq_false_iff :
    r.tryBuildSegment cfg = .ok (r', false) ↔ r' = r ∧ r.NothingReady cfg := by
  rw [tryBuildSegment_eq_ok_iff]
  constructor
  · rintro ⟨hnothing⟩
    exact ⟨rfl, hnothing⟩
  · rintro ⟨rfl, hnothing⟩
    exact .nothing hnothing

/-- The remainder takes all that is queued, and in it audio as far as the video goes, if there is both. -/
theorem remainder_cases {completed : Bool} (hbuild : r.tryBuildEndOfStreamRemainder cfg = .ok (r', completed)) :
    completed = false ∧ r' = r ∨ completed = true ∧ ¬ (r.video = [] ∧ r.audio = []) ∧ ∃ audio m segment,
      (if r.video = [] ∨ r.audio = [] then audio = r.audio ∧ m = r.audio.length
        else ∃ selected, m = (if selected = 0 then r.audio.length else selected) ∧
          selectAudioCount r.videoTrack.timescale.toNat (r.videoEnd r.video.length) r.audio
              = .ok (audio, selected)) ∧
      writeSegment r.timeline r.styp r.prefixBytes r.sourcePayload r.sequence r.video (audio.take m)
        = .ok segment ∧
      r' = { ({ r with audio := audio }).afterSegment cfg r.video.length m segment with audio := [] } := by
  rw [tryBuildEndOfStreamRemainder] at hbuild
  split at hbuild
  · cases hbuild
    exact .inl ⟨rfl, rfl⟩
  split at hbuild
  · cases hbuild
    exact .inl ⟨rfl, rfl⟩
  rename_i hqueued
  split at hbuild
  · cases hbuild
    exact .inl ⟨rfl, rfl⟩
  split at hbuild
  · rename_i hone
    simp only [bind_eq_ok, pure_eq_ok, Prod.mk.injEq, buildSegment_eq_ok_iff] at hbuild
    obtain ⟨r₁, ⟨-, segment, hwrite, rfl⟩, rfl, rfl⟩ := hbuild
    rw [take_length] at hwrite
    refine .inr ⟨rfl, hqueued, r.audio, _, segment, by rw [if_pos hone]; exact ⟨rfl, rfl⟩, hwrite, ?_⟩
    have hall : (r.afterSegment cfg r.video.length r.audio.length segment).audio = [] := drop_length
    rw [hall, ite_self]
  · rename_i hboth
    simp only [bind_eq_ok, Prod.exists, pure_eq_ok, Prod.mk.injEq, buildSegment_eq_ok_iff] at hbuild
    obtain ⟨audio, selected, hselect, r₁, ⟨-, segment, hwrite, rfl⟩, rfl, rfl⟩ := hbuild
    refine .inr ⟨rfl, hqueued, audio, _, segment, ?_, by rwa [take_length] at hwrite, rfl⟩
    rw [if_neg hboth, videoEnd, take_length]
    exact ⟨selected, rfl, hselect⟩

theorem video_ne_nil_of_segment (hmode : cfg.cueMode = false)
    (hbuild : r.tryBuildSegment cfg = .ok (r', true)) : r'.video ≠ [] := by
  obtain _ | ⟨n, _, _, _, hne, hcount⟩ := tryBuildSegment_eq_ok_iff.mp hbuild
  obtain ⟨f, hf, -⟩ := selectVideoCount_sync hmode hcount hne
  intro hnil
  have hlen := drop_eq_nil_iff.mp hnil
  rw [getElem?_eq_none hlen] at hf
  cases hf

end Reader

/-! ## Moving the payload

The choice does not depend on where the payload lies. -/

/-- The function moves the payload of fragments and does nothing else. -/
def Moves (g : Fragment → Fragment) : Prop := ∀ f, ∃ start, g f = { f with payloadStart := start }

theorem shiftFragmentPayloadStarts_moves (delta : Nat) : Moves (Reader.shiftFragmentPayloadStarts delta) := by
  intro f
  rw [Reader.shiftFragmentPayloadStarts]
  split
  · exact ⟨f.payloadStart - delta, rfl⟩
  · exact ⟨f.payloadStart, rfl⟩

section

variable {g : Fragment → Fragment}

theorem Moves.duration (hg : Moves g) (f : Fragment) : (g f).duration = f.duration := by
  obtain ⟨start, h⟩ := hg f
  rw [h]

theorem Moves.startsWithSync (hg : Moves g) (f : Fragment) : (g f).startsWithSync = f.startsWithSync := by
  obtain ⟨start, h⟩ := hg f
  rw [h]

theorem Moves.endTime (hg : Moves g) (f : Fragment) : (g f).endTime = f.endTime := by
  obtain ⟨start, h⟩ := hg f
  rw [h]
  rfl

theorem Moves.firstPresentationTime (hg : Moves g) (f : Fragment) :
    Mp4.firstPresentationTime (g f) = Mp4.firstPresentationTime f := by
  obtain ⟨start, h⟩ := hg f
  rw [h]
  rfl

theorem Moves.findAudioSplitSampleCount (hg : Moves g) (videoTimescale videoEnd : Nat) (f : Fragment) :
    Mp4.findAudioSplitSampleCount videoTimescale videoEnd (g f)
      = Mp4.findAudioSplitSampleCount videoTimescale videoEnd f := by
  obtain ⟨start, h⟩ := hg f
  rw [h]
  rfl

/-- No audio is selected if no fragment reaches the end. -/
theorem selectAudioCount_eq_zero_iff {videoEnd : Nat} :
    (∃ audio', selectAudioCount videoTimescale videoEnd audio = .ok (audio', 0)) ↔
      ∀ f ∈ audio, ∃ n, findAudioSplitSampleCount videoTimescale videoEnd f = .ok (n, false) := by
  constructor
  · rintro ⟨audio', h⟩
    rw [selectAudioCount_eq_ok_iff] at h
    generalize hzero : 0 = n at h
    induction h with
    | nothing => exact fun f hf => nomatch hf
    | @further f rest rest' split count hfind hrest ih =>
      have hcount : 0 = count := by
        by_contra hne
        rw [if_neg (Ne.symm hne)] at hzero
        omega
      exact forall_mem_cons.2 ⟨⟨split, hfind⟩, ih hcount⟩
    | inside => cases hzero
    | atEnd => cases hzero
  · intro h
    induction audio with
    | nil => exact ⟨[], rfl⟩
    | cons f rest ih =>
      obtain ⟨⟨split, hfind⟩, hrest⟩ := forall_mem_cons.1 h
      obtain ⟨rest', hselect⟩ := ih hrest
      exact ⟨f :: rest', (SelectsAudio.further hfind (.of_ok hselect)).ok⟩

namespace Reader

variable {cfg : Config} {r r' : Reader}

theorem selectNormal_map (hg : Moves g) (target : Nat) (video : List Fragment) (i duration : Nat) :
    selectNormal target (video.map g) i duration = selectNormal target video i duration := by
  induction video generalizing i duration with
  | nil => rfl
  | cons f video ih =>
    cases video with
    | nil => rfl
    | cons f' video =>
      simp only [map_cons, selectNormal, hg.duration, hg.startsWithSync] at ih ⊢
      rw [ih]

theorem selectCatchUp_map (hg : Moves g) (target : Nat) (video : List Fragment)
    (i duration selectedCount : Nat) :
    selectCatchUp target (video.map g) i duration selectedCount
      = selectCatchUp target video i duration selectedCount := by
  induction video generalizing i duration selectedCount with
  | nil => rfl
  | cons f video ih =>
    cases video with
    | nil => rfl
    | cons f' video =>
      simp only [map_cons, selectCatchUp, hg.duration, hg.startsWithSync] at ih ⊢
      rw [ih, ih]

theorem selectCue_map (hg : Moves g) (r : Reader) (firstPresentation : Int) (video : List Fragment)
    (i : Nat) :
    r.selectCue firstPresentation (video.map g) i = r.selectCue firstPresentation video i := by
  induction video generalizing i with
  | nil => rfl
  | cons f video ih =>
    simp only [map_cons, selectCue, hg.startsWithSync, hg.firstPresentationTime, ih]

/-- Two readers choose alike: the same tracks, positions and target. -/
structure SameChoice (r r' : Reader) : Prop where
  videoTrack : r'.videoTrack = r.videoTrack
  audioTrack : r'.audioTrack = r.audioTrack
  lastVideoEndTime : r'.lastVideoEndTime = r.lastVideoEndTime
  completedVideoSegments : r'.completedVideoSegments = r.completedVideoSegments
  hasTargetSegment : r'.hasTargetSegment = r.hasTargetSegment
  targetSegmentStartNS : r'.targetSegmentStartNS = r.targetSegmentStartNS
  targetSegmentEndNS : r'.targetSegmentEndNS = r.targetSegmentEndNS
  targetToleranceNS : r'.targetToleranceNS = r.targetToleranceNS

theorem SameChoice.selectCue (h : SameChoice r r') (firstPresentation : Int) (video : List Fragment)
    (i : Nat) : r'.selectCue firstPresentation video i = r.selectCue firstPresentation video i := by
  induction video generalizing i with
  | nil => rfl
  | cons f video ih =>
    simp only [Reader.selectCue, ih, h.videoTrack, h.targetSegmentStartNS, h.targetSegmentEndNS,
      h.targetToleranceNS]

theorem SameChoice.takeFirstSyncBoundary (h : SameChoice r r') :
    r'.takeFirstSyncBoundary cfg = r.takeFirstSyncBoundary cfg := by
  simp only [Reader.takeFirstSyncBoundary, h.videoTrack, h.lastVideoEndTime, h.completedVideoSegments]

/-- The same video queue, but for the place of its payload, gives the same count. -/
theorem SameChoice.selectVideoCount (h : SameChoice r r') (hg : Moves g)
    (hvideo : r'.video = r.video.map g) : r'.selectVideoCount cfg = r.selectVideoCount cfg := by
  simp only [Reader.selectVideoCount, selectCueVideoCount, hvideo, h.videoTrack, h.hasTargetSegment,
    h.takeFirstSyncBoundary, selectNormal_map hg, selectCatchUp_map hg]
  cases r.video with
  | nil => rfl
  | cons f video =>
    simp only [map_cons, hg.startsWithSync]
    cases video with
    | nil => rfl
    | cons f' video =>
      have hcue := fun fp => selectCue_map hg r fp (f' :: video) 1
      simp only [map_cons] at hcue
      simp only [map_cons, hg.firstPresentationTime, h.selectCue, hcue]

/-- Nothing becomes ready when the payload moves. -/
theorem NothingReady.moved (hr : r.NothingReady cfg) (h : SameChoice r r') (hg : Moves g)
    (hvideo : r'.video = r.video.map g) (haudio : r'.audio = r.audio.map g) : r'.NothingReady cfg := by
  have hend : ∀ count, r'.videoEnd count = r.videoEnd count := by
    intro count
    rw [videoEnd, videoEnd, hvideo, ← map_take, getLast?_map, Option.map_map]
    congr 2
    exact funext hg.endTime
  rcases hr with hzero | ⟨hid, count, audio, hne, hcount, hselect⟩
  · exact .inl ((h.selectVideoCount hg hvideo).trans hzero)
  · have hnone := selectAudioCount_eq_zero_iff.mp ⟨audio, hselect⟩
    obtain ⟨audio', hselect'⟩ := selectAudioCount_eq_zero_iff.mpr
      (show ∀ f ∈ r'.audio, ∃ n, findAudioSplitSampleCount r'.videoTrack.timescale.toNat
          (r'.videoEnd count) f = .ok (n, false) by
        intro f hf
        rw [haudio] at hf
        obtain ⟨f₀, hf₀, rfl⟩ := mem_map.mp hf
        rw [hg.findAudioSplitSampleCount, h.videoTrack, hend]
        exact hnone f₀ hf₀)
    exact .inr ⟨h.audioTrack ▸ hid, count, audio', hne, (h.selectVideoCount hg hvideo).trans hcount,
      hselect'⟩

/-- Nothing becomes ready by what no choice looks at. -/
theorem NothingReady.of_same (hr : r.NothingReady cfg) (h : SameChoice r r')
    (hvideo : r'.video = r.video) (haudio : r'.audio = r.audio) : r'.NothingReady cfg :=
  hr.moved (g := id) h (fun f => ⟨f.payloadStart, rfl⟩) (by rw [hvideo, map_id])
    (by rw [haudio, map_id])

end Reader

end

end TorrServer.Gstreamer.Mp4
