/-
# Gstreamer.Mp4.Oversized — a short `moof` that lists very many bytes.

A `trun` whose samples take all from the defaults of the `tfhd` has sixteen bytes, however many samples it
counts. With `2 ^ 19` samples of `2 ^ 31` bytes in each run, `2 ^ 14` runs come to `2 ^ 64` bytes: each run is
within the limits the parser checks, and the sum, which the code keeps in an `int64`, is zero.
-/
import TorrServer.Gstreamer.Mp4.Standing

namespace TorrServer.Gstreamer.Mp4

open Lib List

/-! ## Steps of the reader -/

theorem completeMoof_of_parse {r : Reader} {f : Fragment}
    (hvideo : r.video = []) (haudio : r.audio = [])
    (hparse : parseSourceMoof r.sourceMoof r.videoTrack r.audioTrack r.videoHint r.audioHint = .ok f) :
    r.completeMoof = .ok { r.rememberDuration f with
      pending := some f, sourcePayloadFromMoof := r.sourceMoof.length } := by
  rw [Reader.completeMoof, hparse, wrapError, ok_bind,
    Reader.resolvePreviousInferredDuration_eq (by simp [hvideo]) (by simp [haudio])]
  rfl

/-- A push to a reader that has nothing to emit and nothing deferred. -/
theorem BoxReader.push_of_quiet {cfg : Config} {r r' : Reader} {data rest : Bytes} {completed : Bool}
    (hquiet : r.tryBuildSegment cfg = .ok (r, false)) (hdata : data ≠ [])
    (hprocess : r.processBytes cfg data = .ok (r', rest, completed)) (hrest : completed = false → rest = []) :
    BoxReader.push cfg { reader := r } data = .ok { reader := r', deferred := rest } := by
  have hdeferred : BoxReader.tryProcessDeferred cfg { reader := r } = .ok ({ reader := r }, false) := by
    rw [tryProcessDeferred, hquiet]
    rfl
  rw [push, if_neg hdata, hdeferred, ok_bind]
  dsimp only
  rw [if_neg (by simp), hprocess, ok_bind]
  cases completed with
  | true => rfl
  | false =>
    rw [hrest rfl]
    rfl

/-! ## The `moof` -/

namespace Oversized

open BoxReader.Source (config fresh moov)

open Reader.TwoTracks (track)

/-- A `trun` of `2 ^ 19` samples that has no field of its own for them. -/
def trun : Bytes := put32 0 ++ put32 (2 ^ 19)

/-- A `tfhd` for the video track with the defaults: a duration of one, and `2 ^ 31` bytes. -/
def tfhd : Bytes := put32 0x0002001a ++ put32 1 ++ put32 1 ++ put32 1 ++ put32 (2 ^ 31)

/-- The decode time 0. -/
def tfdt : Bytes := put32 0 ++ put32 0

/-- The boxes of a `traf` with `n` equal runs. -/
def trafBoxes (n : Nat) : List (Nat × Bytes) :=
  (boxTfhd, tfhd) :: (boxTfdt, tfdt) :: List.replicate n (boxTrun, trun)

/-- Their bytes. -/
def trafBody (n : Nat) : Bytes := ((trafBoxes n).map fun b => box b.1 b.2).flatten

/-- A `moof` with `n` such runs. -/
def moofBody (n : Nat) : Bytes := box boxTraf (trafBody n)

/-- A sample of the `trun`. -/
def sample : Sample := ⟨1, 2 ^ 31, 0, 0⟩

/-- What the `trun` is read as. -/
def run : Run :=
  { samples := List.replicate (2 ^ 19) sample, version := 0, hasCompositionTimeOffsets := false
    duration := 2 ^ 19, dataSize := 2 ^ 50, startsWithSync := true }

/-- What the `traf` is read as. -/
def fragment (n : Nat) : Fragment :=
  { trackID := 1, timescale := 1000, decodeTime := 0, duration := n * 2 ^ 19, startsWithSync := true
    sampleDescriptionIndex := 1, tfhd := buildCanonicalTfhd 1 1, runs := List.replicate n run }

theorem trafBody_length (n : Nat) : (trafBody n).length = 44 + n * 16 := by
  have htruns : ∀ n : Nat, ((List.replicate n (boxTrun, trun)).map fun b => box b.1 b.2).flatten.length
      = n * 16 := by
    intro n
    rw [map_replicate, length_flatten, map_replicate, sum_replicate, box_length]
    rfl
  rw [trafBody, trafBoxes, map_cons, map_cons, flatten_cons, flatten_cons,
    length_append, length_append, htruns, box_length, box_length]
  show 8 + 20 + (8 + 8 + n * 16) = 44 + n * 16
  omega

theorem children_traf (n : Nat) :
    children (box boxTraf (trafBody n)) 8 = (trafBoxes n).map fun b => ⟨b.1, 8, box b.1 b.2⟩ := by
  have hmem : ∀ b ∈ trafBoxes n, b.1 < 2 ^ 32 ∧ 8 + b.2.length ≤ maxInt32 := by
    intro b hb
    rw [trafBoxes, mem_cons, mem_cons, mem_replicate] at hb
    rcases hb with rfl | rfl | ⟨-, rfl⟩ <;> decide
  have hwalk := children_boxes (put32 (8 + (trafBody n).length) ++ put32 boxTraf) (trafBoxes n)
    (fun b hb => (hmem b hb).1) (fun b hb => (hmem b hb).2)
  rw [length_append, put32_length, put32_length, append_assoc] at hwalk
  exact hwalk

/-- The entries of a `trun` without fields are all alike. -/
theorem readSamples_plain (t : TrunLayout) (data : Bytes) (n : Nat) (first : Bool)
    (cursor duration dataSize : Nat) (hduration : t.hasDuration = false) (hsize : t.hasSize = false)
    (hflags : t.hasSampleFlags = false) (hoffsets : t.hasCompositionOffsets = false)
    (hfirst : t.hasFirstSampleFlags = false) (htotal : duration + n * t.defaultDuration ≤ maxUint64)
    (hbytes : dataSize + n * t.defaultSize ≤ maxUint64) :
    readSamples t data n first cursor duration dataSize
      = .ok (List.replicate n ⟨t.defaultDuration, t.defaultSize, t.defaultFlags, 0⟩, cursor,
          duration + n * t.defaultDuration, dataSize + n * t.defaultSize) := by
  induction n generalizing first duration dataSize with
  | zero => simp [readSamples]
  | succ n ih =>
    rw [Nat.succ_mul] at htotal hbytes
    have hsample : readSample t data first cursor
        = .ok (⟨t.defaultDuration, t.defaultSize, t.defaultFlags, 0⟩, cursor) := by
      simp [readSample, readField, hduration, hsize, hflags, hoffsets, hfirst, Bind.bind, Except.bind,
        pure, Except.pure]
    have hrest := ih false (duration + t.defaultDuration) (dataSize + t.defaultSize) (by omega) (by omega)
    have hone : duration + (n + 1) * t.defaultDuration
        = duration + t.defaultDuration + n * t.defaultDuration := by rw [Nat.succ_mul]; omega
    have htwo : dataSize + (n + 1) * t.defaultSize
        = dataSize + t.defaultSize + n * t.defaultSize := by rw [Nat.succ_mul]; omega
    simp only [readSamples, bind_eq_ok, Prod.exists, require_eq_ok, pure_eq_ok]
    refine ⟨_, _, hsample, (), by dsimp only; omega, (), by dsimp only; omega, _, _, _, _, hrest, ?_⟩
    rw [hone, htwo, replicate_succ]

theorem normalizeTrun_trun : normalizeTrun (box boxTrun trun) 8 1 (2 ^ 31) 0 false = .ok run := by
  have hflags : be32 (box boxTrun trun) 8 = 0 := by decide
  have hcount : be32 (box boxTrun trun) (8 + 4) = 2 ^ 19 := by decide
  have hlength : (box boxTrun trun).length = 16 := by decide
  have hnone : ∀ flag, hasFlag 0 flag = false := by
    intro flag
    simp [hasFlag]
  have hread := readSamples_plain
    { hasDuration := false, hasSize := false, hasSampleFlags := false, hasCompositionOffsets := false
      hasFirstSampleFlags := false, firstSampleFlags := 0, defaultDuration := 1, defaultSize := 2 ^ 31
      defaultFlags := 0 } (box boxTrun trun) (2 ^ 19) true 16 0 0 rfl rfl rfl rfl rfl (by decide) (by decide)
  simp only [normalizeTrun, hflags, hcount, hlength, bind_eq_ok, Prod.exists, require_eq_ok, pure_eq_ok]
  simp only [Nat.zero_and, hnone, readField, Bool.false_eq_true, if_false]
  refine ⟨(), by decide, (), by decide, (), by decide, (), by decide, 0, 16, rfl, (), by simp, 0, 16, rfl,
    (), by simp, (), by simp, (), by decide, (), by decide, _, _, _, _, hread, (), by decide, ?_⟩
  have hoffset : toInt32 0 = 0 := by decide +kernel
  rw [head?_replicate, if_neg (by decide), hoffset]
  rfl

theorem parseRuns_replicate {defaultDuration defaultSize defaultFlags : Nat} {isHint : Bool}
    {child : Child} {run : Run} (htype : child.boxType = boxTrun)
    (hrun : normalizeTrun child.bytes child.headerSize defaultDuration defaultSize defaultFlags isHint
      = .ok run) (n duration : Nat) (h : duration + n * run.duration ≤ maxUint64) :
    parseRuns defaultDuration defaultSize defaultFlags isHint (List.replicate n child) duration
      = .ok (List.replicate n run, duration + n * run.duration) := by
  induction n generalizing duration with
  | zero => simp [parseRuns]
  | succ n ih =>
    rw [Nat.succ_mul] at h
    have hrest := ih (duration + run.duration) (by omega)
    have htotal : duration + (n + 1) * run.duration = duration + run.duration + n * run.duration := by
      rw [Nat.succ_mul]
      omega
    rw [replicate_succ, parseRuns, if_neg (not_not_intro htype), htotal, replicate_succ]
    simp only [bind_eq_ok, Prod.exists, require_eq_ok, pure_eq_ok]
    exact ⟨run, hrun, (), by omega, _, _, hrest, rfl⟩

theorem foldlM_truns {child : Child} (htype : child.boxType = boxTrun) (n : Nat) (found : TrafHeaders) :
    (List.replicate n child).foldlM parseTrafChild found = .ok found := by
  have hchild : parseTrafChild found child = .ok found := by
    rw [parseTrafChild, htype, if_neg (by decide), if_neg (by decide), if_pos rfl]
    rfl
  induction n with
  | zero => rfl
  | succ n ih => rw [replicate_succ, foldlM_cons, hchild, ok_bind, ih]

/-- The `tfhd` as it is read. -/
def info : TfhdInfo :=
  { trackID := 1, sampleDescriptionIndex := 1, hasSampleDescriptionIndex := true, defaultDuration := 1
    defaultSize := 2 ^ 31, defaultFlags := 0, hasDefaultFlags := false }

theorem parseTraf_traf {n : Nat} (hpos : 0 < n) (h : 60 + n * 16 ≤ maxInt32) :
    parseTraf (box boxTraf (trafBody n)) 8 (track 1) (track 2) 0 0
      = .ok (fragment n) := by
  have hmax : maxInt32 = 2 ^ 31 - 1 := rfl
  have hmax' : maxUint64 = 2 ^ 64 - 1 := rfl
  have htfhd : parseTfhd (box boxTfhd tfhd) 8 = .ok info := by decide +kernel
  have htfdt : readTfdt (box boxTfdt tfdt) 8 = some 0 := by decide
  have hfirst : parseTrafChild {} ⟨boxTfhd, 8, box boxTfhd tfhd⟩ = .ok { tfhd := some info } := by
    rw [parseTrafChild, if_pos rfl, require_bind rfl, htfhd]
    rfl
  have hsecond : parseTrafChild { tfhd := some info } ⟨boxTfdt, 8, box boxTfdt tfdt⟩
      = .ok { tfhd := some info, tfdt := some 0 } := by
    rw [parseTrafChild, if_neg (by decide), if_pos rfl, require_bind rfl, htfdt]
    rfl
  have hduration : run.duration = 2 ^ 19 := rfl
  have hruns := @parseRuns_replicate 1 (2 ^ 31) 0 false ⟨boxTrun, 8, box boxTrun trun⟩ run rfl
    normalizeTrun_trun n 0 (by rw [hduration]; omega)
  have hmap : ((trafBoxes n).map fun b => (⟨b.1, 8, box b.1 b.2⟩ : Child))
      = ⟨boxTfhd, 8, box boxTfhd tfhd⟩ :: ⟨boxTfdt, 8, box boxTfdt tfdt⟩ ::
        List.replicate n ⟨boxTrun, 8, box boxTrun trun⟩ := by
    rw [trafBoxes, map_cons, map_cons, map_replicate]
  rw [parseTraf, children_traf, hmap, foldlM_cons, hfirst, ok_bind, foldlM_cons, hsecond, ok_bind,
    foldlM_truns rfl, ok_bind]
  have htrack : trafTrack (track 1) (track 2) 0 0 info.trackID
      = .ok (track 1, 0) := by
    decide +kernel
  have hskip : parseRuns 1 (2 ^ 31) 0 false (⟨boxTfhd, 8, box boxTfhd tfhd⟩ ::
      ⟨boxTfdt, 8, box boxTfdt tfdt⟩ :: List.replicate n ⟨boxTrun, 8, box boxTrun trun⟩) 0
      = .ok (List.replicate n run, n * 2 ^ 19) := by
    rw [parseRuns, if_pos (by decide), parseRuns, if_pos (by decide), hruns, hduration, Nat.zero_add]
  have hsync : ((List.replicate n run).head?.map Run.startsWithSync).getD false = true := by
    rw [head?_replicate, if_neg (by omega)]
    rfl
  have hexplicit : (List.replicate n run).any Run.hasInferredDuration = false := by
    rw [any_replicate, if_neg (by omega)]
    rfl
  have hne : List.replicate n run ≠ [] ∧ n * 2 ^ 19 ≠ 0 :=
    ⟨by simpa using Nat.pos_iff_ne_zero.mp hpos, by omega⟩
  simp only [htrack, ok_bind]
  rw [require_bind (by decide), require_bind (by decide)]
  show (parseRuns 1 (2 ^ 31) 0 false _ 0 >>= _) = _
  rw [hskip, ok_bind, require_bind hne]
  rw [hsync, hexplicit]
  rfl

theorem moofBody_length (n : Nat) : (moofBody n).length = 52 + n * 16 := by
  rw [moofBody, box_length, trafBody_length]
  omega

/-- **The `moof` is accepted.** -/
theorem parseSourceMoof_moof {n : Nat} (hpos : 0 < n) (h : 60 + n * 16 ≤ maxInt32) :
    parseSourceMoof (box boxMoof (moofBody n)) (track 1) (track 2) 0 0
      = .ok (fragment n) := by
  have hlength := moofBody_length n
  have hread := tryReadBox_box [] (show boxMoof < 2 ^ 32 by decide)
    (show 8 + (moofBody n).length ≤ maxInt32 by omega) []
  rw [nil_append, append_nil, length_nil, Nat.zero_add] at hread
  have hchildren := children_boxes (put32 (8 + (moofBody n).length) ++ put32 boxMoof)
    [(boxTraf, trafBody n)] (by simp; decide) (by simp [trafBody_length]; omega)
  rw [length_append, put32_length, put32_length, append_assoc, map_singleton,
    map_singleton, flatten_singleton] at hchildren
  have hroot : children (box boxMoof (moofBody n)) 8 = [⟨boxTraf, 8, box boxTraf (trafBody n)⟩] := hchildren
  rw [parseSourceMoof, hread]
  dsimp only
  rw [require_bind ⟨rfl, by rw [box_length]⟩, hroot, parseMoofChildren, if_neg (by simp),
    require_bind rfl, parseTraf_traf hpos h, ok_bind, parseMoofChildren]
  rfl

theorem sizes_fragment (n : Nat) : sizes (fragment n).samples = n * 2 ^ 50 := by
  have hrun : sizes run.samples = 2 ^ 50 := by
    show ((List.replicate (2 ^ 19) sample).map Sample.size).sum = 2 ^ 50
    rw [map_replicate, sum_replicate]
    rfl
  show sizes ((List.replicate n run).flatMap Run.samples) = _
  rw [Reader.sizes_flatMap, map_replicate, sum_replicate, hrun]
  rfl

/-- The sum of the sizes wraps around. -/
theorem attachRuns_of_implicit {payloadFromMoof : Int} {runs : List Run}
    (hoffset : ∀ run ∈ runs, run.hasSourceDataOffset = false) (hsize : ∀ run ∈ runs, run.dataSize ≤ maxInt64)
    (start : Nat) : attachRuns payloadFromMoof runs (toInt64 start)
      = .ok (setOffsets start runs, toInt64 (start + (runs.map Run.dataSize).sum : Nat)) := by
  induction runs generalizing start with
  | nil => simp [attachRuns, setOffsets]
  | cons run runs ih =>
    have hrest := ih (fun d hd => hoffset d (mem_cons_of_mem _ hd))
      (fun d hd => hsize d (mem_cons_of_mem _ hd)) (start + run.dataSize)
    have hnext : toInt64 (toInt64 start + run.dataSize) = toInt64 (start + run.dataSize : Nat) := by
      rw [toInt64_add, ← Nat.cast_add]
    simp only [attachRuns, hoffset run (mem_cons_self ..), Bool.false_eq_true, if_false, bind_eq_ok,
      Prod.exists, require_eq_ok, pure_eq_ok]
    refine ⟨(), trivial, (), hsize run (mem_cons_self ..), _, _, hnext ▸ hrest, ?_⟩
    rw [setOffsets, map_cons, sum_cons, Nat.add_assoc, hoffset run (mem_cons_self ..)]

/-- The fragment with an `mdat` that has no body. -/
def queued (n : Nat) : Fragment :=
  { fragment n with runs := setOffsets 0 (List.replicate n run), payloadStart := 0, payloadLen := 0 }

theorem attachPayload_fragment {n : Nat} (h : toInt64 (n * 2 ^ 50 : Nat) = 0) (payloadFromMoof : Int) :
    attachPayload (fragment n) 0 0 payloadFromMoof = .ok (queued n) := by
  have hdata : ∀ d ∈ List.replicate n run, d.hasSourceDataOffset = false ∧ d.dataSize ≤ maxInt64 := by
    intro d hd
    rw [(mem_replicate.mp hd).2]
    decide
  have hsum : ((List.replicate n run).map Run.dataSize).sum = n * 2 ^ 50 := by
    rw [map_replicate, sum_replicate]
    rfl
  have hruns := @attachRuns_of_implicit payloadFromMoof _ (fun d hd => (hdata d hd).1)
    (fun d hd => (hdata d hd).2) 0
  rw [hsum, Nat.zero_add, h, Int.natCast_zero, toInt64_zero] at hruns
  simp only [attachPayload, bind_eq_ok, Prod.exists, require_eq_ok, pure_eq_ok]
  exact ⟨(), by simp, _, _, hruns, (), rfl, rfl⟩

/-- The reader after the initialization has been pushed. -/
def initialized : Reader := { fresh.reader with init := moov, moovCompleted := true }

set_option maxRecDepth 100000 in
theorem push_moov : fresh.push config moov = .ok { reader := initialized } := rfl

/-- A reader that waits for the `mdat` of a `moof`, with nothing queued. -/
structure Waiting (f : Fragment) (r : Reader) : Prop where
  boxHeader : r.boxHeader = []
  boxHeaderRequired : r.boxHeaderRequired = 8
  initDone : r.initDone = true
  sourceFinalMoovDone : r.sourceFinalMoovDone = false
  sourceMfraDone : r.sourceMfraDone = false
  pending : r.pending = some f
  video : r.video = []
  audio : r.audio = []
  sourcePayload : r.sourcePayload = []
  videoTrack : r.videoTrack = track 1
  audioTrack : r.audioTrack = track 2

theorem completeInit_initialized {r : Reader} (hmoov : r.moovCompleted = true) (hinit : r.init = moov) :
    r.completeInit = .ok { r with
      videoTrack := track 1, audioTrack := track 2, initDone := true, inits := r.inits ++ [r.init] } := by
  have hne : moov ≠ [] := ne_nil_of_length_pos (by decide +kernel)
  have htracks : parseInitTracks moov = .ok (track 1, track 2) := by decide +kernel
  rw [Reader.completeInit, require_bind ⟨hmoov, hinit ▸ hne⟩, hinit, htracks]
  rfl

theorem push_moof {moof : Bytes} {f : Fragment} (hne : moof ≠ []) (hsize : 8 + moof.length ≤ maxInt32)
    (hparse : parseSourceMoof (box boxMoof moof) (track 1) (track 2) 0 0 = .ok f) :
    ∃ r, BoxReader.push config { reader := initialized } (box boxMoof moof) = .ok { reader := r } ∧
      Waiting f r := by
  have hmax : maxInt32 < 2 ^ 32 := by decide
  obtain ⟨r₁, hbegin, htype, htarget, hmoof, hwaiting, hvideoHint, haudioHint⟩ : ∃ r₁, Reader.beginBox
      { initialized with boxHeader := put32 (8 + moof.length) ++ put32 boxMoof, currentBoxType := boxMoof }
      (8 + moof.length) 8 = .ok r₁ ∧ r₁.currentBoxType = boxMoof ∧ r₁.currentTarget = .moof ∧
      r₁.sourceMoof = put32 (8 + moof.length) ++ put32 boxMoof ∧
      Waiting f { r₁.resetBoxState with pending := some f } ∧ r₁.videoHint = 0 ∧ r₁.audioHint = 0 := by
    rw [Reader.beginBox, require_bind (by omega), require_bind (fun _ => hsize),
      Reader.endInit, if_pos ⟨rfl, Or.inr rfl⟩, completeInit_initialized rfl rfl, ok_bind,
      if_neg (fun h => absurd (show true = false from h) (by decide)),
        Reader.beginMediaBox_moof rfl rfl rfl rfl]
    exact ⟨_, rfl, rfl, rfl, rfl, ⟨rfl, rfl, rfl, rfl, rfl, rfl, rfl, rfl, rfl, rfl, rfl⟩, rfl, rfl⟩
  have hwrite : r₁.writeCurrentBoxData moof = { r₁ with sourceMoof := box boxMoof moof } := by
    simp [Reader.writeCurrentBoxData, htarget, hmoof, box]
  obtain ⟨r₂, hcomplete, hdone⟩ : ∃ r₂, Reader.completeBox config
      { r₁ with sourceMoof := box boxMoof moof, currentBoxRemaining := 0 } = .ok (r₂, false) ∧
        Waiting f r₂.resetBoxState := by
    have hmoofParse := @completeMoof_of_parse
      { r₁ with sourceMoof := box boxMoof moof, currentBoxRemaining := 0 } f hwaiting.video hwaiting.audio
      (by
        show parseSourceMoof (box boxMoof moof) r₁.videoTrack r₁.audioTrack r₁.videoHint r₁.audioHint = _
        rw [hvideoHint, haudioHint, show r₁.videoTrack = _ from hwaiting.videoTrack,
          show r₁.audioTrack = _ from hwaiting.audioTrack, hparse])
    obtain ⟨vh, vt, ah, at', hremember⟩ := Reader.rememberDuration_eq
      { r₁ with sourceMoof := box boxMoof moof, currentBoxRemaining := 0 } f
    rw [Reader.completeBox, if_neg (by rw [htype]; decide), if_neg (by rw [htype]; decide),
      if_neg (by rw [htype]; decide), if_pos htype, hmoofParse, ok_bind, hremember]
    exact ⟨_, rfl, rfl, rfl, hwaiting.initDone, hwaiting.sourceFinalMoovDone, hwaiting.sourceMfraDone, rfl,
      hwaiting.video, hwaiting.audio, hwaiting.sourcePayload, hwaiting.videoTrack, hwaiting.audioTrack⟩
  have hprocess := @Reader.processBytes_box config _ _ _ _ _ _ rfl rfl
    (show boxMoof < 2 ^ 32 by decide) (by omega) hne hbegin (by rw [hwrite]; exact hcomplete)
  have hbox : box boxMoof moof ≠ [] := ne_nil_of_length_pos (by rw [box_length]; omega)
  exact ⟨_, BoxReader.push_of_quiet rfl hbox hprocess fun _ => rfl, hdone⟩

theorem push_mdat {f g : Fragment} {r : Reader} (h : Waiting f r)
    (hattach : ∀ fromMoof : Int, attachPayload f 0 0 fromMoof = .ok g) (htrack : g.trackID = 1)
    (hsync : g.startsWithSync = true) :
    ∃ r', BoxReader.push config { reader := r } (box boxMdat []) = .ok { reader := r' } ∧ r'.video = [g] := by
  obtain ⟨r₁, hbegin, htype, hstart, hwaiting⟩ : ∃ r₁, Reader.beginBox
      { r with boxHeader := put32 8 ++ put32 boxMdat, currentBoxType := boxMdat } 8 8 = .ok r₁ ∧
      r₁.currentBoxType = boxMdat ∧ r₁.currentPayloadStart = 0 ∧ Waiting f r₁.resetBoxState := by
    rw [Reader.beginBox, require_bind (by decide), require_bind (fun _ => by decide),
      Reader.endInit, if_neg (fun hinit => absurd (h.initDone.symm.trans hinit.1) (by decide)), ok_bind,
      if_neg (fun hinit => absurd (h.initDone.symm.trans hinit) (by decide))]
    refine ⟨_, Reader.beginMediaBox_mdat (by exact h.sourceFinalMoovDone) (by exact h.sourceMfraDone) rfl
      (by simp only [h.pending, ne_eq, reduceCtorEq, not_false_eq_true]) 8 8, rfl, ?_, rfl, rfl, h.initDone,
      h.sourceFinalMoovDone, h.sourceMfraDone, h.pending, h.video, h.audio, h.sourcePayload, h.videoTrack,
      h.audioTrack⟩
    show r.sourcePayload.length = 0
    rw [h.sourcePayload, length_nil]
  have hquiet : r.tryBuildSegment config = .ok (r, false) := by
    rw [Reader.tryBuildSegment, Reader.selectVideoCount, h.video]
    rfl
  obtain ⟨r₂, hmdat, hvideo⟩ : ∃ r₂, r₁.completeMdat = .ok r₂ ∧ r₂.video = [g] := by
    have hlen : (r₁.sourcePayload.length : Int) = 0 := by
      rw [show r₁.sourcePayload = [] from hwaiting.sourcePayload]
      rfl
    simp only [Reader.completeMdat, show r₁.pending = some f from hwaiting.pending, hstart, hlen,
      Int.natCast_zero, Int.sub_zero, hattach, ok_bind, Reader.enqueue]
    rw [if_pos (htrack.trans (by rw [show r₁.videoTrack = _ from hwaiting.videoTrack]; rfl)),
      show r₁.video = [] from hwaiting.video]
    exact ⟨_, rfl, rfl⟩
  have hsegment : ∀ q : Reader, q.video = [g] → q.tryBuildSegment config = .ok (q, false) := by
    intro q hq
    have hcount : q.selectVideoCount config = .ok 0 := by
      rw [Reader.selectVideoCount, hq]
      dsimp only
      rw [require_bind hsync]
      exact congrArg Except.ok (ite_self 0)
    rw [Reader.tryBuildSegment, hcount]
    rfl
  have hcomplete : r₁.completeBox config = .ok (r₂, false) := by
    rw [Reader.completeBox, if_neg (by rw [htype]; decide), if_neg (by rw [htype]; decide),
      if_neg (by rw [htype]; decide), if_neg (by rw [htype]; decide), if_pos htype, hmdat, ok_bind,
        hsegment _ hvideo]
  have hprocess := Reader.processBytes_box_nil h.boxHeader h.boxHeaderRequired
    (show boxMdat < 2 ^ 32 by decide) hbegin hcomplete
  have hbox : box boxMdat [] ≠ [] := ne_nil_of_length_pos (by rw [box_length]; decide)
  exact ⟨_, BoxReader.push_of_quiet hquiet hbox hprocess fun _ => rfl, hvideo⟩

theorem sizes_queued (n : Nat) : sizes (queued n).samples = n * 2 ^ 50 := by
  have hsamples : (queued n).samples = (fragment n).samples := by
    show (setOffsets 0 (List.replicate n run)).flatMap Run.samples = (List.replicate n run).flatMap Run.samples
    rw [flatMap_def, flatMap_def, setOffsets_map Run.samples (fun _ _ => rfl)]
  rw [hsamples, sizes_fragment]

/-- The calls that hand over an initialization, a `moof` with `n` such runs and an empty `mdat`. -/
def calls (n : Nat) : List BoxReader.Call :=
  [.push moov, .push (box boxMoof (moofBody n)), .push (box boxMdat [])]

theorem run_calls {n : Nat} (hpos : 0 < n) (hlimit : 60 + n * 16 ≤ maxInt32)
    (hwrap : toInt64 (n * 2 ^ 50 : Nat) = 0) :
    ∃ r, Lib.run (BoxReader.call config) fresh (calls n) = some { reader := r } ∧ r.video = [queued n] := by
  have hne : moofBody n ≠ [] := ne_nil_of_length_pos (by rw [moofBody_length]; omega)
  obtain ⟨r₁, hmoof, hwaiting⟩ :=
    push_moof hne (by rw [moofBody_length]; omega) (parseSourceMoof_moof hpos hlimit)
  obtain ⟨r₂, hmdat, hvideo⟩ := push_mdat hwaiting (attachPayload_fragment hwrap) rfl rfl
  refine ⟨r₂, ?_, hvideo⟩
  simp only [calls, Lib.run, BoxReader.call, push_moov, hmoof, hmdat, Except.toOption, Option.bind_some]

end Oversized

end TorrServer.Gstreamer.Mp4
