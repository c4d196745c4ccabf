/-
# Gstreamer.Mp4.Retiming — a guessed duration becomes exact.

A `moof` without durations gets them from a hint, the last duration seen on its track. The next `moof` of the
track tells where the guessed sample really ended: `retimeFragment` gives the last sample of the last run with a
guess the duration that makes the fragment end at the new `tfdt`.

The fragments the reader can have queued (`Received`) count their bytes and their durations right, the latter
modulo `2 ^ 64`.
-/
import TorrServer.Gstreamer.Mp4.Accepted
import TorrServer.Gstreamer.Mp4.Reader

namespace TorrServer.Gstreamer.Mp4

open Lib List

variable {samples : List Sample} {s : Sample} {f g : Fragment} {trackID decodeTime exactDuration : Nat}
  {before after : List Run} {videoTrack audioTrack : TrackInfo}

/-! ## One fragment -/

theorem modifyLast_eq {α : Type} {p : α → Bool} {change : α → α} {before after : List α} {x : α}
    (hx : p x = true) (hafter : ∀ y ∈ after, p y = false) :
    modifyLast p change (before ++ x :: after) = before ++ change x :: after := by
  have hany : after.any p = false := by
    rw [any_eq_false]
    intro y hy
    rw [hafter y hy]
    exact Bool.false_ne_true
  induction before with
  | nil => rw [nil_append, modifyLast, hany, if_neg Bool.false_ne_true, if_pos hx, nil_append]
  | cons y before ih =>
    have hrest : (before ++ x :: after).any p = true := by
      rw [any_eq_true]
      exact ⟨x, by simp, hx⟩
    rw [cons_append, modifyLast, if_pos hrest, ih, cons_append]

theorem retimeRun_eq {run : Run} (h : run.samples = samples ++ [s]) (oldDuration exactDuration : Nat) :
    retimeRun oldDuration exactDuration run = { run with
      samples := samples ++ [{ s with duration := exactDuration }]
      duration := (run.duration + 2 ^ 64 - oldDuration + exactDuration) % 2 ^ 64 } := by
  have hlast : run.samples.length - 1 = samples.length := by
    rw [h, length_append, length_singleton, Nat.add_sub_cancel]
  have hmodify : (samples ++ [s]).modify samples.length (fun s => { s with duration := exactDuration })
      = samples ++ [{ s with duration := exactDuration }] := by
    clear h hlast
    induction samples with
    | nil => rfl
    | cons x samples ih => rw [cons_append, length_cons, modify_succ_cons, ih]; rfl
  rw [retimeRun, hlast, h, hmodify]

/-- What `retimeFragment` found and did: `run` is the last run with guesses, `s` its last sample. -/
structure Retimes (f g : Fragment) (decodeTime : Nat) (before after : List Run) (run : Run)
    (samples : List Sample) (s : Sample) (exactDuration : Nat) : Prop where
  runs_eq : f.runs = before ++ run :: after
  samples_eq : run.samples = samples ++ [s]
  duration_le : s.duration ≤ f.duration
  start_le : (f.decodeTime + (f.duration - s.duration)) % 2 ^ 64 ≤ decodeTime
  exact_eq : exactDuration = decodeTime - (f.decodeTime + (f.duration - s.duration)) % 2 ^ 64
  exact_le : exactDuration ≤ maxUint32
  result : g = { f with
    runs := (before ++ { run with
        samples := samples ++ [{ s with duration := exactDuration }]
        duration := (run.duration + 2 ^ 64 - s.duration + exactDuration) % 2 ^ 64 } :: after).map
      fun run => { run with hasInferredDuration := false }
    duration := (f.duration - s.duration + exactDuration) % 2 ^ 64
    hasInferredDuration := false }

theorem retimeFragment_retimes (h : retimeFragment f trackID decodeTime = .ok (g, exactDuration)) :
    ∃ before after run samples s, Retimes f g decodeTime before after run samples s exactDuration := by
  rw [retimeFragment] at h
  cases hfind : f.runs.reverse.find? Run.hasInferredDuration with
  | none =>
    rw [hfind] at h
    cases h
  | some run =>
    rw [hfind] at h
    obtain ⟨hinferred, after, before, hreverse, hafter⟩ := find?_eq_some_iff_append.mp hfind
    have hruns : f.runs = before.reverse ++ run :: after.reverse := by
      rw [← reverse_reverse f.runs, hreverse]
      simp
    have hrest : ∀ y ∈ after.reverse, y.hasInferredDuration = false := by
      intro y hy
      simpa using hafter y (mem_reverse.mp hy)
    cases hlast : run.samples.getLast? with
    | none =>
      simp only [hlast] at h
      cases h
    | some s =>
      simp only [hlast, bind_eq_ok, require_eq_ok, pure_eq_ok, Prod.mk.injEq] at h
      obtain ⟨-, hle, -, hstart, -, hexact, rfl, rfl⟩ := h
      have hsamples : run.samples = run.samples.dropLast ++ [s] :=
        (dropLast_append_getLast? s hlast).symm
      refine ⟨before.reverse, after.reverse, run, run.samples.dropLast, s, hruns, hsamples, hle,
        hstart, rfl, hexact, ?_⟩
      rw [hruns, modifyLast_eq hinferred hrest, retimeRun_eq hsamples]

/-- **A retimed fragment ends where the next begins.** -/
theorem Retimes.endTime_eq {run : Run} (h : Retimes f g decodeTime before after run samples s exactDuration)
    (htime : decodeTime < 2 ^ 64) : g.endTime = decodeTime := by
  have hstart := h.start_le
  rw [h.result, Fragment.endTime]
  show (f.decodeTime + (f.duration - s.duration + exactDuration) % 2 ^ 64) % 2 ^ 64 = decodeTime
  have hmod : (f.decodeTime + (f.duration - s.duration + exactDuration)) % 2 ^ 64
      = ((f.decodeTime + (f.duration - s.duration)) % 2 ^ 64 + exactDuration) % 2 ^ 64 := by
    rw [Nat.mod_add_mod, Nat.add_assoc]
  rw [Nat.add_mod_mod, hmod, h.exact_eq, Nat.add_sub_cancel' hstart, Nat.mod_eq_of_lt htime]

/-- The samples of the fragment, with one duration changed. -/
theorem Retimes.samples_of {run : Run} (h : Retimes f g decodeTime before after run samples s exactDuration) :
    ∃ a b, f.samples = a ++ s :: b ∧ g.samples = a ++ { s with duration := exactDuration } :: b := by
  refine ⟨before.flatMap Run.samples ++ samples, after.flatMap Run.samples, ?_, ?_⟩
  · rw [Fragment.samples, h.runs_eq, flatMap_append, flatMap_cons, h.samples_eq]
    simp
  · rw [Fragment.samples, h.result]
    simp [flatMap_map, flatMap_append]

/-! ## Queued fragments -/

/-- What every queued fragment satisfies, also one with guessed or corrected durations. -/
structure Fragment.Consistent (f : Fragment) : Prop where
  timescale_ne : f.timescale ≠ 0
  runs_ne : f.runs ≠ []
  samples_ne : ∀ run ∈ f.runs, run.samples ≠ []
  duration_eq : f.duration = durations f.samples % 2 ^ 64
  payload : f.HasPayload

theorem consistent_of_attach {f' : Fragment} {start len payloadFromMoof : Int}
    (hf : f.Sound videoTrack audioTrack)
    (h : attachPayload f start len payloadFromMoof = .ok f') : f'.Consistent := by
  have hpayload := attachPayload_hasPayload hf.decodeTime_lt (fun run hrun => (hf.runs run hrun).dataSize_eq) h
  have hsound := (attachPayload_attached hf h).1
  refine ⟨hsound.timescale_ne, hsound.runs_ne, fun run hrun => (hsound.runs run hrun).samples_ne, ?_,
    hpayload⟩
  rw [← hsound.duration_eq]
  exact (Nat.mod_eq_of_lt hsound.duration_lt).symm

/-- The runs lie where they lay. -/
theorem consecutive_congr {runs runs' : List Run} {start : Nat}
    (h : runs'.map (fun run => (run.payloadOffset, run.dataSize))
      = runs.map fun run => (run.payloadOffset, run.dataSize)) :
    Consecutive start runs → Consecutive start runs' := by
  induction runs generalizing runs' start with
  | nil =>
    intro _
    rw [map_nil, map_eq_nil_iff] at h
    rw [h]
    trivial
  | cons run runs ih =>
    intro hruns
    obtain ⟨run', rest, rfl, hrun, hrest⟩ := map_eq_cons_iff.mp h
    obtain ⟨hoffset, hsize⟩ := Prod.mk.inj hrun
    refine ⟨hoffset.trans hruns.1, ih hrest ?_⟩
    rw [hsize]
    exact hruns.2

theorem Fragment.Consistent.retime (hf : f.Consistent)
    (h : retimeFragment f trackID decodeTime = .ok (g, exactDuration)) :
    g.Consistent := by
  obtain ⟨before, after, run, samples, s, hretimes⟩ := retimeFragment_retimes h
  obtain ⟨a, b, hfsamples, hgsamples⟩ := hretimes.samples_of
  have hle := hretimes.duration_le
  have hduration := hf.duration_eq
  have hsize := hf.payload.dataSize_eq
  have hsizes : sizes g.samples = sizes f.samples := by
    rw [hfsamples, hgsamples, sizes_append, sizes_append, sizes_cons, sizes_cons]
  have hdurations : durations g.samples + s.duration = durations f.samples + exactDuration := by
    rw [hfsamples, hgsamples, durations_append, durations_append, durations_cons, durations_cons]
    dsimp only
    omega
  have hgdur : g.duration = (f.duration - s.duration + exactDuration) % 2 ^ 64 := by rw [hretimes.result]
  have hruns := hretimes.runs_eq
  have hmem : ∀ r ∈ before ++ after, r ∈ f.runs := by
    intro r hr
    rw [hruns]
    rcases mem_append.mp hr with hr | hr
    · exact mem_append_left _ hr
    · exact mem_append_right _ (mem_cons_of_mem _ hr)
  -- one run gets the exact duration; the others only lose their mark
  have hgruns : ∀ r ∈ g.runs, (∃ r' ∈ before ++ after, r = { r' with hasInferredDuration := false }) ∨
      (r.samples = samples ++ [{ s with duration := exactDuration }] ∧ r.dataSize = run.dataSize) := by
    intro r hr
    rw [hretimes.result] at hr
    obtain ⟨r', hr', rfl⟩ := mem_map.mp hr
    rcases mem_append.mp hr' with hr' | hr'
    · exact .inl ⟨r', mem_append_left _ hr', rfl⟩
    · rcases mem_cons.mp hr' with rfl | hr'
      · exact .inr ⟨rfl, rfl⟩
      · exact .inl ⟨r', mem_append_right _ hr', rfl⟩
  refine ⟨?_, ?_, ?_, by omega, ⟨?_, ?_⟩, ?_, ?_⟩
  · rw [hretimes.result]
    exact hf.timescale_ne
  · rw [hretimes.result]
    simp
  · intro r hr
    rcases hgruns r hr with ⟨r', hr', rfl⟩ | ⟨hsamples, -⟩
    · exact hf.samples_ne r' (hmem r' hr')
    · rw [hsamples]
      simp
  · refine consecutive_congr ?_ hf.payload.consecutive
    rw [hretimes.result, hruns]
    simp [Function.comp_def]
  · rw [hsizes, ← hf.payload.len_eq, hretimes.result]
  · rw [hretimes.result]
    exact hf.payload.decodeTime_lt
  · intro r hr
    rcases hgruns r hr with ⟨r', hr', rfl⟩ | ⟨hsamples, hdata⟩
    · exact hsize r' (hmem r' hr')
    · have hrun := hsize run (by rw [hruns]; simp)
      rw [hsamples, hdata, hrun, hretimes.samples_eq, sizes_append, sizes_append]
      rfl

theorem Fragment.Consistent.divide {l r : Fragment} {n : Nat} (hf : f.Consistent)
    (h : splitFragmentAtSample f n = .ok (l, r)) : l.Consistent ∧ r.Consistent := by
  have hcuts : InTwo f n l r := splitFragmentAtSample_cuts hf.payload h
  obtain ⟨s, hcut, -, ⟨hlne, hrne⟩, -, -, -, hleft, hright⟩ := splitFragmentAtSample_eq_ok h
  constructor
  · refine ⟨?_, ?_, ?_, hcuts.left_duration, hcuts.left_payload⟩
    · rw [hcuts.left_track.timescale_eq]
      exact hf.timescale_ne
    · rw [hleft]
      exact hlne
    · intro run hrun
      rw [hleft] at hrun
      obtain ⟨_, _, hpart⟩ := hcut.left.parts run hrun
      exact hpart.samples_ne
  · refine ⟨?_, ?_, ?_, hcuts.right_duration, hcuts.right_payload⟩
    · rw [hcuts.right_track.timescale_eq]
      exact hf.timescale_ne
    · rw [hright]
      exact hrne
    · intro run hrun
      rw [hright] at hrun
      obtain ⟨_, _, hpart⟩ := hcut.right.parts run hrun
      exact hpart.samples_ne

theorem Fragment.Consistent.moved (hf : f.Consistent) (start : Nat) :
    Fragment.Consistent { f with payloadStart := start } :=
  ⟨hf.timescale_ne, hf.runs_ne, hf.samples_ne, hf.duration_eq, hf.payload.toAttached.moved start,
    hf.payload.decodeTime_lt, hf.payload.dataSize_eq⟩

/-- The fragments the reader can have queued: parsed and attached; then corrected by the next `moof`, cut, and
moved. -/
inductive Received (videoTrack audioTrack : TrackInfo) : Fragment → Prop
  | parsed {moof : Bytes} {videoHint audioHint : UInt32} {f f' : Fragment}
      {start len payloadFromMoof : Int}
      (hparse : parseSourceMoof moof videoTrack audioTrack videoHint audioHint = .ok f)
      (hattach : attachPayload f start len payloadFromMoof = .ok f') : Received videoTrack audioTrack f'
  | retimed {f g : Fragment} {trackID decodeTime exactDuration : Nat}
      (hf : Received videoTrack audioTrack f)
      (hretime : retimeFragment f trackID decodeTime = .ok (g, exactDuration)) :
      Received videoTrack audioTrack g
  | left {f l r : Fragment} {n : Nat} (hf : Received videoTrack audioTrack f)
      (hsplit : splitFragmentAtSample f n = .ok (l, r)) : Received videoTrack audioTrack l
  | right {f l r : Fragment} {n : Nat} (hf : Received videoTrack audioTrack f)
      (hsplit : splitFragmentAtSample f n = .ok (l, r)) : Received videoTrack audioTrack r
  | moved {f : Fragment} (start : Nat) (hf : Received videoTrack audioTrack f) :
      Received videoTrack audioTrack { f with payloadStart := start }

/-- **Queued fragments are consistent.** -/
theorem Received.consistent (h : Received videoTrack audioTrack f) : f.Consistent := by
  induction h with
  | parsed hparse hattach => exact consistent_of_attach (parseSourceMoof_sound hparse) hattach
  | retimed _ hretime ih => exact ih.retime hretime
  | left _ hsplit ih => exact (ih.divide hsplit).1
  | right _ hsplit ih => exact (ih.divide hsplit).2
  | moved start _ ih => exact ih.moved start

end TorrServer.Gstreamer.Mp4
