/-
# Gstreamer.Mp4.CutErrors — when cutting the audio fails.

The parser asks every run for a duration and for bytes, but not every sample. `splitFragmentAtSample` rebuilds
the runs on both sides of the cut and asks the same of every piece. A cut that leaves only samples without a
duration, or only empty samples, in a piece of a run is therefore an error, although the parser accepted the
stream. `Fragment.CanCut` says which cuts go through.
-/
import TorrServer.Gstreamer.Mp4.AudioCut
import TorrServer.Gstreamer.Mp4.Retiming

namespace TorrServer.Gstreamer.Mp4

open Lib List

variable {n k : Nat} {run : Run} {runs : List Run} {s : SplitState}

/-! ## Pieces of runs -/

/-- The samples have a duration and bytes, as `buildExplicitRun` asks of a run. -/
def HasTimeAndBytes (samples : List Sample) : Prop := durations samples ≠ 0 ∧ sizes samples ≠ 0

instance instDecidableHasTimeAndBytes (samples : List Sample) : Decidable (HasTimeAndBytes samples) :=
  inferInstanceAs (Decidable (_ ∧ _))

/-- The pieces into which a cut after `n` samples divides the runs; most are whole runs. -/
def pieces : Nat → List Run → List (List Sample)
  | _, [] => []
  | n, run :: runs =>
    ([run.samples.take n, run.samples.drop n].filter fun piece => piece ≠ []) ++
      pieces (n - run.samples.length) runs

/-- A cut after `n` samples leaves time and bytes in every piece, and the counts fit an `int64`. -/
def Fragment.CanCut (f : Fragment) (n : Nat) : Prop :=
  sizes f.samples ≤ maxInt64 ∧ ∀ piece ∈ pieces n f.runs, HasTimeAndBytes piece

instance instDecidableCanCut (f : Fragment) (n : Nat) : Decidable (f.CanCut n) :=
  inferInstanceAs (Decidable (_ ∧ _))

theorem forall_pieces_cons {P : List Sample → Prop} :
    (∀ piece ∈ pieces n (run :: runs), P piece) ↔
      (run.samples.take n ≠ [] → P (run.samples.take n)) ∧
        (run.samples.drop n ≠ [] → P (run.samples.drop n)) ∧
          ∀ piece ∈ pieces (n - run.samples.length) runs, P piece := by
  simp only [pieces, mem_append, mem_filter, mem_cons, not_mem_nil, or_false, decide_eq_true_eq]
  constructor
  · intro h
    exact ⟨fun hne => h _ (.inl ⟨.inl rfl, hne⟩), fun hne => h _ (.inl ⟨.inr rfl, hne⟩),
      fun piece hpiece => h piece (.inr hpiece)⟩
  · rintro ⟨hleft, hright, hrest⟩ piece (⟨rfl | rfl, hne⟩ | hpiece)
    · exact hleft hne
    · exact hright hne
    · exact hrest piece hpiece

theorem explicitTotals_succeeds {samples : List Sample} {duration dataSize : Nat}
    (hduration : duration + durations samples ≤ maxUint64)
    (hsize : dataSize + sizes samples ≤ maxUint64) :
    explicitTotals samples duration dataSize
      = .ok (duration + durations samples, dataSize + sizes samples) := by
  induction samples generalizing duration dataSize with
  | nil => rfl
  | cons s samples ih =>
    rw [durations_cons] at hduration
    rw [sizes_cons] at hsize
    rw [explicitTotals, require_bind (by omega), require_bind (by omega),
      ih (by omega) (by omega), durations_cons, sizes_cons, Nat.add_assoc, Nat.add_assoc]

/-- `buildExplicitRun` succeeds on samples with time and bytes, unless the totals overflow. -/
theorem buildExplicitRun_succeeds (run : Run) {samples : List Sample} (hne : samples ≠ [])
    (hduration : durations samples ≤ maxUint64) (hsize : sizes samples ≤ maxUint64)
    (hhas : HasTimeAndBytes samples) :
    ∃ part, buildExplicitRun run samples = .ok part ∧ part.dataSize = sizes samples := by
  have htotals := @explicitTotals_succeeds samples 0 0 (by omega) (by omega)
  rw [Nat.zero_add, Nat.zero_add] at htotals
  rw [buildExplicitRun, require_bind hne, htotals, ok_bind]
  dsimp only
  rw [require_bind (show durations samples ≠ 0 ∧ sizes samples ≠ 0 from hhas)]
  exact ⟨_, rfl, rfl⟩

theorem buildExplicitRun_hasTimeAndBytes {part : Run} {samples : List Sample}
    (h : buildExplicitRun run samples = .ok part) : HasTimeAndBytes samples := by
  simp only [buildExplicitRun, bind_eq_ok, Prod.exists, require_eq_ok, pure_eq_ok] at h
  obtain ⟨-, -, duration, dataSize, htotals, -, hhas, -⟩ := h
  obtain ⟨rfl, rfl⟩ := explicitTotals_eq htotals
  rwa [Nat.zero_add, Nat.zero_add] at hhas

/-! ## The loop of the split -/

theorem splitLeft_succeeds (hduration : durations run.samples ≤ maxUint64)
    (hsize : s.leftBytes + s.rightBytes + sizes run.samples ≤ maxInt64)
    (hhas : run.samples.take k ≠ [] → HasTimeAndBytes (run.samples.take k)) (hrun : run.samples ≠ []) :
    ∃ t, splitLeft s run k = .ok t ∧ t.leftBytes = s.leftBytes + sizes (run.samples.take k) ∧
      t.rightBytes = s.rightBytes ∧ t.remaining = s.remaining - k := by
  have htotal : sizes (run.samples.take k) ≤ sizes run.samples ∧
      durations (run.samples.take k) ≤ durations run.samples := by
    rw [← take_append_drop k run.samples, sizes_append, durations_append, take_append_drop]
    omega
  have hmax : maxInt64 ≤ maxUint64 := by decide
  by_cases hk : 0 < k
  · have hne : run.samples.take k ≠ [] := by
      rw [Ne, take_eq_nil_iff, not_or]
      exact ⟨by omega, hrun⟩
    obtain ⟨part, hpart, hdata⟩ := buildExplicitRun_succeeds run hne (by omega) (by omega)
      (hhas hne)
    rw [splitLeft, if_pos hk, hpart, ok_bind, require_bind (by omega)]
    exact ⟨_, rfl, by rw [← hdata], rfl, rfl⟩
  · obtain rfl : k = 0 := by omega
    rw [splitLeft, if_neg hk]
    exact ⟨s, rfl, by simp, rfl, rfl⟩

theorem splitRight_succeeds (hduration : durations run.samples ≤ maxUint64)
    (hsize : s.rightBytes + sizes (run.samples.drop k) ≤ maxInt64)
    (hhas : run.samples.drop k ≠ [] → HasTimeAndBytes (run.samples.drop k)) :
    ∃ t, splitRight s run k = .ok t ∧ t.leftBytes = s.leftBytes ∧
      t.rightBytes = s.rightBytes + sizes (run.samples.drop k) ∧ t.remaining = s.remaining := by
  have htotal : durations (run.samples.drop k) ≤ durations run.samples := by
    rw [← take_append_drop k run.samples, durations_append, take_append_drop]
    omega
  have hmax : maxInt64 ≤ maxUint64 := by decide
  by_cases hk : k < run.samples.length
  · have hne : run.samples.drop k ≠ [] := by
      rw [Ne, drop_eq_nil_iff]
      omega
    obtain ⟨part, hpart, hdata⟩ := buildExplicitRun_succeeds run hne (by omega) (by omega)
      (hhas hne)
    rw [splitRight, if_pos hk, hpart, ok_bind, require_bind (by omega)]
    exact ⟨_, rfl, rfl, by rw [← hdata], rfl⟩
  · rw [splitRight, if_neg hk]
    exact ⟨s, rfl, rfl, by rw [drop_of_length_le (by omega)]; rfl, rfl⟩

/-- A round cuts a run after what is still to be taken. -/
theorem take_drop_remaining (samples : List Sample) (n : Nat) :
    samples.take (min n samples.length) = samples.take n ∧
      samples.drop (min n samples.length) = samples.drop n := by
  rw [← take_eq_take_min, ← drop_eq_drop_min]
  exact ⟨rfl, rfl⟩

/-- **The loop goes through** if every piece has time and bytes. -/
theorem foldlM_splitRun_succeeds (hne : ∀ run ∈ runs, run.samples ≠ [])
    (hduration : durations (runs.flatMap Run.samples) ≤ maxUint64)
    (hsize : s.leftBytes + s.rightBytes + sizes (runs.flatMap Run.samples) ≤ maxInt64)
    (hpieces : ∀ piece ∈ pieces s.remaining runs, HasTimeAndBytes piece) :
    ∃ s', runs.foldlM splitRun s = .ok s' := by
  induction runs generalizing s with
  | nil => exact ⟨s, rfl⟩
  | cons run runs ih =>
    obtain ⟨hleft, hright, hrest⟩ := forall_pieces_cons.mp hpieces
    obtain ⟨htake, hdrop⟩ := take_drop_remaining run.samples s.remaining
    have hrun := hne run (by simp)
    rw [flatMap_cons, durations_append] at hduration
    rw [flatMap_cons, sizes_append] at hsize
    have hparts : sizes run.samples
        = sizes (run.samples.take s.remaining) + sizes (run.samples.drop s.remaining) := by
      rw [← sizes_append, take_append_drop]
    rw [← htake] at hleft
    rw [← hdrop] at hright
    obtain ⟨t, ht, htl, htr, htrem⟩ := splitLeft_succeeds (s := s)
      (k := min s.remaining run.samples.length) (by omega) (by omega) hleft hrun
    rw [htake] at htl
    obtain ⟨u, hu, hul, hur, hurem⟩ := splitRight_succeeds (s := t)
      (k := min s.remaining run.samples.length) (by omega) (by rw [hdrop]; omega) hright
    rw [hdrop] at hur
    have hround : splitRun s run = .ok u := by
      rw [splitRun, require_bind hrun]
      dsimp only
      rw [ht, ok_bind, hu]
    have hremaining : u.remaining = s.remaining - run.samples.length := by omega
    rw [foldlM_cons, hround, ok_bind]
    exact ih (fun r hr => hne r (mem_cons_of_mem _ hr)) (by omega) (by omega)
      (by rw [hremaining]; exact hrest)

/-- **And only then.** -/
theorem pieces_of_foldlM {s' : SplitState} (h : runs.foldlM splitRun s = .ok s') :
    ∀ piece ∈ pieces s.remaining runs, HasTimeAndBytes piece := by
  induction runs generalizing s with
  | nil => simp [pieces]
  | cons run runs ih =>
    rw [foldlM_cons, bind_eq_ok] at h
    obtain ⟨u, hround, hrest⟩ := h
    simp only [splitRun, bind_eq_ok, require_eq_ok] at hround
    obtain ⟨-, hrun, t, hleft, hright⟩ := hround
    obtain ⟨htake, hdrop⟩ := take_drop_remaining run.samples s.remaining
    have hl : t.remaining = s.remaining - min s.remaining run.samples.length ∧
        (run.samples.take s.remaining ≠ [] → HasTimeAndBytes (run.samples.take s.remaining)) := by
      unfold splitLeft at hleft
      split at hleft
      · simp only [bind_eq_ok, require_eq_ok, pure_eq_ok] at hleft
        obtain ⟨part, hpart, -, -, rfl⟩ := hleft
        rw [htake] at hpart
        exact ⟨rfl, fun _ => buildExplicitRun_hasTimeAndBytes hpart⟩
      · rename_i hzero
        cases hleft
        refine ⟨by omega, fun hne => absurd ?_ hne⟩
        rw [← htake, take_eq_nil_iff]
        exact .inl (by omega)
    have hr : u.remaining = t.remaining ∧
        (run.samples.drop s.remaining ≠ [] → HasTimeAndBytes (run.samples.drop s.remaining)) := by
      unfold splitRight at hright
      split at hright
      · simp only [bind_eq_ok, require_eq_ok, pure_eq_ok] at hright
        obtain ⟨part, hpart, -, -, rfl⟩ := hright
        rw [hdrop] at hpart
        exact ⟨rfl, fun _ => buildExplicitRun_hasTimeAndBytes hpart⟩
      · rename_i hall
        cases hright
        refine ⟨rfl, fun hne => absurd ?_ hne⟩
        rw [← hdrop, drop_eq_nil_iff]
        omega
    have hremaining : u.remaining = s.remaining - run.samples.length := by omega
    have hnext := ih hrest
    rw [hremaining] at hnext
    exact forall_pieces_cons.mpr ⟨hl.2, hr.2, hnext⟩

/-! ## One fragment -/

theorem fragmentSampleCount_succeeds {f : Fragment} (hf : f.Consistent) :
    fragmentSampleCount f = .ok f.samples.length := by
  have hcount : (f.runs.map fun run => run.samples.length).sum = f.samples.length := by
    rw [sum_length_eq_tagged, Fragment.samples, samples_eq_tagged, length_map]
  have hpos : f.samples.length ≠ 0 := by
    cases hruns : f.runs with
    | nil => exact absurd hruns hf.runs_ne
    | cons run runs =>
      have hrun := length_pos_of_ne_nil (hf.samples_ne run (by simp [hruns]))
      rw [Fragment.samples, hruns, flatMap_cons, length_append]
      omega
  rw [fragmentSampleCount, require_bind hf.samples_ne]
  dsimp only
  rw [hcount, require_bind hpos]
  rfl

/-- **Which cuts go through.** -/
theorem splitFragmentAtSample_succeeds_iff {f : Fragment} (hf : f.Consistent)
    (hfits : f.decodeTime + durations f.samples < 2 ^ 64) (hinside : 0 < n ∧ n < f.samples.length) :
    (∃ parts, splitFragmentAtSample f n = .ok parts) ↔ f.CanCut n := by
  constructor
  · rintro ⟨⟨l, r⟩, h⟩
    -- the two parts have as many bytes as the payload, which is an `int`
    have hsizes := sizes_of_split h
    have hsmall := hf.payload.len_le
    simp only [splitFragmentAtSample, finishSplit, bind_eq_ok, require_eq_ok] at h
    obtain ⟨-, -, -, -, s', hloop, -⟩ := h
    exact ⟨by omega, pieces_of_foldlM hloop⟩
  · rintro ⟨hsizes, hpieces⟩
    have hmax : maxUint64 = 2 ^ 64 - 1 := rfl
    obtain ⟨s, hloop⟩ := foldlM_splitRun_succeeds (s := { remaining := n }) hf.samples_ne
      (show durations f.samples ≤ maxUint64 by omega)
      (show 0 + 0 + sizes f.samples ≤ maxInt64 by omega) hpieces
    have hcut := foldlM_splitRun hloop
    have hl := hcut.left
    have hr := hcut.right
    have htagged : (tagged f.runs).length = f.samples.length := by
      rw [Fragment.samples, samples_eq_tagged, length_map]
    have hlen : (tagged s.left).length = n ∧ (tagged s.right).length = f.samples.length - n := by
      rw [hl.entries_eq, hr.entries_eq, length_take, length_drop, htagged]
      omega
    have hsamples : s.left.flatMap Run.samples ++ s.right.flatMap Run.samples = f.samples := by
      rw [samples_eq_tagged, samples_eq_tagged, ← map_append, hl.entries_eq, hr.entries_eq,
        take_append_drop, ← samples_eq_tagged]
      rfl
    have hdurations := congrArg durations hsamples
    have hbytes := congrArg sizes hsamples
    rw [durations_append] at hdurations
    rw [sizes_append] at hbytes
    have hldur := hl.duration_eq
    have hrdur := hr.duration_eq
    have hlbytes := hl.bytes_eq
    have hrbytes := hr.bytes_eq
    have hfdur := hf.duration_eq
    have hpayload : f.payloadLen = sizes f.samples := by
      have hlenEq := hf.payload.len_eq
      rw [toInt64_of_le hsizes] at hlenEq
      exact Int.ofNat_inj.mp hlenEq
    have hne : s.left ≠ [] ∧ s.right ≠ [] := by
      refine ⟨fun hnil => ?_, fun hnil => ?_⟩
      · have h := hlen.1
        rw [hnil] at h
        simp [tagged] at h
        omega
      · have h := hlen.2
        rw [hnil] at h
        simp [tagged] at h
        omega
    have hremaining : s.remaining = 0 := by
      rw [hcut.remaining_eq, htagged]
      omega
    rw [splitFragmentAtSample, fragmentSampleCount_succeeds hf, ok_bind, require_bind hinside, hloop, ok_bind,
      finishSplit, require_bind ⟨hremaining, hne⟩, require_bind (by omega),
      require_bind (by omega), require_bind (by omega), require_bind (by omega)]
    exact ⟨_, rfl⟩

/-- The search meets no error in runs whose times fit. -/
theorem searchRuns_succeeds {runs : List Run} (hne : ∀ run ∈ runs, run.samples ≠ []) (reached : Nat → Bool)
    {time : Nat} (count : Nat) (h : time + durations (runs.flatMap Run.samples) ≤ maxUint64) :
    ∃ result, searchRuns reached runs time count = .ok result := by
  have hruns : searchRuns reached runs time count
      = searchSamples reached (runs.flatMap Run.samples) time count := by
    clear h
    induction runs generalizing time count with
    | nil => rfl
    | cons run runs ih =>
      rw [searchRuns, require_bind (hne run (by simp)), flatMap_cons, searchSamples_append]
      refine bind_congr fun result => ?_
      obtain ⟨time, count, hit⟩ := result
      dsimp only
      rw [ih fun r hr => hne r (mem_cons_of_mem _ hr)]
  rw [hruns]
  generalize runs.flatMap Run.samples = samples at h
  clear hruns
  induction samples generalizing time count with
  | nil => exact ⟨_, rfl⟩
  | cons s samples ih =>
    rw [durations_cons] at h
    rw [searchSamples, require_bind (by omega)]
    split
    · exact ⟨_, rfl⟩
    · exact ih _ (by omega)

/-- The search meets no error in a received fragment whose times fit. -/
theorem findAudioSplitSampleCount_succeeds {f : Fragment} (hf : f.Consistent)
    (hfits : f.decodeTime + durations f.samples < 2 ^ 64) {videoTimescale : Nat}
    (hvideo : videoTimescale ≠ 0) (videoEnd : Nat) :
    ∃ result, findAudioSplitSampleCount videoTimescale videoEnd f = .ok result := by
  have hmax : maxUint64 = 2 ^ 64 - 1 := rfl
  obtain ⟨⟨time', count', hit⟩, hsearch⟩ := searchRuns_succeeds hf.samples_ne (fun audioEnd =>
    scaledGreaterOrEqual audioEnd videoTimescale videoEnd f.timescale) 0
      (show f.decodeTime + durations f.samples ≤ _ by
      omega)
  have hend : hit = true ∨ time' = f.endTime := by
    cases hit with
    | true => exact .inl rfl
    | false =>
      obtain ⟨htime, -⟩ := (searchRuns_searched hsearch).notFound rfl
      right
      rw [htime, Fragment.endTime, hf.duration_eq, Nat.add_mod_mod]
      exact (Nat.mod_eq_of_lt hfits).symm
  rw [findAudioSplitSampleCount, require_bind ⟨hf.timescale_ne, hvideo⟩]
  dsimp only
  rw [hsearch, ok_bind, require_bind hend]
  exact ⟨_, rfl⟩

/-! ## The queue -/

/-- The first sample that reaches the end is sample `n` of `f`, and `f` goes on behind it. -/
structure CutsInside (videoEnd : ℚ) (audio : List Fragment) (f : Fragment) (n : Nat) : Prop where
  place : ∃ before after, audio = before ++ f :: after ∧ ∀ s ∈ timedQueue before, s.ends < videoEnd
  ends : EndsWith videoEnd (f.timed.take n)
  inside : n < f.samples.length

/-- There is one such place. -/
theorem EndsWith.eq_of_isPrefix {videoEnd : ℚ} {a b : List TimedSample} (ha : EndsWith videoEnd a)
    (hb : EndsWith videoEnd b) (hab : a <+: b) : a = b := by
  obtain ⟨before, last, rfl, hlast, -⟩ := ha
  obtain ⟨before', last', rfl, -, hbefore'⟩ := hb
  rcases prefix_concat_iff.mp hab with heq | hshort
  · exact heq
  · -- the last sample of the shorter list would be before the last of the longer
    have hmem : last ∈ before' := hshort.subset (by simp)
    exact absurd hlast (not_le.mpr (hbefore' last hmem))

theorem EndsWith.not_forall_lt {videoEnd : ℚ} {a : List TimedSample} (ha : EndsWith videoEnd a) :
    ∃ s ∈ a, ¬ s.ends < videoEnd := by
  obtain ⟨before, last, rfl, hlast, -⟩ := ha
  exact ⟨last, by simp, not_lt.mpr hlast⟩

section

variable {videoTimescale videoEnd : Nat} {f : Fragment} {rest : List Fragment}

/-- If the end is not in the first fragment, the cut is in the rest. -/
theorem cutsInside_cons_of_lt (hlt : ∀ s ∈ f.timed, s.ends < seconds videoEnd videoTimescale) {g : Fragment} :
    CutsInside (seconds videoEnd videoTimescale) (f :: rest) g n ↔
      CutsInside (seconds videoEnd videoTimescale) rest g n := by
  constructor
  · rintro ⟨⟨before, after, hqueue, hbefore⟩, hends, hinside⟩
    cases before with
    | nil =>
      obtain ⟨rfl, rfl⟩ := List.cons.inj hqueue
      obtain ⟨s, hs, hnot⟩ := hends.not_forall_lt
      exact absurd (hlt s (mem_of_mem_take hs)) hnot
    | cons f' before =>
      obtain ⟨rfl, rfl⟩ := List.cons.inj hqueue
      refine ⟨⟨before, after, rfl, ?_⟩, hends, hinside⟩
      intro s hs
      exact hbefore s (mem_append_right _ hs)
  · rintro ⟨⟨before, after, rfl, hbefore⟩, hends, hinside⟩
    refine ⟨⟨f :: before, after, rfl, ?_⟩, hends, hinside⟩
    intro s hs
    rcases mem_append.mp hs with hs | hs
    · exact hlt s hs
    · exact hbefore s hs

/-- If it is there, the cut is where the search stopped. -/
theorem cutsInside_cons_of_ends (hk : k ≤ f.samples.length)
    (hends : EndsWith (seconds videoEnd videoTimescale) (f.timed.take k)) {g : Fragment} :
    CutsInside (seconds videoEnd videoTimescale) (f :: rest) g n ↔
      g = f ∧ n = k ∧ k < f.samples.length := by
  have hlength : f.timed.length = f.samples.length := timedFrom_length _ _ _
  constructor
  · rintro ⟨⟨before, after, hqueue, hbefore⟩, hends', hinside⟩
    cases before with
    | nil =>
      obtain ⟨rfl, rfl⟩ := List.cons.inj hqueue
      have hsame : f.timed.take n = f.timed.take k := by
        rcases Nat.le_total n k with hle | hle
        · exact hends'.eq_of_isPrefix hends (take_prefix_take_left hle)
        · exact (hends.eq_of_isPrefix hends' (take_prefix_take_left hle)).symm
      have hlen := congrArg List.length hsame
      rw [length_take, length_take, hlength] at hlen
      exact ⟨rfl, by omega, by omega⟩
    | cons f' before =>
      obtain ⟨rfl, rfl⟩ := List.cons.inj hqueue
      obtain ⟨s, hs, hnot⟩ := hends.not_forall_lt
      exact absurd (hbefore s (mem_append_left _ (mem_of_mem_take hs))) hnot
  · rintro ⟨rfl, rfl, hinside⟩
    exact ⟨⟨[], rest, rfl, by simp [timedQueue]⟩, hends, hinside⟩

/-- The fragments in front of the cut meet no error, the one it is in has to be cut there. -/
theorem selectAudioCount_succeeds_of_consistent {audio : List Fragment} (hvideo : videoTimescale ≠ 0)
    (hconsistent : ∀ f ∈ audio, f.Consistent)
    (hfits : ∀ f ∈ audio, f.decodeTime + durations f.samples < 2 ^ 64) :
    (∃ result, selectAudioCount videoTimescale videoEnd audio = .ok result) ↔
      ∀ f n, CutsInside (seconds videoEnd videoTimescale) audio f n → f.CanCut n := by
  induction audio with
  | nil =>
    refine ⟨fun _ f n hcut => ?_, fun _ => ⟨_, rfl⟩⟩
    obtain ⟨before, after, hqueue, -⟩ := hcut.place
    simp at hqueue
  | cons f rest ih =>
    have hf := hconsistent f (by simp)
    have hffits := hfits f (by simp)
    have ih := ih (fun g hg => hconsistent g (mem_cons_of_mem _ hg))
      (fun g hg => hfits g (mem_cons_of_mem _ hg))
    obtain ⟨⟨k, hit⟩, hfind⟩ := findAudioSplitSampleCount_succeeds hf hffits hvideo videoEnd
    have hfinds := findAudioSplitSampleCount_finds hfind
    rw [selectAudioCount, hfind, ok_bind]
    cases hit with
    | false =>
      -- no sample of `f` reaches the end of the video: the cut is further on
      have hlt : ∀ s ∈ f.timed, s.ends < seconds videoEnd videoTimescale := by
        intro s hs
        exact ends_lt hfinds.scales (timescale_of_mem hs) (hfinds.notFound rfl s hs)
      simp only [cutsInside_cons_of_lt hlt, if_true]
      rw [← ih]
      constructor
      · rintro ⟨result, h⟩
        obtain ⟨result', h', -⟩ := bind_eq_ok.mp h
        exact ⟨result', h'⟩
      · rintro ⟨result, h⟩
        rw [h, ok_bind]
        exact ⟨_, rfl⟩
    | true =>
      -- the cut is inside of `f`, or at its end, where nothing is split
      have hstops := hfinds.found rfl
      have hends := hstops.endsWith hfinds.scales
      have hk : 0 < k ∧ k ≤ f.samples.length := by
        obtain ⟨before, last, after, htimed, rfl, -, -⟩ := hstops
        have hlen := congrArg List.length htimed
        rw [Fragment.timed, timedFrom_length, length_append, length_cons] at hlen
        omega
      simp only [cutsInside_cons_of_ends hk.2 hends, Bool.true_eq_false, if_false]
      rw [fragmentSampleCount_succeeds hf, ok_bind, require_bind hk]
      by_cases hinside : k < f.samples.length
      · rw [if_pos hinside]
        constructor
        · rintro ⟨result, h⟩ g n ⟨rfl, rfl, -⟩
          obtain ⟨parts, hsplit, -⟩ := bind_eq_ok.mp h
          exact (splitFragmentAtSample_succeeds_iff hf hffits ⟨hk.1, hinside⟩).mp ⟨parts, hsplit⟩
        · intro h
          obtain ⟨parts, hsplit⟩ := (splitFragmentAtSample_succeeds_iff hf hffits
            ⟨hk.1, hinside⟩).mpr (h f k ⟨rfl, rfl, hinside⟩)
          rw [hsplit, ok_bind]
          exact ⟨_, rfl⟩
      · rw [if_neg hinside]
        exact ⟨fun _ g n hcut => absurd hcut.2.2 hinside, fun _ => ⟨_, rfl⟩⟩

end

/-- **When accepted audio can be cut**: exactly if the cut leaves time and bytes in all pieces of the runs. -/
theorem selectAudioCount_succeeds_iff {videoTrack audioTrack : TrackInfo} {audio : List Fragment}
    (hvideo : videoTrack.timescale ≠ 0) (hreceived : ∀ f ∈ audio, Received videoTrack audioTrack f)
    (hfits : ∀ f ∈ audio, f.decodeTime + durations f.samples < 2 ^ 64) (videoEnd : Nat) :
    (∃ result, selectAudioCount videoTrack.timescale.toNat videoEnd audio = .ok result) ↔
      ∀ f n, CutsInside (seconds videoEnd videoTrack.timescale.toNat) audio f n → f.CanCut n := by
  have hscale : videoTrack.timescale.toNat ≠ 0 := by
    intro hzero
    exact hvideo (UInt32.toNat_inj.mp hzero)
  exact selectAudioCount_succeeds_of_consistent hscale (fun f hf => (hreceived f hf).consistent) hfits

namespace Uneven

/-- A track with millisecond units. -/
def track (id : UInt32) : TrackInfo := { id := id, timescale := 1000 }

/-- An audio `moof` at 1000 with two samples of one byte each. -/
def moof (first second : Nat) : Bytes :=
  box boxMoof (box boxTraf (buildCanonicalTfhd 2 1 ++ writeTfdt 1000 ++
    box boxTrun (put32 0x00000300 ++ put32 2 ++ put32 first ++ put32 1 ++ put32 second ++ put32 1)))

/-- The fragment of that `moof`, as it is queued. -/
def fragment (first second : Nat) : Fragment :=
  { trackID := 2, timescale := 1000, decodeTime := 1000, duration := first + second
    startsWithSync := true, sampleDescriptionIndex := 1, tfhd := buildCanonicalTfhd 2 1
    runs := [{ samples := [⟨first, 1, 0, 0⟩, ⟨second, 1, 0, 0⟩], version := 0
               hasCompositionTimeOffsets := false, duration := first + second, dataSize := 2
               startsWithSync := true }]
    payloadStart := 0, payloadLen := 2 }

theorem received_zero_ten : Received (track 1) (track 2) (fragment 0 10) :=
  @Received.parsed _ _ (moof 0 10) 0 0 { fragment 0 10 with payloadLen := 0 } _ 0 2 0
    (by decide +kernel) (by decide +kernel)

theorem received_five_ten : Received (track 1) (track 2) (fragment 5 10) :=
  @Received.parsed _ _ (moof 5 10) 0 0 { fragment 5 10 with payloadLen := 0 } _ 0 2 0
    (by decide +kernel) (by decide +kernel)

end Uneven

/-- Samples of 5 and 10 ms are cut between them. -/
theorem cut_between_samples :
    (∃ result, selectAudioCount 1000 1003 [Uneven.fragment 5 10] = .ok result) ∧
      ((∃ result, selectAudioCount 1000 1003 [Uneven.fragment 5 10] = .ok result) ↔
        ∀ f n, CutsInside (seconds 1003 1000) [Uneven.fragment 5 10] f n → f.CanCut n) := by
  constructor
  · have hok : (selectAudioCount 1000 1003 [Uneven.fragment 5 10]).isOk = true := by decide +kernel
    cases h : selectAudioCount 1000 1003 [Uneven.fragment 5 10] with
    | error e =>
      rw [h] at hok
      cases hok
    | ok result => exact ⟨result, rfl⟩
  · exact @selectAudioCount_succeeds_iff (Uneven.track 1) (Uneven.track 2) _ (by decide)
      (by simpa using Uneven.received_five_ten) (by decide +kernel) 1003

/-- **An accepted sample without a duration that reaches the end cannot be cut off.** -/
theorem zero_duration_cut_fails : Received (Uneven.track 1) (Uneven.track 2) (Uneven.fragment 0 10) ∧
    (Uneven.fragment 0 10).decodeTime + (Uneven.fragment 0 10).duration < 2 ^ 64 ∧
    selectAudioCount (Uneven.track 1).timescale.toNat 1000 [Uneven.fragment 0 10]
      = .error "invalid derived trun" :=
  ⟨Uneven.received_zero_ten, by decide +kernel, by decide +kernel⟩

end TorrServer.Gstreamer.Mp4
