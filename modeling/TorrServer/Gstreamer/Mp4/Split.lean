/-
# Gstreamer.Mp4.Split — a fragment cut in two, in place.

`splitFragmentAtSample` builds the left part over the runs it is still reading: `left.runs` starts as an empty
slice of the source's own array, and every `append` to it overwrites a run of the source. `splitFragmentInPlace`
is that loop with the array as part of its state. It computes what the loop over lists of `Fragment` computes:
at most one run is written for each one read, so no write reaches a run that is still to be read. `InTwo` says
what a cut after `n` samples is.
-/
import TorrServer.Gstreamer.Mp4.Fragment

namespace TorrServer.Gstreamer.Mp4

open Lib List

variable {runs source : List Run} {samples : List Sample} {duration bytes k n i : Nat} {run part : Run}
  {payloadFromMoof len : Int} {f f' l r : Fragment} {entries : List (Nat × Bool × Sample)} {s t s' : SplitState}

/-! ## Totals -/

/-- The total duration of some samples. -/
def durations (samples : List Sample) : Nat := (samples.map Sample.duration).sum

/-- The total size of some samples. -/
def sizes (samples : List Sample) : Nat := (samples.map Sample.size).sum

@[simp] theorem durations_nil : durations [] = 0 := rfl

@[simp] theorem sizes_nil : sizes [] = 0 := rfl

@[simp] theorem durations_cons (s : Sample) (samples : List Sample) :
    durations (s :: samples) = s.duration + durations samples := by
  simp [durations]

@[simp] theorem sizes_cons (s : Sample) (samples : List Sample) :
    sizes (s :: samples) = s.size + sizes samples := by
  simp [sizes]

@[simp] theorem durations_append (a b : List Sample) : durations (a ++ b) = durations a + durations b := by
  simp [durations]

@[simp] theorem sizes_append (a b : List Sample) : sizes (a ++ b) = sizes a + sizes b := by simp [sizes]

theorem sum_dataSize_eq (h : ∀ run ∈ runs, run.dataSize = sizes run.samples) :
    (runs.map Run.dataSize).sum = sizes (runs.flatMap Run.samples) := by
  induction runs with
  | nil => rfl
  | cons run runs ih =>
    rw [map_cons, sum_cons, flatMap_cons, sizes_append, ih fun r hr => h r (mem_cons_of_mem _ hr),
      h run (by simp)]

theorem explicitTotals_eq {dataSize duration' dataSize' : Nat}
    (h : explicitTotals samples duration dataSize = .ok (duration', dataSize')) :
    duration' = duration + durations samples ∧ dataSize' = dataSize + sizes samples := by
  induction samples generalizing duration dataSize with
  | nil =>
    cases h
    exact ⟨rfl, rfl⟩
  | cons s samples ih =>
    simp only [explicitTotals, bind_eq_ok, require_eq_ok] at h
    obtain ⟨-, -, -, -, h⟩ := h
    obtain ⟨rfl, rfl⟩ := ih h
    simp only [durations_cons, sizes_cons]
    omega

/-! ## Where the bytes are -/

/-- The runs lie one after the other, from `start` on; the offsets are `int64`. -/
def Consecutive : Nat → List Run → Prop
  | _, [] => True
  | start, run :: runs =>
    run.payloadOffset = toInt64 start ∧ Consecutive (start + run.dataSize) runs

theorem consecutive_append (start : Nat) (runs more : List Run) :
    Consecutive start (runs ++ more) ↔
      Consecutive start runs ∧ Consecutive (start + (runs.map Run.dataSize).sum) more := by
  induction runs generalizing start with
  | nil => simp [Consecutive]
  | cons run runs ih => simp [Consecutive, ih, and_assoc, Nat.add_assoc]

/-- The runs with the offsets they then have. -/
def setOffsets : Nat → List Run → List Run
  | _, [] => []
  | start, run :: runs =>
    { run with payloadOffset := toInt64 start } :: setOffsets (start + run.dataSize) runs

theorem consecutive_setOffsets (start : Nat) (runs : List Run) : Consecutive start (setOffsets start runs) := by
  induction runs generalizing start with
  | nil => trivial
  | cons run runs ih => exact ⟨rfl, ih _⟩

theorem mem_setOffsets {start : Nat} (h : run ∈ setOffsets start runs) :
    ∃ src ∈ runs, ∃ o : Int, { src with payloadOffset := o } = run := by
  induction runs generalizing start with
  | nil => cases h
  | cons src runs ih =>
    rcases mem_cons.mp h with rfl | htail
    · exact ⟨src, by simp, _, rfl⟩
    · obtain ⟨src', hmem, o, ho⟩ := ih htail
      exact ⟨src', mem_cons_of_mem _ hmem, o, ho⟩

/-- What depends on the runs only through the fields other than the offset does not change. -/
theorem setOffsets_map {β : Type} (g : Run → β)
    (hg : ∀ run o, g { run with payloadOffset := o } = g run) (start : Nat) (runs : List Run) :
    (setOffsets start runs).map g = runs.map g := by
  induction runs generalizing start with
  | nil => rfl
  | cons run runs ih => simp [setOffsets, hg, ih]

theorem attachRuns_spec {runs' : List Run} {start : Nat} {last : Int}
    (h : attachRuns payloadFromMoof runs (toInt64 start) = .ok (runs', last)) :
    runs' = setOffsets start runs ∧ last = toInt64 (start + (runs.map Run.dataSize).sum : Nat) := by
  induction runs generalizing start runs' with
  | nil =>
    cases h
    exact ⟨rfl, by simp⟩
  | cons run runs ih =>
    simp only [attachRuns, bind_eq_ok, Prod.exists, require_eq_ok, pure_eq_ok, Prod.mk.injEq] at h
    obtain ⟨-, hoffset, -, -, rest, last', hrest, rfl, rfl⟩ := h
    rw [hoffset, toInt64_add, ← Nat.cast_add] at hrest
    obtain ⟨rfl, rfl⟩ := ih hrest
    rw [hoffset]
    exact ⟨rfl, by simp [Nat.add_assoc]⟩

/-- What `attachPayload` does to a fragment. -/
theorem attachPayload_eq {start : Int} (h : attachPayload f start len payloadFromMoof = .ok f') :
    f' = { f with runs := setOffsets 0 f.runs, payloadStart := start.toNat
                  payloadLen := len.toNat } ∧
      0 ≤ start ∧ 0 ≤ len ∧ len = toInt64 ((f.runs.map Run.dataSize).sum : Nat) := by
  simp only [attachPayload, bind_eq_ok, Prod.exists, require_eq_ok, pure_eq_ok] at h
  obtain ⟨-, ⟨hstart, hlen⟩, runs, last, hruns, -, hlast, rfl⟩ := h
  have hzero : ((0 : Nat) : Int) = 0 := rfl
  rw [← toInt64_zero, ← hzero] at hruns
  obtain ⟨rfl, rfl⟩ := attachRuns_spec hruns
  refine ⟨rfl, hstart, hlen, ?_⟩
  rw [← hlast, Nat.zero_add]

theorem setOffsets_samples (start : Nat) (runs : List Run) :
    (setOffsets start runs).flatMap Run.samples = runs.flatMap Run.samples := by
  rw [flatMap_def, flatMap_def, setOffsets_map Run.samples (fun _ _ => rfl)]

/-- Samples whose bytes lie one after the other, each with the position of its first byte. -/
def placed : Int → List Sample → List (Int × Sample)
  | _, [] => []
  | position, s :: samples => (position, s) :: placed (position + s.size) samples

theorem placed_append (position : Int) (a b : List Sample) :
    placed position (a ++ b) = placed position a ++ placed (position + sizes a) b := by
  induction a generalizing position with
  | nil => simp [placed]
  | cons s a ih =>
    rw [cons_append, placed, ih, placed, sizes_cons, cons_append, Nat.cast_add, Int.add_assoc]

/-- Where the offsets of the runs say that the bytes of the samples are in the payload buffer. -/
def Fragment.located (f : Fragment) : List (Int × Sample) :=
  f.runs.flatMap fun run => placed (f.payloadStart + run.payloadOffset) run.samples

/-- Consecutive runs whose offsets do not leave `int64` place their samples without a gap. -/
theorem placed_of_consecutive {base start : Nat} (hsize : ∀ run ∈ runs, run.dataSize = sizes run.samples)
    (hruns : Consecutive start runs) (hle : start + sizes (runs.flatMap Run.samples) ≤ maxInt64) :
    (runs.flatMap fun run => placed (base + run.payloadOffset) run.samples)
      = placed ((base + start : Nat) : Int) (runs.flatMap Run.samples) := by
  induction runs generalizing start with
  | nil => rfl
  | cons run runs ih =>
    obtain ⟨hoffset, hrest⟩ := hruns
    have hrun := hsize run (by simp)
    rw [flatMap_cons, sizes_append] at hle
    have hstart : toInt64 (start : Int) = start := toInt64_of_le (by omega)
    rw [hrun] at hrest
    rw [flatMap_cons, flatMap_cons, placed_append, hoffset, hstart,
      ih (fun r hr => hsize r (mem_cons_of_mem _ hr)) hrest (by omega)]
    congr 2
    push_cast
    omega

/-- A fragment tied to the bytes of an `mdat`: one after the other, the runs are the payload. -/
structure Fragment.Attached (f : Fragment) : Prop where
  consecutive : Consecutive 0 f.runs
  len_eq : (f.payloadLen : Int) = toInt64 (sizes f.samples : Nat)

/-- A fragment as `attachPayload` leaves it: the runs also count the bytes of their samples. -/
structure Fragment.HasPayload (f : Fragment) : Prop extends f.Attached where
  decodeTime_lt : f.decodeTime < 2 ^ 64
  dataSize_eq : ∀ run ∈ f.runs, run.dataSize = sizes run.samples

/-- What `attachPayload` ties a fragment to, if its runs count the bytes of their samples. -/
theorem attachPayload_hasPayload {start : Int} (htime : f.decodeTime < 2 ^ 64)
    (hsize : ∀ run ∈ f.runs, run.dataSize = sizes run.samples)
    (h : attachPayload f start len payloadFromMoof = .ok f') :
    f'.HasPayload := by
  obtain ⟨rfl, -, hlen, hsum⟩ := attachPayload_eq h
  refine ⟨⟨consecutive_setOffsets 0 f.runs, ?_⟩, htime, ?_⟩
  · show ((len.toNat : Nat) : Int) = toInt64 (sizes ((setOffsets 0 f.runs).flatMap Run.samples) : Nat)
    rw [Int.toNat_of_nonneg hlen, hsum, setOffsets_samples, sum_dataSize_eq hsize]
  · intro run hrun
    obtain ⟨src, hsrc, o, rfl⟩ := mem_setOffsets hrun
    exact hsize src hsrc

theorem Fragment.HasPayload.located_eq (h : f.HasPayload) (hle : sizes f.samples ≤ maxInt64) :
    f.located = placed f.payloadStart f.samples :=
  placed_of_consecutive h.dataSize_eq h.consecutive (by rw [Nat.zero_add]; exact hle)

/-! ## Samples with the way they are written -/

/-- The samples of a run with the version and the flag they are written under. -/
def Run.tagged (run : Run) : List (Nat × Bool × Sample) :=
  run.samples.map fun s => (run.version, run.hasCompositionTimeOffsets, s)

/-- The same for some runs. -/
def tagged (runs : List Run) : List (Nat × Bool × Sample) := runs.flatMap Run.tagged

theorem tagged_append (a b : List Run) : tagged (a ++ b) = tagged a ++ tagged b := by simp [tagged]

theorem tagged_singleton (run : Run) : tagged [run] = run.tagged := by simp [tagged]

theorem tagged_cons (run : Run) (runs : List Run) : tagged (run :: runs) = run.tagged ++ tagged runs :=
  rfl

theorem Run.tagged_length (run : Run) : run.tagged.length = run.samples.length := by simp [Run.tagged]

theorem samples_eq_tagged (runs : List Run) : runs.flatMap Run.samples = (tagged runs).map fun e => e.2.2 := by
  induction runs with
  | nil => rfl
  | cons run runs ih =>
    have hrun : run.tagged.map (fun e => e.2.2) = run.samples := by simp [Run.tagged, Function.comp_def]
    rw [flatMap_cons, ih, tagged_cons, map_append, hrun]

theorem sum_length_eq_tagged (runs : List Run) :
    (runs.map fun run => run.samples.length).sum = (tagged runs).length := by
  induction runs with
  | nil => rfl
  | cons run runs ih =>
    rw [map_cons, sum_cons, ih, tagged_cons, length_append, Run.tagged_length]

/-! ## The loop over the runs -/

/-- `part` holds some samples of `run`, with totals of its own. -/
structure Run.PartOf (run part : Run) : Prop where
  samples_ne : part.samples ≠ []
  sublist : part.samples.Sublist run.samples
  version_eq : part.version = run.version
  flag_eq : part.hasCompositionTimeOffsets = run.hasCompositionTimeOffsets
  duration_eq : part.duration = durations part.samples
  dataSize_eq : part.dataSize = sizes part.samples
  duration_ne : part.duration ≠ 0
  dataSize_ne : part.dataSize ≠ 0
  sync : part.startsWithSync = isSyncSample ((part.samples.head?.map Sample.flags).getD 0)
  explicit : part.hasInferredDuration = false

theorem Run.PartOf.setOffset (h : run.PartOf part) (o : Int) : run.PartOf { part with payloadOffset := o } :=
  ⟨h.samples_ne, h.sublist, h.version_eq, h.flag_eq, h.duration_eq, h.dataSize_eq, h.duration_ne,
    h.dataSize_ne, h.sync, h.explicit⟩

/-- `buildExplicitRun` makes a part with these samples. -/
theorem buildExplicitRun_partOf (hsub : samples.Sublist run.samples)
    (h : buildExplicitRun run samples = .ok part) :
    run.PartOf part ∧ part.samples = samples := by
  simp only [buildExplicitRun, bind_eq_ok, Prod.exists, require_eq_ok, pure_eq_ok] at h
  obtain ⟨-, hne, duration, dataSize, htotals, -, ⟨hdur, hsize⟩, rfl⟩ := h
  obtain ⟨rfl, rfl⟩ := explicitTotals_eq htotals
  exact ⟨⟨hne, hsub, rfl, rfl, Nat.zero_add _, Nat.zero_add _, hdur, hsize, rfl, rfl⟩, rfl⟩

/-- One side of a split of `source`: its runs, bytes and duration against its samples. -/
structure Side (source runs : List Run) (bytes duration : Nat)
    (entries : List (Nat × Bool × Sample)) : Prop where
  entries_eq : tagged runs = entries
  parts : ∀ part ∈ runs, ∃ run ∈ source, run.PartOf part
  consecutive : Consecutive 0 runs
  bytes_eq : bytes = sizes (runs.flatMap Run.samples)
  bytes_le : bytes ≤ maxInt64
  duration_eq : duration = durations (runs.flatMap Run.samples) % 2 ^ 64

theorem Side.nil (source : List Run) : Side source [] 0 0 [] :=
  ⟨rfl, by simp, trivial, rfl, by decide, rfl⟩

theorem Side.dataSize_eq (h : Side source runs bytes duration entries) :
    ∀ part ∈ runs, part.dataSize = sizes part.samples := by
  intro part hpart
  obtain ⟨run, -, hrun⟩ := h.parts part hpart
  exact hrun.dataSize_eq

theorem Side.snoc (h : Side source runs bytes duration entries) (hmem : run ∈ source)
    (hsub : samples.Sublist run.samples) (hpart : buildExplicitRun run samples = .ok part)
    (hle : part.dataSize ≤ maxInt64 - bytes) :
    Side source (runs ++ [{ part with payloadOffset := bytes }]) (bytes + part.dataSize)
      ((duration + part.duration) % 2 ^ 64)
      (entries ++ samples.map fun s => (run.version, run.hasCompositionTimeOffsets, s)) := by
  obtain ⟨hpartOf, hsamples⟩ := buildExplicitRun_partOf hsub hpart
  have hbytes := h.bytes_le
  constructor
  · rw [tagged_append, tagged_singleton, h.entries_eq]
    simp only [Run.tagged, hsamples, hpartOf.version_eq, hpartOf.flag_eq]
  · intro r hr
    rcases mem_append.mp hr with hold | hnew
    · exact h.parts r hold
    · rw [mem_singleton.mp hnew]
      exact ⟨run, hmem, hpartOf.setOffset _⟩
  · refine (consecutive_append 0 runs _).mpr ⟨h.consecutive, ?_, trivial⟩
    -- the offset is the number of bytes so far, which is an `int64`
    rw [sum_dataSize_eq h.dataSize_eq, ← h.bytes_eq, Nat.zero_add, toInt64_of_le h.bytes_le]
  · rw [flatMap_append, sizes_append, ← h.bytes_eq, hpartOf.dataSize_eq]
    simp
  · omega
  · rw [flatMap_append, durations_append, h.duration_eq, hpartOf.duration_eq]
    simp

/-- A side with a run has bytes. -/
theorem Side.pos (h : Side source runs bytes duration entries) (hne : runs ≠ []) : 0 < bytes := by
  obtain ⟨part, rest, rfl⟩ := exists_cons_of_ne_nil hne
  obtain ⟨run, -, hpart⟩ := h.parts part mem_cons_self
  have hpos := Nat.pos_of_ne_zero hpart.dataSize_ne
  rw [h.bytes_eq, flatMap_cons, sizes_append, ← hpart.dataSize_eq]
  omega

/-- The left side takes the first `k` samples of a run. -/
theorem splitLeft_side (hside : Side source s.left s.leftBytes s.leftDuration entries) (hmem : run ∈ source)
    (h : splitLeft s run k = .ok t) :
    t.remaining = s.remaining - k ∧
      Side source t.left t.leftBytes t.leftDuration (entries ++ run.tagged.take k) ∧
      t.right = s.right ∧ t.rightBytes = s.rightBytes ∧ t.rightDuration = s.rightDuration := by
  unfold splitLeft at h
  split at h
  · simp only [bind_eq_ok, require_eq_ok, pure_eq_ok] at h
    obtain ⟨part, hpart, -, ⟨-, hle⟩, rfl⟩ := h
    refine ⟨rfl, ?_, rfl, rfl, rfl⟩
    rw [Run.tagged, ← map_take]
    exact hside.snoc hmem (take_sublist _ _) hpart hle
  · rename_i hzero
    obtain rfl : k = 0 := by omega
    cases h
    refine ⟨rfl, ?_, rfl, rfl, rfl⟩
    rw [take_zero, append_nil]
    exact hside

theorem splitRight_side (hside : Side source s.right s.rightBytes s.rightDuration entries) (hmem : run ∈ source)
    (h : splitRight s run k = .ok t) :
    t.remaining = s.remaining ∧
      Side source t.right t.rightBytes t.rightDuration (entries ++ run.tagged.drop k) ∧
      t.left = s.left ∧ t.leftBytes = s.leftBytes ∧ t.leftDuration = s.leftDuration := by
  unfold splitRight at h
  split at h
  · simp only [bind_eq_ok, require_eq_ok, pure_eq_ok] at h
    obtain ⟨part, hpart, -, ⟨-, hle⟩, rfl⟩ := h
    refine ⟨rfl, ?_, rfl, rfl, rfl⟩
    rw [Run.tagged, ← map_drop]
    exact hside.snoc hmem (drop_sublist _ _) hpart hle
  · rename_i hall
    have hnil : run.tagged.drop k = [] := by
      apply drop_eq_nil_of_le
      rw [Run.tagged_length]
      omega
    cases h
    refine ⟨rfl, ?_, rfl, rfl, rfl⟩
    rw [hnil, append_nil]
    exact hside

/-- The loop of `splitFragmentAtSample` after the runs `done`, for a cut after `n` samples. -/
structure SplitState.Cut (source : List Run) (n : Nat) (done : List Run) (s : SplitState) : Prop where
  remaining_eq : s.remaining = n - (tagged done).length
  left : Side source s.left s.leftBytes s.leftDuration ((tagged done).take n)
  right : Side source s.right s.rightBytes s.rightDuration ((tagged done).drop n)

theorem SplitState.Cut.start (source : List Run) (n : Nat) : SplitState.Cut source n [] { remaining := n } :=
  ⟨by simp [tagged], by simpa [tagged] using Side.nil source, by simpa [tagged] using Side.nil source⟩

/-- One round keeps the two sides what they are. -/
theorem SplitState.Cut.splitRun {done : List Run} (hI : s.Cut source n done) (hmem : run ∈ source)
    (h : splitRun s run = .ok s') :
    s'.Cut source n (done ++ [run]) := by
  simp only [Mp4.splitRun, bind_eq_ok, require_eq_ok] at h
  obtain ⟨-, -, t, hleft, hright⟩ := h
  obtain ⟨htrem, htleft, htright, htbytes, htdur⟩ := splitLeft_side hI.left hmem hleft
  have hside := hI.right
  rw [← htright, ← htbytes, ← htdur] at hside
  obtain ⟨hsrem, hsright, hsleft, hsbytes, hsdur⟩ := splitRight_side hside hmem hright
  -- the run is cut where the cut falls in it, or at its end
  have hcut : run.tagged.take (n - (tagged done).length)
        = run.tagged.take (min s.remaining run.samples.length) ∧
      run.tagged.drop (n - (tagged done).length)
        = run.tagged.drop (min s.remaining run.samples.length) := by
    rw [← hI.remaining_eq, ← Run.tagged_length, ← take_eq_take_min, ← drop_eq_drop_min]
    exact ⟨rfl, rfl⟩
  constructor
  · rw [hsrem, htrem, tagged_append, length_append, tagged_singleton, Run.tagged_length, hI.remaining_eq]
    omega
  · rw [hsleft, hsbytes, hsdur, tagged_append, tagged_singleton, take_append, hcut.1]
    exact htleft
  · rw [tagged_append, tagged_singleton, drop_append, hcut.2]
    exact hsright

/-- **The whole loop** leaves the first `n` samples on the left and the others on the right. -/
theorem foldlM_splitRun (h : runs.foldlM splitRun { remaining := n } = .ok s) : s.Cut runs n runs := by
  refine (foldlM_invariant
    (P := fun done s => (∀ run ∈ done, run ∈ runs) → SplitState.Cut runs n done s) ?_ ?_ h)
    fun _ h => h
  · intro _
    exact SplitState.Cut.start runs n
  · intro done run s s' hI hrun hmem
    exact (hI fun r hr => hmem r (by simp [hr])).splitRun (hmem run (by simp)) hrun

/-! ## The loop as the code runs it -/

/-- The loop where `left.runs` is the slice `cells[:leftLen]` of the array it reads its runs from. -/
structure InPlace where
  remaining : Nat
  cells : List Run
  leftLen : Nat := 0
  right : List Run := []
  leftBytes : Nat := 0
  rightBytes : Nat := 0
  leftDuration : Nat := 0
  rightDuration : Nat := 0

/-- The same with the left part as a list of its own. -/
def InPlace.list (s : InPlace) : SplitState :=
  { remaining := s.remaining
    left := s.cells.take s.leftLen
    right := s.right
    leftBytes := s.leftBytes
    rightBytes := s.rightBytes
    leftDuration := s.leftDuration
    rightDuration := s.rightDuration }

/-- The part of a run that goes to the left; `append` has the room, so it writes into the array. -/
def splitLeftInPlace (s : InPlace) (run : Run) (take : Nat) : Except String InPlace := do
  if take > 0 then
    let leftRun ← buildExplicitRun run (run.samples.take take)
    require (s.leftBytes ≤ maxInt64 ∧ leftRun.dataSize ≤ maxInt64 - s.leftBytes)
      "left audio payload offset overflow"
    return { s with
      cells := s.cells.set s.leftLen { leftRun with payloadOffset := s.leftBytes }
      leftLen := s.leftLen + 1
      leftBytes := s.leftBytes + leftRun.dataSize
      leftDuration := (s.leftDuration + leftRun.duration) % 2 ^ 64
      remaining := s.remaining - take }
  else return s

/-- The part of a run that goes to the right. -/
def splitRightInPlace (s : InPlace) (run : Run) (take : Nat) : Except String InPlace := do
  if take < run.samples.length then
    let rightRun ← buildExplicitRun run (run.samples.drop take)
    require (s.rightBytes ≤ maxInt64 ∧ rightRun.dataSize ≤ maxInt64 - s.rightBytes)
      "right audio payload offset overflow"
    return { s with
      right := s.right ++ [{ rightRun with payloadOffset := s.rightBytes }]
      rightBytes := s.rightBytes + rightRun.dataSize
      rightDuration := (s.rightDuration + rightRun.duration) % 2 ^ 64 }
  else return s

/-- One round: the run is read from the array as the earlier rounds left it. -/
def splitRunInPlace (s : InPlace) (runIndex : Nat) : Except String InPlace := do
  match s.cells[runIndex]? with
  | some run =>
    require (run.samples ≠ []) "cannot split a run without parsed samples"
    let take := min s.remaining run.samples.length
    let s ← splitLeftInPlace s run take
    splitRightInPlace s run take
  | none => throw "index out of range"

/-- `splitFragmentAtSample` with its array: the left part is written over the source. -/
def splitFragmentInPlace (f : Fragment) (splitSamples : Nat) : Except String (Fragment × Fragment) := do
  let totalSamples ← fragmentSampleCount f
  require (0 < splitSamples ∧ splitSamples < totalSamples)
    s!"split sample must be inside fragment: split={splitSamples} total={totalSamples}"
  let s ← (List.range f.runs.length).foldlM splitRunInPlace
    { remaining := splitSamples, cells := f.runs }
  finishSplit f s.list

/-- The array when the list model is at `s`: the left part, then what is left of the source. -/
def SplitState.over (source : List Run) (s : SplitState) : InPlace :=
  { remaining := s.remaining
    cells := s.left ++ source.drop s.left.length
    leftLen := s.left.length
    right := s.right
    leftBytes := s.leftBytes
    rightBytes := s.rightBytes
    leftDuration := s.leftDuration
    rightDuration := s.rightDuration }

theorem SplitState.list_over (source : List Run) (s : SplitState) : (s.over source).list = s := by
  unfold SplitState.over InPlace.list
  rw [take_left]

/-- A run the left part has not reached is still there. -/
theorem SplitState.over_cells (h : s.left.length ≤ i) : (s.over source).cells[i]? = source[i]? := by
  show (s.left ++ source.drop s.left.length)[i]? = source[i]?
  rw [getElem?_append_right h, getElem?_drop, Nat.add_sub_cancel' h]

/-- Writing the next run of the left part. -/
theorem set_over {left : List Run} (h : left.length < source.length) (run : Run) :
    (left ++ source.drop left.length).set left.length run
      = (left ++ [run]) ++ source.drop (left ++ [run]).length := by
  rw [set_append_right _ _ (Nat.le_refl _), Nat.sub_self, drop_eq_getElem_cons h,
    set_cons_zero, length_append, length_singleton]
  simp

theorem splitLeftInPlace_over (h : s.left.length < source.length) (run : Run) (take : Nat) :
    splitLeftInPlace (s.over source) run take = (splitLeft s run take).map (·.over source) := by
  unfold splitLeftInPlace splitLeft
  split
  · rw [map_bind]
    refine bind_congr fun part => ?_
    rw [map_bind]
    refine bind_congr fun _ => ?_
    have hcells := set_over h { part with payloadOffset := s.leftBytes }
    have hlen : (s.left ++ [{ part with payloadOffset := s.leftBytes }]).length
        = s.left.length + 1 := length_append
    exact congrArg Except.ok (by simp only [SplitState.over, hcells, hlen])
  · rfl

theorem splitRightInPlace_over (source : List Run) (s : SplitState) (run : Run) (take : Nat) :
    splitRightInPlace (s.over source) run take = (splitRight s run take).map (·.over source) := by
  unfold splitRightInPlace splitRight
  split
  · rw [map_bind]
    refine bind_congr fun part => ?_
    rw [map_bind]
    exact bind_congr fun _ => rfl
  · rfl

/-- The left part grows by at most one run in a round. -/
theorem length_left_splitRun (h : splitRun s run = .ok s') : s'.left.length ≤ s.left.length + 1 := by
  simp only [splitRun, bind_eq_ok, require_eq_ok] at h
  obtain ⟨-, -, t, hleft, hright⟩ := h
  have hkeep : s'.left = t.left := by
    unfold splitRight at hright
    split at hright
    · simp only [bind_eq_ok, require_eq_ok, pure_eq_ok] at hright
      obtain ⟨part, -, -, -, rfl⟩ := hright
      rfl
    · cases hright
      rfl
  rw [hkeep]
  unfold splitLeft at hleft
  split at hleft
  · simp only [bind_eq_ok, require_eq_ok, pure_eq_ok] at hleft
    obtain ⟨part, -, -, -, rfl⟩ := hleft
    exact Nat.le_of_eq length_append
  · cases hleft
    exact Nat.le_succ _

/-- One round in place is one round of the list model. -/
theorem splitRunInPlace_over (hlen : s.left.length ≤ i) (hrun : source[i]? = some run) :
    splitRunInPlace (s.over source) i = (splitRun s run).map (·.over source) := by
  have hi : i < source.length := (List.getElem?_eq_some_iff.mp hrun).1
  unfold splitRunInPlace splitRun
  rw [SplitState.over_cells hlen, hrun, map_bind]
  refine bind_congr fun _ => ?_
  show splitLeftInPlace (s.over source) run (min s.remaining run.samples.length) >>= _ = _
  rw [splitLeftInPlace_over (by omega), map_bind]
  cases splitLeft s run (min s.remaining run.samples.length) with
  | error e => rfl
  | ok t => exact splitRightInPlace_over source t run _

/-- **The loop in place is the loop over the list**: what it still has to read is untouched. -/
theorem foldlM_splitRunInPlace (done todo : List Run) {s : SplitState}
    (hlen : s.left.length ≤ done.length) :
    (List.range' done.length todo.length).foldlM splitRunInPlace (s.over (done ++ todo))
      = (todo.foldlM splitRun s).map (·.over (done ++ todo)) := by
  induction todo generalizing done s with
  | nil => rfl
  | cons run todo ih =>
    have hread : (done ++ run :: todo)[done.length]? = some run := by simp
    rw [length_cons, range'_succ, foldlM_cons, foldlM_cons, splitRunInPlace_over hlen hread, map_bind]
    cases hstep : splitRun s run with
    | error e => rfl
    | ok t =>
      have hgrow := length_left_splitRun hstep
      have hnext := @ih (done ++ [run]) t (by simp; omega)
      simp only [length_append, length_singleton, append_assoc, singleton_append] at hnext
      exact hnext

/-- **Splitting in place** gives what splitting a copy gives, errors included. -/
theorem splitFragmentInPlace_eq (f : Fragment) (n : Nat) :
    splitFragmentInPlace f n = splitFragmentAtSample f n := by
  have hloop : (List.range' 0 f.runs.length).foldlM splitRunInPlace
        (SplitState.over f.runs { remaining := n })
      = (f.runs.foldlM splitRun { remaining := n }).map (·.over f.runs) :=
    foldlM_splitRunInPlace [] f.runs (Nat.le_refl 0)
  unfold splitFragmentInPlace splitFragmentAtSample
  refine bind_congr fun total => bind_congr fun _ => ?_
  rw [range_eq_range']
  show List.foldlM splitRunInPlace (SplitState.over f.runs { remaining := n }) _ >>= _ = _
  rw [hloop]
  cases f.runs.foldlM splitRun { remaining := n } with
  | error e => rfl
  | ok s =>
    show finishSplit f (s.over f.runs).list = _
    rw [SplitState.list_over]
    rfl

/-! ## What a cut is -/

/-- Two fragments of one track, described alike. -/
structure Fragment.SameTrack (f g : Fragment) : Prop where
  trackID_eq : g.trackID = f.trackID
  timescale_eq : g.timescale = f.timescale
  index_eq : g.sampleDescriptionIndex = f.sampleDescriptionIndex
  tfhd_eq : g.tfhd = f.tfhd

/-- `l` and `r` are `f` cut after `n` samples. -/
structure InTwo (f : Fragment) (n : Nat) (l r : Fragment) : Prop where
  samples_eq : l.samples ++ r.samples = f.samples
  count : l.samples.length = n
  left_track : f.SameTrack l
  right_track : f.SameTrack r
  /-- Every sample is written under the version and the composition-offset flag it had. -/
  written : tagged l.runs ++ tagged r.runs = tagged f.runs
  left_time : l.decodeTime = f.decodeTime
  right_time : r.decodeTime = l.decodeTime + l.duration
  left_end : l.endTime = r.decodeTime
  right_end : r.endTime = f.endTime
  left_duration : l.duration = durations l.samples % 2 ^ 64
  right_duration : r.duration = durations r.samples % 2 ^ 64
  left_start : l.payloadStart = f.payloadStart
  adjacent : r.payloadStart = l.payloadStart + l.payloadLen
  cover : r.payloadStart + r.payloadLen = f.payloadStart + f.payloadLen
  /-- The offsets of the parts find every sample where the fragment had it. -/
  located_eq : l.located ++ r.located = f.located
  left_sync : ∃ s ∈ l.samples.head?, l.startsWithSync = isSyncSample s.flags
  right_sync : ∃ s ∈ r.samples.head?, r.startsWithSync = isSyncSample s.flags
  left_payload : l.HasPayload
  right_payload : r.HasPayload

/-- The first run of a side says whether its first sample is a sync sample. -/
theorem Side.sync (h : Side source runs bytes duration entries) (hne : runs ≠ []) :
    ∃ s ∈ (runs.flatMap Run.samples).head?,
      (runs.head?.map Run.startsWithSync).getD false = isSyncSample s.flags := by
  cases runs with
  | nil => exact absurd rfl hne
  | cons part runs =>
    obtain ⟨run, -, hpart⟩ := h.parts part (by simp)
    have hsync := hpart.sync
    cases hsamples : part.samples with
    | nil => exact absurd hsamples hpart.samples_ne
    | cons s samples =>
      rw [hsamples] at hsync
      exact ⟨s, by simp [hsamples], hsync⟩

/-- A side has its payload where its offsets say. -/
theorem Side.hasPayload (h : Side source runs bytes duration entries) (hruns : f.runs = runs)
    (hlen : f.payloadLen = bytes) (htime : f.decodeTime < 2 ^ 64) : f.HasPayload := by
  subst hruns
  refine ⟨⟨h.consecutive, ?_⟩, htime, h.dataSize_eq⟩
  show (f.payloadLen : Int) = toInt64 (sizes (f.runs.flatMap Run.samples) : Nat)
  rw [← h.bytes_eq, toInt64_of_le h.bytes_le, hlen]

/-- What the checks of a successful split have established, on the variables of the loop. -/
theorem splitFragmentAtSample_eq_ok (h : splitFragmentAtSample f n = .ok (l, r)) :
    ∃ s : SplitState, s.Cut f.runs n f.runs ∧ (0 < n ∧ n < (tagged f.runs).length) ∧
      (s.left ≠ [] ∧ s.right ≠ []) ∧ (s.leftDuration + s.rightDuration) % 2 ^ 64 = f.duration ∧
      s.leftBytes + s.rightBytes = f.payloadLen ∧ s.leftDuration ≤ maxUint64 - f.decodeTime ∧
      l = f.part s.left f.decodeTime s.leftDuration f.payloadStart s.leftBytes ∧
      r = f.part s.right (f.decodeTime + s.leftDuration) s.rightDuration (f.payloadStart + s.leftBytes)
        s.rightBytes := by
  simp only [splitFragmentAtSample, finishSplit, fragmentSampleCount, bind_eq_ok, require_eq_ok, pure_eq_ok,
    Prod.mk.injEq] at h
  obtain ⟨total, ⟨-, -, -, -, rfl⟩, -, hinside, s, hs, -, ⟨-, hlne, hrne⟩, -, hduration, -, hbytes,
    -, -, -, htime, rfl, rfl⟩ := h
  have hrest : f.payloadLen - s.leftBytes = s.rightBytes := by omega
  rw [sum_length_eq_tagged] at hinside
  rw [hrest]
  exact ⟨s, foldlM_splitRun hs, hinside, ⟨hlne, hrne⟩, hduration, hbytes, htime, rfl, rfl⟩

/-- The samples and the times of the parts, whatever the payload is. -/
structure Divides (f : Fragment) (n : Nat) (l r : Fragment) : Prop where
  inside : 0 < n ∧ n < f.samples.length
  samples_eq : l.samples ++ r.samples = f.samples
  count : l.samples.length = n
  left_track : f.SameTrack l
  right_track : f.SameTrack r
  left_time : l.decodeTime = f.decodeTime
  left_duration : l.duration = durations l.samples % 2 ^ 64
  right_time : r.decodeTime = l.decodeTime + l.duration

theorem splitFragmentAtSample_divides (h : splitFragmentAtSample f n = .ok (l, r)) : Divides f n l r := by
  obtain ⟨s, hcut, hinside, -, -, -, -, rfl, rfl⟩ := splitFragmentAtSample_eq_ok h
  have hl := hcut.left
  have hr := hcut.right
  have htotal : f.samples = (tagged f.runs).map fun e => e.2.2 := samples_eq_tagged f.runs
  refine ⟨?_, ?_, ?_, ⟨rfl, rfl, rfl, rfl⟩, ⟨rfl, rfl, rfl, rfl⟩, rfl, hl.duration_eq, rfl⟩
  · rw [htotal, length_map]
    exact hinside
  · show s.left.flatMap Run.samples ++ s.right.flatMap Run.samples = f.samples
    rw [htotal, samples_eq_tagged, samples_eq_tagged, ← map_append, hl.entries_eq, hr.entries_eq,
      take_append_drop]
  · show (s.left.flatMap Run.samples).length = n
    rw [samples_eq_tagged, length_map, hl.entries_eq, length_take]
    omega

theorem Fragment.HasPayload.len_le (h : f.HasPayload) : f.payloadLen ≤ maxInt64 := by
  have hmax := toInt64_le_max (sizes f.samples : Nat)
  rw [← h.len_eq] at hmax
  exact Int.ofNat_le.mp hmax

/-- A split counts the bytes of the samples and compares them with the payload. -/
theorem sizes_of_split (h : splitFragmentAtSample f n = .ok (l, r)) : sizes f.samples = f.payloadLen := by
  have hdivides := splitFragmentAtSample_divides h
  obtain ⟨s, hcut, -, -, -, hbytes, -, rfl, rfl⟩ := splitFragmentAtSample_eq_ok h
  rw [← hdivides.samples_eq, sizes_append, ← hbytes, hcut.left.bytes_eq, hcut.right.bytes_eq]
  rfl

/-- The list model cuts a fragment in two. -/
theorem splitFragmentAtSample_cuts (hf : f.HasPayload) (h : splitFragmentAtSample f n = .ok (l, r)) :
    InTwo f n l r := by
  have hdivides := splitFragmentAtSample_divides h
  obtain ⟨s, hcut, -, ⟨hlne, hrne⟩, hduration, hbytes, htime, hleft, hright⟩ :=
    splitFragmentAtSample_eq_ok h
  have hl := hcut.left
  have hr := hcut.right
  have hdecode := hf.decodeTime_lt
  have hlsamples : l.samples = s.left.flatMap Run.samples := by rw [hleft]; rfl
  have hrsamples : r.samples = s.right.flatMap Run.samples := by rw [hright]; rfl
  have hsamples := hdivides.samples_eq
  have hlsizes := hl.bytes_eq
  have hrsizes := hr.bytes_eq
  rw [← hlsamples] at hlsizes
  rw [← hrsamples] at hrsizes
  unfold maxUint64 at htime
  -- the payload is an `int`, so the sizes of the samples add up without wrapping around
  have hsizes := sizes_of_split h
  have hsmall := hf.len_le
  have hlpayload : l.HasPayload := by
    rw [hleft]
    exact hl.hasPayload rfl rfl hdecode
  have hrpayload : r.HasPayload := by
    rw [hright]
    exact hr.hasPayload rfl rfl (show f.decodeTime + s.leftDuration < 2 ^ 64 by omega)
  have hlocated : l.located ++ r.located = f.located := by
    have hstart : ((r.payloadStart : Nat) : Int) = l.payloadStart + sizes l.samples := by
      rw [← hlsizes, hleft, hright]
      exact Nat.cast_add _ _
    rw [hlpayload.located_eq (by omega), hrpayload.located_eq (by omega), hf.located_eq (by omega),
      hstart, ← placed_append, hsamples, hleft]
    rfl
  subst hleft hright
  constructor
  · exact hsamples
  · exact hdivides.count
  · exact hdivides.left_track
  · exact hdivides.right_track
  · show tagged s.left ++ tagged s.right = tagged f.runs
    rw [hl.entries_eq, hr.entries_eq, take_append_drop]
  · rfl
  · rfl
  · show (f.decodeTime + s.leftDuration) % 2 ^ 64 = f.decodeTime + s.leftDuration
    exact Nat.mod_eq_of_lt (by omega)
  · show (f.decodeTime + s.leftDuration + s.rightDuration) % 2 ^ 64 = (f.decodeTime + f.duration) % 2 ^ 64
    rw [← hduration, Nat.add_assoc, Nat.add_mod_mod]
  · exact hl.duration_eq
  · exact hr.duration_eq
  · rfl
  · rfl
  · show f.payloadStart + s.leftBytes + s.rightBytes = f.payloadStart + f.payloadLen
    omega
  · exact hlocated
  · exact hl.sync hlne
  · exact hr.sync hrne
  · exact hlpayload
  · exact hrpayload

/-- **A successful split cuts the fragment in two** after the samples asked for, although the left part was
written over the runs being read. -/
theorem splitFragmentInPlace_cuts {f l r : Fragment} {n : Nat} (hf : f.HasPayload)
    (h : splitFragmentInPlace f n = .ok (l, r)) : InTwo f n l r := by
  rw [splitFragmentInPlace_eq] at h
  exact splitFragmentAtSample_cuts hf h

/-- Two runs of a sound track, the first with three samples, over 100 bytes of payload. -/
def twoRuns : Fragment :=
  { trackID := 2, timescale := 48000, decodeTime := 5000, duration := 4096, startsWithSync := true
    sampleDescriptionIndex := 1, tfhd := buildCanonicalTfhd 2 1
    runs :=
      [{ samples := [⟨1024, 10, 0, 0⟩, ⟨1024, 20, 0, 0⟩, ⟨1024, 30, 0x10000, 0⟩], version := 0
         hasCompositionTimeOffsets := false, duration := 3072, dataSize := 60, startsWithSync := true },
       { samples := [⟨1024, 40, 0, 7⟩], version := 1, hasCompositionTimeOffsets := true
         duration := 1024, dataSize := 40, payloadOffset := 60, startsWithSync := true }]
    payloadStart := 8, payloadLen := 100 }

theorem cut_inside_a_run : ∃ l r, splitFragmentInPlace twoRuns 2 = .ok (l, r) ∧ InTwo twoRuns 2 l r := by
  have hpayload : twoRuns.HasPayload :=
    ⟨⟨⟨by decide +kernel, by decide +kernel, trivial⟩, by decide +kernel⟩, by decide, by decide⟩
  have hok : (splitFragmentInPlace twoRuns 2).isOk = true := by decide +kernel
  cases h : splitFragmentInPlace twoRuns 2 with
  | error e =>
    rw [h] at hok
    cases hok
  | ok parts => exact ⟨parts.1, parts.2, rfl, splitFragmentInPlace_cuts hpayload h⟩

end TorrServer.Gstreamer.Mp4
