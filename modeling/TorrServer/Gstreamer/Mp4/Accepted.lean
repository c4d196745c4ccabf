/-
# Gstreamer.Mp4.Accepted — what the parser's accepted fragments satisfy.

`Accepted` is the set of fragments the reader can have in its queues: parsed from a `moof`, tied to an `mdat`,
cut in two any number of times and moved. The lemmas read off what the writer relies on: the numbers fit their
fields, the totals are the sums over the samples, and the runs lie one after the other in the payload.
-/
import TorrServer.Gstreamer.Mp4.Split

namespace TorrServer.Gstreamer.Mp4

open Lib

variable {cursor cursor' n duration headerSize defaultDuration defaultSize defaultFlags trackID : Nat}
  {box moof : Bytes} {first isHint : Bool} {boxes : List Child} {runs source : List Run}
  {videoTrack audioTrack track : TrackInfo} {videoHint audioHint hint : UInt32} {f : Fragment}

/-! ## Runs -/

/-- All fields of a sample fit 32 bits. -/
def Sample.Fits (s : Sample) : Prop :=
  s.duration < 2 ^ 32 ∧ s.size < 2 ^ 32 ∧ s.flags < 2 ^ 32 ∧ s.compositionTimeOffsetRaw < 2 ^ 32

/-- What every run of an accepted fragment satisfies. -/
structure Run.Sound (run : Run) : Prop where
  samples_ne : run.samples ≠ []
  count_le : run.samples.length ≤ maxTrunSamples
  version_le : run.version ≤ 1
  fits : ∀ s ∈ run.samples, s.Fits
  offsets : run.hasCompositionTimeOffsets = false →
    ∀ s ∈ run.samples, s.compositionTimeOffsetRaw = 0
  duration_eq : run.duration = durations run.samples
  dataSize_eq : run.dataSize = sizes run.samples
  duration_ne : run.duration ≠ 0
  dataSize_ne : run.dataSize ≠ 0
  sync : run.startsWithSync = isSyncSample ((run.samples.head?.map Sample.flags).getD 0)

theorem readField_spec {present : Bool} {data : Bytes} {default v : Nat} {err : String}
    (h : readField present data cursor default err = .ok (v, cursor')) :
    cursor' = cursor + 4 * present.toNat ∧ (default < 2 ^ 32 → v < 2 ^ 32) ∧
      (present = false → v = default) := by
  unfold readField at h
  cases present with
  | false =>
    cases h
    exact ⟨rfl, id, fun _ => rfl⟩
  | true =>
    rw [if_pos rfl] at h
    unfold readUint32 at h
    by_cases hlen : data.length < cursor + 4
    · rw [if_pos hlen] at h
      cases h
    · rw [if_neg hlen] at h
      cases h
      exact ⟨rfl, fun _ => be32_lt data cursor, fun h => by cases h⟩

/-- One entry: where it ends, and that its fields fit. -/
theorem readSample_spec {t : TrunLayout} {s : Sample} (h : readSample t box first cursor = .ok (s, cursor')) :
    (t.defaultDuration < 2 ^ 32 → t.defaultSize < 2 ^ 32 → t.defaultFlags < 2 ^ 32 →
      t.firstSampleFlags < 2 ^ 32 → s.Fits) ∧
    (t.hasCompositionOffsets = false → s.compositionTimeOffsetRaw = 0) := by
  simp only [readSample, bind_eq_ok, Prod.exists, pure_eq_ok, Prod.mk.injEq] at h
  obtain ⟨duration, c₁, h₁, size, c₂, h₂, flags, c₃, h₃, offset, c₄, h₄, rfl, -⟩ := h
  obtain ⟨-, hd, -⟩ := readField_spec h₁
  obtain ⟨-, hs, -⟩ := readField_spec h₂
  obtain ⟨-, hf, -⟩ := readField_spec h₃
  obtain ⟨-, ho, hnone⟩ := readField_spec h₄
  refine ⟨fun dd ds df dff => ⟨hd dd, hs ds, hf ?_, ho (by decide)⟩, hnone⟩
  split
  · exact dff
  · exact df

/-- The entries: their number, their fields, and the totals. -/
theorem readSamples_spec {t : TrunLayout} {dataSize duration' dataSize' : Nat} {samples : List Sample}
    (h : readSamples t box n first cursor duration dataSize
      = .ok (samples, cursor', duration', dataSize')) :
    samples.length = n ∧ duration' = duration + durations samples ∧
    dataSize' = dataSize + sizes samples ∧
    (t.defaultDuration < 2 ^ 32 → t.defaultSize < 2 ^ 32 → t.defaultFlags < 2 ^ 32 →
      t.firstSampleFlags < 2 ^ 32 → ∀ s ∈ samples, s.Fits) ∧
    (t.hasCompositionOffsets = false → ∀ s ∈ samples, s.compositionTimeOffsetRaw = 0) := by
  induction n generalizing first cursor duration dataSize samples with
  | zero =>
    cases h
    simp
  | succ n ih =>
    simp only [readSamples, bind_eq_ok, Prod.exists, require_eq_ok, pure_eq_ok, Prod.mk.injEq] at h
    obtain ⟨s, c, hs, -, -, -, -, rest, c', d', z', hrest, rfl, rfl, rfl, rfl⟩ := h
    obtain ⟨hlen, hdur, hsize, hfits, hoff⟩ := ih hrest
    obtain ⟨hfit, hzero⟩ := readSample_spec hs
    refine ⟨by simp [hlen], by simp [hdur]; omega, by simp [hsize]; omega, ?_, ?_⟩
    · intro dd ds df dff s' hs'
      rcases List.mem_cons.mp hs' with rfl | hmem
      · exact hfit dd ds df dff
      · exact hfits dd ds df dff s' hmem
    · intro hno s' hs'
      rcases List.mem_cons.mp hs' with rfl | hmem
      · exact hzero hno
      · exact hoff hno s' hmem

theorem normalizeTrun_sound {run : Run} (hd : defaultDuration < 2 ^ 32) (hs : defaultSize < 2 ^ 32)
    (hf : defaultFlags < 2 ^ 32)
    (h : normalizeTrun box headerSize defaultDuration defaultSize defaultFlags isHint = .ok run) :
    run.Sound := by
  simp only [normalizeTrun, bind_eq_ok, Prod.exists, require_eq_ok, pure_eq_ok] at h
  obtain ⟨-, -, -, hversion, -, -, -, hcount, dataOffset, c₁, -, -, -, first, c₂, hfirst, -, -, -, -,
    -, hmax, -, -, samples, c₃, duration, dataSize, hsamples, -, ⟨-, hdur, hsize⟩, rfl⟩ := h
  obtain ⟨hlen, htotal, hbytes, hfits, hoff⟩ := readSamples_spec hsamples
  obtain ⟨-, hff, -⟩ := readField_spec hfirst
  rw [Nat.zero_add] at htotal hbytes
  constructor
  · rintro rfl
    exact hcount (by simpa using hlen.symm)
  · exact hlen ▸ hmax
  · exact hversion
  · exact hfits hd hs hf (hff hf)
  · exact hoff
  · exact htotal
  · exact hbytes
  · exact hdur
  · exact hsize
  · rfl

/-! ## Fragments -/

/-- What every fragment `parseTraf` returns satisfies. -/
structure Fragment.Sound (videoTrack audioTrack : TrackInfo) (f : Fragment) : Prop where
  trackID_ne : f.trackID ≠ 0
  trackID_lt : f.trackID < 2 ^ 32
  track : ∃ t, trafTrack videoTrack audioTrack 0 0 f.trackID = .ok (t, 0) ∧
    f.timescale = t.timescale.toNat
  timescale_ne : f.timescale ≠ 0
  decodeTime_lt : f.decodeTime < 2 ^ 64
  index_ne : f.sampleDescriptionIndex ≠ 0
  index_lt : f.sampleDescriptionIndex < 2 ^ 32
  tfhd_eq : f.tfhd = buildCanonicalTfhd f.trackID f.sampleDescriptionIndex
  runs_ne : f.runs ≠ []
  runs : ∀ run ∈ f.runs, run.Sound
  duration_eq : f.duration = durations f.samples
  duration_lt : f.duration < 2 ^ 64
  sync : f.startsWithSync = (f.runs.head?.map Run.startsWithSync).getD false

theorem parseTfhd_spec {tfhd : TfhdInfo} (h : parseTfhd box headerSize = .ok tfhd) :
    tfhd.trackID ≠ 0 ∧ tfhd.trackID < 2 ^ 32 ∧ tfhd.sampleDescriptionIndex < 2 ^ 32 ∧
      tfhd.defaultDuration < 2 ^ 32 ∧ tfhd.defaultSize < 2 ^ 32 ∧ tfhd.defaultFlags < 2 ^ 32 := by
  simp only [parseTfhd, bind_eq_ok, Prod.exists, require_eq_ok, pure_eq_ok] at h
  obtain ⟨-, -, -, -, -, -, -, -, -, -, -, hid, index, c₁, h₁, -, -, duration, c₂, h₂, size, c₃, h₃,
    flags, c₄, h₄, -, -, rfl⟩ := h
  obtain ⟨-, hi, -⟩ := readField_spec h₁
  obtain ⟨-, hd, -⟩ := readField_spec h₂
  obtain ⟨-, hs, -⟩ := readField_spec h₃
  obtain ⟨-, hf, -⟩ := readField_spec h₄
  exact ⟨hid, be32_lt _ _, hi (by decide), hd (by decide), hs (by decide), hf (by decide)⟩

theorem readTfdt_lt {value : Nat} (h : readTfdt box headerSize = some value) : value < 2 ^ 64 := by
  unfold readTfdt at h
  dsimp only at h
  split at h
  · cases h
  · split at h
    · split at h
      · cases h
      · cases h
        exact be64_lt _ _
    · split at h
      · cases h
        exact lt_trans (be32_lt _ _) (by decide)
      · cases h

/-- What the first loop of `parseTraf` finds. -/
theorem parseTrafChildren_spec {found : TrafHeaders} (h : boxes.foldlM parseTrafChild {} = .ok found) :
    (∀ tfhd, found.tfhd = some tfhd → ∃ box headerSize, parseTfhd box headerSize = .ok tfhd) ∧
    (∀ value, found.tfdt = some value → value < 2 ^ 64) := by
  refine foldlM_invariant
    (P := fun _ found =>
      (∀ tfhd, found.tfhd = some tfhd → ∃ box headerSize, parseTfhd box headerSize = .ok tfhd) ∧
      (∀ value, found.tfdt = some value → value < 2 ^ 64)) ?_ ?_ h
  · exact ⟨fun _ h => (by cases h), fun _ h => (by cases h)⟩
  · rintro - child found found' ⟨htfhd, htfdt⟩ hchild
    unfold parseTrafChild at hchild
    split at hchild
    · simp only [bind_eq_ok, require_eq_ok, pure_eq_ok] at hchild
      obtain ⟨-, -, value, hvalue, rfl⟩ := hchild
      exact ⟨fun tfhd h => ⟨_, _, (by cases h; exact hvalue)⟩, htfdt⟩
    · split at hchild
      · simp only [bind_eq_ok, require_eq_ok] at hchild
        obtain ⟨-, -, hread⟩ := hchild
        split at hread
        · rename_i value hvalue
          cases hread
          exact ⟨htfhd, fun v h => (by cases h; exact readTfdt_lt hvalue)⟩
        · cases hread
      · split at hchild
        · cases hchild
          exact ⟨htfhd, htfdt⟩
        · cases hchild

theorem firstNonZero_lt {a b : Nat} (ha : a < n) (hb : b < n) : firstNonZero a b < n := by
  unfold firstNonZero
  split <;> assumption

theorem parseRuns_spec {total : Nat} (hd : defaultDuration < 2 ^ 32) (hs : defaultSize < 2 ^ 32)
    (hf : defaultFlags < 2 ^ 32) (hdur : duration < 2 ^ 64)
    (h : parseRuns defaultDuration defaultSize defaultFlags isHint boxes duration
      = .ok (runs, total)) :
    (∀ run ∈ runs, run.Sound) ∧ total = duration + durations (runs.flatMap Run.samples) ∧
      total < 2 ^ 64 := by
  induction boxes generalizing duration runs with
  | nil =>
    cases h
    exact ⟨by simp, by simp, hdur⟩
  | cons child boxes ih =>
    unfold parseRuns at h
    split at h
    · exact ih hdur h
    · simp only [bind_eq_ok, Prod.exists, require_eq_ok, pure_eq_ok, Prod.mk.injEq] at h
      obtain ⟨run, hrun, -, hle, rest, total', hrest, rfl, rfl⟩ := h
      have hsound := normalizeTrun_sound hd hs hf hrun
      have hlt : duration + run.duration < 2 ^ 64 := by
        unfold maxUint64 at hle
        omega
      obtain ⟨hruns, htotal, hbound⟩ := ih hlt hrest
      refine ⟨?_, ?_, hbound⟩
      · intro r hr
        rcases List.mem_cons.mp hr with rfl | hmem
        · exact hsound
        · exact hruns r hmem
      · rw [htotal, List.flatMap_cons, durations_append, hsound.duration_eq]
        omega

theorem trafTrack_eq_ok_iff :
    trafTrack videoTrack audioTrack videoHint audioHint trackID = .ok (track, hint) ↔
      (trackID = videoTrack.id.toNat ∧ videoTrack = track ∧ videoHint = hint) ∨
        (trackID ≠ videoTrack.id.toNat ∧ (audioTrack.id ≠ 0 ∧ trackID = audioTrack.id.toNat) ∧
          audioTrack = track ∧ audioHint = hint) := by
  rw [trafTrack]
  split_ifs with hvideo haudio
  · simp [hvideo]
  · rw [Except.ok.injEq, Prod.mk.injEq]
    exact ⟨fun h => .inr ⟨hvideo, haudio, h⟩, fun h => (h.resolve_left fun h => hvideo h.1).2.2⟩
  · simp [hvideo, haudio]

theorem trafTrack_hint (h : trafTrack videoTrack audioTrack videoHint audioHint trackID = .ok (track, hint)) :
    trafTrack videoTrack audioTrack 0 0 trackID = .ok (track, 0) := by
  rw [trafTrack_eq_ok_iff] at h ⊢
  rcases h with ⟨hid, htrack, -⟩ | ⟨hne, hid, htrack, -⟩
  · exact .inl ⟨hid, htrack, rfl⟩
  · exact .inr ⟨hne, hid, htrack, rfl⟩

/-- **What `parseTraf` accepts is sound.** -/
theorem parseTraf_sound {traf : Bytes} {trafHeader : Nat}
    (h : parseTraf traf trafHeader videoTrack audioTrack videoHint audioHint = .ok f) :
    f.Sound videoTrack audioTrack := by
  simp only [parseTraf, bind_eq_ok] at h
  obtain ⟨found, hfound, h⟩ := h
  obtain ⟨hfindTfhd, hfindTfdt⟩ := parseTrafChildren_spec hfound
  split at h
  · rename_i tfhd decodeTime htfhd htfdt
    simp only [bind_eq_ok, Prod.exists, require_eq_ok, pure_eq_ok] at h
    obtain ⟨track, hint, htrack, -, htimescale, -, hindex, runs, duration, hruns, -, ⟨hne, -⟩,
      rfl⟩ := h
    obtain ⟨box, headerSize, hparse⟩ := hfindTfhd tfhd htfhd
    obtain ⟨hid, hidlt, hindexlt, hdur, hsize, hflags⟩ := parseTfhd_spec hparse
    obtain ⟨hsound, htotal, hlt⟩ := parseRuns_spec
      (firstNonZero_lt (firstNonZero_lt hdur track.trex.duration.toNat_lt) hint.toNat_lt)
      (firstNonZero_lt hsize track.trex.size.toNat_lt)
      (by split <;> [exact hflags; exact track.trex.flags.toNat_lt]) (by decide) hruns
    constructor
    · exact hid
    · exact hidlt
    · exact ⟨track, trafTrack_hint htrack, rfl⟩
    · intro hzero
      exact htimescale (UInt32.toNat_inj.mp (by simpa using hzero))
    · exact hfindTfdt decodeTime htfdt
    · exact hindex
    · show (if _ then _ else _) < _
      split
      · exact hindexlt
      · exact track.trex.descriptionIndex.toNat_lt
    · rfl
    · exact hne
    · exact hsound
    · show duration = _
      rw [htotal, Nat.zero_add]
      rfl
    · exact hlt
    · rfl
  · cases h

theorem parseMoofChildren_spec {dst : Option Fragment}
    (h : parseMoofChildren videoTrack audioTrack videoHint audioHint boxes dst = .ok (some f)) :
    dst = some f ∨ ∃ child : Child,
      parseTraf child.bytes child.headerSize videoTrack audioTrack videoHint audioHint = .ok f := by
  induction boxes generalizing dst with
  | nil =>
    cases h
    exact .inl rfl
  | cons child boxes ih =>
    unfold parseMoofChildren at h
    split at h
    · exact ih h
    · simp only [bind_eq_ok, require_eq_ok] at h
      obtain ⟨-, -, g, hg, h⟩ := h
      rcases ih h with heq | hex
      · cases heq
        exact .inr ⟨child, hg⟩
      · exact .inr hex

theorem parseSourceMoof_traf (h : parseSourceMoof moof videoTrack audioTrack videoHint audioHint = .ok f) :
    ∃ child : Child,
      parseTraf child.bytes child.headerSize videoTrack audioTrack videoHint audioHint = .ok f := by
  unfold parseSourceMoof at h
  split at h
  · simp only [bind_eq_ok, require_eq_ok] at h
    obtain ⟨-, -, dst, hdst, h⟩ := h
    split at h
    · cases h
      rcases parseMoofChildren_spec hdst with heq | hex
      · cases heq
      · exact hex
    · cases h
  · cases h

theorem parseSourceMoof_sound (h : parseSourceMoof moof videoTrack audioTrack videoHint audioHint = .ok f) :
    f.Sound videoTrack audioTrack := by
  obtain ⟨child, hchild⟩ := parseSourceMoof_traf h
  exact parseTraf_sound hchild

/-! ## Payload -/

theorem sum_dataSize (h : ∀ run ∈ runs, run.Sound) :
    (runs.map Run.dataSize).sum = sizes (runs.flatMap Run.samples) :=
  sum_dataSize_eq fun run hrun => (h run hrun).dataSize_eq

theorem Run.Sound.setOffset {run : Run} (h : run.Sound) (o : Int) :
    ({ run with payloadOffset := o } : Run).Sound :=
  ⟨h.samples_ne, h.count_le, h.version_le, h.fits, h.offsets, h.duration_eq, h.dataSize_eq,
    h.duration_ne, h.dataSize_ne, h.sync⟩

theorem setOffsets_sound (h : ∀ run ∈ runs, run.Sound) (start : Nat) :
    ∀ run ∈ setOffsets start runs, run.Sound := by
  induction runs generalizing start with
  | nil => simp [setOffsets]
  | cons run runs ih =>
    intro r hr
    rcases List.mem_cons.mp hr with rfl | hmem
    · exact (h run (by simp)).setOffset _
    · exact ih (fun r hr => h r (List.mem_cons_of_mem _ hr)) _ r hmem

theorem attachPayload_attached {f' : Fragment} {start len payloadFromMoof : Int}
    (hf : f.Sound videoTrack audioTrack) (h : attachPayload f start len payloadFromMoof = .ok f') :
    f'.Sound videoTrack audioTrack ∧ f'.Attached := by
  have hpayload := attachPayload_hasPayload hf.decodeTime_lt (fun run hrun => (hf.runs run hrun).dataSize_eq) h
  obtain ⟨rfl, -, -, -⟩ := attachPayload_eq h
  refine ⟨⟨hf.trackID_ne, hf.trackID_lt, hf.track, hf.timescale_ne, hf.decodeTime_lt, hf.index_ne,
    hf.index_lt, hf.tfhd_eq, ?_, setOffsets_sound hf.runs 0, ?_, hf.duration_lt, ?_⟩,
    hpayload.toAttached⟩
  · intro hnil
    cases hruns : f.runs with
    | nil => exact hf.runs_ne hruns
    | cons run runs =>
      rw [hruns] at hnil
      cases hnil
  · show f.duration = durations ((setOffsets 0 f.runs).flatMap Run.samples)
    rw [setOffsets_samples]
    exact hf.duration_eq
  · show f.startsWithSync = ((setOffsets 0 f.runs).head?.map Run.startsWithSync).getD false
    rw [← List.head?_map, setOffsets_map Run.startsWithSync (fun _ _ => rfl), List.head?_map]
    exact hf.sync

/-! ## Splitting -/

/-- A part of a sound run is a sound run. -/
theorem Run.PartOf.sound {run part : Run} (h : run.PartOf part) (hrun : run.Sound) : part.Sound := by
  refine ⟨h.samples_ne, h.sublist.length_le.trans hrun.count_le, h.version_eq.trans_le hrun.version_le,
    fun s hs => hrun.fits s (h.sublist.subset hs), ?_, h.duration_eq, h.dataSize_eq, h.duration_ne,
    h.dataSize_ne, h.sync⟩
  intro hno s hs
  exact hrun.offsets (h.flag_eq ▸ hno) s (h.sublist.subset hs)

theorem Side.sound {bytes : Nat} {entries : List (Nat × Bool × Sample)}
    (h : Side source runs bytes duration entries)
    (hsource : ∀ run ∈ source, run.Sound) : ∀ run ∈ runs, run.Sound := by
  intro part hpart
  obtain ⟨run, hrun, hof⟩ := h.parts part hpart
  exact hof.sound (hsource run hrun)

/-- What a successful split after `n` samples gives. -/
structure IsSplit (videoTrack audioTrack : TrackInfo) (f : Fragment) (n : Nat) (l r : Fragment) :
    Prop where
  inside : 0 < n ∧ n < (tagged f.runs).length
  left_tagged : tagged l.runs = (tagged f.runs).take n
  right_tagged : tagged r.runs = (tagged f.runs).drop n
  left_sound : l.Sound videoTrack audioTrack
  right_sound : r.Sound videoTrack audioTrack
  left_consecutive : Consecutive 0 l.runs
  right_consecutive : Consecutive 0 r.runs
  left_len : l.payloadLen = sizes l.samples
  right_len : r.payloadLen = sizes r.samples
  len_eq : l.payloadLen + r.payloadLen = f.payloadLen
  len_le : l.payloadLen ≤ maxInt64 ∧ r.payloadLen ≤ maxInt64
  left_start : l.payloadStart = f.payloadStart
  right_start : r.payloadStart = f.payloadStart + l.payloadLen
  left_time : l.decodeTime = f.decodeTime
  right_time : r.decodeTime = f.decodeTime + l.duration
  duration_eq : l.duration + r.duration = f.duration
  left_track : l.trackID = f.trackID
  right_track : r.trackID = f.trackID
  left_explicit : l.hasInferredDuration = false
  right_explicit : r.hasInferredDuration = false

/-- **Splitting a fragment** partitions its samples, its time and its payload. -/
theorem splitFragmentAtSample_spec {l r : Fragment} (hf : f.Sound videoTrack audioTrack)
    (h : splitFragmentAtSample f n = .ok (l, r)) :
    IsSplit videoTrack audioTrack f n l r := by
  obtain ⟨s, hcut, hinside, ⟨hlne, hrne⟩, -, hbytes, htime, rfl, rfl⟩ :=
    splitFragmentAtSample_eq_ok h
  have hl := hcut.left
  have hr := hcut.right
  have hfsamples : f.samples = s.left.flatMap Run.samples ++ s.right.flatMap Run.samples := by
    rw [samples_eq_tagged, samples_eq_tagged, hl.entries_eq, hr.entries_eq, ← List.map_append,
      List.take_append_drop]
    exact samples_eq_tagged f.runs
  have hfdur := hf.duration_eq
  have hflt := hf.duration_lt
  rw [hfsamples, durations_append] at hfdur
  -- neither part is as long as the fragment, so the sums do not wrap around
  have hldur : s.leftDuration = durations (s.left.flatMap Run.samples) := hl.duration_eq.trans (by omega)
  have hrdur : s.rightDuration = durations (s.right.flatMap Run.samples) := hr.duration_eq.trans (by omega)
  have hflt' := hf.decodeTime_lt
  unfold maxUint64 at htime
  constructor
  · exact hinside
  · exact hl.entries_eq
  · exact hr.entries_eq
  · exact ⟨hf.trackID_ne, hf.trackID_lt, hf.track, hf.timescale_ne, hf.decodeTime_lt, hf.index_ne,
      hf.index_lt, hf.tfhd_eq, hlne, hl.sound hf.runs, hldur, by dsimp only [Fragment.part]; omega, rfl⟩
  · exact ⟨hf.trackID_ne, hf.trackID_lt, hf.track, hf.timescale_ne, by dsimp only [Fragment.part]; omega,
      hf.index_ne,
      hf.index_lt, hf.tfhd_eq, hrne, hr.sound hf.runs, hrdur, by dsimp only [Fragment.part]; omega, rfl⟩
  · exact hl.consecutive
  · exact hr.consecutive
  · exact hl.bytes_eq
  · exact hr.bytes_eq
  · exact hbytes
  · exact ⟨hl.bytes_le, hr.bytes_le⟩
  · rfl
  · rfl
  · rfl
  · rfl
  · show s.leftDuration + s.rightDuration = f.duration
    omega
  · rfl
  · rfl
  · rfl
  · rfl

/-! ## Accepted fragments -/

theorem Fragment.Sound.moved (h : f.Sound videoTrack audioTrack) (start : Nat) :
    Fragment.Sound videoTrack audioTrack { f with payloadStart := start } :=
  ⟨h.trackID_ne, h.trackID_lt, h.track, h.timescale_ne, h.decodeTime_lt, h.index_ne, h.index_lt,
    h.tfhd_eq, h.runs_ne, h.runs, h.duration_eq, h.duration_lt, h.sync⟩

theorem Fragment.Attached.moved (h : f.Attached) (start : Nat) :
    Fragment.Attached { f with payloadStart := start } := ⟨h.consecutive, h.len_eq⟩

/-- The queued fragments with explicit durations: parsed and attached, cut, and moved. -/
inductive Accepted (videoTrack audioTrack : TrackInfo) : Fragment → Prop
  | parsed {moof : Bytes} {videoHint audioHint : UInt32} {f f' : Fragment}
      {start len payloadFromMoof : Int}
      (hparse : parseSourceMoof moof videoTrack audioTrack videoHint audioHint = .ok f)
      (hexplicit : f.hasInferredDuration = false)
      (hattach : attachPayload f start len payloadFromMoof = .ok f') :
      Accepted videoTrack audioTrack f'
  | left {f l r : Fragment} {n : Nat} (hf : Accepted videoTrack audioTrack f)
      (hsplit : splitFragmentAtSample f n = .ok (l, r)) : Accepted videoTrack audioTrack l
  | right {f l r : Fragment} {n : Nat} (hf : Accepted videoTrack audioTrack f)
      (hsplit : splitFragmentAtSample f n = .ok (l, r)) : Accepted videoTrack audioTrack r
  | moved {f : Fragment} (start : Nat) (hf : Accepted videoTrack audioTrack f) :
      Accepted videoTrack audioTrack { f with payloadStart := start }

/-- **Accepted fragments are sound and attached.** -/
theorem Accepted.spec (h : Accepted videoTrack audioTrack f) : f.Sound videoTrack audioTrack ∧ f.Attached := by
  induction h with
  | parsed hparse _ hattach => exact attachPayload_attached (parseSourceMoof_sound hparse) hattach
  | left _ hsplit ih =>
    have hs := splitFragmentAtSample_spec ih.1 hsplit
    refine ⟨hs.left_sound, hs.left_consecutive, ?_⟩
    rw [← hs.left_len, toInt64_of_le hs.len_le.1]
  | right _ hsplit ih =>
    have hs := splitFragmentAtSample_spec ih.1 hsplit
    refine ⟨hs.right_sound, hs.right_consecutive, ?_⟩
    rw [← hs.right_len, toInt64_of_le hs.len_le.2]
  | moved start _ ih => exact ⟨ih.1.moved start, ih.2.moved start⟩

end TorrServer.Gstreamer.Mp4
