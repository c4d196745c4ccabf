/-
# Gstreamer.Mp4.RoundTrip — reading a written segment back.

Writer, size computation and parser agree. In three stages:

* a canonical `trun`, `tfhd` and `tfdt` is read back by the parser of the source;
* a written `traf` parses to the merged samples of its fragments;
* the whole segment is the optional `styp` and the held-back boxes, one `moof` and one `mdat`, and
  each `data_offset` points at the payload bytes of its run.
-/
import TorrServer.Gstreamer.Mp4.Accepted
import TorrServer.Gstreamer.Mp4.Segment

namespace TorrServer.Gstreamer.Mp4

open Lib List

variable {data rest a b storage traf bytes styp prefixBytes : Bytes}
  {p n trackID index decodeTime start base moofSize mdatHeaderSize moofStart sequence : Nat}
    {samples : List Sample}
  {videoTrack audioTrack track : TrackInfo} {runs : List Run} {f : Fragment}
    {fragments video audio : List Fragment}
  {timeline : Timeline} {segment : Segment} {placed : List (Run × Int)}

/-! ## Fields at a position -/

theorem beAt_of_drop {width : Nat} (h : data.drop p = beBytes width n ++ rest) (hn : n < 256 ^ width) :
    beAt width data p = n := by
  unfold beAt
  rw [h, take_left' (beBytes_length _ _), beVal_beBytes]
  exact Nat.mod_eq_of_lt hn

theorem be32_of_drop (h : data.drop p = put32 n ++ rest) (hn : n < 2 ^ 32) :
    be32 data p = n := beAt_of_drop h hn

/-- The position after a field, in bytes of what follows. -/
theorem drop_add_of_drop (h : data.drop p = a ++ b) : data.drop (p + a.length) = b := by
  rw [← drop_drop, h, drop_left]

theorem drop_box (boxType : Nat) (body : Bytes) : (box boxType body).drop 8 = body := by
  rw [box, ← append_assoc, drop_left' (by simp)]

theorem length_of_drop (h : data.drop p = a ++ b) (ha : a ≠ []) : data.length = p + a.length + b.length := by
  have hlen := congrArg List.length h
  rw [length_drop, length_append] at hlen
  have hpos : 0 < a.length := length_pos_iff.mpr ha
  omega

theorem drop_put32 (h : data.drop p = put32 n ++ rest) : data.drop (p + 4) = rest := drop_add_of_drop h

theorem put32_ne_nil (n : Nat) : put32 n ≠ [] := by
  intro h
  have := congrArg List.length h
  simp at this

/-- A present field is read where it was written. -/
theorem readField_put32 (h : data.drop p = put32 n ++ rest) (hn : n < 2 ^ 32) (default : Nat) (err : String) :
    readField true data p default err = .ok (n, p + 4) ∧ data.drop (p + 4) = rest := by
  have hlen := length_of_drop h (put32_ne_nil n)
  rw [put32_length] at hlen
  refine ⟨?_, drop_put32 h⟩
  unfold readField readUint32
  rw [if_pos rfl, if_neg (by omega), be32_of_drop h hn]

theorem readField_absent (data : Bytes) (p default : Nat) (err : String) :
    readField false data p default err = .ok (default, p) := rfl

/-! ## `trun` -/

/-- The layout of a canonical `trun`. -/
structure TrunLayout.Canonical (t : TrunLayout) (hasCompositionTimeOffsets : Bool) : Prop where
  duration : t.hasDuration = true
  size : t.hasSize = true
  flags : t.hasSampleFlags = true
  offsets : t.hasCompositionOffsets = hasCompositionTimeOffsets

theorem writeEntry_length (cto : Bool) (s : Sample) : (writeEntry cto s).length = if cto then 16 else 12 := by
  cases cto <;> simp [writeEntry]

/-- An entry is read where it was written. -/
theorem readSample_writeEntry {t : TrunLayout} {cto : Bool} (ht : t.Canonical cto) {s : Sample} (hs : s.Fits)
    (hzero : cto = false → s.compositionTimeOffsetRaw = 0) (h : data.drop p = writeEntry cto s ++ rest)
    (first : Bool) :
    readSample t data first p = .ok (s, p + (writeEntry cto s).length) ∧
      data.drop (p + (writeEntry cto s).length) = rest := by
  refine ⟨?_, drop_add_of_drop h⟩
  obtain ⟨hd, hz, hf, ho⟩ := hs
  simp only [writeEntry, append_assoc] at h
  obtain ⟨r₁, h₁⟩ := readField_put32 h hd t.defaultDuration "invalid trun sample_duration"
  obtain ⟨r₂, h₂⟩ := readField_put32 h₁ hz t.defaultSize "invalid trun sample_size"
  obtain ⟨r₃, h₃⟩ := readField_put32 h₂ hf
    (if first ∧ t.hasFirstSampleFlags then t.firstSampleFlags else t.defaultFlags)
    "invalid trun sample_flags"
  unfold readSample
  rw [ht.duration, ht.size, ht.flags, ht.offsets, r₁, ok_bind]
  dsimp only
  rw [r₂, ok_bind]
  dsimp only
  rw [r₃, ok_bind]
  dsimp only
  cases cto with
  | true =>
    rw [if_pos rfl] at h₃
    obtain ⟨r₄, -⟩ := readField_put32 h₃ ho 0 "invalid trun composition_time_offset"
    rw [r₄, ok_bind]
    simp [writeEntry, pure, Except.pure]
  | false =>
    have hcto := hzero rfl
    obtain ⟨duration, size, flags, offset⟩ := s
    subst hcto
    simp [readField, writeEntry, pure, Except.pure]

/-- The entries are read where they were written, unless a total overflows. -/
theorem readSamples_writeEntries {t : TrunLayout} {cto : Bool} (ht : t.Canonical cto)
    (hfits : ∀ s ∈ samples, s.Fits)
    (hzero : cto = false → ∀ s ∈ samples, s.compositionTimeOffsetRaw = 0) {duration dataSize : Nat}
    (hdur : duration + durations samples ≤ maxUint64) (hsize : dataSize + sizes samples ≤ maxUint64)
    (h : data.drop p = samples.flatMap (writeEntry cto) ++ rest) (first : Bool) :
    readSamples t data samples.length first p duration dataSize =
      .ok (samples, p + (samples.flatMap (writeEntry cto)).length, duration + durations samples,
        dataSize + sizes samples) := by
  induction samples generalizing p duration dataSize first with
  | nil => simp [readSamples]
  | cons s samples ih =>
    rw [durations_cons] at hdur
    rw [sizes_cons] at hsize
    rw [flatMap_cons, append_assoc] at h
    obtain ⟨hread, hdrop⟩ := readSample_writeEntry ht (hfits s (by simp))
      (fun hc => hzero hc s (by simp)) h first
    have hdur' : duration + s.duration + durations samples ≤ maxUint64 := by omega
    have hsize' : dataSize + s.size + sizes samples ≤ maxUint64 := by omega
    have hrest := ih (fun s' hs' => hfits s' (mem_cons_of_mem _ hs'))
      (fun hc s' hs' => hzero hc s' (mem_cons_of_mem _ hs')) hdur' hsize' hdrop false
    have hd : s.duration ≤ maxUint64 - duration := by omega
    have hz : s.size ≤ maxUint64 - dataSize := by omega
    rw [length_cons, readSamples, hread, ok_bind]
    dsimp only
    rw [require_bind hd, require_bind hz, hrest, ok_bind]
    simp only [pure, Except.pure, flatMap_cons, length_append, durations_cons, sizes_cons, Nat.add_assoc]

theorem sum_map_le {field : Sample → Nat} (h : ∀ s ∈ samples, field s < 2 ^ 32) :
    (samples.map field).sum ≤ samples.length * 2 ^ 32 := by
  induction samples with
  | nil => simp
  | cons s samples ih =>
    have hs := h s (by simp)
    have hrest := ih fun s' hs' => h s' (mem_cons_of_mem _ hs')
    rw [map_cons, sum_cons, length_cons, Nat.succ_mul]
    omega

theorem durations_le (h : ∀ s ∈ samples, s.Fits) : durations samples ≤ samples.length * 2 ^ 32 :=
  sum_map_le fun s hs => (h s hs).1

theorem sizes_le (h : ∀ s ∈ samples, s.Fits) : sizes samples ≤ samples.length * 2 ^ 32 :=
  sum_map_le fun s hs => (h s hs).2.1

/-- The body of a canonical `trun`. -/
def trunBody (run : Run) (dataOffset : Int) : Bytes :=
  put32 (run.version <<< 24 ||| canonicalTrunFlags run.hasCompositionTimeOffsets) ++
    put32 run.samples.length ++ put32 (dataOffset % 2 ^ 32).toNat ++
    run.samples.flatMap (writeEntry run.hasCompositionTimeOffsets)

theorem trunBody_length (run : Run) (dataOffset : Int) :
    8 + (trunBody run dataOffset).length = canonicalTrunSize run := by
  have hentries : ∀ samples : List Sample,
      (samples.flatMap (writeEntry run.hasCompositionTimeOffsets)).length
        = samples.length * entrySize run := by
    intro samples
    induction samples with
    | nil => simp
    | cons s samples ih =>
      rw [flatMap_cons, length_append, ih, writeEntry_length, length_cons, Nat.succ_mul, entrySize]
      omega
  simp only [trunBody, length_append, put32_length, hentries, canonicalTrunSize]
  omega

/-- `writeCanonicalTrun` writes a box with that body. -/
theorem writeCanonicalTrun_eq {run : Run} {dataOffset : Int} {trun : Bytes}
    (h : writeCanonicalTrun run dataOffset = .ok trun) :
    trun = box boxTrun (trunBody run dataOffset) ∧ canonicalTrunSize run ≤ maxUint32 := by
  simp only [writeCanonicalTrun, bind_eq_ok, require_eq_ok, pure_eq_ok] at h
  obtain ⟨-, -, -, -, -, hsize, rfl⟩ := h
  refine ⟨?_, hsize⟩
  rw [box, trunBody_length, trunBody]
  simp only [append_assoc]

/-- The run the parser reads from a canonical `trun`. -/
def Run.reread (run : Run) (dataOffset : Int) : Run :=
  { run with
    sourceDataOffset := dataOffset, hasSourceDataOffset := true, payloadOffset := 0
    outputOffset := 0, hasInferredDuration := false }

/-- What the parser makes of the version and flags of a canonical `trun`. -/
structure CanonicalFlags (version : Nat) (cto : Bool) (versionFlags : Nat) : Prop where
  lt : versionFlags < 2 ^ 32
  version_eq : versionFlags >>> 24 = version
  known : unknownFlags (versionFlags &&& 0x00ffffff) (trunDataOffsetPresent |||
    trunFirstSampleFlagsPresent ||| trunSampleDurationPresent ||| trunSampleSizePresent |||
    trunSampleFlagsPresent ||| trunCompositionTimeOffsetPresent) = 0
  dataOffset : hasFlag (versionFlags &&& 0x00ffffff) trunDataOffsetPresent = true
  firstSampleFlags : hasFlag (versionFlags &&& 0x00ffffff) trunFirstSampleFlagsPresent = false
  duration : hasFlag (versionFlags &&& 0x00ffffff) trunSampleDurationPresent = true
  size : hasFlag (versionFlags &&& 0x00ffffff) trunSampleSizePresent = true
  sampleFlags : hasFlag (versionFlags &&& 0x00ffffff) trunSampleFlagsPresent = true
  offsets : hasFlag (versionFlags &&& 0x00ffffff) trunCompositionTimeOffsetPresent = cto

theorem canonicalFlags {version : Nat} (h : version ≤ 1) (cto : Bool) :
    CanonicalFlags version cto (version <<< 24 ||| canonicalTrunFlags cto) := by
  have hv : version = 0 ∨ version = 1 := by omega
  rcases hv with rfl | rfl <;> cases cto <;> constructor <;> decide

theorem toInt32_of_range {x : Int} (h : -2 ^ 31 ≤ x ∧ x ≤ maxInt32) : toInt32 (x % 2 ^ 32).toNat = x := by
  obtain ⟨hlo, hhi⟩ := h
  have hmax : (maxInt32 : Int) = 2 ^ 31 - 1 := rfl
  have hnonneg : 0 ≤ x % 2 ^ 32 := Int.emod_nonneg x (by decide)
  unfold toInt32
  rw [Int.toNat_of_nonneg hnonneg]
  have hdef := @Int.bmod_def (x % 2 ^ 32) (2 ^ 32)
  omega

/-- **A canonical `trun` is read back** as the run it was written from. -/
theorem normalizeTrun_trunBody {run : Run} (hrun : run.Sound) {dataOffset : Int}
    (hoff : -2 ^ 31 ≤ dataOffset ∧ dataOffset ≤ maxInt32)
    (defaultDuration defaultSize defaultFlags : Nat) (isHint : Bool) :
    normalizeTrun (box boxTrun (trunBody run dataOffset)) 8 defaultDuration defaultSize defaultFlags
      isHint = .ok (run.reread dataOffset) := by
  have hc := canonicalFlags hrun.version_le run.hasCompositionTimeOffsets
  set versionFlags := run.version <<< 24 ||| canonicalTrunFlags run.hasCompositionTimeOffsets
    with hvf
  have hcount : run.samples.length < 2 ^ 32 := lt_of_le_of_lt hrun.count_le (by decide)
  have hoffset : (dataOffset % 2 ^ 32).toNat < 2 ^ 32 := by
    have hlt := Int.emod_lt_of_pos dataOffset (show (0 : Int) < 2 ^ 32 by decide)
    omega
  set data := box boxTrun (trunBody run dataOffset) with hdata
  have hdrop : data.drop 8 = put32 versionFlags ++ (put32 run.samples.length ++
      (put32 (dataOffset % 2 ^ 32).toNat ++
        (run.samples.flatMap (writeEntry run.hasCompositionTimeOffsets) ++ []))) := by
    rw [hdata, drop_box, trunBody, hvf]
    simp only [append_assoc, append_nil]
  have hlen : data.length = canonicalTrunSize run := by rw [hdata, box_length, trunBody_length]
  have hsize : 20 ≤ data.length := by
    rw [hlen, canonicalTrunSize]
    omega
  have h₁ : be32 data 8 = versionFlags := be32_of_drop hdrop hc.lt
  have hdrop₁ := drop_put32 hdrop
  have h₂ : be32 data 12 = run.samples.length := be32_of_drop hdrop₁ hcount
  obtain ⟨r₃, hdrop₃⟩ := readField_put32 (drop_put32 hdrop₁) hoffset 0 "invalid trun data_offset"
  -- a run has at most a million samples, so the totals do not overflow
  have hsmall : run.samples.length * 2 ^ 32 ≤ maxUint64 :=
    (Nat.mul_le_mul_right _ hrun.count_le).trans (by decide)
  have hdurations := (durations_le hrun.fits).trans hsmall
  have hsizes := (sizes_le hrun.fits).trans hsmall
  have hentries : (run.samples.flatMap (writeEntry run.hasCompositionTimeOffsets)).length + 20
      = data.length := by
    rw [hdata, box_length, trunBody]
    simp only [length_append, put32_length]
    omega
  have hne : run.samples.length ≠ 0 := fun h =>
    hrun.samples_ne (eq_nil_of_length_eq_zero h)
  unfold normalizeTrun
  rw [require_bind (show 8 + 8 ≤ data.length by omega)]
  simp only [h₁, h₂, hc.version_eq, hc.known, hc.dataOffset, hc.firstSampleFlags, hc.duration,
    hc.size, hc.sampleFlags, hc.offsets]
  rw [require_bind hrun.version_le, require_bind trivial, require_bind hne, r₃, ok_bind]
  dsimp only
  rw [require_bind (by simp), readField_absent, ok_bind]
  dsimp only
  set layout : TrunLayout := ⟨true, true, true, run.hasCompositionTimeOffsets, false, defaultFlags,
    defaultDuration, defaultSize, defaultFlags⟩ with hlayout
  have hbody : 8 + 4 + 4 + 4 + run.samples.length * layout.fieldsPerSample * 4 = data.length := by
    rw [hlen, canonicalTrunSize, entrySize, hlayout, TrunLayout.fieldsPerSample]
    cases run.hasCompositionTimeOffsets <;> simp <;> omega
  have hread := readSamples_writeEntries
    (show layout.Canonical run.hasCompositionTimeOffsets from ⟨rfl, rfl, rfl, rfl⟩) hrun.fits
    hrun.offsets ((Nat.zero_add _).trans_le hdurations) ((Nat.zero_add _).trans_le hsizes) hdrop₃ true
  rw [require_bind (.inl trivial), require_bind (.inl trivial),
    require_bind hrun.count_le, require_bind hbody, hread, ok_bind]
  dsimp only
  rw [Nat.zero_add, Nat.zero_add, ← hrun.duration_eq, ← hrun.dataSize_eq, ← hrun.sync,
    require_bind ⟨by omega, hrun.duration_ne, hrun.dataSize_ne⟩, toInt32_of_range hoff]
  rfl

/-! ## `tfhd` and `tfdt` -/

/-- The body of a canonical `tfhd`. -/
def tfhdBody (trackID sampleDescriptionIndex : Nat) : Bytes :=
  put32 (tfhdSampleDescriptionIndexPresent ||| tfhdDefaultBaseIsMoof) ++
    (put32 trackID ++ (put32 sampleDescriptionIndex ++ []))

theorem buildCanonicalTfhd_eq (trackID sampleDescriptionIndex : Nat) :
    buildCanonicalTfhd trackID sampleDescriptionIndex
      = box boxTfhd (tfhdBody trackID sampleDescriptionIndex) := by
  simp [buildCanonicalTfhd, box, tfhdBody]

/-- What the parser reads from it. -/
def canonicalTfhd (trackID index : Nat) : TfhdInfo :=
  { trackID := trackID, sampleDescriptionIndex := index, hasSampleDescriptionIndex := true }

theorem parseTfhd_canonical (hid : trackID ≠ 0) (hidlt : trackID < 2 ^ 32) (hindex : index ≠ 0)
    (hindexlt : index < 2 ^ 32) :
    parseTfhd (box boxTfhd (tfhdBody trackID index)) 8 = .ok (canonicalTfhd trackID index) := by
  set data := box boxTfhd (tfhdBody trackID index) with hdata
  have hlen : data.length = 20 := by simp [hdata, tfhdBody]
  have hdrop : data.drop 8 = tfhdBody trackID index := drop_box _ _
  rw [tfhdBody] at hdrop
  have h₁ := be32_of_drop hdrop (by decide)
  have hdrop₁ := drop_put32 hdrop
  have h₂ : be32 data (8 + 4) = trackID := be32_of_drop hdrop₁ hidlt
  obtain ⟨r₃, -⟩ := readField_put32 (drop_put32 hdrop₁) hindexlt 0 "invalid tfhd sample_description_index"
  have hflags : (tfhdSampleDescriptionIndexPresent ||| tfhdDefaultBaseIsMoof) &&& 0x00ffffff
      = 0x020002 := by decide
  have hversion : (tfhdSampleDescriptionIndexPresent ||| tfhdDefaultBaseIsMoof) >>> 24 = 0 := by decide
  unfold parseTfhd
  rw [require_bind (by omega)]
  simp only [h₁, h₂, hflags, hversion]
  rw [require_bind trivial, require_bind (by decide), require_bind (by decide), require_bind (by decide),
    require_bind hid]
  have hpresent : hasFlag 0x020002 tfhdSampleDescriptionIndexPresent = true := by decide
  have hdur : hasFlag 0x020002 tfhdDefaultSampleDurationPresent = false := by decide
  have hsize : hasFlag 0x020002 tfhdDefaultSampleSizePresent = false := by decide
  have hdefault : hasFlag 0x020002 tfhdDefaultSampleFlagsPresent = false := by decide
  rw [hpresent, hdur, hsize, hdefault, r₃, ok_bind]
  dsimp only
  rw [require_bind (fun _ => hindex), readField_absent, ok_bind, readField_absent, ok_bind,
    readField_absent, ok_bind]
  dsimp only
  rw [require_bind (by omega)]
  rfl

/-- The body of a `tfdt`. -/
def tfdtBody (decodeTime : Nat) : Bytes := put32 0x01000000 ++ (put64 decodeTime ++ [])

theorem writeTfdt_eq (decodeTime : Nat) : writeTfdt decodeTime = box boxTfdt (tfdtBody decodeTime) := by
  simp [writeTfdt, box, tfdtBody]

theorem readTfdt_tfdtBody (h : decodeTime < 2 ^ 64) :
    readTfdt (box boxTfdt (tfdtBody decodeTime)) 8 = some decodeTime := by
  set data := box boxTfdt (tfdtBody decodeTime) with hdata
  have hlen : data.length = 20 := by simp [hdata, tfdtBody]
  have hdrop : data.drop 8 = tfdtBody decodeTime := drop_box _ _
  rw [tfdtBody] at hdrop
  have hversion : beAt 1 data 8 = 1 := by
    have hput : put32 0x01000000 = [1, 0, 0, 0] := by decide
    rw [beAt, hdrop, hput]
    rfl
  have hvalue : be64 data (8 + 4) = decodeTime := beAt_of_drop (drop_put32 hdrop) h
  unfold readTfdt
  rw [if_neg (by omega), hversion]
  dsimp only
  rw [if_pos rfl, if_neg (by omega), hvalue]

/-! ## `traf` -/

/-- The boxes of a `traf`: `tfhd`, `tfdt`, and a `trun` for each run with its data offset. -/
def trafBoxes (trackID index decodeTime : Nat) (runs : List (Run × Int)) : List (Nat × Bytes) :=
  (boxTfhd, tfhdBody trackID index) :: (boxTfdt, tfdtBody decodeTime) ::
    runs.map fun r => (boxTrun, trunBody r.1 r.2)

/-- The body of a `traf`. -/
def trafBody (trackID index decodeTime : Nat) (runs : List (Run × Int)) : Bytes :=
  ((trafBoxes trackID index decodeTime runs).map fun b => box b.1 b.2).flatten

/-- A track without defaults. -/
def TrackInfo.bare (t : TrackInfo) : TrackInfo := { t with trex := {} }

theorem trafTrack_bare (h : trafTrack videoTrack audioTrack 0 0 trackID = .ok (track, 0)) :
    trafTrack videoTrack.bare audioTrack.bare 0 0 trackID = .ok (track.bare, 0) := by
  rw [trafTrack_eq_ok_iff] at h ⊢
  rcases h with ⟨hid, rfl, -⟩ | ⟨hne, hid, rfl, -⟩
  · exact .inl ⟨hid, rfl, rfl⟩
  · exact .inr ⟨hne, hid, rfl, rfl⟩

/-- The boxes of a `traf` as the walk over it finds them. -/
def trafChildren (trackID index decodeTime : Nat) (placed : List (Run × Int)) : List Child :=
  (trafBoxes trackID index decodeTime placed).map fun b => ⟨b.1, 8, box b.1 b.2⟩

/-- The headers of a `traf` fit their fields. -/
structure HeadersFit (trackID index decodeTime : Nat) : Prop where
  trackID_ne : trackID ≠ 0
  trackID_lt : trackID < 2 ^ 32
  index_ne : index ≠ 0
  index_lt : index < 2 ^ 32
  decodeTime_lt : decodeTime < 2 ^ 64

/-- The `trun`s say nothing to the first loop. -/
theorem foldlM_parseTrafChild_truns (found : TrafHeaders) :
    ((placed.map fun r => (boxTrun, trunBody r.1 r.2)).map fun b => (⟨b.1, 8, box b.1 b.2⟩ : Child)).foldlM
      parseTrafChild found = .ok found := by
  induction placed with
  | nil => rfl
  | cons r placed ih =>
    rw [map_cons, map_cons, foldlM_cons, parseTrafChild, if_neg (show boxTrun ≠ boxTfhd by decide),
      if_neg (show boxTrun ≠ boxTfdt by decide), if_pos rfl]
    exact ih

/-- The first loop finds the headers. -/
theorem foldlM_trafChildren (h : HeadersFit trackID index decodeTime) :
    (trafChildren trackID index decodeTime placed).foldlM parseTrafChild {} =
      .ok { tfhd := some (canonicalTfhd trackID index), tfdt := some decodeTime } := by
  have htfhd : parseTrafChild {} ⟨boxTfhd, 8, box boxTfhd (tfhdBody trackID index)⟩ =
      .ok { tfhd := some (canonicalTfhd trackID index) } := by
    unfold parseTrafChild
    rw [if_pos rfl, require_bind rfl]
    dsimp only
    rw [parseTfhd_canonical h.trackID_ne h.trackID_lt h.index_ne h.index_lt]
    rfl
  have htfdt : ∀ tfhd, parseTrafChild { tfhd := some tfhd } ⟨boxTfdt, 8, box boxTfdt (tfdtBody decodeTime)⟩ =
      .ok { tfhd := some tfhd, tfdt := some decodeTime } := by
    intro tfhd
    unfold parseTrafChild
    rw [if_neg (show boxTfdt ≠ boxTfhd by decide), if_pos rfl, require_bind rfl]
    dsimp only
    rw [readTfdt_tfdtBody h.decodeTime_lt]
    rfl
  rw [trafChildren, trafBoxes, map_cons, map_cons, foldlM_cons, htfhd, ok_bind, foldlM_cons, htfdt, ok_bind]
  exact foldlM_parseTrafChild_truns _

/-- The runs of a `traf` can be written with their data offsets. -/
structure RunsFit (placed : List (Run × Int)) : Prop where
  sound : ∀ r ∈ placed, r.1.Sound
  range : ∀ r ∈ placed, -2 ^ 31 ≤ r.2 ∧ r.2 ≤ maxInt32
  total : (placed.map fun r => r.1.duration).sum ≤ maxUint64

/-- The second loop reads the runs back. -/
theorem parseRuns_truns (defaultDuration defaultSize defaultFlags : Nat) (isHint : Bool) {duration : Nat}
    (hsound : ∀ r ∈ placed, r.1.Sound) (hrange : ∀ r ∈ placed, -2 ^ 31 ≤ r.2 ∧ r.2 ≤ maxInt32)
    (htotal : duration + (placed.map fun r => r.1.duration).sum ≤ maxUint64) :
    parseRuns defaultDuration defaultSize defaultFlags isHint
      ((placed.map fun r => (boxTrun, trunBody r.1 r.2)).map fun b =>
        (⟨b.1, 8, box b.1 b.2⟩ : Child)) duration =
      .ok (placed.map fun r => r.1.reread r.2, duration + (placed.map fun r => r.1.duration).sum) := by
  induction placed generalizing duration with
  | nil => rfl
  | cons r placed ih =>
    rw [map_cons, sum_cons] at htotal
    have hread := normalizeTrun_trunBody (hsound r (by simp)) (hrange r (by simp))
      defaultDuration defaultSize defaultFlags isHint
    have hle : (r.1.reread r.2).duration ≤ maxUint64 - duration := by
      show r.1.duration ≤ _
      omega
    have hduration : duration + r.1.duration + (placed.map fun r => r.1.duration).sum ≤ maxUint64 := by omega
    have hrest :=
      ih (fun r' hr' => hsound r' (by simp [hr'])) (fun r' hr' => hrange r' (by simp [hr'])) hduration
    rw [map_cons, map_cons, parseRuns, if_neg (by simp), hread, ok_bind, require_bind hle]
    show (do
      let x ← parseRuns defaultDuration defaultSize defaultFlags isHint _ (duration + r.1.duration)
      pure (r.1.reread r.2 :: x.1, x.2)) = _
    rw [hrest, ok_bind, map_cons, map_cons, sum_cons, Nat.add_assoc]
    rfl

/-- The walk over a written `traf`. -/
theorem children_trafBody (hsize : 8 + (trafBody trackID index decodeTime placed).length ≤ maxInt32) :
    children (box boxTraf (trafBody trackID index decodeTime placed)) 8 =
      trafChildren trackID index decodeTime placed := by
  have hwalk := children_boxes (put32 (8 + (trafBody trackID index decodeTime placed).length) ++ put32 boxTraf)
    (trafBoxes trackID index decodeTime placed) ?_ ?_
  · rw [length_append, put32_length, put32_length, append_assoc] at hwalk
    exact hwalk
  · intro b hb
    simp only [trafBoxes, mem_cons, mem_map] at hb
    rcases hb with rfl | rfl | ⟨r, -, rfl⟩
    · exact (by decide : boxTfhd < 2 ^ 32)
    · exact (by decide : boxTfdt < 2 ^ 32)
    · exact (by decide : boxTrun < 2 ^ 32)
  · intro b hb
    have hsub : (box b.1 b.2).Sublist (trafBody trackID index decodeTime placed) :=
      sublist_flatten_of_mem (mem_map.mpr ⟨b, hb, rfl⟩)
    have hle := hsub.length_le
    rw [box_length] at hle
    omega

/-- **A written `traf` parses back** to its runs, in the track with its timescale. -/
theorem parseTraf_trafBody (h : HeadersFit trackID index decodeTime)
    (htrack : trafTrack videoTrack audioTrack 0 0 trackID = .ok (track, 0)) (htimescale : track.timescale ≠ 0)
    (hne : placed ≠ []) (hfit : RunsFit placed)
    (hsize : 8 + (trafBody trackID index decodeTime placed).length ≤ maxInt32) :
    ∃ parsed, parseTraf (box boxTraf (trafBody trackID index decodeTime placed)) 8 videoTrack.bare
        audioTrack.bare 0 0 = .ok parsed ∧
      parsed.trackID = trackID ∧ parsed.timescale = track.timescale.toNat ∧ parsed.decodeTime = decodeTime ∧
      parsed.runs = placed.map fun r => r.1.reread r.2 := by
  have hruns : ∀ dd ds df hint, parseRuns dd ds df hint (trafChildren trackID index decodeTime placed) 0 =
      .ok (placed.map fun r => r.1.reread r.2, (placed.map fun r => r.1.duration).sum) := by
    intro dd ds df hint
    rw [trafChildren, trafBoxes, map_cons, map_cons, parseRuns,
      if_pos (show boxTfhd ≠ boxTrun by decide), parseRuns, if_pos (show boxTfdt ≠ boxTrun by decide),
      parseRuns_truns dd ds df hint hfit.sound hfit.range ((Nat.zero_add _).trans_le hfit.total), Nat.zero_add]
  have hrunsne : (placed.map fun r => r.1.reread r.2) ≠ [] := by simpa using hne
  have hduration : (placed.map fun r => r.1.duration).sum ≠ 0 := by
    cases placed with
    | nil => exact absurd rfl hne
    | cons r placed =>
      have hpos := (hfit.sound r (by simp)).duration_ne
      rw [map_cons, sum_cons]
      omega
  refine ⟨?parsed, ?_, ?_⟩
  rotate_left
  · unfold parseTraf
    rw [children_trafBody hsize, foldlM_trafChildren h, ok_bind]
    dsimp only
    rw [canonicalTfhd, trafTrack_bare htrack, ok_bind]
    dsimp only
    rw [require_bind (show track.bare.timescale ≠ 0 from htimescale), if_pos rfl,
      require_bind h.index_ne, hruns, ok_bind]
    dsimp only
    rw [require_bind ⟨hrunsne, hduration⟩]
    rfl
  · exact ⟨rfl, rfl, rfl, rfl⟩

theorem writeHeader_append (boxType : Nat) (body : Bytes) :
    writeHeader (8 + body.length) boxType ++ body = box boxType body := by
  simp [writeHeader, box]

/-! ## Offsets -/

/-- Runs with the offset of each if they lie one after the other from `start` on. -/
def withOffsets : Nat → List Run → List (Run × Nat)
  | _, [] => []
  | start, run :: runs => (run, start) :: withOffsets (start + run.dataSize) runs

theorem withOffsets_append (start : Nat) (a b : List Run) :
    withOffsets start (a ++ b) =
      withOffsets start a ++ withOffsets (start + (a.map Run.dataSize).sum) b := by
  induction a generalizing start with
  | nil => simp [withOffsets]
  | cons run a ih => simp [withOffsets, ih, Nat.add_assoc]

theorem withOffsets_fst (start : Nat) (runs : List Run) : (withOffsets start runs).map Prod.fst = runs := by
  induction runs generalizing start with
  | nil => rfl
  | cons run runs ih => simp [withOffsets, ih]

theorem withOffsets_le {r : Run × Nat} (h : r ∈ withOffsets start runs) :
    start ≤ r.2 ∧ r.2 + r.1.dataSize ≤ start + (runs.map Run.dataSize).sum := by
  induction runs generalizing start with
  | nil => cases h
  | cons run runs ih =>
    rw [map_cons, sum_cons]
    rcases mem_cons.mp h with rfl | hmem
    · dsimp only
      omega
    · have := ih hmem
      omega

/-- Runs one after the other that together fit an `int64` have exactly these offsets. -/
theorem withOffsets_of_consecutive (h : Consecutive start runs)
    (hle : base + start + (runs.map Run.dataSize).sum ≤ maxInt64) :
    (runs.map fun run => { run with outputOffset := toInt64 (base + run.payloadOffset) }) =
      (withOffsets (base + start) runs).map fun r =>
        { r.1 with outputOffset := (r.2 : Int) } := by
  induction runs generalizing start with
  | nil => rfl
  | cons run runs ih =>
    obtain ⟨hoffset, hrest⟩ := h
    rw [map_cons, sum_cons] at hle
    have hstart : toInt64 (start : Int) = start := toInt64_of_le (by omega)
    have hoff : toInt64 (base + run.payloadOffset) = ((base + start : Nat) : Int) := by
      rw [hoffset, hstart, ← Nat.cast_add, toInt64_of_le (by omega)]
    rw [map_cons, withOffsets, map_cons, hoff, ih hrest (by omega), Nat.add_assoc]

/-- A fragment tied to its payload, with all sizes below `2 ^ 63`. -/
theorem Fragment.Attached.len (h : f.Attached) (hle : sizes f.samples ≤ maxInt64) :
    f.payloadLen = sizes f.samples := by
  have hlen := h.len_eq
  rw [toInt64_of_le hle] at hlen
  exact_mod_cast hlen

/-- The samples of some fragments. -/
def allSamples (fragments : List Fragment) : List Sample := fragments.flatMap Fragment.samples

theorem allSamples_cons (f : Fragment) (fragments : List Fragment) :
    allSamples (f :: fragments) = f.samples ++ allSamples fragments := rfl

theorem allRuns_cons (f : Fragment) (fragments : List Fragment) :
    allRuns (f :: fragments) = f.runs ++ allRuns fragments := rfl

/-- Fragments that can be written. -/
def Writable (videoTrack audioTrack : TrackInfo) (fragments : List Fragment) : Prop :=
  ∀ f ∈ fragments, f.Sound videoTrack audioTrack ∧ f.Attached

theorem Writable.runSound (h : Writable videoTrack audioTrack fragments) :
    ∀ run ∈ allRuns fragments, run.Sound := by
  intro run hrun
  obtain ⟨f, hf, hrun⟩ := mem_flatMap.mp hrun
  exact (h f hf).1.runs run hrun

theorem allSamples_eq (fragments : List Fragment) :
    allSamples fragments = (allRuns fragments).flatMap Run.samples := by
  rw [allSamples, allRuns, flatMap_assoc]
  rfl

/-- **`assignOffsets` places the runs one after the other.** -/
theorem assignOffsets_spec (h : Writable videoTrack audioTrack fragments)
    (hle : base + sizes (allSamples fragments) ≤ maxInt64) :
    allRuns (assignOffsets fragments base).1 =
        (withOffsets base (allRuns fragments)).map (fun r => { r.1 with outputOffset := (r.2 : Int) }) ∧
      (assignOffsets fragments base).2 = ((base + sizes (allSamples fragments) : Nat) : Int) := by
  induction fragments generalizing base with
  | nil => exact ⟨rfl, rfl⟩
  | cons f fragments ih =>
    rw [allSamples_cons, sizes_append] at hle
    obtain ⟨hf, ha⟩ := h f (by simp)
    have hlen := ha.len (by omega)
    have hsum : (f.runs.map Run.dataSize).sum = sizes f.samples := sum_dataSize hf.runs
    have hbase : toInt64 ((base : Int) + f.payloadLen) = ((base + sizes f.samples : Nat) : Int) := by
      rw [hlen, ← Nat.cast_add, toInt64_of_le (by omega)]
    have hrest : base + sizes f.samples + sizes (allSamples fragments) ≤ maxInt64 := by omega
    have hhere : base + 0 + (f.runs.map Run.dataSize).sum ≤ maxInt64 := by omega
    obtain ⟨hruns, hlast⟩ := ih (fun g hg => h g (by simp [hg])) hrest
    have hplace := withOffsets_of_consecutive ha.consecutive hhere
    rw [assignOffsets, hbase]
    constructor
    · rw [allRuns_cons, hruns, allRuns_cons, withOffsets_append, map_append, hsum]
      congr 1
    · rw [allSamples_cons, sizes_append]
      dsimp only
      rw [hlast, Nat.add_assoc]

/-- `writeRuns` writes a canonical `trun` for each run, and every data offset fits an `int32`. -/
theorem writeRuns_eq {truns : Bytes} (h : writeRuns moofSize mdatHeaderSize runs = .ok truns) :
    truns = (runs.map fun run =>
        box boxTrun (trunBody run (toInt64 (moofSize + mdatHeaderSize + run.outputOffset)))).flatten ∧
      ∀ run ∈ runs, -2 ^ 31 ≤ toInt64 (moofSize + mdatHeaderSize + run.outputOffset) ∧
        toInt64 (moofSize + mdatHeaderSize + run.outputOffset) ≤ maxInt32 := by
  induction runs generalizing truns with
  | nil =>
    cases h
    exact ⟨rfl, by simp⟩
  | cons run runs ih =>
    simp only [writeRuns, bind_eq_ok, require_eq_ok, pure_eq_ok] at h
    obtain ⟨-, hrange, trun, htrun, rest, hrest, rfl⟩ := h
    obtain ⟨rfl, hranges⟩ := ih hrest
    obtain ⟨rfl, -⟩ := writeCanonicalTrun_eq htrun
    refine ⟨rfl, fun r hr => ?_⟩
    rcases mem_cons.mp hr with rfl | hmem
    · exact hrange
    · exact hranges r hmem

/-! ## Payload -/

/-- The runs of some fragments, each with its fragment. -/
def sources (fragments : List Fragment) : List (Fragment × Run) :=
  fragments.flatMap fun f => f.runs.map fun run => (f, run)

theorem sources_snd (fragments : List Fragment) : (sources fragments).map Prod.snd = allRuns fragments := by
  induction fragments with
  | nil => rfl
  | cons f fragments ih =>
    rw [allRuns_cons, ← ih]
    simp [sources, Function.comp_def]

/-- The payload bytes of a run in the payload buffer. -/
def sourceBytes (storage : Bytes) (src : Fragment × Run) : Bytes :=
  (storage.drop (src.1.payloadStart + src.2.payloadOffset.toNat)).take src.2.dataSize

/-- A range of the buffer is the ranges of runs that fill it. -/
theorem flatten_sourceBytes (h : Consecutive start runs)
    (hle : start + (runs.map Run.dataSize).sum ≤ maxInt64) :
    (runs.map fun run => sourceBytes storage (f, run)).flatten =
      (storage.drop (f.payloadStart + start)).take (runs.map Run.dataSize).sum := by
  induction runs generalizing start with
  | nil => simp
  | cons run runs ih =>
    obtain ⟨hoffset, hrest⟩ := h
    rw [map_cons, sum_cons] at hle
    have hstart : run.payloadOffset.toNat = start := by
      rw [hoffset, toInt64_of_le (by omega)]
      rfl
    rw [map_cons, flatten_cons, ih hrest (by omega), sourceBytes, hstart, map_cons, sum_cons,
      take_add, drop_drop]
    congr 3
    omega

theorem consecutive_le (h : Consecutive start runs)
    (hle : start + (runs.map Run.dataSize).sum ≤ maxInt64) {run : Run} (hrun : run ∈ runs) :
    run.payloadOffset.toNat + run.dataSize ≤ start + (runs.map Run.dataSize).sum := by
  induction runs generalizing start with
  | nil => cases hrun
  | cons r runs ih =>
    obtain ⟨hoffset, hrest⟩ := h
    rw [map_cons, sum_cons] at hle ⊢
    rcases mem_cons.mp hrun with rfl | hmem
    · rw [hoffset, toInt64_of_le (by omega), Int.toNat_natCast]
      omega
    · have := ih hrest (by omega) hmem
      omega

theorem Fragment.Sound.sizes_ne (h : f.Sound videoTrack audioTrack) : sizes f.samples ≠ 0 := by
  obtain ⟨run, runs, hruns⟩ := exists_cons_of_ne_nil h.runs_ne
  have hrun := h.runs run (by simp [hruns])
  have hpos := hrun.dataSize_ne
  rw [Fragment.samples, hruns, flatMap_cons, sizes_append, ← hrun.dataSize_eq]
  omega

/-- **The collected payload** is the payload bytes of the runs, one after the other. -/
theorem fragmentPayloadRanges_eq {ranges : List Bytes} (h : Writable videoTrack audioTrack fragments)
    (hle : sizes (allSamples fragments) ≤ maxInt64)
    (hranges : fragmentPayloadRanges storage fragments = .ok ranges) :
    ranges.flatten = ((sources fragments).map (sourceBytes storage)).flatten ∧
      ∀ src ∈ sources fragments, (sourceBytes storage src).length = src.2.dataSize := by
  induction fragments generalizing ranges with
  | nil =>
    cases hranges
    exact ⟨rfl, by simp [sources]⟩
  | cons f fragments ih =>
    rw [allSamples_cons, sizes_append] at hle
    obtain ⟨hf, ha⟩ := h f (by simp)
    have hlen := ha.len (by omega)
    have hsum : (f.runs.map Run.dataSize).sum = sizes f.samples := sum_dataSize hf.runs
    have hpos := hf.sizes_ne
    have hall : 0 + (f.runs.map Run.dataSize).sum ≤ maxInt64 := by omega
    rw [fragmentPayloadRanges, if_neg (by omega)] at hranges
    simp only [bind_eq_ok, require_eq_ok, pure_eq_ok] at hranges
    obtain ⟨-, hrange, rest, hrest, rfl⟩ := hranges
    obtain ⟨hflat, hlens⟩ := ih (fun g hg => h g (by simp [hg])) (by omega) hrest
    have hhere : (f.runs.map fun run => sourceBytes storage (f, run)).flatten =
        (storage.drop (f.payloadStart + 0)).take (f.runs.map Run.dataSize).sum :=
      flatten_sourceBytes ha.consecutive hall
    rw [Nat.add_zero, hsum, ← hlen] at hhere
    constructor
    · rw [flatten_cons, hflat, ← hhere]
      simp [sources, Function.comp_def]
    · intro src hsrc
      rcases mem_append.mp hsrc with hmem | hmem
      · obtain ⟨run, hrun, rfl⟩ := mem_map.mp hmem
        have hle' := consecutive_le ha.consecutive hall hrun
        rw [sourceBytes, length_take, length_drop]
        dsimp only
        omega
      · exact hlens src hmem

/-- A piece of a string laid end to end is found at its offset. -/
theorem forall₂_pieces {storage pre post : Bytes} {srcs : List (Fragment × Run)} {start : Nat}
    (hpre : pre.length = start)
    (hlens : ∀ src ∈ srcs, (sourceBytes storage src).length = src.2.dataSize) :
    List.Forall₂ (fun (src : Fragment × Run) (r : Run × Nat) => r.1 = src.2 ∧
        ((pre ++ (srcs.map (sourceBytes storage)).flatten ++ post).drop r.2).take src.2.dataSize
          = sourceBytes storage src)
      srcs (withOffsets start (srcs.map Prod.snd)) := by
  induction srcs generalizing pre start with
  | nil => exact .nil
  | cons src srcs ih =>
    have hlen := hlens src (by simp)
    refine .cons ⟨rfl, ?_⟩ ?_
    · rw [map_cons, flatten_cons, ← hpre, append_assoc, drop_left, append_assoc, ← hlen, take_left]
    · have hpre' : (pre ++ sourceBytes storage src).length = start + src.2.dataSize := by
        rw [length_append, hpre, hlen]
      have hrest := ih hpre' (fun s hs => hlens s (by simp [hs]))
      simpa only [map_cons, flatten_cons, append_assoc] using hrest

/-! ## A track of a segment -/

theorem canonicalTrunSizes_assignOffsets (fragments : List Fragment) (base : Int) :
    (allRuns (assignOffsets fragments base).1).map canonicalTrunSize =
      (allRuns fragments).map canonicalTrunSize := by
  induction fragments generalizing base with
  | nil => rfl
  | cons f fragments ih =>
    rw [assignOffsets, allRuns_cons, allRuns_cons, map_append, map_append, ih, map_map]
    rfl

theorem getTrafSize_assignOffsets (fragments : List Fragment) (base : Int) :
    getTrafSize (assignOffsets fragments base).1 = getTrafSize fragments := by
  rw [getTrafSize, getTrafSize, canonicalTrunSizes_assignOffsets]

/-- Every sample takes at least twelve bytes of its `traf`. -/
theorem samples_le_getTrafSize (fragments : List Fragment) :
    12 * (allSamples fragments).length + 48 ≤ getTrafSize fragments := by
  have hruns : ∀ runs : List Run,
      12 * (runs.flatMap Run.samples).length ≤ (runs.map canonicalTrunSize).sum := by
    intro runs
    induction runs with
    | nil => simp
    | cons run runs ih =>
      have hrun : 12 * run.samples.length ≤ canonicalTrunSize run := by
        unfold canonicalTrunSize entrySize
        split <;> omega
      rw [flatMap_cons, length_append, map_cons, sum_cons]
      omega
  have := hruns (allRuns fragments)
  rw [allSamples_eq, getTrafSize]
  omega

/-- The first run of a segment stands at the start of its payload. -/
theorem exists_outputOffset_zero (hne : fragments ≠ []) (h : Writable videoTrack audioTrack fragments) :
    ∃ run ∈ allRuns (assignOffsets fragments 0).1, run.outputOffset = 0 := by
  obtain ⟨f, rest, rfl⟩ := exists_cons_of_ne_nil hne
  obtain ⟨hf, ha⟩ := h f (by simp)
  obtain ⟨run, runs, hruns⟩ := exists_cons_of_ne_nil hf.runs_ne
  have hcons := ha.consecutive
  rw [hruns] at hcons
  have hzero : run.payloadOffset = 0 := hcons.1.trans toInt64_zero
  refine ⟨{ run with outputOffset := toInt64 (0 + run.payloadOffset) }, ?_, ?_⟩
  · rw [assignOffsets, allRuns_cons, hruns]
    simp
  · dsimp only
    rw [hzero]
    exact toInt64_zero

/-- The runs of a track with their data offsets. -/
def placedRuns (dataStart base : Nat) (fragments : List Fragment) : List (Run × Int) :=
  (withOffsets base (allRuns fragments)).map fun r => (r.1, ((dataStart + r.2 : Nat) : Int))

theorem placedRuns_fst (dataStart base : Nat) (fragments : List Fragment) :
    (placedRuns dataStart base fragments).map Prod.fst = allRuns fragments := by
  rw [placedRuns, map_map]
  exact withOffsets_fst base (allRuns fragments)

theorem trafBody_eq (trackID index decodeTime : Nat) (placed : List (Run × Int)) :
    trafBody trackID index decodeTime placed = box boxTfhd (tfhdBody trackID index) ++
      (box boxTfdt (tfdtBody decodeTime) ++ (placed.map fun r => box boxTrun (trunBody r.1 r.2)).flatten) := by
  simp only [trafBody, trafBoxes, map_cons, flatten_cons, map_map, Function.comp_def]

theorem trafBody_length (trackID index decodeTime : Nat) (placed : List (Run × Int)) :
    (trafBody trackID index decodeTime placed).length
      = 20 + 20 + ((placed.map Prod.fst).map canonicalTrunSize).sum := by
  rw [trafBody_eq, length_append, length_append, length_flatten, map_map, map_map, box_length, box_length]
  simp only [tfhdBody, tfdtBody, length_append, put32_length, put64_length, length_nil,
    Function.comp_def, box_length, trunBody_length]
  omega

/-- What `writeTraf` writes of its fragments, and every data offset fits an `int32`. -/
theorem writeTraf_cons_eq_ok (h : writeTraf timeline (f :: fragments) moofSize mdatHeaderSize = .ok traf) :
    ∃ decodeTime, addTfdtOffset timeline f.decodeTime f.timescale = .ok decodeTime ∧
      traf = writeHeader (getTrafSize (f :: fragments)) boxTraf ++ f.tfhd ++ writeTfdt decodeTime ++
        ((allRuns (f :: fragments)).map fun run =>
          box boxTrun (trunBody run (toInt64 (moofSize + mdatHeaderSize + run.outputOffset)))).flatten ∧
      ∀ run ∈ allRuns (f :: fragments), -2 ^ 31 ≤ toInt64 (moofSize + mdatHeaderSize + run.outputOffset) ∧
        toInt64 (moofSize + mdatHeaderSize + run.outputOffset) ≤ maxInt32 := by
  simp only [writeTraf, bind_eq_ok, require_eq_ok, pure_eq_ok] at h
  obtain ⟨-, -, decodeTime, hdecode, truns, htruns, rfl⟩ := h
  obtain ⟨rfl, hranges⟩ := writeRuns_eq htruns
  exact ⟨decodeTime, hdecode, rfl, hranges⟩

/-- **What `writeTraf` writes**, once the offsets are known to fit. -/
theorem writeTraf_spec (hwritable : Writable videoTrack audioTrack (f :: fragments))
    (hle : moofSize + mdatHeaderSize + base + sizes (allSamples (f :: fragments)) ≤ maxInt64)
    (h : writeTraf timeline (assignOffsets (f :: fragments) base).1 moofSize mdatHeaderSize = .ok traf)
    (hplaced : placed = placedRuns (moofSize + mdatHeaderSize) base (f :: fragments)) :
    ∃ decodeTime, addTfdtOffset timeline f.decodeTime f.timescale = .ok decodeTime ∧
      traf = box boxTraf (trafBody f.trackID f.sampleDescriptionIndex decodeTime placed) ∧
      traf.length = getTrafSize (f :: fragments) ∧ ∀ r ∈ placed, -2 ^ 31 ≤ r.2 ∧ r.2 ≤ maxInt32 := by
  have hbase : base + sizes (allSamples (f :: fragments)) ≤ maxInt64 := by omega
  obtain ⟨hruns, -⟩ := assignOffsets_spec hwritable hbase
  -- every data offset is small enough not to wrap around
  have hoffset : ∀ r ∈ withOffsets base (allRuns (f :: fragments)),
      toInt64 ((moofSize : Int) + mdatHeaderSize + (r.2 : Int))
          = ((moofSize + mdatHeaderSize + r.2 : Nat) : Int) := by
    intro r hr
    have hend := (withOffsets_le hr).2
    rw [sum_dataSize hwritable.runSound, ← allSamples_eq] at hend
    rw [← Nat.cast_add, ← Nat.cast_add, toInt64_of_le (by omega)]
  have htruns : (allRuns (assignOffsets (f :: fragments) base).1).map (fun run =>
      box boxTrun (trunBody run (toInt64 (moofSize + mdatHeaderSize + run.outputOffset)))) =
      placed.map fun r => box boxTrun (trunBody r.1 r.2) := by
    rw [hruns, hplaced, placedRuns, map_map, map_map]
    refine map_congr_left fun r hr => ?_
    show box boxTrun (trunBody r.1 (toInt64 (moofSize + mdatHeaderSize + (r.2 : Int)))) = _
    rw [hoffset r hr]
    rfl
  obtain ⟨decodeTime, hdecode, htraf, hranges⟩ := writeTraf_cons_eq_ok h
  have hsize : getTrafSize (f :: fragments) =
      8 + (trafBody f.trackID f.sampleDescriptionIndex decodeTime placed).length := by
    rw [trafBody_length, hplaced, placedRuns_fst, getTrafSize]
    omega
  have hbox : traf = box boxTraf (trafBody f.trackID f.sampleDescriptionIndex decodeTime placed) := by
    rw [htraf, ← writeHeader_append, ← hsize, ← getTrafSize_assignOffsets (f :: fragments) base,
      trafBody_eq, ← htruns, ← buildCanonicalTfhd_eq, ← writeTfdt_eq, ← (hwritable f (by simp)).1.tfhd_eq]
    simp only [append_assoc]
    rfl
  refine ⟨decodeTime, hdecode, hbox, ?_, ?_⟩
  · rw [hbox, box_length, hsize]
  · intro r hr
    rw [hplaced] at hr
    obtain ⟨q, hq, rfl⟩ := mem_map.mp hr
    have hmem : { q.1 with outputOffset := (q.2 : Int) } ∈ allRuns (assignOffsets (f :: fragments) base).1 := by
      rw [hruns]
      exact mem_map.mpr ⟨q, hq, rfl⟩
    have hrange := hranges _ hmem
    rw [hoffset q hq] at hrange
    exact hrange

/-! ## The whole segment -/

/-- What reading a `trun` of the segment gives, against the run it was written from. -/
structure RunReadBack (bytes storage : Bytes) (moofStart : Nat) (src : Fragment × Run) (run : Run) :
    Prop where
  samples : run.samples = src.2.samples
  version : run.version = src.2.version
  offsets : run.hasCompositionTimeOffsets = src.2.hasCompositionTimeOffsets
  present : run.hasSourceDataOffset = true
  nonneg : 0 ≤ run.sourceDataOffset
  payload : (bytes.drop (moofStart + run.sourceDataOffset.toNat)).take (sizes run.samples)
    = sourceBytes storage src

/-- A `traf` of the segment: its boxes, and what `parseTraf` makes of it without any defaults. -/
structure TrafReadBack (videoTrack audioTrack : TrackInfo) (timeline : Timeline)
    (bytes storage : Bytes) (moofStart : Nat) (fragments : List Fragment) (traf : Bytes) : Prop where
  boxes : ∃ (tfhd tfdt : Bytes) (truns : List Bytes), traf
      = box boxTraf (box boxTfhd tfhd ++ (box boxTfdt tfdt ++
    (truns.map (box boxTrun)).flatten)) ∧ truns.length = (allRuns fragments).length
  parsed : ∃ parsed, parseTraf traf 8 videoTrack.bare audioTrack.bare 0 0 = .ok parsed ∧
    (∃ first ∈ fragments.head?, parsed.trackID = first.trackID ∧ parsed.timescale = first.timescale ∧
      addTfdtOffset timeline first.decodeTime first.timescale = .ok parsed.decodeTime) ∧
    List.Forall₂ (RunReadBack bytes storage moofStart) (sources fragments) parsed.runs

/-- An `mdat` with the given payload, with a size field of 32 or of 64 bits. -/
def IsMdat (mdat payload : Bytes) : Prop :=
  (mdat = box boxMdat payload ∧ mdat.length < 2 ^ 32) ∨
  (mdat = put32 1 ++ put32 boxMdat ++ put64 (16 + payload.length) ++ payload ∧ mdat.length < 2 ^ 64)

/-- The `mfhd` with a sequence number. -/
def mfhdBox (sequence : Nat) : Bytes := box boxMfhd (put32 0 ++ put32 sequence)

/-- The layout of a written segment. -/
structure SegmentLayout (videoTrack audioTrack : TrackInfo) (timeline : Timeline)
    (styp prefixBytes storage : Bytes) (sequence : Nat) (video audio : List Fragment)
    (segment : Segment) : Prop where
  layout : ∃ videoTraf audioTraf mdat,
    segment.bytes = styp ++ prefixBytes ++
      box boxMoof (mfhdBox sequence ++ (videoTraf ++ audioTraf)) ++ mdat ∧
    (box boxMoof (mfhdBox sequence ++ (videoTraf ++ audioTraf))).length ≤
      maxInt32 ∧
    IsMdat mdat segment.payloads.flatten ∧
    (if video = [] then videoTraf = [] else
      TrafReadBack videoTrack audioTrack timeline segment.bytes storage (styp ++ prefixBytes).length
        video videoTraf) ∧
    (if audio = [] then audioTraf = [] else
      TrafReadBack videoTrack audioTrack timeline segment.bytes storage (styp ++ prefixBytes).length
        audio audioTraf)

theorem sum_duration (h : ∀ r ∈ placed, r.1.Sound) :
    (placed.map fun r => r.1.duration).sum = durations (placed.flatMap fun r => r.1.samples) := by
  induction placed with
  | nil => rfl
  | cons r placed ih =>
    rw [map_cons, sum_cons, flatMap_cons, durations_append,
      ih fun r' hr' => h r' (by simp [hr']), (h r (by simp)).duration_eq]

theorem Writable.fits (h : Writable videoTrack audioTrack fragments) : ∀ s ∈ allSamples fragments, s.Fits := by
  intro s hs
  rw [allSamples_eq] at hs
  obtain ⟨run, hrun, hs⟩ := mem_flatMap.mp hs
  exact (h.runSound run hrun).fits s hs

/-- Reading back one track, given where its runs lie in the segment. -/
theorem trafReadBack (hne : fragments ≠ []) (hwritable : Writable videoTrack audioTrack fragments)
    (hle : moofSize + mdatHeaderSize + base + sizes (allSamples fragments) ≤ maxInt64)
    (hsmall : getTrafSize fragments ≤ maxInt32)
    (h : writeTraf timeline (assignOffsets fragments base).1 moofSize mdatHeaderSize = .ok traf)
    (hplace : List.Forall₂ (fun (src : Fragment × Run) (r : Run × Nat) => r.1 = src.2 ∧
        (bytes.drop (moofStart + (moofSize + mdatHeaderSize + r.2))).take src.2.dataSize
          = sourceBytes storage src)
      (sources fragments) (withOffsets base (allRuns fragments))) :
    TrafReadBack videoTrack audioTrack timeline bytes storage moofStart fragments traf := by
  obtain ⟨first, rest, rfl⟩ := exists_cons_of_ne_nil hne
  obtain ⟨placed, hplaced⟩ : ∃ placed, placed = placedRuns (moofSize + mdatHeaderSize) base (first :: rest) :=
    ⟨_, rfl⟩
  have hfst : placed.map Prod.fst = allRuns (first :: rest) := hplaced ▸ placedRuns_fst _ _ _
  obtain ⟨decodeTime, hdecode, rfl, hlen, hrange⟩ := writeTraf_spec hwritable hle h hplaced
  obtain ⟨hfirst, -⟩ := hwritable first (by simp)
  have hruns : ∀ r ∈ placed, r.1.Sound := fun r hr => hwritable.runSound r.1 (hfst ▸ mem_map.mpr ⟨r, hr, rfl⟩)
  -- few samples fit a `traf` of that size, so their durations add up to little
  have htotal : (placed.map fun r => r.1.duration).sum ≤ maxUint64 := by
    have hsamples : (placed.flatMap fun r => r.1.samples) = allSamples (first :: rest) := by
      rw [allSamples_eq, ← hfst, flatMap_map]
    rw [sum_duration hruns, hsamples]
    have hcount := samples_le_getTrafSize (first :: rest)
    have hle := durations_le hwritable.fits
    have hmax : maxInt32 = 2 ^ 31 - 1 := rfl
    have hmax' : maxUint64 = 2 ^ 64 - 1 := rfl
    omega
  obtain ⟨track, htrack, htimescale⟩ := hfirst.track
  have hscale : track.timescale ≠ 0 := by
    intro hzero
    rw [hzero] at htimescale
    exact hfirst.timescale_ne (by simpa using htimescale)
  have htime : decodeTime < 2 ^ 64 := by
    simp only [addTfdtOffset, bind_eq_ok, require_eq_ok, pure_eq_ok] at hdecode
    obtain ⟨offset, -, -, hoffset, rfl⟩ := hdecode
    have := hfirst.decodeTime_lt
    unfold maxUint64 at hoffset
    omega
  have hplacedne : placed ≠ [] := by
    rintro rfl
    obtain ⟨run, runs, hcons⟩ := exists_cons_of_ne_nil hfirst.runs_ne
    rw [allRuns_cons, hcons] at hfst
    cases hfst
  rw [box_length] at hlen
  obtain ⟨parsed, hparse, hid, hts, hdt, hparsed⟩ := parseTraf_trafBody
    ⟨hfirst.trackID_ne, hfirst.trackID_lt, hfirst.index_ne, hfirst.index_lt, htime⟩ htrack hscale hplacedne
    ⟨hruns, hrange, htotal⟩ (hlen ▸ hsmall)
  refine ⟨⟨tfhdBody first.trackID first.sampleDescriptionIndex, tfdtBody decodeTime, placed.map fun r =>
    trunBody r.1 r.2,
    ?_, ?_⟩, parsed, hparse, ⟨first, rfl, hid, hts.trans htimescale.symm, hdt ▸ hdecode⟩, ?_⟩
  · rw [trafBody_eq, map_map]
    rfl
  · rw [← hfst, length_map, length_map]
  · rw [hparsed, hplaced, placedRuns, map_map, forall₂_map_right_iff]
    have hsizes : ∀ src ∈ sources (first :: rest), src.2.dataSize = sizes src.2.samples := by
      intro src hsrc
      obtain ⟨f, hf, hmem⟩ := mem_flatMap.mp hsrc
      obtain ⟨run, hrun, rfl⟩ := mem_map.mp hmem
      exact ((hwritable f hf).1.runs run hrun).dataSize_eq
    refine ((forall₂_and_left _ _).mpr ⟨hsizes, hplace⟩).imp ?_
    rintro ⟨f, run⟩ ⟨r, o⟩ ⟨hsize, hr, hbytes⟩
    obtain rfl : r = run := hr
    refine ⟨rfl, rfl, rfl, rfl, Int.natCast_nonneg _, ?_⟩
    rw [hsize] at hbytes
    exact hbytes

/-- The first data offset of a written track fits an `int32`. -/
theorem moofSize_le_of_writeTraf (hne : fragments ≠ []) (hwritable : Writable videoTrack audioTrack fragments)
    (hle : moofSize + mdatHeaderSize ≤ maxInt64)
    (h : writeTraf timeline (assignOffsets fragments 0).1 moofSize mdatHeaderSize = .ok traf) :
    moofSize + mdatHeaderSize ≤ maxInt32 := by
  obtain ⟨run, hrun, hzero⟩ := exists_outputOffset_zero hne hwritable
  obtain ⟨f, rest, rfl⟩ := exists_cons_of_ne_nil hne
  obtain ⟨-, -, -, hranges⟩ := writeTraf_cons_eq_ok h
  have hrange := (hranges run hrun).2
  rw [hzero, Int.add_zero, ← Nat.cast_add, toInt64_of_le hle] at hrange
  exact_mod_cast hrange

theorem assignOffsets_eq_nil {base : Int} : (assignOffsets fragments base).1 = [] ↔ fragments = [] := by
  cases fragments <;> simp [assignOffsets]

theorem selectedTrafSize_assignOffsets (fragments : List Fragment) (base : Int) :
    selectedTrafSize (assignOffsets fragments base).1 = selectedTrafSize fragments := by
  simp only [selectedTrafSize, assignOffsets_eq_nil, getTrafSize_assignOffsets]

/-- The length of what is written for a track, also if nothing of it is selected. -/
theorem writeTraf_length (hwritable : Writable videoTrack audioTrack fragments)
    (hle : moofSize + mdatHeaderSize + base + sizes (allSamples fragments) ≤ maxInt64)
    (h : writeTraf timeline (assignOffsets fragments base).1 moofSize mdatHeaderSize = .ok traf) :
    traf.length = selectedTrafSize fragments ∧ (fragments = [] → traf = []) := by
  by_cases hne : fragments = []
  · subst hne
    cases h
    exact ⟨rfl, fun _ => rfl⟩
  · rw [selectedTrafSize, if_neg hne]
    obtain ⟨f, rest, rfl⟩ := exists_cons_of_ne_nil hne
    obtain ⟨-, -, -, hlen, -⟩ := writeTraf_spec hwritable hle h rfl
    exact ⟨hlen, fun h => absurd h hne⟩

theorem samples_le_selectedTrafSize (fragments : List Fragment) :
    12 * (allSamples fragments).length ≤ selectedTrafSize fragments := by
  unfold selectedTrafSize
  split
  · rename_i hnil
    simp [hnil, allSamples]
  · have := samples_le_getTrafSize fragments
    omega

/-- Where the payload of a track stands, seen from the start of the `moof`. -/
theorem place_of_drop {pre post : Bytes} {dataStart : Nat} (hdrop : bytes.drop (moofStart + dataStart)
      = pre ++ ((sources fragments).map (sourceBytes storage)).flatten ++ post)
    (hlens : ∀ src ∈ sources fragments, (sourceBytes storage src).length = src.2.dataSize) :
    List.Forall₂ (fun (src : Fragment × Run) (r : Run × Nat) => r.1 = src.2 ∧
        (bytes.drop (moofStart + (dataStart + r.2))).take src.2.dataSize = sourceBytes storage src)
      (sources fragments) (withOffsets pre.length (allRuns fragments)) := by
  have hpieces := @forall₂_pieces storage pre post (sources fragments) pre.length rfl hlens
  rw [sources_snd] at hpieces
  refine hpieces.imp ?_
  rintro src r ⟨hr, hbytes⟩
  refine ⟨hr, ?_⟩
  rw [← Nat.add_assoc, ← drop_drop, hdrop]
  exact hbytes

/-- The parts of a written segment. -/
structure Written (timeline : Timeline) (styp prefixBytes storage : Bytes) (sequence : Nat)
    (video audio : List Fragment) (segment : Segment)
    (moofSize mdatHeaderSize payloadLength : Nat) (videoTraf audioTraf : Bytes)
    (videoPayloads audioPayloads : List Bytes) : Prop where
  nonempty : video ≠ [] ∨ audio ≠ []
  moofSize_eq : moofSize = 24 + selectedTrafSize video + selectedTrafSize audio
  moofSize_le : moofSize ≤ maxUint32
  payloadLength_eq : payloadLength
    = ((assignOffsets audio (assignOffsets video 0).2).2 % 2 ^ 64).toNat
  mdatHeaderSize_eq : mdatHeaderSize = if (payloadLength + 8) % 2 ^ 64 > maxUint32 then 16 else 8
  videoTraf_eq : writeTraf timeline (assignOffsets video 0).1 moofSize mdatHeaderSize = .ok videoTraf
  audioTraf_eq : writeTraf timeline (assignOffsets audio (assignOffsets video 0).2).1 moofSize
    mdatHeaderSize = .ok audioTraf
  videoPayloads_eq : fragmentPayloadRanges storage video = .ok videoPayloads
  audioPayloads_eq : fragmentPayloadRanges storage audio = .ok audioPayloads
  header_eq : segment.header = styp ++ prefixBytes ++ writeHeader moofSize boxMoof ++
    writeMfhd sequence ++ videoTraf ++ audioTraf ++ writeMdatHeader payloadLength mdatHeaderSize
  payloads_eq : segment.payloads = videoPayloads ++ audioPayloads

theorem writeSegment_written (h : writeSegment timeline styp prefixBytes storage sequence video audio
        = .ok segment) :
    ∃ moofSize mdatHeaderSize payloadLength videoTraf audioTraf videoPayloads audioPayloads,
      Written timeline styp prefixBytes storage sequence video audio segment moofSize mdatHeaderSize
        payloadLength videoTraf audioTraf videoPayloads audioPayloads := by
  simp only [writeSegment, bind_eq_ok, require_eq_ok] at h
  obtain ⟨-, -, -, -, -, hmoof, videoTraf, hvtraf, audioTraf, hatraf, h⟩ := h
  split at h
  · rename_i first last hfirst hlast
    simp only [bind_eq_ok, require_eq_ok, pure_eq_ok] at h
    obtain ⟨-, -, -, -, startNS, -, endNS, -, -, -, videoPayloads, hvpay, audioPayloads, hapay, rfl⟩ := h
    rw [selectedTrafSize_assignOffsets, selectedTrafSize_assignOffsets] at hmoof hvtraf hatraf
    refine ⟨_, _, _, videoTraf, audioTraf, videoPayloads, audioPayloads, ?_, rfl, hmoof, rfl, rfl, hvtraf,
      hatraf, hvpay, hapay, ?_, rfl⟩
    · by_contra hnone
      simp only [not_or, not_not] at hnone
      rw [hnone.1, hnone.2] at hfirst
      cases hfirst
    · dsimp only
      rw [selectedTrafSize_assignOffsets, selectedTrafSize_assignOffsets]
  · cases h

/-- The first data offset bounds the `moof`, and that the samples: no offset or total wraps around. -/
theorem Written.bounds {payloadLength : Nat} {videoTraf audioTraf : Bytes}
    {videoPayloads audioPayloads : List Bytes}
    (hv : Writable videoTrack audioTrack video) (ha : Writable videoTrack audioTrack audio)
    (h : Written timeline styp prefixBytes storage sequence video audio segment moofSize
      mdatHeaderSize payloadLength videoTraf audioTraf videoPayloads audioPayloads) :
    moofSize + mdatHeaderSize ≤ maxInt32 ∧
    moofSize + mdatHeaderSize + sizes (allSamples video) + sizes (allSamples audio) ≤ maxInt64 := by
  have hmax : maxUint32 = 2 ^ 32 - 1 := rfl
  have hmax32 : maxInt32 = 2 ^ 31 - 1 := rfl
  have hmax64 : maxInt64 = 2 ^ 63 - 1 := rfl
  have hheader : mdatHeaderSize ≤ 16 := by
    rw [h.mdatHeaderSize_eq]
    split <;> omega
  have hle := h.moofSize_le
  have hfirst : moofSize + mdatHeaderSize ≤ maxInt32 := by
    by_cases hvne : video = []
    · have hane : audio ≠ [] := h.nonempty.resolve_left (fun hne => hne hvne)
      have htraf := h.audioTraf_eq
      subst hvne
      exact moofSize_le_of_writeTraf hane ha (by omega) htraf
    · exact moofSize_le_of_writeTraf hvne hv (by omega) h.videoTraf_eq
  refine ⟨hfirst, ?_⟩
  have hvcount := samples_le_selectedTrafSize video
  have hacount := samples_le_selectedTrafSize audio
  have hvsizes := sizes_le hv.fits
  have hasizes := sizes_le ha.fits
  have hmoof := h.moofSize_eq
  omega

theorem writeMfhd_eq (sequence : Nat) : writeMfhd sequence = mfhdBox sequence := by
  simp [writeMfhd, mfhdBox, box]

/-- The `mdat` is its header and the payload, with a size field that fits. -/
theorem isMdat_writeMdatHeader {payload : Bytes} (hle : 16 + payload.length ≤ maxInt64)
    (h : mdatHeaderSize = if (payload.length + 8) % 2 ^ 64 > maxUint32 then 16 else 8) :
    IsMdat (writeMdatHeader payload.length mdatHeaderSize ++ payload) payload ∧
      (writeMdatHeader payload.length mdatHeaderSize).length = mdatHeaderSize := by
  have hmax : maxUint32 = 2 ^ 32 - 1 := rfl
  have hmax64 : maxInt64 = 2 ^ 63 - 1 := rfl
  have hmod : (payload.length + 8) % 2 ^ 64 = payload.length + 8 := Nat.mod_eq_of_lt (by omega)
  rw [hmod] at h
  split at h
  · subst h
    refine ⟨.inr ⟨?_, ?_⟩, ?_⟩
    · rw [writeMdatHeader, if_neg (by decide), Nat.add_comm]
    · rw [writeMdatHeader, if_neg (by decide)]
      simp only [length_append, put32_length, put64_length]
      omega
    · rw [writeMdatHeader, if_neg (by decide)]
      simp
  · subst h
    refine ⟨.inl ⟨?_, ?_⟩, ?_⟩
    · rw [writeMdatHeader, if_pos rfl, Nat.add_comm, writeHeader_append]
    · rw [writeMdatHeader, if_pos rfl, Nat.add_comm, writeHeader_append, box_length]
      omega
    · rw [writeMdatHeader, if_pos rfl]
      simp [writeHeader]

theorem flatten_sourceBytes_length (h : Writable videoTrack audioTrack fragments)
    (hlens : ∀ src ∈ sources fragments, (sourceBytes storage src).length = src.2.dataSize) :
    ((sources fragments).map (sourceBytes storage)).flatten.length = sizes (allSamples fragments) := by
  rw [length_flatten, map_map, allSamples_eq, ← sum_dataSize h.runSound, ← sources_snd, map_map]
  congr 1
  exact map_congr_left hlens

/-- **The layout of a written segment.** -/
theorem writeSegment_layout (hv : Writable videoTrack audioTrack video)
    (ha : Writable videoTrack audioTrack audio)
    (h : writeSegment timeline styp prefixBytes storage sequence video audio = .ok segment) :
    SegmentLayout videoTrack audioTrack timeline styp prefixBytes storage sequence video audio
      segment := by
  obtain ⟨moofSize, mdatHeaderSize, payloadLength, videoTraf, audioTraf, videoPayloads, audioPayloads,
    hw⟩ := writeSegment_written h
  obtain ⟨hsmall, hbound⟩ := hw.bounds hv ha
  have hzero : (0 : Int) = ((0 : Nat) : Int) := rfl
  -- offsets and payload of the two tracks
  have hvideo := hw.videoTraf_eq
  have haudio := hw.audioTraf_eq
  have hlength := hw.payloadLength_eq
  have hvbase : 0 + sizes (allSamples video) ≤ maxInt64 := by omega
  have habase : sizes (allSamples video) + sizes (allSamples audio) ≤ maxInt64 := by omega
  obtain ⟨-, hvlast⟩ := assignOffsets_spec hv hvbase
  rw [Nat.zero_add, ← hzero] at hvlast
  obtain ⟨-, halast⟩ := assignOffsets_spec ha habase
  rw [hvlast] at haudio hlength
  rw [halast] at hlength
  obtain ⟨hvflat, hvlens⟩ := fragmentPayloadRanges_eq hv (by omega) hw.videoPayloads_eq
  obtain ⟨haflat, halens⟩ := fragmentPayloadRanges_eq ha (by omega) hw.audioPayloads_eq
  have hvlen := flatten_sourceBytes_length hv hvlens
  have halen := flatten_sourceBytes_length ha halens
  have hpayload : segment.payloads.flatten = videoPayloads.flatten ++ audioPayloads.flatten := by
    rw [hw.payloads_eq, flatten_append]
  have htotal : payloadLength = segment.payloads.flatten.length := by
    rw [hpayload, length_append, hvflat, haflat, hvlen, halen, hlength]
    have hmax64 : maxInt64 = 2 ^ 63 - 1 := rfl
    omega
  have hmdatLe : 16 + segment.payloads.flatten.length ≤ maxInt64 := by
    rw [hpayload, length_append, hvflat, haflat, hvlen, halen]
    have := hw.moofSize_eq
    omega
  have hheaderSize := hw.mdatHeaderSize_eq
  rw [htotal] at hheaderSize
  obtain ⟨hmdat, hmdatLen⟩ := isMdat_writeMdatHeader hmdatLe hheaderSize
  -- the boxes of the `moof`
  rw [hzero] at hvideo
  obtain ⟨hvtrafLen, hvnil⟩ := writeTraf_length hv (by omega) hvideo
  obtain ⟨hatrafLen, hanil⟩ := writeTraf_length ha (by omega) haudio
  have hmoofLen : moofSize
      = 8 + (mfhdBox sequence ++ (videoTraf ++ audioTraf)).length := by
    rw [hw.moofSize_eq]
    simp only [mfhdBox, length_append, box_length, put32_length]
    omega
  have hbytes : segment.bytes = styp ++ prefixBytes ++
      box boxMoof (mfhdBox sequence ++ (videoTraf ++ audioTraf)) ++
        (writeMdatHeader payloadLength mdatHeaderSize ++ segment.payloads.flatten) := by
    rw [Segment.bytes, hw.header_eq, writeMfhd_eq, ← writeHeader_append boxMoof, ← hmoofLen]
    simp only [append_assoc]
  -- where the payload starts
  have hdrop : segment.bytes.drop ((styp ++ prefixBytes).length + (moofSize + mdatHeaderSize))
      = segment.payloads.flatten := by
    rw [hbytes, ← append_assoc, drop_left']
    rw [length_append, length_append, box_length, ← hmoofLen, htotal, hmdatLen]
    omega
  have hmoofLt : (box boxMoof (mfhdBox sequence ++ (videoTraf ++ audioTraf))).length ≤ maxInt32 := by
    rw [box_length, ← hmoofLen]
    omega
  have hmoofEq := hw.moofSize_eq
  rw [hpayload, hvflat, haflat] at hdrop
  refine ⟨videoTraf, audioTraf, _, hbytes, hmoofLt, htotal ▸ hmdat, ?_, ?_⟩
  · split
    · rename_i hnil
      exact hvnil hnil
    · rename_i hne
      rw [selectedTrafSize, if_neg hne] at hmoofEq
      have hdrop' : segment.bytes.drop ((styp ++ prefixBytes).length + (moofSize + mdatHeaderSize))
          = [] ++ ((sources video).map (sourceBytes storage)).flatten ++
            ((sources audio).map (sourceBytes storage)).flatten := hdrop
      exact trafReadBack hne hv (by omega) (by omega) hvideo (place_of_drop hdrop' hvlens)
  · split
    · rename_i hnil
      exact hanil hnil
    · rename_i hne
      have hasize : selectedTrafSize audio = getTrafSize audio := if_neg hne
      have hplace := place_of_drop (hdrop.trans (append_nil _).symm) halens
      rw [hvlen] at hplace
      exact trafReadBack hne ha (by omega) (by omega) haudio hplace

end TorrServer.Gstreamer.Mp4
