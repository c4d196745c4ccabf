/-
# Gstreamer.Mp4.Explicit — fragments that need no duration hint.

A `moof` that can be parsed without a duration hint has all its sample durations in its `trun`, `tfhd` or
`trex`. Then no hint changes the result, and no duration of the fragment counts as inferred.
-/
import TorrServer.Gstreamer.Mp4.Accepted

namespace TorrServer.Gstreamer.Mp4

open Lib

variable {box moof : Bytes} {headerSize defaultSize defaultFlags d duration : Nat} {boxes : List Child}
  {videoTrack audioTrack : TrackInfo} {f : Fragment}

theorem readSample_defaultDuration {t : TrunLayout} (h : t.hasDuration = true) (d : Nat) (box : Bytes)
    (first : Bool) (cursor : Nat) :
    readSample { t with defaultDuration := d } box first cursor = readSample t box first cursor := by
  simp only [readSample, readField, h, if_true]

/-- The default is not used if every entry has a duration. -/
theorem readSamples_defaultDuration {t : TrunLayout} (h : t.hasDuration = true) (d : Nat) (box : Bytes)
    (n : Nat) (first : Bool) (cursor duration dataSize : Nat) :
    readSamples { t with defaultDuration := d } box n first cursor duration dataSize
      = readSamples t box n first cursor duration dataSize := by
  induction n generalizing first cursor duration dataSize with
  | zero => rfl
  | succ n ih => simp only [readSamples, readSample_defaultDuration h, ih]

/-- A `trun` that is accepted without a default duration is read the same with any. -/
theorem normalizeTrun_explicit {run : Run}
    (h : normalizeTrun box headerSize 0 defaultSize defaultFlags false = .ok run) (d : Nat) (isHint : Bool) :
    normalizeTrun box headerSize d defaultSize defaultFlags isHint = .ok run := by
  simp only [normalizeTrun, bind_eq_ok, Prod.exists, require_eq_ok, pure_eq_ok] at h ⊢
  obtain ⟨-, hlen, -, hversion, -, hflags, -, hcount, dataOffset, c₁, hoffset, -, hboth, first, c₂,
    hfirst, -, hduration, -, hsize, -, hmax, -, hbody, samples, c₃, duration, dataSize, hsamples, -,
    hend, rfl⟩ := h
  have hpresent := hduration.resolve_right (by simp)
  refine ⟨(), hlen, (), hversion, (), hflags, (), hcount, dataOffset, c₁, hoffset, (), hboth, first, c₂,
    hfirst, (), .inl hpresent, (), hsize, (), hmax, (), hbody, samples, c₃, duration, dataSize, ?_, (),
    hend, ?_⟩
  · have hdefault := fun t h => @readSamples_defaultDuration t h d
    exact (hdefault _ hpresent _ _ _ _ _ _).trans hsamples
  · rw [hpresent, Bool.not_true, Bool.false_and, Bool.false_and]

theorem normalizeTrun_inferred {run : Run}
    (h : normalizeTrun box headerSize d defaultSize defaultFlags false = .ok run) :
    run.hasInferredDuration = false := by
  simp only [normalizeTrun, bind_eq_ok, Prod.exists, require_eq_ok, pure_eq_ok] at h
  obtain ⟨-, -, -, -, -, -, -, -, -, -, -, -, -, -, -, -, -, -, -, -, -, -, -, -, -, -, -, -, -, -, -, rfl⟩ :=
    h
  exact Bool.and_false _

theorem parseRuns_explicit {res : List Run × Nat}
    (h : parseRuns 0 defaultSize defaultFlags false boxes duration = .ok res) (d : Nat) (isHint : Bool) :
    parseRuns d defaultSize defaultFlags isHint boxes duration = .ok res := by
  induction boxes generalizing duration res with
  | nil => exact h
  | cons child boxes ih =>
    unfold parseRuns at h ⊢
    split at h
    · rw [if_pos ‹_›]
      exact ih h
    · rw [if_neg ‹_›]
      simp only [bind_eq_ok, Prod.exists, require_eq_ok, pure_eq_ok] at h ⊢
      obtain ⟨run, hrun, -, hle, rest, total, hrest, rfl⟩ := h
      exact ⟨run, normalizeTrun_explicit hrun d isHint, (), hle, rest, total, ih hrest, rfl⟩

theorem parseRuns_inferred {total : Nat} {runs : List Run}
    (h : parseRuns d defaultSize defaultFlags false boxes duration = .ok (runs, total)) :
    ∀ run ∈ runs, run.hasInferredDuration = false := by
  induction boxes generalizing duration total runs with
  | nil =>
    cases h
    simp
  | cons child boxes ih =>
    unfold parseRuns at h
    split at h
    · exact ih h
    · simp only [bind_eq_ok, Prod.exists, require_eq_ok, pure_eq_ok, Prod.mk.injEq] at h
      obtain ⟨run, hrun, -, -, rest, total', hrest, rfl, -⟩ := h
      intro r hr
      rcases List.mem_cons.mp hr with rfl | hmem
      · exact normalizeTrun_inferred hrun
      · exact ih hrest r hmem

theorem trafTrack_anyHint {track : TrackInfo} {trackID : Nat}
    (h : trafTrack videoTrack audioTrack 0 0 trackID = .ok (track, 0)) (videoHint audioHint : UInt32) :
    ∃ hint, trafTrack videoTrack audioTrack videoHint audioHint trackID = .ok (track, hint) := by
  rcases trafTrack_eq_ok_iff.1 h with ⟨hid, htrack, -⟩ | ⟨hne, hid, htrack, -⟩
  · exact ⟨videoHint, trafTrack_eq_ok_iff.2 (.inl ⟨hid, htrack, rfl⟩)⟩
  · exact ⟨audioHint, trafTrack_eq_ok_iff.2 (.inr ⟨hne, hid, htrack, rfl⟩)⟩

/-- A `traf` that is accepted without hints is read the same with any. -/
theorem parseTraf_explicit {traf : Bytes} {trafHeader : Nat}
    (h : parseTraf traf trafHeader videoTrack audioTrack 0 0 = .ok f) (videoHint audioHint : UInt32) :
    parseTraf traf trafHeader videoTrack audioTrack videoHint audioHint = .ok f ∧
      f.hasInferredDuration = false := by
  simp only [parseTraf, bind_eq_ok] at h ⊢
  obtain ⟨found, hfound, h⟩ := h
  split at h
  · rename_i tfhd decodeTime htfhd htfdt
    simp only [bind_eq_ok, Prod.exists, require_eq_ok, pure_eq_ok] at h
    obtain ⟨track, hint, htrack, -, htimescale, -, hindex, runs, duration, hruns, -, hne, rfl⟩ := h
    have hhint : hint = 0 := by
      have := trafTrack_hint htrack
      rw [htrack] at this
      cases this
      rfl
    subst hhint
    obtain ⟨hint', htrack'⟩ := trafTrack_anyHint htrack videoHint audioHint
    -- without a hint, only an explicit default can be used
    have hisHint : (firstNonZero tfhd.defaultDuration track.trex.duration.toNat == 0 &&
        firstNonZero (firstNonZero tfhd.defaultDuration track.trex.duration.toNat)
          (0 : UInt32).toNat != 0) = false := by
      by_cases hzero : firstNonZero tfhd.defaultDuration track.trex.duration.toNat = 0
      · simp [firstNonZero]
      · simp [hzero]
    rw [hisHint] at hruns
    refine ⟨⟨found, hfound, ?_⟩, ?_⟩
    · simp only [htfhd, htfdt, bind_eq_ok, Prod.exists, require_eq_ok, pure_eq_ok]
      refine ⟨track, hint', htrack', (), htimescale, (), hindex, runs, duration, ?_, (), hne, rfl⟩
      by_cases hzero : firstNonZero tfhd.defaultDuration track.trex.duration.toNat = 0
      · rw [hzero] at hruns ⊢
        exact parseRuns_explicit hruns _ _
      · have hkeep : ∀ hint : Nat,
            firstNonZero (firstNonZero tfhd.defaultDuration track.trex.duration.toNat) hint
              = firstNonZero tfhd.defaultDuration track.trex.duration.toNat := fun _ => if_neg hzero
        rw [hkeep] at hruns ⊢
        have hfalse : (firstNonZero tfhd.defaultDuration track.trex.duration.toNat == 0) = false := by
          simpa using hzero
        rw [hfalse, Bool.false_and]
        exact hruns
    · have hall := parseRuns_inferred hruns
      show runs.any Run.hasInferredDuration = false
      rw [List.any_eq_false]
      intro run hrun
      rw [hall run hrun]
      simp
  · cases h

theorem parseMoofChildren_explicit {dst : Option Fragment}
    (hdst : ∀ g, dst = some g → g.hasInferredDuration = false)
    (h : parseMoofChildren videoTrack audioTrack 0 0 boxes dst = .ok (some f)) (videoHint audioHint : UInt32) :
    parseMoofChildren videoTrack audioTrack videoHint audioHint boxes dst = .ok (some f) ∧
      f.hasInferredDuration = false := by
  induction boxes generalizing dst with
  | nil =>
    cases h
    exact ⟨rfl, hdst f rfl⟩
  | cons child boxes ih =>
    unfold parseMoofChildren at h ⊢
    split at h
    · rw [if_pos ‹_›]
      exact ih hdst h
    · rw [if_neg ‹_›]
      simp only [bind_eq_ok, require_eq_ok] at h ⊢
      obtain ⟨-, hnone, g, hg, h⟩ := h
      obtain ⟨hg', hexplicit⟩ := parseTraf_explicit hg videoHint audioHint
      obtain ⟨hrest, hf⟩ := ih (fun g' hg' => by cases hg'; exact hexplicit) h
      exact ⟨⟨(), hnone, g, hg', hrest⟩, hf⟩

/-- **A `moof` that is accepted without hints** is read the same with any, and infers no duration. -/
theorem parseSourceMoof_explicit (h : parseSourceMoof moof videoTrack audioTrack 0 0 = .ok f)
    (videoHint audioHint : UInt32) :
    parseSourceMoof moof videoTrack audioTrack videoHint audioHint = .ok f ∧
      f.hasInferredDuration = false := by
  unfold parseSourceMoof at h ⊢
  split at h
  · simp only [bind_eq_ok, require_eq_ok] at h ⊢
    obtain ⟨-, hroot, dst, hdst, h⟩ := h
    split at h
    · cases h
      obtain ⟨hdst', hf⟩ := parseMoofChildren_explicit (by simp) hdst videoHint audioHint
      exact ⟨⟨(), hroot, _, hdst', rfl⟩, hf⟩
    · cases h
  · cases h

/-- A parsed fragment has no payload yet, and is marked if one of its runs is. -/
theorem parseSourceMoof_unattached {videoHint audioHint : UInt32}
    (h : parseSourceMoof moof videoTrack audioTrack videoHint audioHint = .ok f) :
    f.payloadLen = 0 ∧ f.hasInferredDuration = f.runs.any Run.hasInferredDuration := by
  obtain ⟨child, hchild⟩ := parseSourceMoof_traf h
  simp only [parseTraf, bind_eq_ok] at hchild
  obtain ⟨found, -, hchild⟩ := hchild
  split at hchild
  · simp only [bind_eq_ok, Prod.exists, require_eq_ok, pure_eq_ok] at hchild
    obtain ⟨track, hint, -, -, -, -, -, runs, duration, -, -, -, rfl⟩ := hchild
    exact ⟨rfl, rfl⟩
  · cases hchild

end TorrServer.Gstreamer.Mp4
