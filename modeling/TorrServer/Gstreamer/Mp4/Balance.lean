/-
# Gstreamer.Mp4.Balance — what is queued and what was emitted.

A source grows box by box; its initialization and its completed pairs only ever get longer. `Media` is the
balance between the pairs, the queues and the emitted segments, and the lemmas are the ways in which it moves: a
pair is completed, a segment is emitted, payload is appended or reclaimed.
-/
import Mathlib.Data.List.TakeWhile
import TorrServer.Gstreamer.Mp4.Framing
import TorrServer.Gstreamer.Mp4.Selection

namespace TorrServer.Gstreamer.Mp4

open Lib List

variable {boxes : List Child} {audio' : List Fragment} {delta : Nat}

/-! ## Growing sources -/

theorem isMedia_of_moof {b : Child} (h : b.boxType = boxMoof) : b.isMedia = true := by simp [Child.isMedia, h]

/-- The initialization is complete with the first box of the media. -/
theorem sourceInit_append (h : ∃ b ∈ boxes, b.isMedia = true) (more : List Child) :
    sourceInit (boxes ++ more) = sourceInit boxes := by
  obtain ⟨b, hb, hmedia⟩ := h
  rw [sourceInit, sourceInit, takeWhile_append, if_neg]
  intro hlen
  have hall := takeWhile_eq_self_iff.mp ((takeWhile_sublist _).eq_of_length hlen) b hb
  rw [hmedia] at hall
  cases hall

theorem sourceInit_append_media (boxes : List Child) {c : Child} (hc : c.isMedia = true) :
    sourceInit (boxes ++ [c]) = sourceInit boxes := by
  by_cases h : ∃ b ∈ boxes, b.isMedia = true
  · exact sourceInit_append h [c]
  · have hall : ∀ b ∈ boxes, (!b.isMedia) = true := by
      intro b hb
      rw [Bool.not_eq_true', Bool.eq_false_iff]
      exact fun hb' => h ⟨b, hb, hb'⟩
    rw [sourceInit, sourceInit, takeWhile_append_of_pos hall,
      takeWhile_cons_of_neg (by simp [hc]), append_nil, takeWhile_eq_self_iff.mpr hall]

theorem sourceInit_of_none (h : ∀ b ∈ boxes, b.isMedia = false) : sourceInit boxes = boxBytes boxes := by
  rw [sourceInit, takeWhile_eq_self_iff.mpr]
  intro b hb
  rw [h b hb]
  rfl

theorem pairing_append (boxes : List Child) (b : Child) : pairing (boxes ++ [b]) = (pairing boxes).next b := by
  simp [pairing]

/-- Without a `moof` there is no pair. -/
theorem pairing_of_none (h : ∀ b ∈ boxes, b.boxType ≠ boxMoof) : pairing boxes = {} := by
  induction boxes using List.reverseRecOn with
  | nil => rfl
  | append_singleton boxes b ih =>
    rw [pairing_append, ih fun c hc => h c (by simp [hc]), Pairing.next, if_neg (h b (by simp))]
    split <;> rfl

theorem sourcePairs_mono (boxes more : List Child) : sourcePairs boxes <+: sourcePairs (boxes ++ more) := by
  induction more using List.reverseRecOn with
  | nil => rw [append_nil]
  | append_singleton more b ih =>
    refine ih.trans ?_
    rw [sourcePairs, sourcePairs, ← append_assoc, pairing_append, Pairing.next]
    split
    · exact prefix_rfl
    · split
      · exact prefix_append _ _
      · exact prefix_rfl

/-- What waits for its `mdat` is one of the boxes. -/
theorem exists_of_pairing_moof {moof : Bytes} (h : (pairing boxes).moof = some moof) :
    ∃ b ∈ boxes, b.boxType = boxMoof ∧ b.bytes = moof := by
  induction boxes using List.reverseRecOn with
  | nil => cases h
  | append_singleton boxes d ih =>
    rw [pairing_append, Pairing.next] at h
    have hmem : (pairing boxes).moof = some moof →
        ∃ b ∈ boxes ++ [d], b.boxType = boxMoof ∧ b.bytes = moof := by
      intro h
      obtain ⟨b, hb, hmoof⟩ := ih h
      exact ⟨b, mem_append_left _ hb, hmoof⟩
    split at h
    · rename_i htype
      cases h
      exact ⟨d, by simp, htype, rfl⟩
    · split at h
      · cases h
      · exact hmem h

/-- The `moof` of a pair is one of the boxes. -/
theorem exists_of_mem_sourcePairs {pair : Bytes × Bytes} (h : pair ∈ sourcePairs boxes) :
    ∃ b ∈ boxes, b.boxType = boxMoof ∧ b.bytes = pair.1 := by
  induction boxes using List.reverseRecOn with
  | nil => cases h
  | append_singleton boxes d ih =>
    have hmem : pair ∈ sourcePairs boxes →
        ∃ b ∈ boxes ++ [d], b.boxType = boxMoof ∧ b.bytes = pair.1 := by
      intro h
      obtain ⟨b, hb, hmoof⟩ := ih h
      exact ⟨b, mem_append_left _ hb, hmoof⟩
    rw [sourcePairs, pairing_append, Pairing.next] at h
    split at h
    · exact hmem h
    · split at h
      · rcases mem_append.mp h with h | h
        · exact hmem h
        · rw [Option.mem_toList, Option.map_eq_some_iff] at h
          obtain ⟨moof, hmoof, rfl⟩ := h
          obtain ⟨b, hb, hbmoof⟩ := exists_of_pairing_moof hmoof
          exact ⟨b, mem_append_left _ hb, hbmoof⟩
      · exact hmem h

/-- A completed pair ends the initialization. -/
theorem sourceInit_append_of_pair {pair : Bytes × Bytes} (h : pair ∈ sourcePairs boxes) (more : List Child) :
    sourceInit (boxes ++ more) = sourceInit boxes := by
  by_cases hmoof : ∃ b ∈ boxes, b.boxType = boxMoof
  · obtain ⟨b, hb, htype⟩ := hmoof
    exact sourceInit_append ⟨b, hb, isMedia_of_moof htype⟩ more
  · rw [sourcePairs, pairing_of_none fun b hb htype => hmoof ⟨b, hb, htype⟩] at h
    cases h

/-- Explicit durations, and no `mdat` with other bytes than its samples'. -/
def Good (boxes : List Child) : Prop := ExplicitDurations boxes ∧ ExactPayloads boxes

/-- It holds at every earlier point of the stream. -/
theorem Good.of_append {more : List Child} (h : Good (boxes ++ more)) : Good boxes := by
  obtain ⟨hexplicit, hexact⟩ := h
  refine ⟨fun v a hinit b hb htype => ?_, fun v a hinit pair hpair => ?_⟩
  · have hsame := sourceInit_append ⟨b, hb, isMedia_of_moof htype⟩ more
    exact hexplicit v a (hsame ▸ hinit) b (by simp [hb]) htype
  · have hsame := sourceInit_append_of_pair hpair more
    exact hexact v a (hsame ▸ hinit) pair ((sourcePairs_mono boxes more).subset hpair)

/-! ## Queues and emitted segments -/

/-- The samples of a track in the completed pairs. -/
def pairsSamples (videoTrack audioTrack : TrackInfo) (kind : Kind)
    (pairs : List (Bytes × Bytes)) : List MediaSample :=
  pairs.flatMap (pairSamples videoTrack audioTrack kind)

/-- The samples of a track in emitted segments. -/
def emittedSamples (videoTrack audioTrack : TrackInfo) (kind : Kind)
    (segments : List Segment) : List MediaSample :=
  segments.flatMap fun segment => segmentSamples videoTrack audioTrack kind segment.bytes

/-- **The balance**: the source's samples are those emitted, at shifted times, and those queued; and the
segments are numbered. -/
structure Media (timeline : Timeline) (videoTrack audioTrack : TrackInfo) (pairs : List (Bytes × Bytes))
    (storage : Bytes) (limit : Nat) (video audio : List Fragment) (segments : List Segment)
    (sequence : Nat) : Prop where
  held : ∀ kind : Kind, Held videoTrack audioTrack kind limit (kind.pick video audio)
  limit_le : limit ≤ storage.length
  balance : ∀ kind : Kind, ∃ done, pairsSamples videoTrack audioTrack kind pairs
      = done ++ queueSamples storage (kind.pick video audio) ∧
    emittedSamples videoTrack audioTrack kind segments
      = done.map (MediaSample.shift (timeline.shift (kind.pick videoTrack audioTrack).timescale.toNat))
  sequence_eq : sequence = (segments.length + 1) % 2 ^ 32
  numbers : segments.map (fun segment => segmentSequence segment.bytes)
    = (List.range segments.length).map fun i => some ((i + 1) % 2 ^ 32)

section

variable {timeline : Timeline} {videoTrack audioTrack : TrackInfo} {pairs : List (Bytes × Bytes)}
  {storage : Bytes} {limit : Nat} {video audio : List Fragment} {segments : List Segment}
  {sequence : Nat} {kind : Kind} {fragments : List Fragment}

/-- Bytes after the held payload do not matter. -/
theorem Held.samples_append (h : Held videoTrack audioTrack kind limit fragments)
    (hle : limit ≤ storage.length) (more : Bytes) :
    queueSamples (storage ++ more) fragments = queueSamples storage fragments := by
  refine flatMap_congr fun f hf => mediaSamples_congr _ ?_
  have hinside := (h f hf).inside
  have hsizes : sizes (entrySamples (tagged f.runs)) = f.payloadLen := by
    rw [entrySamples_tagged, (h f hf).len]
    rfl
  rw [hsizes, drop_append_of_le_length (by omega), take_append_of_le_length]
  rw [length_drop]
  omega

theorem Held.mono {limit' : Nat} (h : Held videoTrack audioTrack kind limit fragments)
    (hle : limit ≤ limit') : Held videoTrack audioTrack kind limit' fragments :=
  fun f hf => { h f hf with inside := (h f hf).inside.trans hle }

theorem Fragment.Held.payloadLen_pos {f : Fragment} (h : f.Held videoTrack audioTrack kind limit) :
    0 < f.payloadLen := by
  rw [h.len]
  exact Nat.pos_of_ne_zero h.sound.sizes_ne

theorem Media.empty (storage : Bytes) :
    Media timeline videoTrack audioTrack [] storage storage.length [] [] [] (1 % 2 ^ 32) := by
  refine ⟨fun k => ?_, le_rfl, fun k => ⟨[], ?_, rfl⟩, rfl, rfl⟩
  · cases k <;> exact Held.nil
  · cases k <;> rfl

theorem Media.append_storage
    (h : Media timeline videoTrack audioTrack pairs storage limit video audio segments sequence)
    (more : Bytes) :
    Media timeline videoTrack audioTrack pairs (storage ++ more) limit video audio segments sequence := by
  refine ⟨h.held, ?_, fun kind => ?_, h.sequence_eq, h.numbers⟩
  · rw [length_append]
    have := h.limit_le
    omega
  · rw [(h.held kind).samples_append h.limit_le]
    exact h.balance kind

/-- A completed pair: its fragment joins the queue of its track. -/
theorem Media.enqueue
    (h : Media timeline videoTrack audioTrack pairs storage limit video audio segments sequence)
    {pair : Bytes × Bytes} {f : Fragment} {video' : List Fragment} (hqueue : ∀ k : Kind,
      k.pick video' audio' = k.pick video audio ++ if k = kind then [f] else [])
    (hf : f.Held videoTrack audioTrack kind storage.length)
    (hsamples : ∀ k, pairSamples videoTrack audioTrack k pair
      = if k = kind then fragmentSamples storage f else []) :
    Media timeline videoTrack audioTrack (pairs ++ [pair]) storage storage.length video' audio' segments
      sequence := by
  refine ⟨fun k => ?_, le_rfl, fun k => ?_, h.sequence_eq, h.numbers⟩
  · rw [hqueue]
    refine ((h.held k).mono h.limit_le).append ?_
    split
    · rename_i hk
      exact hk ▸ forall_mem_singleton.mpr hf
    · exact Held.nil
  · obtain ⟨done, hbalance, hemitted⟩ := h.balance k
    refine ⟨done, ?_, hemitted⟩
    rw [hqueue, queueSamples_append, ← append_assoc, ← hbalance, pairsSamples, flatMap_append,
      flatMap_singleton, hsamples]
    congr 1
    split <;> simp [queueSamples]

theorem emittedSamples_append (a b : List Segment) :
    emittedSamples videoTrack audioTrack kind (a ++ b)
      = emittedSamples videoTrack audioTrack kind a ++ emittedSamples videoTrack audioTrack kind b := by
  simp [emittedSamples]

/-- A segment takes the first fragments of the queues. -/
theorem Media.emit (h : Media timeline videoTrack audioTrack pairs storage limit video audio segments sequence)
    {before : List Child} {styp prefixBytes : Bytes} {videoCount audioCount : Nat} {segment : Segment}
    (hbefore : ∀ b ∈ before, b.IsTop ∧ b.boxType ≠ boxMoof) (hbytes : styp ++ prefixBytes = boxBytes before)
    (haudio : Held videoTrack audioTrack .audio limit audio')
    (hsplit : queueSamples storage audio' = queueSamples storage audio)
    (hwrite : writeSegment timeline styp prefixBytes storage sequence (video.take videoCount)
      (audio'.take audioCount) = .ok segment) :
    Media timeline videoTrack audioTrack pairs storage limit (video.drop videoCount)
      (audio'.drop audioCount) (segments ++ [segment]) ((sequence + 1) % 2 ^ 32) := by
  have hvideo : Held videoTrack audioTrack .video limit video := h.held .video
  have hheld : ∀ k : Kind, Held videoTrack audioTrack k limit (k.pick video audio') := by
    intro k
    cases k with
    | video => exact hvideo
    | audio => exact haudio
  have hqueue : ∀ k : Kind, queueSamples storage (k.pick video audio')
      = queueSamples storage (k.pick video audio) := by
    intro k
    cases k with
    | video => rfl
    | audio => exact hsplit
  have hcut : ∀ k : Kind, k.pick video audio' = k.pick (video.take videoCount) (audio'.take audioCount) ++
      k.pick (video.drop videoCount) (audio'.drop audioCount) := by
    intro k
    cases k <;> exact (take_append_drop _ _).symm
  obtain ⟨hsamples, hnumber⟩ := writeSegment_samples hbefore hbytes
    (hvideo.sublist (take_subset _ _)).ofTrack (haudio.sublist (take_subset _ _)).ofTrack hwrite
  refine ⟨fun k => ?_, h.limit_le, fun k => ?_, ?_, ?_⟩
  · refine (hheld k).sublist ?_
    cases k <;> exact drop_subset _ _
  · obtain ⟨done, hbalance, hemitted⟩ := h.balance k
    refine ⟨done ++ queueSamples storage (k.pick (video.take videoCount) (audio'.take audioCount)), ?_, ?_⟩
    · rw [hbalance, ← hqueue, hcut, queueSamples_append, append_assoc]
    · rw [emittedSamples_append, hemitted, map_append, ← hsamples]
      simp [emittedSamples]
  · rw [h.sequence_eq, length_append, length_singleton, Nat.mod_add_mod]
  · rw [map_append, h.numbers, length_append, length_singleton, range_succ,
      map_append, map_singleton, map_singleton, hnumber, h.sequence_eq, Nat.mod_mod]

/-- Moving the payload of fragments to the front. -/
theorem Held.shift (h : Held videoTrack audioTrack kind limit fragments)
    (hdelta : ∀ f ∈ fragments, delta ≤ f.payloadStart) :
    Held videoTrack audioTrack kind (limit - delta)
      (fragments.map (Reader.shiftFragmentPayloadStarts delta)) := by
  intro g hg
  obtain ⟨f, hf, rfl⟩ := mem_map.mp hg
  have hheld := h f hf
  have hinside := hheld.inside
  have := hdelta f hf
  rw [Reader.shiftFragmentPayloadStarts, if_pos hheld.payloadLen_pos]
  exact ⟨⟨hheld.sound.moved _, hheld.attached.moved _, hheld.kind⟩, hheld.explicit,
    hheld.len, by dsimp only; omega⟩

theorem Held.shift_samples (h : Held videoTrack audioTrack kind limit fragments)
    (hdelta : ∀ f ∈ fragments, delta ≤ f.payloadStart) :
    queueSamples (storage.drop delta) (fragments.map (Reader.shiftFragmentPayloadStarts delta))
      = queueSamples storage fragments := by
  rw [queueSamples, flatMap_map]
  refine flatMap_congr fun f hf => ?_
  rw [Reader.shiftFragmentPayloadStarts, if_pos (h f hf).payloadLen_pos, fragmentSamples,
    fragmentSamples, drop_drop]
  dsimp only
  rw [Nat.add_sub_cancel' (hdelta f hf)]

/-- Dropping payload that nothing is queued of. -/
theorem Media.reclaim
    (h : Media timeline videoTrack audioTrack pairs storage limit video audio segments sequence)
    (hdelta : ∀ f ∈ video ++ audio, delta ≤ f.payloadStart) :
    Media timeline videoTrack audioTrack pairs (storage.drop delta) (limit - delta)
      (video.map (Reader.shiftFragmentPayloadStarts delta))
      (audio.map (Reader.shiftFragmentPayloadStarts delta)) segments sequence := by
  have hmem : ∀ k : Kind, ∀ f ∈ k.pick video audio, delta ≤ f.payloadStart := by
    intro k f hf
    cases k with
    | video => exact hdelta f (mem_append_left _ hf)
    | audio => exact hdelta f (mem_append_right _ hf)
  have hpick : ∀ k : Kind, k.pick (video.map (Reader.shiftFragmentPayloadStarts delta))
      (audio.map (Reader.shiftFragmentPayloadStarts delta))
        = (k.pick video audio).map (Reader.shiftFragmentPayloadStarts delta) := by
    intro k
    cases k <;> rfl
  refine ⟨fun k => ?_, ?_, fun k => ?_, h.sequence_eq, h.numbers⟩
  · rw [hpick]
    exact (h.held k).shift (hmem k)
  · rw [length_drop]
    have := h.limit_le
    omega
  · rw [hpick, (h.held k).shift_samples (hmem k)]
    exact h.balance k

end

end TorrServer.Gstreamer.Mp4
