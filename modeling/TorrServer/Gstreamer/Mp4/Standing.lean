/-
# Gstreamer.Mp4.Standing — what the reader is in the middle of.

The reader knows the tracks of the initialization (`InitPart`), the fragment that waits for its `mdat` is the
last `moof` as it was parsed (`Awaits`), and the bytes of the current box go where its type says (`TargetPart`).
`Standing` puts these together; the invariants of the queues are stated next to it.
-/
import TorrServer.Gstreamer.Mp4.Balance
import TorrServer.Gstreamer.Mp4.Calls

namespace TorrServer.Gstreamer.Mp4.Reader

open Lib List

variable {cfg : Config} {r r' r₁ r₂ : Reader} {b : UInt8} {completed : Bool} {s : Bytes}
  {boxes : List Child} {cur : Option Child} {c : Child} {size headerSize : Nat}

/-! ## The invariant -/

/-- The initialization, while it goes on and after it. -/
structure InitPart (boxes : List Child) (cur : Option Child) (r : Reader) : Prop where
  before : r.initDone = false →
    (∀ b ∈ boxes ++ cur.toList, b.isMedia = false) ∧ r.init = boxBytes (boxes ++ cur.toList) ∧
      r.video = [] ∧ r.audio = [] ∧ r.segments = [] ∧ r.pending = none
  after : r.initDone = true → r.init = sourceInit boxes ∧
    parseInitTracks r.init = .ok (r.videoTrack, r.audioTrack) ∧
      ∃ b ∈ boxes ++ cur.toList, b.isMedia = true

/-- What waits for its `mdat` is the last `moof`, as it was parsed. -/
def Awaits (boxes : List Child) (r : Reader) : Prop :=
  match r.pending with
  | none => (pairing boxes).moof = none
  | some f => f.payloadLen = 0 ∧ ∃ moof videoHint audioHint, (pairing boxes).moof = some moof ∧
      parseSourceMoof moof r.videoTrack r.audioTrack videoHint audioHint = .ok f

/-- Where the bytes of the current box go. -/
inductive TargetPart (r : Reader) (c : Child) : Prop
  | init (hinit : r.initDone = false) (htarget : r.currentTarget = .init)
  | moof (hinit : r.initDone = true) (htype : c.boxType = boxMoof) (htarget : r.currentTarget = .moof)
      (hbuffer : r.sourceMoof = c.bytes) (hpending : r.pending = none)
  | payload (hinit : r.initDone = true) (htype : c.boxType = boxMdat)
      (htarget : r.currentTarget = .payload) (hpending : r.pending ≠ none)
      (hstart : r.currentPayloadStart ≤ r.sourcePayload.length)
      (htail : r.sourcePayload.drop r.currentPayloadStart <:+ c.body)
      (hheader : c.headerSize ≤ c.bytes.length)
      (hsize : c.bytes.length + r.currentBoxRemaining ≤ maxInt32)
  | styp (hinit : r.initDone = true) (htype : c.boxType = boxStyp) (htarget : r.currentTarget = .styp)
      (hbuffer : r.sourceStyp = c.bytes)
  | prefixBox (hinit : r.initDone = true) (htype : IsPrefixType c.boxType)
      (htarget : r.currentTarget = .prefixBox)
  | skipped (hinit : r.initDone = true)
      (htype : c.boxType = boxSidx ∨ c.boxType = boxMfra ∨ c.boxType = boxMoov)
      (htarget : r.currentTarget = .none)

/-- What goes to the payload is an `mdat` behind a `moof`, with the bytes received last. -/
structure OpenMdat (r : Reader) (c : Child) : Prop where
  initDone : r.initDone = true
  start_le : r.currentPayloadStart ≤ r.sourcePayload.length
  tail : r.sourcePayload.drop r.currentPayloadStart <:+ c.body
  header_le : c.headerSize ≤ c.bytes.length
  size_le : c.bytes.length + r.currentBoxRemaining ≤ maxInt32

theorem TargetPart.openMdat (h : TargetPart r c) (htarget : r.currentTarget = .payload) : OpenMdat r c := by
  cases h
  case payload hinit _ _ _ hstart htail hheader hsize => exact ⟨hinit, hstart, htail, hheader, hsize⟩
  all_goals simp_all

/-- The queued payload ends where the `mdat` under way begins. -/
def payloadLimit (r : Reader) : Nat :=
  if r.currentTarget = .payload then r.currentPayloadStart else r.sourcePayload.length

/-- The reader after the given boxes and what there is of the current one. -/
structure Standing (boxes : List Child) (cur : Option Child) (r : Reader) : Prop where
  init : InitPart boxes cur r
  awaits : Awaits boxes r
  moofBuffer : r.pending = none → r.currentTarget ≠ .moof → r.sourceMoof = []
  idle : cur = none → r.currentTarget = .none ∧ r.currentBoxRemaining = 0
  target : ∀ c ∈ cur, TargetPart r c

/-! ## A box begins -/

theorem not_moof_of_not_media (h : ∀ b ∈ boxes, b.isMedia = false) : ∀ b ∈ boxes, b.boxType ≠ boxMoof := by
  intro b hb htype
  have := h b hb
  rw [isMedia_of_moof htype] at this
  cases this

/-- The queues, what was emitted, the payload and what waits are as before. -/
structure SameStock (r r' : Reader) : Prop where
  video : r'.video = r.video
  audio : r'.audio = r.audio
  segments : r'.segments = r.segments
  sourcePayload : r'.sourcePayload = r.sourcePayload
  limit : r'.payloadLimit = r.payloadLimit
  pending : r'.pending = r.pending
  timeline : r'.timeline = r.timeline
  sequence : r'.sequence = r.sequence

/-- The initialization and its tracks are as before. -/
structure SameInit (r r' : Reader) : Prop where
  initDone : r'.initDone = r.initDone
  init : r'.init = r.init
  videoTrack : r'.videoTrack = r.videoTrack
  audioTrack : r'.audioTrack = r.audioTrack

theorem BeginsMedia.sameInit (h : BeginsMedia r size headerSize r') : SameInit r r' := by
  obtain ⟨-, -, -, -, -, -, -, rfl⟩ := h.eq
  exact ⟨rfl, rfl, rfl, rfl⟩

/-- An `mdat` begins where the payload ends, so that the beginning of a box moves no limit. -/
theorem BeginsMedia.sameStock (h : BeginsMedia r size headerSize r') (hidle : r.currentTarget = .none) :
    SameStock r r' := by
  have hlimit : r.payloadLimit = r.sourcePayload.length := by rw [payloadLimit, if_neg (by simp [hidle])]
  cases h with
  | moof => exact ⟨rfl, rfl, rfl, rfl, hlimit.symm, rfl, rfl, rfl⟩
  | mdat => exact ⟨rfl, rfl, rfl, rfl, hlimit.symm, rfl, rfl, rfl⟩
  | sidx => exact ⟨rfl, rfl, rfl, rfl, rfl, rfl, rfl, rfl⟩
  | styp => exact ⟨rfl, rfl, rfl, rfl, hlimit.symm, rfl, rfl, rfl⟩
  | prefixBox => exact ⟨rfl, rfl, rfl, rfl, hlimit.symm, rfl, rfl, rfl⟩
  | terminal => exact ⟨rfl, rfl, rfl, rfl, rfl, rfl, rfl, rfl⟩

/-- The bytes of a media box go where its type says. -/
theorem BeginsMedia.targetPart (h : BeginsMedia r size headerSize r') (hidle : r.currentTarget = .none)
    (hdone : r.initDone = true) (hheader : r.boxHeader = c.bytes) (htype : r.currentBoxType = c.boxType)
    (hlen : c.bytes.length = c.headerSize)
    (hsize : c.boxType = boxMdat → c.bytes.length + r.currentBoxRemaining ≤ maxInt32) :
    TargetPart r' c := by
  cases h with
  | moof ht hp =>
    exact .moof hdone (htype.symm.trans ht) rfl (by simpa [copyTo, writeCurrentBoxData] using hheader) hp
  | mdat ht hp =>
    have hmdat : c.boxType = boxMdat := htype.symm.trans ht
    exact .payload hdone hmdat rfl hp le_rfl (by simp [Child.body]) hlen.ge (hsize hmdat)
  | sidx ht => exact .skipped hdone (.inl (htype.symm.trans ht)) hidle
  | styp ht hp =>
    exact .styp hdone (htype.symm.trans ht) rfl (by simpa [copyTo, writeCurrentBoxData] using hheader)
  | prefixBox ht => exact .prefixBox hdone (htype ▸ ht) rfl
  | terminal ht hp => exact .skipped hdone (.inr (htype ▸ ht)) hidle

/-- Only a `moof` fills the buffer of the `moof`. -/
theorem BeginsMedia.moofBuffer (h : BeginsMedia r size headerSize r')
    (hr : r.pending = none → r.sourceMoof = []) :
    r'.pending = none → r'.currentTarget ≠ .moof → r'.sourceMoof = [] := by
  intro hpending htarget
  cases h with
  | moof => exact absurd rfl htarget
  | mdat => exact hr hpending
  | sidx => exact hr hpending
  | styp => exact hr hpending
  | prefixBox => exact hr hpending
  | terminal => exact hr hpending

theorem Begins.sameStock (h : Begins r size headerSize r') (hidle : r.currentTarget = .none) :
    SameStock r r' := by
  have hlimit : ∀ target : BoxTarget, target ≠ .payload →
      (if target = .payload then r.currentPayloadStart else r.sourcePayload.length) = r.payloadLimit := by
    intro target htarget
    rw [if_neg htarget, payloadLimit, if_neg (by simp [hidle])]
  cases h with
  | init => exact ⟨rfl, rfl, rfl, rfl, hlimit .init (by decide), rfl, rfl, rfl⟩
  | first _ _ _ hmedia | media _ hmedia =>
    have h := hmedia.sameStock rfl
    exact ⟨h.video, h.audio, h.segments, h.sourcePayload, h.limit.trans (hlimit .none (by decide)), h.pending,
      h.timeline, h.sequence⟩

/-- The first `styp` or `moof` ends the initialization. -/
theorem Begins.initPart (h : Begins r size headerSize r') (hr : InitPart boxes none r)
    (hheader : r.boxHeader = c.bytes) (htype : r.currentBoxType = c.boxType) :
    InitPart boxes (some c) r' := by
  cases h with
  | init hinit hstyp hmoof hmdat =>
    obtain ⟨hnone, hbytes, hstock⟩ := hr.before hinit
    have hc : c.isMedia = false := by
      rw [htype] at hstyp hmoof
      simp [Child.isMedia, hstyp, hmoof]
    refine ⟨fun _ => ⟨?_, ?_, hstock⟩, fun h => absurd (hinit.symm.trans h) (by simp)⟩
    · intro b hb
      rcases mem_append.mp hb with hb | hb
      · exact hnone b (mem_append_left _ hb)
      · rw [mem_singleton.mp hb]
        exact hc
    · show r.init ++ r.boxHeader = boxBytes (boxes ++ [c])
      rw [hbytes, hheader]
      simp
  | first hinit hfirst hparse hmedia =>
    -- the tracks are known from here on
    obtain ⟨hnone, hbytes, -⟩ := hr.before hinit
    rw [Option.toList_none, append_nil] at hnone hbytes
    have hsame := hmedia.sameInit
    refine ⟨fun h => absurd (hsame.initDone.symm.trans h) (by simp), fun _ => ⟨?_, ?_, c, by simp, ?_⟩⟩
    · exact hsame.init.trans (hbytes.trans (sourceInit_of_none hnone).symm)
    · rw [hsame.init, hsame.videoTrack, hsame.audioTrack]
      exact hparse
    · rw [htype] at hfirst
      simpa [Child.isMedia] using hfirst
  | media hinit hmedia =>
    have hsame := hmedia.sameInit
    have hdone : r'.initDone = true := hsame.initDone.trans hinit
    obtain ⟨hsource, hparse, b, hb, hb'⟩ := hr.after hinit
    rw [Option.toList_none, append_nil] at hb
    refine ⟨fun h => absurd (hdone.symm.trans h) (by simp), fun _ =>
      ⟨hsame.init.trans hsource, ?_, b, mem_append_left _ hb, hb'⟩⟩
    rw [hsame.init, hsame.videoTrack, hsame.audioTrack]
    exact hparse

theorem Begins.targetPart (h : Begins r size headerSize r') (hheader : r.boxHeader = c.bytes)
    (htype : r.currentBoxType = c.boxType) (hlen : c.bytes.length = c.headerSize)
    (hsize : c.boxType = boxMdat → c.bytes.length + (size - headerSize) ≤ maxInt32) :
    TargetPart r' c := by
  cases h with
  | init hinit => exact .init hinit rfl
  | first _ _ _ hmedia => exact hmedia.targetPart rfl rfl hheader htype hlen hsize
  | media hinit hmedia => exact hmedia.targetPart rfl hinit hheader htype hlen hsize

/-- Before the end of the initialization nothing waits, and after it the tracks stay. -/
theorem Begins.awaits (h : Begins r size headerSize r') (hinit : InitPart boxes none r)
    (hr : Awaits boxes r) : Awaits boxes r' := by
  cases h with
  | init => exact hr
  | first hnot _ _ hmedia =>
    obtain ⟨-, -, -, -, -, hpending⟩ := hinit.before hnot
    have hstock := (hmedia.sameStock rfl).pending
    rw [Awaits] at hr ⊢
    rw [hpending] at hr
    rw [hstock]
    dsimp only
    rw [hpending]
    exact hr
  | media _ hmedia =>
    have hsame := hmedia.sameInit
    rw [Awaits] at hr ⊢
    rw [(hmedia.sameStock rfl).pending, hsame.videoTrack, hsame.audioTrack]
    exact hr

theorem Begins.moofBuffer (h : Begins r size headerSize r') (hr : r.pending = none → r.sourceMoof = []) :
    r'.pending = none → r'.currentTarget ≠ .moof → r'.sourceMoof = [] := by
  cases h with
  | init => exact fun hpending _ => hr hpending
  | first _ _ _ hmedia | media _ hmedia => exact hmedia.moofBuffer hr

/-- The fragment that waits depends on the tracks only. -/
theorem Awaits.of_same (h : Awaits boxes r) (hpending : r'.pending = r.pending)
    (hvideo : r'.videoTrack = r.videoTrack) (haudio : r'.audioTrack = r.audioTrack) :
    Awaits boxes r' := by
  rw [Awaits] at h ⊢
  rw [hpending, hvideo, haudio]
  exact h

/-- **A box begins.** -/
theorem Standing.begins (h : Standing boxes none r) (hheader : r.boxHeader = c.bytes)
    (htype : r.currentBoxType = c.boxType) (hlen : c.bytes.length = c.headerSize)
    (hsize : c.boxType = boxMdat → c.bytes.length + (size - headerSize) ≤ maxInt32)
    (hbegins : Begins r size headerSize r') : Standing boxes (some c) r' := by
  have hidle := (h.idle rfl).1
  refine ⟨hbegins.initPart h.init hheader htype, hbegins.awaits h.init h.awaits,
    hbegins.moofBuffer fun hpending => h.moofBuffer hpending (by simp [hidle]), by simp, ?_⟩
  rintro _ ⟨⟩
  exact hbegins.targetPart hheader htype hlen hsize

/-! ## A box goes on -/

/-- After the initialization, more of the current box changes nothing of it. -/
theorem InitPart.more (h : InitPart boxes (some c) r) (hdone : r.initDone = true) (more : Bytes)
    (hdone' : r'.initDone = true) (hinit : r'.init = r.init) (hvideo : r'.videoTrack = r.videoTrack)
    (haudio : r'.audioTrack = r.audioTrack) :
    InitPart boxes (some { c with bytes := c.bytes ++ more }) r' := by
  refine ⟨fun h => absurd (hdone'.symm.trans h) (by simp), fun _ => ?_⟩
  obtain ⟨hsource, hparse, d, hd, hmedia⟩ := h.after hdone
  rw [hinit, hvideo, haudio]
  refine ⟨hsource, hparse, ?_⟩
  rcases mem_append.mp hd with hd | hd
  · exact ⟨d, mem_append_left _ hd, hmedia⟩
  · rw [Option.toList_some, mem_singleton] at hd
    rw [hd] at hmedia
    exact ⟨{ c with bytes := c.bytes ++ more }, mem_append_right _ (by simp), hmedia⟩

/-- The next byte of a box of the initialization is part of it. -/
theorem InitPart.write (h : InitPart boxes (some c) r) (htarget : TargetPart r c) (b : UInt8) :
    InitPart boxes (some { c with bytes := c.bytes ++ [b] }) (r.writeByte b) := by
  cases htarget
  case init hinit htarget =>
    obtain ⟨hnone, hbytes, hstock⟩ := h.before hinit
    refine ⟨fun _ => ⟨?_, (if_pos htarget).trans ?_, hstock⟩, fun h => absurd (hinit.symm.trans h) (by simp)⟩
    · intro d hd
      rcases mem_append.mp hd with hd | hd
      · exact hnone d (mem_append_left _ hd)
      · rw [Option.toList_some, mem_singleton] at hd
        rw [hd]
        exact hnone c (mem_append_right _ (by simp))
    · rw [hbytes]
      simp
  all_goals exact h.more ‹_› [b] ‹_› (if_neg (by rw [‹r.currentTarget = _›]; decide)) rfl rfl

theorem TargetPart.write (h : TargetPart r c) (hpos : 0 < r.currentBoxRemaining) (b : UInt8) :
    TargetPart (r.writeByte b) { c with bytes := c.bytes ++ [b] } := by
  cases h with
  | init hinit htarget => exact .init hinit htarget
  | moof hinit htype htarget hmoof hpending =>
    exact .moof hinit htype htarget ((if_pos htarget).trans (congrArg (· ++ [b]) hmoof)) hpending
  | payload hinit htype htarget hpending hstart htail hheader hsize =>
    have hpayload : (r.writeByte b).sourcePayload = r.sourcePayload ++ [b] := if_pos htarget
    refine .payload hinit htype htarget hpending ?_ ?_ ?_ ?_
    · show r.currentPayloadStart ≤ _
      rw [hpayload, length_append]
      omega
    · obtain ⟨front, hfront⟩ := htail
      refine ⟨front, ?_⟩
      rw [Child.body] at hfront ⊢
      rw [hpayload]
      show front ++ (r.sourcePayload ++ [b]).drop r.currentPayloadStart = (c.bytes ++ [b]).drop c.headerSize
      rw [drop_append_of_le_length hstart, ← append_assoc, hfront, drop_append_of_le_length hheader]
    · show c.headerSize ≤ (c.bytes ++ [b]).length
      rw [length_append]
      omega
    · show (c.bytes ++ [b]).length + (r.currentBoxRemaining - 1) ≤ _
      rw [length_append, length_singleton]
      omega
  | styp hinit htype htarget hstyp =>
    exact .styp hinit htype htarget ((if_pos htarget).trans (congrArg (· ++ [b]) hstyp))
  | prefixBox hinit htype htarget => exact .prefixBox hinit htype htarget
  | skipped hinit htype htarget => exact .skipped hinit htype htarget

/-- Nothing but an `mdat` writes to the payload. -/
theorem sameStock_write (htarget : r.currentTarget ≠ .payload) (b : UInt8) : SameStock r (r.writeByte b) := by
  have hpayload : (r.writeByte b).sourcePayload = r.sourcePayload := if_neg htarget
  refine ⟨rfl, rfl, rfl, hpayload, ?_, rfl, rfl, rfl⟩
  rw [payloadLimit, hpayload]
  rfl

/-- **The next byte of a body.** -/
theorem Standing.write (h : Standing boxes (some c) r) (hpos : 0 < r.currentBoxRemaining) (b : UInt8) :
    Standing boxes (some { c with bytes := c.bytes ++ [b] }) (r.writeByte b) := by
  have htarget := h.target c rfl
  refine ⟨h.init.write htarget b, h.awaits, fun hpending hto => ?_, by simp, ?_⟩
  · exact (if_neg hto).trans (h.moofBuffer hpending hto)
  · rintro _ ⟨⟩
    exact htarget.write hpos b

/-! ## A box is completed -/

/-- The current box joins the complete ones. -/
theorem InitPart.complete (h : InitPart boxes (some c) r) : InitPart (boxes ++ [c]) none r := by
  refine ⟨fun hinit => ?_, fun hinit => ?_⟩
  · rw [Option.toList_none, append_nil]
    exact h.before hinit
  · obtain ⟨hsource, hparse, b, hb, hmedia⟩ := h.after hinit
    refine ⟨?_, hparse, b, by simpa using hb, hmedia⟩
    rcases mem_append.mp hb with hb | hb
    · rw [sourceInit_append ⟨b, hb, hmedia⟩]
      exact hsource
    · rw [Option.toList_some, mem_singleton] at hb
      rw [sourceInit_append_media boxes (hb ▸ hmedia)]
      exact hsource

theorem pairing_append_other (hmoof : c.boxType ≠ boxMoof) (hmdat : c.boxType ≠ boxMdat) :
    pairing (boxes ++ [c]) = pairing boxes := by
  rw [pairing_append, Pairing.next, if_neg hmoof, if_neg hmdat]

/-- The queues have no inferred duration to resolve. -/
theorem resolvePreviousInferredDuration_eq {f : Fragment}
    (hvideo : ∀ g ∈ r.video, g.hasInferredDuration = false)
    (haudio : ∀ g ∈ r.audio, g.hasInferredDuration = false) :
    r.resolvePreviousInferredDuration f = .ok r := by
  have hqueue : ∀ queue : List Fragment, (∀ g ∈ queue, g.hasInferredDuration = false) →
      retimeQueue queue f.trackID f.decodeTime = .ok (queue, none) := by
    intro queue hnone
    rw [retimeQueue]
    split
    · rfl
    · rename_i previous hlast
      rw [if_pos (hnone previous (mem_of_getLast? hlast))]
  rw [resolvePreviousInferredDuration, hqueue r.video hvideo, hqueue r.audio haudio]
  split
  · rfl
  · split <;> rfl

theorem rememberDuration_eq (r : Reader) (f : Fragment) : ∃ vh vt ah at',
    r.rememberDuration f =
      { r with
        videoSampleDurationHint := vh
        videoSampleDurationHintTimescale := vt
        audioSampleDurationHint := ah
        audioSampleDurationHintTimescale := at' } := by
  rw [rememberDuration]
  split
  · exact ⟨_, _, _, _, rfl⟩
  · split
    · exact ⟨_, _, _, _, rfl⟩
    · split <;> exact ⟨_, _, _, _, rfl⟩

/-- A fragment joins the queue of its kind. -/
theorem enqueue_eq_ok {f : Fragment} (h : r.enqueue f = .ok r') :
    ∃ kind video audio, kindOf r.videoTrack r.audioTrack f.trackID = some kind ∧
      (∀ k : Kind, k.pick video audio = k.pick r.video r.audio ++ if k = kind then [f] else []) ∧
      r' = { r with video := video, audio := audio } := by
  rw [enqueue] at h
  split at h
  · rename_i hid
    cases h
    refine ⟨.video, _, _, if_pos hid, ?_, rfl⟩
    intro k
    cases k <;> simp [Kind.pick]
  · rename_i hid
    split at h
    · rename_i hid'
      cases h
      refine ⟨.audio, _, _, by rw [kindOf, if_neg hid, if_pos hid'], ?_, rfl⟩
      intro k
      cases k <;> simp [Kind.pick]
    · cases h

/-! ### Retiming

The `moof` of a track gives the last fragment before it its exact duration.  What the fragment has of the
payload is not touched. -/

/-- The fragments differ in their times only. -/
structure SameBytes (f g : Fragment) : Prop where
  trackID : g.trackID = f.trackID
  startsWithSync : g.startsWithSync = f.startsWithSync
  payloadStart : g.payloadStart = f.payloadStart
  payloadLen : g.payloadLen = f.payloadLen
  sizes : sizes g.samples = sizes f.samples

theorem SameBytes.refl (f : Fragment) : SameBytes f f := ⟨rfl, rfl, rfl, rfl, rfl⟩

theorem modifyLast_map {α β : Type} {p : α → Bool} {change : α → α} {g : α → β}
    (hg : ∀ x, g (change x) = g x) (xs : List α) : (modifyLast p change xs).map g = xs.map g := by
  induction xs with
  | nil => rfl
  | cons x xs ih =>
    rw [modifyLast]
    split
    · rw [map_cons, ih, map_cons]
    · split
      · rw [map_cons, hg, map_cons]
      · rfl

theorem sizes_retimeRun (oldDuration exactDuration : Nat) (run : Run) :
    sizes (retimeRun oldDuration exactDuration run).samples = sizes run.samples := by
  have hmap : ∀ (samples : List Sample) (i : Nat),
      (samples.modify i fun s => { s with duration := exactDuration }).map Sample.size
        = samples.map Sample.size := by
    intro samples
    induction samples with
    | nil => simp
    | cons s samples ih =>
      intro i
      cases i with
      | zero => simp
      | succ i => simp [ih i]
  exact congrArg List.sum (hmap run.samples _)

theorem sizes_flatMap (runs : List Run) :
    sizes (runs.flatMap Run.samples) = (runs.map fun run => sizes run.samples).sum := by
  induction runs with
  | nil => rfl
  | cons run runs ih => rw [flatMap_cons, sizes_append, ih, map_cons, sum_cons]

theorem retimeFragment_sameBytes {f g : Fragment} {trackID decodeTime exactDuration : Nat}
    (h : retimeFragment f trackID decodeTime = .ok (g, exactDuration)) : SameBytes f g := by
  rw [retimeFragment] at h
  split at h
  · cases h
  · split at h
    · cases h
    · simp only [bind_eq_ok, require_eq_ok, pure_eq_ok, Prod.mk.injEq] at h
      obtain ⟨-, -, -, -, -, -, rfl, -⟩ := h
      refine ⟨rfl, rfl, rfl, rfl, ?_⟩
      show sizes (List.flatMap Run.samples _) = sizes (f.runs.flatMap Run.samples)
      rw [sizes_flatMap, sizes_flatMap, map_map]
      exact congrArg List.sum (modifyLast_map (g := fun run : Run => sizes run.samples)
        (fun run => sizes_retimeRun _ _ run) f.runs)

theorem retimeQueue_sameBytes {queue queue' : List Fragment} {trackID decodeTime : Nat}
    {hint : Option Nat} (h : retimeQueue queue trackID decodeTime = .ok (queue', hint)) :
    List.Forall₂ SameBytes queue queue' := by
  have hrefl : ∀ fragments : List Fragment, List.Forall₂ SameBytes fragments fragments :=
    fun fragments => forall₂_same.mpr fun f _ => SameBytes.refl f
  rw [retimeQueue] at h
  split at h
  · cases h
    exact hrefl queue
  · rename_i previous hlast
    split at h
    · cases h
      exact hrefl queue
    · simp only [bind_eq_ok, Prod.exists, pure_eq_ok, Prod.mk.injEq] at h
      obtain ⟨retimed, exactDuration, hretime, rfl, -⟩ := h
      have hqueue : queue = queue.dropLast ++ [previous] :=
        (dropLast_append_getLast? previous hlast).symm
      rw [hqueue, dropLast_concat]
      exact rel_append (hrefl _) (.cons (retimeFragment_sameBytes hretime) .nil)

theorem wrapError_eq_ok {α : Type} {context : String} {x : Except String α} {a : α} :
    wrapError context x = .ok a ↔ x = .ok a := by
  cases x <;> simp [wrapError]

/-- What `completeMoof` does: a fragment waits, and the queues are retimed. -/
theorem completeMoof_cases (h : r.completeMoof = .ok r') :
    ∃ f video audio fromMoof vh vt ah at',
      parseSourceMoof r.sourceMoof r.videoTrack r.audioTrack r.videoHint r.audioHint = .ok f ∧
      List.Forall₂ SameBytes r.video video ∧ List.Forall₂ SameBytes r.audio audio ∧
      r' = { r with
        video := video
        audio := audio
        pending := some f
        sourcePayloadFromMoof := fromMoof
        videoSampleDurationHint := vh
        videoSampleDurationHintTimescale := vt
        audioSampleDurationHint := ah
        audioSampleDurationHintTimescale := at' } := by
  have hrefl : ∀ fragments : List Fragment, List.Forall₂ SameBytes fragments fragments :=
    fun fragments => forall₂_same.mpr fun f _ => SameBytes.refl f
  simp only [completeMoof, bind_eq_ok, wrapError_eq_ok, pure_eq_ok] at h
  obtain ⟨f, hparse, r₁, hresolve, rfl⟩ := h
  obtain ⟨vh, vt, ah, at', hremember⟩ := rememberDuration_eq r₁ f
  rw [hremember]
  rw [resolvePreviousInferredDuration] at hresolve
  split at hresolve
  · simp only [bind_eq_ok, Prod.exists] at hresolve
    obtain ⟨video, hint, hretime, hresolve⟩ := hresolve
    have hsame := retimeQueue_sameBytes hretime
    cases hint <;> cases hresolve <;>
      exact ⟨f, video, r.audio, _, _, _, _, _, hparse, hsame, hrefl _, rfl⟩
  · split at hresolve
    · simp only [bind_eq_ok, Prod.exists] at hresolve
      obtain ⟨audio, hint, hretime, hresolve⟩ := hresolve
      have hsame := retimeQueue_sameBytes hretime
      cases hint <;> cases hresolve <;>
        exact ⟨f, r.video, audio, _, _, _, _, _, hparse, hrefl _, hsame, rfl⟩
    · cases hresolve
      exact ⟨f, r.video, r.audio, _, _, _, _, _, hparse, hrefl _, hrefl _, rfl⟩

/-- The fragment that waits joins the queue of its track, with the payload from where the `mdat` began. -/
theorem completeMdat_cases (h : r.completeMdat = .ok r') :
    ∃ f g kind video audio, r.pending = some f ∧
      attachPayload f r.currentPayloadStart ((r.sourcePayload.length : Int) - r.currentPayloadStart)
        r.sourcePayloadFromMoof = .ok g ∧
      kindOf r.videoTrack r.audioTrack g.trackID = some kind ∧
      (∀ k : Kind, k.pick video audio = k.pick r.video r.audio ++ if k = kind then [g] else []) ∧
      r' = { r with
        video := video, audio := audio, pending := none, sourcePayloadFromMoof := 0
        currentPayloadStart := 0, sourceMoof := [] } := by
  rw [completeMdat] at h
  split at h
  · cases h
  · rename_i f hf
    simp only [bind_eq_ok, pure_eq_ok] at h
    obtain ⟨g, hattach, r₁, henqueue, rfl⟩ := h
    obtain ⟨kind, video, audio, hkind, hqueue, rfl⟩ := enqueue_eq_ok henqueue
    exact ⟨f, g, kind, video, audio, hf, hattach, hkind, hqueue, rfl⟩

/-- Once the initialization is complete it stays as it is. -/
theorem InitPart.of_done (h : InitPart boxes cur r) (hdone : r.initDone = true) (hsame : SameInit r r') :
    InitPart boxes cur r' := by
  refine ⟨fun hnot => absurd ((hsame.initDone.trans hdone).symm.trans hnot) (by simp), fun _ => ?_⟩
  rw [hsame.init, hsame.videoTrack, hsame.audioTrack]
  exact h.after hdone

/-- Where a `moof` or an `mdat` behind the initialization goes. -/
theorem TargetPart.of_media (h : TargetPart r c) (hmedia : c.boxType = boxMoof ∨ c.boxType = boxMdat) :
    (r.initDone = false) ∨
      (c.boxType = boxMoof ∧ r.initDone = true ∧ r.currentTarget = .moof ∧ r.sourceMoof = c.bytes ∧
        r.pending = none) ∨
      (c.boxType = boxMdat ∧ r.initDone = true ∧ r.currentTarget = .payload) := by
  cases h with
  | init hinit => exact .inl hinit
  | moof hinit htype htarget hbuffer hpending =>
    exact .inr (.inl ⟨htype, hinit, htarget, hbuffer, hpending⟩)
  | payload hinit htype htarget => exact .inr (.inr ⟨htype, hinit, htarget⟩)
  | styp _ hother =>
    rw [hother] at hmedia
    exact absurd hmedia (by decide)
  | prefixBox _ hother =>
    rcases hother with hother | hother | hother <;> rw [hother] at hmedia <;>
      exact absurd hmedia (by decide)
  | skipped _ hother =>
    rcases hother with hother | hother | hother <;> rw [hother] at hmedia <;>
      exact absurd hmedia (by decide)

/-- A completed `moof` came after the initialization, and all of it was kept. -/
theorem Standing.of_moof (h : Standing boxes (some c) r) (htype : c.boxType = boxMoof) :
    r.initDone = true ∧ r.currentTarget = .moof ∧ r.sourceMoof = c.bytes ∧ r.pending = none := by
  rcases (h.target c rfl).of_media (.inl htype) with hinit | ⟨-, hmoof⟩ | ⟨hother, -⟩
  · have hmedia := (h.init.before hinit).1 c (mem_append_right _ (by simp))
    simp [Child.isMedia, htype] at hmedia
  · exact hmoof
  · exact absurd (htype.symm.trans hother) (by decide)

theorem Standing.of_mdat (h : Standing boxes (some c) r) (htype : c.boxType = boxMdat)
    (hpending : r.pending ≠ none) : r.initDone = true ∧ r.currentTarget = .payload := by
  rcases (h.target c rfl).of_media (.inr htype) with hinit | ⟨hother, -⟩ | ⟨-, hmdat⟩
  · exact absurd (h.init.before hinit).2.2.2.2.2 hpending
  · exact absurd (htype.symm.trans hother) (by decide)
  · exact hmdat

/-- A box that is neither is not written to either buffer. -/
theorem Standing.of_other (h : Standing boxes (some c) r) (hmoof : c.boxType ≠ boxMoof)
    (hmdat : c.boxType ≠ boxMdat) : r.currentTarget ≠ .moof ∧ r.currentTarget ≠ .payload := by
  cases h.target c rfl with
  | init _ htarget => simp [htarget]
  | moof _ hother => exact absurd hother hmoof
  | payload _ hother => exact absurd hother hmdat
  | styp _ _ htarget => simp [htarget]
  | prefixBox _ _ htarget => simp [htarget]
  | skipped _ _ htarget => simp [htarget]

/-- The initialization stays as it is; before its end nothing is emitted. -/
theorem InitPart.emit (h : InitPart boxes cur r) (hbuild : r.tryBuildSegment cfg = .ok (r', true)) :
    InitPart boxes cur r' := by
  obtain _ | ⟨n, audio, m, segment, hne, hcount⟩ := tryBuildSegment_eq_ok_iff.mp hbuild
  refine ⟨fun hinit => ?_, h.after⟩
  obtain ⟨-, -, hvideo, -, -, -⟩ := h.before hinit
  rw [selectVideoCount, hvideo] at hcount
  cases hcount
  exact absurd rfl hne

/-- Where the bytes of the current box go, if the payload before them is taken. -/
theorem TargetPart.of_same (h : TargetPart r c) (hinit : r'.initDone = r.initDone)
    (htarget : r'.currentTarget = r.currentTarget) (hmoof : r'.sourceMoof = r.sourceMoof)
    (hpending : r'.pending = r.pending) (hstyp : r'.sourceStyp = r.sourceStyp)
    (hremaining : r'.currentBoxRemaining = r.currentBoxRemaining)
    (hstart : r.currentPayloadStart ≤ r.sourcePayload.length →
      r'.currentPayloadStart ≤ r'.sourcePayload.length)
    (htail : r'.sourcePayload.drop r'.currentPayloadStart
      <:+ r.sourcePayload.drop r.currentPayloadStart) : TargetPart r' c := by
  cases h with
  | init h₁ h₂ => exact .init (hinit.trans h₁) (htarget.trans h₂)
  | moof h₁ htype h₂ h₃ h₄ =>
    exact .moof (hinit.trans h₁) htype (htarget.trans h₂) (hmoof.trans h₃) (hpending.trans h₄)
  | payload h₁ htype h₂ h₃ h₄ h₅ hheader hsize =>
    refine .payload (hinit.trans h₁) htype (htarget.trans h₂) ?_ (hstart h₄) (htail.trans h₅) hheader ?_
    · rw [hpending]
      exact h₃
    · rw [hremaining]
      exact hsize
  | styp h₁ htype h₂ h₃ => exact .styp (hinit.trans h₁) htype (htarget.trans h₂) (hstyp.trans h₃)
  | prefixBox h₁ htype h₂ => exact .prefixBox (hinit.trans h₁) htype (htarget.trans h₂)
  | skipped h₁ htype h₂ => exact .skipped (hinit.trans h₁) htype (htarget.trans h₂)

/-- What an attempt does not touch. -/
structure Frame (r r' : Reader) : Prop extends SameInit r r' where
  pending : r'.pending = r.pending
  sourceMoof : r'.sourceMoof = r.sourceMoof
  sourcePayload : r'.sourcePayload = r.sourcePayload
  currentPayloadStart : r'.currentPayloadStart = r.currentPayloadStart
  currentTarget : r'.currentTarget = r.currentTarget
  sourceStyp : r'.sourceStyp = r.sourceStyp
  currentBoxRemaining : r'.currentBoxRemaining = r.currentBoxRemaining

theorem Frame.refl (r : Reader) : Frame r r := ⟨⟨rfl, rfl, rfl, rfl⟩, rfl, rfl, rfl, rfl, rfl, rfl, rfl⟩

theorem frame_of_attempt (hbuild : r.tryBuildSegment cfg = .ok (r', completed)) : Frame r r' := by
  cases tryBuildSegment_eq_ok_iff.mp hbuild with
  | nothing => exact .refl r
  | emits => exact ⟨⟨rfl, rfl, rfl, rfl⟩, rfl, rfl, rfl, rfl, rfl, rfl, rfl⟩

/-- What takes only from the queues leaves all of it as it is. -/
theorem Standing.of_frame (h : Standing boxes cur r) (hframe : Frame r r')
    (hinit : InitPart boxes cur r') : Standing boxes cur r' := by
  refine ⟨hinit, h.awaits.of_same hframe.pending hframe.videoTrack hframe.audioTrack, ?_, ?_, ?_⟩
  · rw [hframe.pending, hframe.currentTarget, hframe.sourceMoof]
    exact h.moofBuffer
  · rw [hframe.currentTarget, hframe.currentBoxRemaining]
    exact h.idle
  · intro c hc
    refine (h.target c hc).of_same hframe.initDone hframe.currentTarget hframe.sourceMoof hframe.pending
      hframe.sourceStyp hframe.currentBoxRemaining ?_ ?_
    · rw [hframe.currentPayloadStart, hframe.sourcePayload]
      exact id
    · rw [hframe.currentPayloadStart, hframe.sourcePayload]

/-- **An attempt.** -/
theorem Standing.attempt (h : Standing boxes cur r)
    (hbuild : r.tryBuildSegment cfg = .ok (r', completed)) : Standing boxes cur r' := by
  refine h.of_frame (frame_of_attempt hbuild) ?_
  cases completed with
  | false =>
    obtain ⟨rfl, -⟩ := tryBuildSegment_eq_false_iff.mp hbuild
    exact h.init
  | true => exact h.init.emit hbuild

theorem Standing.reset (hinit : InitPart boxes none r) (hawaits : Awaits boxes r)
    (hmoof : r.pending = none → r.sourceMoof = []) : Standing boxes none r.resetBoxState :=
  ⟨⟨hinit.before, hinit.after⟩, hawaits, fun hpending _ => hmoof hpending, fun _ => ⟨rfl, rfl⟩, by simp⟩

/-- A box that is neither leaves what waits. -/
theorem Awaits.other (h : Awaits boxes r) (hmoof : c.boxType ≠ boxMoof) (hmdat : c.boxType ≠ boxMdat) :
    Awaits (boxes ++ [c]) r := by
  rw [Awaits] at h ⊢
  rw [pairing_append_other hmoof hmdat]
  exact h

/-- **A completed box.** -/
theorem Standing.complete (h : Standing boxes (some c) r) (htype : r.currentBoxType = c.boxType)
    (hcomplete : Completes cfg r r' completed) : Standing (boxes ++ [c]) none r'.resetBoxState := by
  have hinit := h.init.complete
  cases hcomplete with
  | styp hstyp =>
    rw [htype] at hstyp
    have hmoof : c.boxType ≠ boxMoof := hstyp ▸ by decide
    have hmdat : c.boxType ≠ boxMdat := hstyp ▸ by decide
    exact .reset ⟨hinit.before, hinit.after⟩ (h.awaits.other hmoof hmdat) fun hpending =>
      h.moofBuffer hpending (h.of_other hmoof hmdat).1
  | other hstyp hmoof hmdat mfra final moov =>
    rw [htype] at hmoof hmdat
    exact .reset ⟨hinit.before, hinit.after⟩ (h.awaits.other hmoof hmdat) fun hpending =>
      h.moofBuffer hpending (h.of_other hmoof hmdat).1
  | moof hmoof hmoofOk =>
    rw [htype] at hmoof
    obtain ⟨hdone, -, hbuffer, -⟩ := h.of_moof hmoof
    obtain ⟨f, video, audio, fromMoof, vh, vt, ah, at', hparse, -, -, rfl⟩ := completeMoof_cases hmoofOk
    refine .reset (hinit.of_done hdone ⟨rfl, rfl, rfl, rfl⟩) ?_ (by simp)
    refine ⟨(parseSourceMoof_unattached hparse).1, c.bytes, r.videoHint, r.audioHint, ?_, hbuffer ▸ hparse⟩
    rw [pairing_append, Pairing.next, if_pos hmoof]
  | mdat hmdat hmdatOk hbuild =>
    rw [htype] at hmdat
    obtain ⟨f, g, kind, video, audio, hf, -, -, -, rfl⟩ := completeMdat_cases hmdatOk
    obtain ⟨hdone, -⟩ := h.of_mdat hmdat (by simp [hf])
    have hawaits := h.awaits
    rw [Awaits, hf] at hawaits
    obtain ⟨-, moof, -, -, hmoof, -⟩ := hawaits
    have hpaired : (pairing (boxes ++ [c])).moof = none := by
      rw [pairing_append, Pairing.next, if_neg (hmdat ▸ by decide), if_pos hmdat, hmoof]
    have hframe := frame_of_attempt hbuild
    refine .reset (hinit.of_done hdone ?_) ?_ fun _ => hframe.sourceMoof
    · exact ⟨hframe.initDone, hframe.init, hframe.videoTrack, hframe.audioTrack⟩
    · rw [Awaits, hframe.pending]
      exact hpaired

/-- What waits has no payload, so that a release does not move it. -/
theorem Awaits.pending_shift (h : Awaits boxes r) (delta : Nat) :
    r.pending.map (shiftFragmentPayloadStarts delta) = r.pending := by
  rw [Awaits] at h
  cases hf : r.pending with
  | none => rfl
  | some f =>
    rw [hf] at h
    rw [Option.map_some, shiftFragmentPayloadStarts, if_neg (by rw [h.1]; decide)]

theorem payloadLimit_dropPayload (r : Reader) (delta : Nat) :
    (r.dropPayload delta).payloadLimit = r.payloadLimit - delta := by
  dsimp only [payloadLimit, dropPayload]
  rw [length_drop]
  split <;> rfl

/-- **A release.** -/
theorem Standing.reclaimPayloads (h : Standing boxes cur r) : Standing boxes cur r.reclaimPayloads := by
  obtain ⟨delta, heq, -⟩ := r.exists_reclaimPayloads_eq
  rw [heq, dropPayload, h.awaits.pending_shift]
  refine ⟨⟨fun hnot => ?_, h.init.after⟩, h.awaits, h.moofBuffer, h.idle, fun c hc => ?_⟩
  · obtain ⟨hmedia, hbytes, hvideo, haudio, hstock⟩ := h.init.before hnot
    exact ⟨hmedia, hbytes, by simp [hvideo], by simp [haudio], hstock⟩
  · refine (h.target c hc).of_same rfl rfl rfl rfl rfl rfl (fun hstart => ?_) ?_
    · show r.currentPayloadStart - delta ≤ (r.sourcePayload.drop delta).length
      rw [length_drop]
      omega
    · show (r.sourcePayload.drop delta).drop (r.currentPayloadStart - delta) <:+ _
      rw [drop_drop]
      exact drop_suffix_drop_left _ (by omega)

theorem Standing.header (h : Standing boxes none r) (header : Bytes) (required boxType : Nat) :
    Standing boxes none
      { r with boxHeader := header, boxHeaderRequired := required, currentBoxType := boxType } :=
  ⟨⟨h.init.before, h.init.after⟩, h.awaits, h.moofBuffer, h.idle, by simp⟩

theorem standing_start (timeline : Timeline) : Standing [] none { timeline := timeline } :=
  ⟨⟨fun _ => ⟨by simp, rfl, rfl, rfl, rfl, rfl⟩, fun h => by cases h⟩, rfl, fun _ _ => rfl,
    fun _ => ⟨rfl, rfl⟩, by simp⟩

end TorrServer.Gstreamer.Mp4.Reader
