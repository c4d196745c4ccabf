/-
# Gstreamer.Mp4.Framing — the reader's place in the stream.

At every byte the reader stands in a header or in the body of a top-level box. `Framing` says which boxes of the
stream are complete and what there is of the current one; `feed_cases` says what a byte can do in these terms:
continue a header, open a box, or continue a body, and in the last two cases possibly complete the box.
-/
import TorrServer.Gstreamer.Mp4.Feed
import TorrServer.Gstreamer.Mp4.Samples

namespace TorrServer.Gstreamer.Mp4

open Lib List

/-! ## Boxes under way -/

/-- The bytes of `c` open a box of `size` bytes: the header, and perhaps some of the body. -/
structure Child.Opens (c : Child) (size : Nat) : Prop where
  type_eq : c.boxType = be32 c.bytes 4
  header_eq : c.headerSize = if be32 c.bytes 0 = 1 then 16 else 8
  size_eq : size = if be32 c.bytes 0 = 1 then be64 c.bytes 8 else be32 c.bytes 0
  header_le : c.headerSize ≤ c.bytes.length
  le_size : c.headerSize ≤ size

theorem Child.Opens.eight_le {c : Child} {size : Nat} (h : c.Opens size) : 8 ≤ c.headerSize := by
  rw [h.header_eq]
  split <;> omega

theorem Child.Opens.append {c : Child} {size : Nat} (h : c.Opens size) (more : Bytes) :
    Child.Opens { c with bytes := c.bytes ++ more } size := by
  have h8 := h.eight_le
  have hle := h.header_le
  have hsize : be32 (c.bytes ++ more) 0 = be32 c.bytes 0 := beAt_append_left more (by omega)
  have htype : be32 (c.bytes ++ more) 4 = be32 c.bytes 4 := beAt_append_left more (by omega)
  refine ⟨h.type_eq.trans htype.symm, ?_, ?_, ?_, h.le_size⟩
  · rw [hsize]
    exact h.header_eq
  · rw [hsize, h.size_eq]
    split
    · rename_i hone
      have hheader := h.header_eq
      rw [if_pos hone] at hheader
      exact (beAt_append_left more (by omega)).symm
    · rfl
  · simp only [length_append]
    omega

theorem Child.Opens.isTop {c : Child} (h : c.Opens c.bytes.length) : c.IsTop := by
  have h8 := h.eight_le
  have hle := h.header_le
  have hheader := h.header_eq
  have hlong : ¬ c.bytes.length < 8 := by omega
  have hlong' : ¬ (be32 c.bytes 0 = 1 ∧ c.bytes.length < 16) := by
    rintro ⟨hone, hlt⟩
    rw [if_pos hone] at hheader
    omega
  have hfits : ¬ (c.bytes.length < c.headerSize ∨ c.bytes.length < c.bytes.length) := by omega
  simp only [Child.IsTop, readTopBox, if_neg hlong, if_neg hlong', ← h.size_eq, ← hheader,
    if_neg hfits, take_length, drop_length, ← h.type_eq]

theorem Child.Opens.readTopBox_eq_none {c : Child} {size : Nat} (h : c.Opens size)
    (hlt : c.bytes.length < size) : readTopBox c.bytes = none := by
  simp only [readTopBox, ← h.size_eq]
  split
  · rfl
  · split
    · rfl
    · rw [if_pos (.inr hlt)]

/-! ## The reader's place -/

/-- The reader is in the header that starts with `part`. -/
structure InHeader (r : Reader) (part : Bytes) : Prop where
  header : r.boxHeader = part
  missing : part.length < r.boxHeaderRequired
  required : r.boxHeaderRequired = 8 ∨
    r.boxHeaderRequired = 16 ∧ 8 ≤ part.length ∧ be32 part 0 = 1 ∧ r.currentBoxType = be32 part 4

/-- The reader is in the body of the box `c` has the bytes of. -/
structure InBody (r : Reader) (c : Child) : Prop where
  header : r.boxHeader.length = r.boxHeaderRequired
  header_eq : r.boxHeader.length = c.headerSize
  type : r.currentBoxType = c.boxType
  opens : c.Opens (c.bytes.length + r.currentBoxRemaining)

/-- The stream `s` so far is the complete boxes, and the header or the box under way. -/
structure Framing (s : Bytes) (boxes : List Child) (cur : Option Child) (r : Reader) : Prop where
  top : ∀ b ∈ boxes, b.IsTop
  place : match cur with
    | none => ∃ part, s = boxBytes boxes ++ part ∧ InHeader r part
    | some c => s = boxBytes boxes ++ c.bytes ∧ InBody r c ∧ 0 < r.currentBoxRemaining

theorem Framing.expecting {s : Bytes} {boxes : List Child} {cur : Option Child} {r : Reader}
    (h : Framing s boxes cur r) : r.Expecting := by
  have hplace := h.place
  cases cur with
  | none =>
    obtain ⟨part, -, hheader⟩ := hplace
    exact .inl (by rw [hheader.header]; exact hheader.missing)
  | some c => exact .inr hplace.2.2

theorem framing_start (timeline : Timeline) : Framing [] [] none { timeline := timeline } :=
  ⟨by simp, [], rfl, rfl, by simp, .inl rfl⟩

/-- More of the stream only adds boxes. -/
theorem Framing.topBoxes_more {s : Bytes} {boxes : List Child} {cur : Option Child} {r : Reader}
    (h : Framing s boxes cur r) (q : Bytes) : ∃ more, topBoxes (s ++ q) = boxes ++ more := by
  obtain ⟨part, rfl⟩ : ∃ part, s = boxBytes boxes ++ part := by
    have hplace := h.place
    cases cur with
    | none =>
      obtain ⟨part, hs, -⟩ := hplace
      exact ⟨part, hs⟩
    | some c => exact ⟨c.bytes, hplace.1⟩
  obtain ⟨fuel, hfuel⟩ := exists_topBoxes_append h.top (part ++ q)
  exact ⟨_, by rw [append_assoc, hfuel]⟩

/-- **The complete boxes are those of the stream.** -/
theorem Framing.topBoxes_eq {s : Bytes} {boxes : List Child} {cur : Option Child} {r : Reader}
    (h : Framing s boxes cur r) : topBoxes s = boxes := by
  have hplace := h.place
  cases cur with
  | none =>
    obtain ⟨part, rfl, hheader⟩ := hplace
    refine topBoxes_append h.top ?_
    have hmissing := hheader.missing
    rw [readTopBox]
    rcases hheader.required with h8 | ⟨h16, -, hone, -⟩
    · rw [if_pos (by omega)]
    · split
      · rfl
      · dsimp only
        rw [if_pos ⟨hone, by omega⟩]
  | some c =>
    obtain ⟨rfl, hbody, hpos⟩ := hplace
    exact topBoxes_append h.top (hbody.opens.readTopBox_eq_none (by omega))

namespace Reader

variable {cfg : Config} {r r' r₁ : Reader} {b : UInt8} {completed : Bool} {s : Bytes}
  {boxes : List Child} {cur : Option Child} {c : Child} {size headerSize : Nat}

/-! ## Opening a box -/

/-- The types of the boxes that go in front of the next segment. -/
def IsPrefixType (boxType : Nat) : Prop := boxType = boxEmsg ∨ boxType = boxFree ∨ boxType = boxPrft

/-- How a box begins after the initialization. -/
inductive BeginsMedia (r : Reader) (size headerSize : Nat) : Reader → Prop
  | moof (htype : r.currentBoxType = boxMoof) (hpending : r.pending = none) :
      BeginsMedia r size headerSize
        (({ r with sourceMoof := [], sourcePayloadFromMoof := 0 }).copyTo .moof)
  | mdat (htype : r.currentBoxType = boxMdat) (hpending : r.pending ≠ none) :
      BeginsMedia r size headerSize
        { r with
          currentPayloadStart := r.sourcePayload.length
          sourcePayloadFromMoof := toInt64 (r.sourcePayloadFromMoof + headerSize)
          currentTarget := .payload }
  | sidx (htype : r.currentBoxType = boxSidx) :
      BeginsMedia r size headerSize (r.skipBeforePayload size)
  | styp (htype : r.currentBoxType = boxStyp) (hpending : r.pending = none) :
      BeginsMedia r size headerSize (({ r with sourceStyp := [] }).copyTo .styp)
  | prefixBox (htype : IsPrefixType r.currentBoxType) :
      BeginsMedia r size headerSize
        (({ r.skipBeforePayload size with prefixActive := true }).copyTo .prefixBox)
  | terminal (htype : r.currentBoxType = boxMfra ∨ r.currentBoxType = boxMoov)
      (hpending : r.pending = none) : BeginsMedia r size headerSize r

theorem beginMediaBox_cases (h : r.beginMediaBox size headerSize = .ok r') :
    BeginsMedia r size headerSize r' := by
  simp only [beginMediaBox, bind_eq_ok, require_eq_ok] at h
  obtain ⟨-, -, -, -, h⟩ := h
  split at h
  · simp only [bind_eq_ok, require_eq_ok, pure_eq_ok] at h
    obtain ⟨-, hpending, rfl⟩ := h
    exact .moof ‹_› hpending
  · split at h
    · simp only [bind_eq_ok, require_eq_ok, pure_eq_ok] at h
      obtain ⟨-, hpending, rfl⟩ := h
      exact .mdat ‹_› hpending
    · split at h
      · cases h
        exact .sidx ‹_›
      · split at h
        · simp only [bind_eq_ok, require_eq_ok, pure_eq_ok] at h
          obtain ⟨-, hpending, rfl⟩ := h
          exact .styp ‹_› hpending
        · split at h
          · cases h
            exact .prefixBox ‹_›
          · split at h
            · simp only [bind_eq_ok, require_eq_ok, pure_eq_ok] at h
              obtain ⟨-, hpending, -, -, rfl⟩ := h
              exact .terminal (.inl ‹_›) hpending
            · split at h
              · simp only [bind_eq_ok, require_eq_ok, pure_eq_ok] at h
                obtain ⟨-, -, -, -, -, hpending, rfl⟩ := h
                exact .terminal (.inr ‹_›) hpending
              · cases h

/-- The beginning of a media box changes only where its bytes go. -/
theorem BeginsMedia.eq (h : BeginsMedia r size headerSize r') : ∃ moof styp front active start fromMoof target,
    r' = { r with
      sourceMoof := moof, sourceStyp := styp, prefixBuf := front, prefixActive := active
      currentPayloadStart := start, sourcePayloadFromMoof := fromMoof, currentTarget := target } := by
  cases h <;> exact ⟨_, _, _, _, _, _, _, rfl⟩

theorem beginMediaBox_moof (hfinal : r.sourceFinalMoovDone = false)
    (hmfra : r.sourceMfraDone = false) (htype : r.currentBoxType = boxMoof) (hpending : r.pending = none)
    (size headerSize : Nat) : r.beginMediaBox size headerSize
      = .ok (({ r with sourceMoof := [], sourcePayloadFromMoof := 0 }).copyTo .moof) := by
  rw [beginMediaBox, require_bind hfinal, require_bind (fun h => absurd (hmfra.symm.trans h) (by decide)),
    if_pos htype, require_bind hpending]
  rfl

theorem beginMediaBox_mdat (hfinal : r.sourceFinalMoovDone = false)
    (hmfra : r.sourceMfraDone = false) (htype : r.currentBoxType = boxMdat) (hpending : r.pending ≠ none)
    (size headerSize : Nat) : r.beginMediaBox size headerSize
      = .ok { r with
          currentPayloadStart := r.sourcePayload.length
          sourcePayloadFromMoof := toInt64 (r.sourcePayloadFromMoof + headerSize)
          currentTarget := .payload } := by
  rw [beginMediaBox, require_bind hfinal, require_bind (fun h => absurd (hmfra.symm.trans h) (by decide)),
    if_neg (by rw [htype]; decide), if_pos htype, require_bind hpending]
  rfl

theorem beginMediaBox_sidx (hfinal : r.sourceFinalMoovDone = false) (hmfra : r.sourceMfraDone = false)
    (htype : r.currentBoxType = boxSidx) (size headerSize : Nat) :
    r.beginMediaBox size headerSize = .ok (r.skipBeforePayload size) := by
  rw [beginMediaBox, require_bind hfinal, require_bind (fun h => absurd (hmfra.symm.trans h) (by decide)),
    if_neg (by rw [htype]; decide), if_neg (by rw [htype]; decide), if_pos htype]
  rfl

/-- How a box begins: as part of the initialization, which the first `styp` or `moof` ends, or after it. -/
inductive Begins (r : Reader) (size headerSize : Nat) : Reader → Prop
  | init (hinit : r.initDone = false) (hstyp : r.currentBoxType ≠ boxStyp)
      (hmoof : r.currentBoxType ≠ boxMoof) (hmdat : r.currentBoxType ≠ boxMdat) :
      Begins r size headerSize
        (({ r with currentBoxRemaining := size - headerSize, currentTarget := .none }).copyTo .init)
  | first {video audio : TrackInfo} {r₂ : Reader} (hinit : r.initDone = false)
      (htype : r.currentBoxType = boxStyp ∨ r.currentBoxType = boxMoof)
      (hparse : parseInitTracks r.init = .ok (video, audio))
      (hmedia : BeginsMedia
        { r with
          currentBoxRemaining := size - headerSize, currentTarget := .none, videoTrack := video
          audioTrack := audio, initDone := true, inits := r.inits ++ [r.init] } size headerSize r₂) :
      Begins r size headerSize r₂
  | media {r₂ : Reader} (hinit : r.initDone = true)
      (hmedia : BeginsMedia { r with currentBoxRemaining := size - headerSize, currentTarget := .none }
        size headerSize r₂) : Begins r size headerSize r₂

theorem completeInit_eq_ok (h : r.completeInit = .ok r') :
    ∃ video audio, parseInitTracks r.init = .ok (video, audio) ∧
      r' = { r with
        videoTrack := video, audioTrack := audio, initDone := true, inits := r.inits ++ [r.init] } := by
  simp only [completeInit, bind_eq_ok, Prod.exists, require_eq_ok, pure_eq_ok] at h
  obtain ⟨-, -, video, audio, hparse, rfl⟩ := h
  refine ⟨video, audio, ?_, rfl⟩
  cases hinit : parseInitTracks r.init with
  | error e => simp [hinit, wrapError] at hparse
  | ok tracks => simpa [hinit, wrapError] using hparse

/-- **How `beginBox` succeeds.** -/
theorem beginBox_cases (h : r.beginBox size headerSize = .ok r') :
    headerSize ≤ size ∧
      ((r.currentBoxType = boxMoof ∨ r.currentBoxType = boxMdat) → size ≤ maxInt32) ∧
      Begins r size headerSize r' := by
  simp only [beginBox, bind_eq_ok, require_eq_ok] at h
  obtain ⟨-, hle, -, hmax, r₁, hend, h⟩ := h
  refine ⟨hle, hmax, ?_⟩
  rw [endInit] at hend
  split at hend
  · rename_i hfirst
    obtain ⟨video, audio, hparse, rfl⟩ := completeInit_eq_ok hend
    rw [if_neg (by simp)] at h
    exact .first hfirst.1 hfirst.2 hparse (beginMediaBox_cases h)
  · rename_i hnot
    cases hend
    by_cases hinit : r.initDone = false
    · rw [if_pos hinit] at h
      have htypes : ¬ (r.currentBoxType = boxStyp ∨ r.currentBoxType = boxMoof) :=
        fun htype => hnot ⟨hinit, htype⟩
      simp only [beginInitBox, bind_eq_ok, require_eq_ok, pure_eq_ok] at h
      obtain ⟨-, hmdat, -, -, rfl⟩ := h
      exact .init hinit (fun h => htypes (.inl h)) (fun h => htypes (.inr h)) hmdat
    · rw [if_neg hinit] at h
      exact .media (by simpa using hinit) (beginMediaBox_cases h)

/-- Beginning a box does not change the place in the stream. -/
structure SamePlace (r r' : Reader) : Prop where
  boxHeader : r'.boxHeader = r.boxHeader
  boxHeaderRequired : r'.boxHeaderRequired = r.boxHeaderRequired
  currentBoxType : r'.currentBoxType = r.currentBoxType
  currentBoxRemaining : r'.currentBoxRemaining = r.currentBoxRemaining

theorem BeginsMedia.samePlace (h : BeginsMedia r size headerSize r') : SamePlace r r' := by
  obtain ⟨-, -, -, -, -, -, -, rfl⟩ := h.eq
  exact ⟨rfl, rfl, rfl, rfl⟩

theorem Begins.samePlace (h : Begins r size headerSize r') :
    SamePlace { r with currentBoxRemaining := size - headerSize } r' := by
  cases h with
  | init => exact ⟨rfl, rfl, rfl, rfl⟩
  | first _ _ _ hmedia | media _ hmedia =>
    have h := hmedia.samePlace
    exact ⟨h.1, h.2, h.3, h.4⟩

theorem SamePlace.framing (h : SamePlace r r') (hr : Framing s boxes cur r) : Framing s boxes cur r' := by
  have hplace := hr.place
  refine ⟨hr.top, ?_⟩
  cases cur with
  | none =>
    obtain ⟨part, hs, hin⟩ := hplace
    refine ⟨part, hs, h.boxHeader.trans hin.header, ?_, ?_⟩
    · rw [h.boxHeaderRequired]
      exact hin.missing
    · rw [h.boxHeaderRequired, h.currentBoxType]
      exact hin.required
  | some c =>
    obtain ⟨hs, hin, hpos⟩ := hplace
    refine ⟨hs, ⟨?_, ?_, h.currentBoxType.trans hin.type, ?_⟩, ?_⟩
    · rw [h.boxHeader, h.boxHeaderRequired]
      exact hin.header
    · rw [h.boxHeader]
      exact hin.header_eq
    · rw [h.currentBoxRemaining]
      exact hin.opens
    · rw [h.currentBoxRemaining]
      exact hpos

/-! ## One byte -/

/-- What a byte can do. -/
inductive Fed (cfg : Config) (s : Bytes) (boxes : List Child) (cur : Option Child) (r : Reader)
    (b : UInt8) : Reader → Bool → Prop
  | header {required boxType : Nat} (hcur : cur = none)
      (hplace : Framing (s ++ [b]) boxes none
        { r with
          boxHeader := r.boxHeader ++ [b]
          boxHeaderRequired := required
          currentBoxType := boxType }) :
      Fed cfg s boxes cur r b
        { r with
          boxHeader := r.boxHeader ++ [b]
          boxHeaderRequired := required
          currentBoxType := boxType } false
  | opened {c : Child} {size : Nat} {r₁ r' : Reader} {completed : Bool} (hcur : cur = none)
      (hbytes : c.bytes = r.boxHeader ++ [b]) (hlen : c.bytes.length = c.headerSize)
      (hmax : (c.boxType = boxMoof ∨ c.boxType = boxMdat) → size ≤ maxInt32)
      (hbegins : Begins { r with boxHeader := r.boxHeader ++ [b], currentBoxType := c.boxType } size
        c.headerSize r₁)
      (hs : s ++ [b] = boxBytes boxes ++ c.bytes) (hbody : InBody r₁ c)
      (hsize : c.bytes.length + r₁.currentBoxRemaining = size)
      (hfinish : r₁.finishBox cfg = .ok (r', completed)) : Fed cfg s boxes cur r b r' completed
  | body {c : Child} {r' : Reader} {completed : Bool} (hcur : cur = some c)
      (hs : s ++ [b] = boxBytes boxes ++ (c.bytes ++ [b]))
      (hbody : InBody (r.writeByte b) { c with bytes := c.bytes ++ [b] })
      (hpos : 0 < r.currentBoxRemaining)
      (hfinish : (r.writeByte b).finishBox cfg = .ok (r', completed)) : Fed cfg s boxes cur r b r' completed

/-- A complete header opens a box. -/
theorem fed_opened (h : Framing s boxes none r) (hc : c.Opens size)
    (hbytes : c.bytes = r.boxHeader ++ [b]) (hlen : c.bytes.length = c.headerSize)
    (hrequired : r.boxHeaderRequired = c.headerSize)
    (hbegin : beginBox { r with boxHeader := r.boxHeader ++ [b], currentBoxType := c.boxType } size
      c.headerSize = .ok r₁)
    (hfinish : r₁.finishBox cfg = .ok (r', completed)) : Fed cfg s boxes none r b r' completed := by
  obtain ⟨hle, hmax, hbegins⟩ := beginBox_cases hbegin
  have hsame := hbegins.samePlace
  have hheader : r₁.boxHeader = c.bytes := hsame.boxHeader.trans hbytes.symm
  have hrem : r₁.currentBoxRemaining = size - c.headerSize := hsame.currentBoxRemaining
  obtain ⟨part, hs, hin⟩ := h.place
  refine .opened rfl hbytes hlen hmax hbegins ?_ ⟨?_, ?_, hsame.currentBoxType, ?_⟩ ?_ hfinish
  · rw [hs, hbytes, hin.header, append_assoc]
  · rw [hheader, hlen, hsame.boxHeaderRequired]
    exact hrequired.symm
  · rw [hheader, hlen]
  · rw [show c.bytes.length + r₁.currentBoxRemaining = size by omega]
    exact hc
  · omega

/-- **What a byte can do**, wherever the reader stands. -/
theorem feed_cases (h : Framing s boxes cur r) (hfeed : r.feed cfg b = .ok (r', completed)) :
    Fed cfg s boxes cur r b r' completed := by
  have hplace := h.place
  cases cur with
  | some c =>
    obtain ⟨rfl, hbody, hpos⟩ := hplace
    have hfull : r.boxHeaderRequired = r.boxHeader.length := hbody.header.symm
    rcases byteStep_cases hfeed with ⟨henters, -⟩ | ⟨r₁, henters, hfinish⟩
    · cases henters <;> omega
    · cases henters with
      | short => omega
      | long => omega
      | body =>
        refine .body rfl (append_assoc _ _ _) ⟨hbody.header, hbody.header_eq, hbody.type, ?_⟩ hpos hfinish
        have hopens := hbody.opens.append [b]
        have hlength : (c.bytes ++ [b]).length + (r.currentBoxRemaining - 1)
            = c.bytes.length + r.currentBoxRemaining := by
          rw [length_append, length_singleton]
          omega
        rwa [← hlength] at hopens
  | none =>
    obtain ⟨part, rfl, hin⟩ := hplace
    have hmissing := hin.missing
    have hheader := hin.header
    rw [← hheader] at hmissing
    rcases byteStep_cases hfeed with ⟨henters, rfl⟩ | ⟨r₁, henters, hfinish⟩
    · cases henters with
      | more hmore =>
        refine .header rfl ⟨h.top, part ++ [b], append_assoc _ _ _, ?_, ?_, ?_⟩
        · rw [hheader]
        · rwa [hheader, ← length_singleton (a := b), ← length_append] at hmore
        · rcases hin.required with h8 | ⟨h16, hlong, hone, htype⟩
          · exact .inl h8
          · refine .inr ⟨h16, by simp only [length_append]; omega, ?_, ?_⟩
            · exact (beAt_append_left [b] (by omega)).trans hone
            · exact htype.trans (beAt_append_left [b] (by omega)).symm
      | wide h8 hlen hone =>
        -- a 64-bit size follows
        refine .header rfl ⟨h.top, part ++ [b], append_assoc _ _ _, ?_, ?_, ?_⟩
        · rw [hheader]
        · show (part ++ [b]).length < 16
          simp [← hheader, hlen]
        · rw [hheader] at hone hlen ⊢
          exact .inr ⟨rfl, by simp [hlen], hone, rfl⟩
    · cases henters with
      | short h8 hlen hone hbegin =>
        have hle : 8 ≤ be32 (r.boxHeader ++ [b]) 0 := (beginBox_cases hbegin).1
        have hlen' : (r.boxHeader ++ [b]).length = 8 := by rw [length_append, hlen, length_singleton]
        exact fed_opened (c := ⟨be32 (r.boxHeader ++ [b]) 4, 8, r.boxHeader ++ [b]⟩) h
          ⟨rfl, (if_neg hone).symm, (if_neg hone).symm, hlen'.ge, hle⟩ rfl hlen' h8 hbegin hfinish
      | long hne hlen hbegin =>
        -- the end of a 64-bit size
        obtain ⟨h16, hlong, hone, htype⟩ := hin.required.resolve_left hne
        have hle : 16 ≤ be64 (r.boxHeader ++ [b]) 8 := (beginBox_cases hbegin).1
        have hlen' : (r.boxHeader ++ [b]).length = 16 := by rw [length_append, length_singleton, hlen, h16]
        have hone' : be32 (r.boxHeader ++ [b]) 0 = 1 := by
          rw [hheader]
          exact (beAt_append_left [b] (by omega)).trans hone
        have htype' : r.currentBoxType = be32 (r.boxHeader ++ [b]) 4 := by
          have hkeep : be32 (part ++ [b]) 4 = be32 part 4 := beAt_append_left [b] (by omega)
          rw [hheader, hkeep, htype]
        exact fed_opened (c := ⟨r.currentBoxType, 16, r.boxHeader ++ [b]⟩) h
          ⟨htype', (if_pos hone').symm, (if_pos hone').symm, hlen'.ge, hle⟩ rfl hlen' h16 hbegin hfinish
      | body hfull => omega

/-- A box is complete or goes on. -/
theorem finishBox_cases (htop : ∀ b ∈ boxes, b.IsTop) (hs : s = boxBytes boxes ++ c.bytes)
    (hbody : InBody r c) (h : r.finishBox cfg = .ok (r', completed)) :
    (r' = r ∧ completed = false ∧ Framing s boxes (some c) r) ∨
      (r.currentBoxRemaining = 0 ∧ c.IsTop ∧ Framing s (boxes ++ [c]) none r' ∧
        ∃ r₂, r.completeBox cfg = .ok (r₂, completed) ∧ r' = r₂.resetBoxState) := by
  rw [finishBox] at h
  split at h
  · rename_i hzero
    simp only [bind_eq_ok, Prod.exists, pure_eq_ok, Prod.mk.injEq] at h
    obtain ⟨r₂, completed', hcomplete, rfl, rfl⟩ := h
    have hopens := hbody.opens
    rw [hzero, Nat.add_zero] at hopens
    refine .inr ⟨hzero, hopens.isTop, ⟨?_, [], ?_, rfl, by simp [resetBoxState], .inl rfl⟩, r₂,
      hcomplete, rfl⟩
    · intro b hb
      rcases mem_append.mp hb with hb | hb
      · exact htop b hb
      · rw [mem_singleton.mp hb]
        exact hopens.isTop
    · rw [hs]
      simp
  · cases h
    exact .inl ⟨rfl, rfl, htop, hs, hbody, by omega⟩

/-! ## Completing a box -/

/-- How a box is completed. -/
inductive Completes (cfg : Config) (r : Reader) : Reader → Bool → Prop
  | styp (htype : r.currentBoxType = boxStyp) :
      Completes cfg r
        { r with styp := if r.styp = [] then r.sourceStyp else r.styp, sourceStyp := [] } false
  | other (hstyp : r.currentBoxType ≠ boxStyp) (hmoof : r.currentBoxType ≠ boxMoof)
      (hmdat : r.currentBoxType ≠ boxMdat) (mfra final moov : Bool) :
      Completes cfg r
        { r with sourceMfraDone := mfra, sourceFinalMoovDone := final, moovCompleted := moov } false
  | moof {r₂ : Reader} (htype : r.currentBoxType = boxMoof) (hmoof : r.completeMoof = .ok r₂) :
      Completes cfg r r₂ false
  | mdat {r₁ r₂ : Reader} {completed : Bool} (htype : r.currentBoxType = boxMdat)
      (hmdat : r.completeMdat = .ok r₁) (hbuild : r₁.tryBuildSegment cfg = .ok (r₂, completed)) :
      Completes cfg r r₂ completed

theorem completeBox_cases (h : r.completeBox cfg = .ok (r', completed)) : Completes cfg r r' completed := by
  rw [completeBox] at h
  split at h
  · cases h
    exact .styp ‹_›
  · rename_i hstyp
    split at h
    · rename_i hmfra
      cases h
      exact .other hstyp (hmfra ▸ by decide) (hmfra ▸ by decide) _ _ _
    · split at h
      · rename_i hmoov
        split at h
        · simp only [bind_eq_ok, require_eq_ok, pure_eq_ok, Prod.mk.injEq] at h
          obtain ⟨-, -, rfl, rfl⟩ := h
          exact .other hstyp (hmoov ▸ by decide) (hmoov ▸ by decide) _ _ _
        · cases h
          exact .other hstyp (hmoov ▸ by decide) (hmoov ▸ by decide) _ _ _
      · split at h
        · simp only [bind_eq_ok, pure_eq_ok, Prod.mk.injEq] at h
          obtain ⟨r₂, hmoof, rfl, rfl⟩ := h
          exact .moof ‹_› hmoof
        · rename_i hmoof
          split at h
          · simp only [bind_eq_ok] at h
            obtain ⟨r₁, hmdat, hbuild⟩ := h
            exact .mdat ‹_› hmdat hbuild
          · cases h
            exact .other hstyp hmoof ‹_› _ _ _

/-! ## A whole box -/

section WholeBox

variable {r₂ : Reader} {boxType : Nat} {body : Bytes}

/-- The first round on a whole box: its header. -/
theorem processRound_header (hheader : r.boxHeader = []) (hrequired : r.boxHeaderRequired = 8)
    (htype : boxType < 2 ^ 32) (hsize : 8 + body.length < 2 ^ 32)
    (hbegin : beginBox { r with boxHeader := put32 (8 + body.length) ++ put32 boxType
                                currentBoxType := boxType } (8 + body.length) 8 = .ok r₁)
    (hfinish : r₁.finishBox cfg = .ok (r₂, completed)) :
    r.processRound cfg (box boxType body) = .ok (r₂, body, completed) := by
  have hcopy : min (r.boxHeaderRequired - ([] : Bytes).length) (box boxType body).length = 8 := by
    rw [hrequired, box_length]
    simp
  have hbox : box boxType body = (put32 (8 + body.length) ++ put32 boxType) ++ body := by rw [box, append_assoc]
  have hlen : (put32 (8 + body.length) ++ put32 boxType).length = 8 := by simp
  have htake : (box boxType body).take 8 = put32 (8 + body.length) ++ put32 boxType := by
    rw [hbox, take_left' hlen]
  have hdrop : (box boxType body).drop 8 = body := by rw [hbox, drop_left' hlen]
  have hread := be32_put32 [] hsize (put32 boxType)
  have hread' := be32_put32 (put32 (8 + body.length)) htype []
  rw [nil_append, length_nil] at hread
  rw [append_nil, put32_length] at hread'
  have hcomplete : completeHeader cfg
      { r with boxHeader := put32 (8 + body.length) ++ put32 boxType } = .ok (r₂, completed) := by
    rw [completeHeader, openBox, if_pos hrequired]
    dsimp only
    rw [hread, hread', if_neg (by omega), require_of _ (by omega), hbegin]
    exact failAt_eq_ok.mpr hfinish
  simp only [processRound, hcopy, htake, hdrop, hheader, nil_append]
  rw [if_pos (show ([] : Bytes).length < r.boxHeaderRequired by rw [hrequired]; decide),
    if_neg (show ¬ (put32 (8 + body.length) ++ put32 boxType).length < r.boxHeaderRequired by
      rw [hlen, hrequired]
      decide), hcomplete]
  rfl

/-- **A whole box at once.** -/
theorem processBytes_box (hheader : r.boxHeader = []) (hrequired : r.boxHeaderRequired = 8)
    (htype : boxType < 2 ^ 32) (hsize : 8 + body.length < 2 ^ 32) (hbody : body ≠ [])
    (hbegin : beginBox { r with boxHeader := put32 (8 + body.length) ++ put32 boxType
                                currentBoxType := boxType } (8 + body.length) 8 = .ok r₁)
    (hcomplete : completeBox cfg { r₁.writeCurrentBoxData body with currentBoxRemaining := 0 }
      = .ok (r₂, completed)) :
    r.processBytes cfg (box boxType body) = .ok (r₂.resetBoxState, [], completed) := by
  have hpos : 0 < body.length := length_pos_of_ne_nil hbody
  have hplace := (beginBox_cases hbegin).2.2.samePlace
  have hremaining : r₁.currentBoxRemaining = body.length := by
    rw [hplace.currentBoxRemaining]
    show 8 + body.length - 8 = _
    omega
  have hfull : ¬ r₁.boxHeader.length < r₁.boxHeaderRequired := by
    rw [hplace.boxHeader, hplace.boxHeaderRequired]
    show ¬ (put32 (8 + body.length) ++ put32 boxType).length < r.boxHeaderRequired
    rw [hrequired]
    simp
  have hfirst := @processRound_header cfg r r₁ false r₁ boxType body hheader hrequired htype hsize hbegin
    (finishBox_of_pos (by omega))
  have hsecond : r₁.processRound cfg body = .ok (r₂.resetBoxState, [], completed) := by
    simp only [processRound, if_neg hfull, hremaining, Nat.min_self, take_length, drop_length,
      writeCurrentBoxData_currentBoxRemaining, Nat.sub_self]
    rw [finishBox, if_pos rfl, hcomplete]
    rfl
  have hne : box boxType body ≠ [] := ne_nil_of_length_pos (by rw [box_length]; omega)
  obtain ⟨k, hk⟩ : ∃ k, (box boxType body).length = k + 2 := ⟨6 + body.length, by rw [box_length]; omega⟩
  rw [processBytes, hk, processLoop, if_neg hne, if_neg (by rw [hheader, hrequired]; simp), hfirst, ok_bind]
  dsimp only
  rw [if_neg (by simp), processLoop, if_neg hbody, if_neg (by omega), hsecond, ok_bind]
  cases completed with
  | true => rfl
  | false =>
    show processLoop cfg k r₂.resetBoxState [] = _
    exact processLoop_nil k

theorem processBytes_box_nil (hheader : r.boxHeader = []) (hrequired : r.boxHeaderRequired = 8)
    (htype : boxType < 2 ^ 32)
    (hbegin : beginBox { r with boxHeader := put32 8 ++ put32 boxType, currentBoxType := boxType } 8 8
      = .ok r₁)
    (hcomplete : completeBox cfg r₁ = .ok (r₂, completed)) :
    r.processBytes cfg (box boxType []) = .ok (r₂.resetBoxState, [], completed) := by
  have hplace := (beginBox_cases hbegin).2.2.samePlace
  have hfinish : r₁.finishBox cfg = .ok (r₂.resetBoxState, completed) := by
    rw [finishBox, if_pos (hplace.currentBoxRemaining.trans rfl), hcomplete]
    rfl
  have hfirst := @processRound_header cfg r r₁ completed r₂.resetBoxState boxType [] hheader hrequired htype
    (by decide) hbegin hfinish
  have hne : box boxType [] ≠ [] := ne_nil_of_length_pos (by rw [box_length]; simp)
  rw [processBytes, show (box boxType []).length = 7 + 1 from by rw [box_length]; rfl, processLoop,
    if_neg hne, if_neg (by rw [hheader, hrequired]; simp), hfirst, ok_bind]
  cases completed with
  | true => rfl
  | false =>
    show processLoop cfg 7 r₂.resetBoxState [] = _
    exact processLoop_nil 7

end WholeBox

end Reader

end TorrServer.Gstreamer.Mp4
