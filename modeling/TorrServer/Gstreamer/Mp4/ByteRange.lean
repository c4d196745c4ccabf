/-
# Gstreamer.Mp4.ByteRange — a segment, or a range of its bytes, as a response.

A segment is kept in parts, a header and payloads. `WriteRange` walks over them with an offset and a count,
skips the parts in front of the range and cuts the first and the last one that it meets. The invariant of the
walk speaks of what is still to come: whatever parts follow, the bytes already written and the range left of the
rest make up the range that was asked for (`writeRangePart_spec`).
-/
import TorrServer.Lib.Utf8
import TorrServer.Gstreamer.Mp4.Segment

namespace TorrServer.Gstreamer.Mp4

open Lib List

/-! ## Writing -/

/-- `writeBytes` to a writer that never fails: what it has written, and the number of new bytes. -/
def writeBytes (dst data : Bytes) : Bytes × Nat :=
  if data.length = 0 then (dst, 0) else (dst ++ data, data.length)

/-- What `writeRangePart` changes: the writer, and the numbers behind its two pointers. -/
structure RangeCursor where
  dst : Bytes
  offset : Int
  count : Int

/-- Writes what the range takes of one part, and moves the range past it. -/
def writeRangePart (part : Bytes) (c : RangeCursor) : RangeCursor :=
  if part.length = 0 ∨ c.count ≤ 0 then c
  else if (part.length : Int) ≤ c.offset then { c with offset := c.offset - part.length }
  else
    let start := c.offset
    let length : Int := part.length - start
    let length := if c.count < length then c.count else length
    { dst := (writeBytes c.dst ((part.drop start.toNat).take length.toNat)).1
      offset := 0
      count := c.count - length }

/-- The loop of `WriteRange` over the payloads. -/
def writeRangeParts : List Bytes → RangeCursor → RangeCursor
  | [], c => c
  | payload :: rest, c =>
    let c := writeRangePart payload c
    if c.count ≤ 0 then c else writeRangeParts rest c

namespace Segment

/-- The length of the segment in bytes. -/
def len (s : Segment) : Nat := s.payloads.foldl (fun total payload => total + payload.length) s.header.length

/-- Writes the header and the payloads, and counts the bytes. -/
def writeTo (s : Segment) (dst : Bytes) : Bytes × Nat :=
  s.payloads.foldl
    (fun state payload =>
      if payload.length = 0 then state
      else
        let (dst, count) := writeBytes state.1 payload
        (dst, state.2 + count))
    (writeBytes dst s.header)

/-- Writes `count` bytes of the segment from `offset` on. -/
def writeRange (s : Segment) (dst : Bytes) (offset count : Int) : Bytes :=
  if count ≤ 0 ∨ offset < 0 ∨ (s.len : Int) ≤ offset then dst
  else
    let c := writeRangePart s.header ⟨dst, offset, count⟩
    if c.count ≤ 0 then c.dst else (writeRangeParts s.payloads c).dst

end Segment

/-! ## The `Range` header -/

/-- `strings.Cut` at one byte. -/
def cutAt (sep : UInt8) (s : Bytes) : Option (Bytes × Bytes) :=
  if sep ∈ s then some (s.takeWhile (· != sep), (s.dropWhile (· != sep)).drop 1) else none

/-- The text `bytes=`. -/
def rangeUnit : Bytes := [98, 121, 116, 101, 115, 61]

/-- The bounds that a range asks for: from a place on, between two, or the last bytes. -/
def rangeBounds (left right : Bytes) (totalLength : Int) : Option (Int × Int) :=
  if left ≠ [] then do
    let start ← parseInt left
    if right = [] then return (start, totalLength - 1)
    else
      let stop ← parseInt right
      return (start, stop)
  else do
    let suffixLength ← parseInt right
    if suffixLength ≤ 0 then none
    else
      let suffixLength := if totalLength < suffixLength then totalLength else suffixLength
      return (totalLength - suffixLength, totalLength - 1)

/-- The first and the last byte of a `Range` header with one range; `none` for any other header. -/
def parseSingleRange (header : Bytes) (totalLength : Int) : Option (Int × Int) :=
  if totalLength ≤ 0 ∨ rangeUnit.isPrefixOf header = false then none
  else
    let spec := trimSpace (header.drop rangeUnit.length)
    if spec = [] ∨ (44 : UInt8) ∈ spec then none
    else do
      let (left, right) ← cutAt 45 spec
      let (start, stop) ← rangeBounds left right totalLength
      if start < 0 ∨ stop < start ∨ totalLength ≤ start then none
      else return (start, if totalLength ≤ stop then totalLength - 1 else stop)

/-- A response, but for the headers that are the same in all of them. -/
structure SegmentResponse where
  status : Nat := 200
  contentRange : Option Bytes := none
  contentLength : Option Int := none
  body : Bytes := []
  deriving DecidableEq, Repr

/-- `writeSegment` of the handlers. -/
def Segment.writeSegment (seg : Segment) (rangeHeader : Bytes) : SegmentResponse :=
  let totalLength : Int := seg.len
  if rangeHeader = [] then { contentLength := some totalLength, body := (seg.writeTo []).1 }
  else
    match parseSingleRange rangeHeader totalLength with
    | none =>
      -- `bytes */` and the length
      { status := 416, contentRange := some ([98, 121, 116, 101, 115, 32, 42, 47] ++ formatInt totalLength) }
    | some (start, stop) =>
      let length := stop - start + 1
      { status := 206
        -- `bytes `, the two bounds and the length
        contentRange :=
          some ([98, 121, 116, 101, 115, 32] ++ formatInt start ++ [45] ++ formatInt stop ++ [47] ++
          formatInt totalLength)
        contentLength := some length
        body := seg.writeRange [] start length }

/-! ## What is written -/

section

variable {dst part : Bytes} {c : RangeCursor} {s : Segment} {offset count : Int}

theorem writeBytes_fst (dst data : Bytes) : (writeBytes dst data).1 = dst ++ data := by
  rw [writeBytes]
  split
  · rename_i hempty
    rw [length_eq_zero_iff.1 hempty, append_nil]
  · rfl

theorem Segment.writeTo_fst (s : Segment) (dst : Bytes) : (s.writeTo dst).1 = dst ++ s.bytes := by
  have hloop : ∀ (payloads : List Bytes) (state : Bytes × Nat),
      (payloads.foldl
        (fun state payload =>
          if payload.length = 0 then state
          else
            let (dst, count) := writeBytes state.1 payload
            (dst, state.2 + count)) state).1 = state.1 ++ payloads.flatten := by
    intro payloads
    induction payloads with
    | nil => intro state; exact (append_nil _).symm
    | cons payload rest ih =>
      intro state
      rw [foldl_cons, ih, flatten_cons, ← append_assoc]
      congr 1
      split
      · rename_i hempty
        rw [length_eq_zero_iff.1 hempty, append_nil]
      · exact writeBytes_fst _ _
  rw [writeTo, hloop, writeBytes_fst, append_assoc]
  rfl

theorem Segment.len_eq (s : Segment) : s.len = s.bytes.length := by
  have hloop : ∀ (payloads : List Bytes) (total : Nat),
      payloads.foldl (fun total payload => total + payload.length) total = total + payloads.flatten.length := by
    intro payloads
    induction payloads with
    | nil => intro total; rfl
    | cons payload rest ih =>
      intro total
      rw [foldl_cons, ih, flatten_cons, length_append, Nat.add_assoc]
  rw [len, hloop, bytes, length_append]

/-- What a cursor will have written when the bytes of `rest` have passed by. -/
def RangeCursor.total (c : RangeCursor) (rest : Bytes) : Bytes :=
  c.dst ++ (rest.drop c.offset.toNat).take c.count.toNat

/-- One part: with whatever follows it, the same bytes will have been written. -/
theorem writeRangePart_spec (hoffset : 0 ≤ c.offset) (hcount : 0 ≤ c.count) :
    0 ≤ (writeRangePart part c).offset ∧ 0 ≤ (writeRangePart part c).count ∧
      ∀ rest, (writeRangePart part c).total rest = c.total (part ++ rest) := by
  rw [writeRangePart]
  split
  · rename_i hskip
    refine ⟨hoffset, hcount, ?_⟩
    intro rest
    rcases hskip with hempty | hdone
    · rw [length_eq_zero_iff.1 hempty, nil_append]
    · rw [RangeCursor.total, RangeCursor.total, show c.count.toNat = 0 by omega, take_zero, take_zero]
  · split
    · -- the range begins behind this part
      rename_i hbehind
      refine ⟨by dsimp only; omega, hcount, ?_⟩
      intro rest
      simp only [RangeCursor.total]
      rw [drop_append, @drop_eq_nil_of_le _ part c.offset.toNat (by omega), nil_append,
        show (c.offset - part.length).toNat = c.offset.toNat - part.length by omega]
    · -- the part is cut in front, and behind if the range ends in it
      rename_i hinside
      dsimp only
      have hlength : ((part.drop c.offset.toNat).length : Int) = part.length - c.offset := by
        rw [length_drop]
        omega
      split
      · rename_i hends
        refine ⟨Int.le_refl 0, by omega, ?_⟩
        intro rest
        simp only [RangeCursor.total, writeBytes_fst]
        rw [Int.sub_self, show (0 : Int).toNat = 0 from rfl, take_zero, append_nil,
          drop_append_of_le_length (by omega), take_append_of_le_length (by omega)]
      · rename_i hgoes
        refine ⟨Int.le_refl 0, by omega, ?_⟩
        intro rest
        simp only [RangeCursor.total, writeBytes_fst]
        rw [drop_append_of_le_length (by omega), take_append, append_assoc,
          take_of_length_le (show (part.drop c.offset.toNat).length ≤ (part.length - c.offset).toNat by omega),
          take_of_length_le (show (part.drop c.offset.toNat).length ≤ c.count.toNat by omega)]
        congr 3
        omega

theorem writeRangeParts_spec (parts : List Bytes) (hoffset : 0 ≤ c.offset) (hcount : 0 ≤ c.count) :
    (writeRangeParts parts c).dst = c.total parts.flatten := by
  induction parts generalizing c with
  | nil =>
    rw [RangeCursor.total, flatten_nil, drop_nil, take_nil, append_nil]
    rfl
  | cons part rest ih =>
    obtain ⟨hoffset', hcount', htotal⟩ := @writeRangePart_spec part c hoffset hcount
    rw [flatten_cons, ← htotal, writeRangeParts]
    split
    · rename_i hdone
      rw [RangeCursor.total, show (writeRangePart part c).count.toNat = 0 by omega, take_zero, append_nil]
    · exact ih hoffset' hcount'

/-- **`WriteRange` writes a range of the bytes**, as far as they go. -/
theorem Segment.writeRange_eq (s : Segment) (dst : Bytes) (hoffset : 0 ≤ offset) (hcount : 0 ≤ count) :
    s.writeRange dst offset count = dst ++ (s.bytes.drop offset.toNat).take count.toNat := by
  rw [writeRange]
  split
  · rename_i hnothing
    rcases hnothing with hzero | hneg | hbeyond
    · rw [show count.toNat = 0 by omega, take_zero, append_nil]
    · omega
    · rw [len_eq] at hbeyond
      rw [drop_eq_nil_of_le (by omega), take_nil, append_nil]
  · obtain ⟨hoffset', hcount', htotal⟩ := @writeRangePart_spec s.header ⟨dst, offset, count⟩ hoffset hcount
    have hall := htotal s.payloads.flatten
    dsimp only
    split
    · rename_i hdone
      rw [RangeCursor.total, show (writeRangePart s.header ⟨dst, offset, count⟩).count.toNat = 0 by omega,
        take_zero, append_nil] at hall
      exact hall
    · rw [writeRangeParts_spec s.payloads hoffset' hcount']
      exact hall

/-! ## Ranges that are accepted -/

theorem parseSingleRange_bounds {header : Bytes} {totalLength start stop : Int}
    (h : parseSingleRange header totalLength = some (start, stop)) :
    0 ≤ start ∧ start ≤ stop ∧ stop < totalLength := by
  rw [parseSingleRange] at h
  split at h
  · cases h
  · dsimp only at h
    split at h
    · cases h
    · simp only [Option.bind_eq_bind, Option.bind_eq_some_iff, Prod.exists] at h
      obtain ⟨left, right, -, start', stop', -, h⟩ := h
      split at h
      · cases h
      · rename_i hbounds
        cases h
        split
        · omega
        · omega

/-- **What a range is answered with.** A header is rejected or gives a range within the segment, whose bytes are
written, as many as `Content-Length` says; adjacent ranges are written as one. -/
theorem Segment.writeSegment_range (s : Segment) (rangeHeader : Bytes) :
    (parseSingleRange rangeHeader s.len = none ∨
      ∃ start stop, parseSingleRange rangeHeader s.len = some (start, stop) ∧
        0 ≤ start ∧ start ≤ stop ∧ stop < s.len ∧
        s.writeRange [] start (stop - start + 1)
          = ((s.writeTo []).1.drop start.toNat).take (stop - start + 1).toNat) ∧
    (∀ n, (s.writeSegment rangeHeader).contentLength = some n →
      ((s.writeSegment rangeHeader).body.length : Int) = n) ∧
    (∀ dst offset n m, 0 ≤ offset → 0 ≤ n → 0 ≤ m →
      s.writeRange (s.writeRange dst offset n) (offset + n) m = s.writeRange dst offset (n + m)) := by
  have hlen := s.len_eq
  have hwritten : ∀ start stop : Int, 0 ≤ start → start ≤ stop →
      s.writeRange [] start (stop - start + 1) = (s.bytes.drop start.toNat).take (stop - start + 1).toNat := by
    intro start stop hstart hle
    rw [s.writeRange_eq [] hstart (by omega), nil_append]
  refine ⟨?_, ?_, ?_⟩
  · cases hparse : parseSingleRange rangeHeader s.len with
    | none => exact .inl rfl
    | some range =>
      obtain ⟨hstart, hle, hlt⟩ := parseSingleRange_bounds hparse
      refine .inr ⟨range.1, range.2, rfl, hstart, hle, hlt, ?_⟩
      rw [hwritten _ _ hstart hle, s.writeTo_fst, nil_append]
  · intro n hn
    rw [writeSegment] at hn ⊢
    dsimp only at hn ⊢
    split at hn
    · rename_i hwhole
      cases hn
      rw [if_pos hwhole, s.writeTo_fst, nil_append, hlen]
    · rename_i hwhole
      rw [if_neg hwhole]
      cases hparse : parseSingleRange rangeHeader s.len with
      | none =>
        rw [hparse] at hn
        cases hn
      | some range =>
        obtain ⟨hstart, hle, hlt⟩ := parseSingleRange_bounds hparse
        rw [hparse] at hn
        cases hn
        show ((s.writeRange [] range.1 (range.2 - range.1 + 1)).length : Int) = _
        rw [hwritten _ _ hstart hle, length_take, length_drop]
        omega
  · intro dst offset n m hoffset hn hm
    rw [s.writeRange_eq dst hoffset hn, s.writeRange_eq _ (by omega) hm, s.writeRange_eq dst hoffset (by omega),
      append_assoc, show (offset + n).toNat = offset.toNat + n.toNat by omega,
      show (n + m).toNat = n.toNat + m.toNat by omega, ← drop_drop, take_add]

/-- `bytes=1-3` of a segment with an empty payload in it. -/
example : (Segment.mk [10, 11] [[], [12], [13, 14]] 0 0).writeSegment [98, 121, 116, 101, 115, 61, 49, 45, 51]
    = { status := 206, contentLength := some 3, body := [11, 12, 13]
        contentRange := some [98, 121, 116, 101, 115, 32, 49, 45, 51, 47, 53] } := by
  decide +kernel

end

end TorrServer.Gstreamer.Mp4
