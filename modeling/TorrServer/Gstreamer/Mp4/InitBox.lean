/-
# Gstreamer.Mp4.InitBox — the two readers of boxes see the same boxes.

The remuxer walks over the boxes of a slice with `tryReadBox`; the reader of the codecs walks over the same
bytes with `readInitBox`, by positions in the whole. They check different limits, which come to the same below
`2 ^ 31` bytes (`tryReadBox_slice`); the walks and searches follow by induction.
-/
import TorrServer.Gstreamer.Mp4.Init

namespace TorrServer.Gstreamer.Mp4

open Lib List

/-! ## The reader of the codecs -/

/-- `initBox`. -/
structure InitBox where
  typ : Bytes
  payloadStart : Nat
  stop : Nat
  deriving DecidableEq, Repr

/-- `readInitBox`: the box at the cursor, which is never negative, and the cursor after it. -/
def readInitBox (data : Bytes) (cursor stop : Nat) : Option (InitBox × Nat) :=
  if data.length < stop ∨ stop < cursor + 8 then none
  else
    let size32 := be32 data cursor
    let typ := (data.drop (cursor + 4)).take 4
    if size32 = 1 ∧ stop < cursor + 16 then none
    else
      let size :=
        if size32 = 1 then be64 data (cursor + 8)
        else if size32 = 0 then stop - cursor
        else size32
      let headerSize := if size32 = 1 then 16 else 8
      if size < headerSize ∨ stop - cursor < size ∨ maxInt64 < size then none
      else some (⟨typ, cursor + headerSize, cursor + size⟩, cursor + size)

/-- `data[base:stop]`. -/
def slice (data : Bytes) (base stop : Nat) : Bytes := (data.take stop).drop base

variable {data : Bytes} {base cursor start stop position next fuel : Nat} {b : InitBox}

/-- What a box that was read says of its place. -/
theorem readInitBox_bounds (h : readInitBox data cursor stop = some (b, next)) :
    cursor + 8 ≤ b.payloadStart ∧ b.payloadStart ≤ b.stop ∧ b.stop = next ∧ next ≤ stop ∧ b.typ.length = 4 := by
  unfold readInitBox at h
  dsimp only at h
  have hheader : 8 ≤ if be32 data cursor = 1 then 16 else 8 := by split <;> omega
  generalize (if be32 data cursor = 1 then 16 else 8) = headerSize at h hheader
  generalize (if be32 data cursor = 1 then be64 data (cursor + 8)
    else if be32 data cursor = 0 then stop - cursor else be32 data cursor) = size at h
  split at h
  · cases h
  · split at h
    · cases h
    · split at h
      · cases h
      · cases h
        dsimp only
        rw [length_take, length_drop]
        omega

theorem slice_length (hstop : stop ≤ data.length) : (slice data base stop).length = stop - base := by
  rw [slice, length_drop, length_take, Nat.min_eq_left hstop]

/-- A field of a slice is a field of the whole. -/
theorem beAt_slice {k : Nat} (hend : base + position + k ≤ stop) :
    beAt k (slice data base stop) position = beAt k data (base + position) := by
  unfold beAt slice
  rw [drop_drop, drop_take, take_take, Nat.min_eq_left (by omega)]

/-- **What `tryReadBox` reads in a slice** is what `readInitBox` reads at the same place. -/
theorem tryReadBox_slice (hsize : data.length < 2 ^ 31) (hstop : stop ≤ data.length) :
    tryReadBox (slice data base stop) position = (readInitBox data (base + position) stop).map fun p =>
      (⟨beVal p.1.typ, p.1.payloadStart - (base + position), slice data (base + position) p.1.stop⟩,
        p.2 - base) := by
  have hmax : maxInt32 = 2 ^ 31 - 1 := rfl
  have hmax' : maxInt64 = 2 ^ 63 - 1 := rfl
  unfold tryReadBox readInitBox
  rw [slice_length hstop]
  dsimp only
  by_cases hshort : stop < base + position + 8
  · have hleft : stop - base < position ∨ stop - base - position < 8 := by omega
    rw [if_pos hleft, if_pos (.inr hshort)]
    rfl
  have hleft : ¬ (stop - base < position ∨ stop - base - position < 8) := by omega
  have hright : ¬ (data.length < stop ∨ stop < base + position + 8) := by omega
  have hsize32 : be32 (slice data base stop) position = be32 data (base + position) := beAt_slice (by omega)
  have htype : be32 (slice data base stop) (position + 4) = beVal ((data.drop (base + position + 4)).take 4) :=
    beAt_slice (by omega)
  rw [if_neg hleft, if_neg hright, hsize32, htype]
  by_cases hlong : be32 data (base + position) = 1 ∧ stop < base + position + 16
  · have hlong' : be32 data (base + position) = 1 ∧ stop - base - position < 16 := ⟨hlong.1, by omega⟩
    rw [if_pos hlong', if_pos hlong]
    rfl
  have hlong' : ¬ (be32 data (base + position) = 1 ∧ stop - base - position < 16) := by omega
  -- the sizes are equal, and below `2 ^ 31` the only limit is the end of the slice
  have hsizes : (if be32 data (base + position) = 1 then be64 (slice data base stop) (position + 8)
      else if be32 data (base + position) = 0 then stop - base - position else be32 data (base + position)) =
      if be32 data (base + position) = 1 then be64 data (base + position + 8)
      else if be32 data (base + position) = 0 then stop - (base + position)
        else be32 data (base + position) := by
    split
    · exact beAt_slice (by omega)
    · rw [Nat.sub_sub]
  rw [if_neg hlong', if_neg hlong, hsizes]
  generalize (if be32 data (base + position) = 1 then be64 data (base + position + 8)
    else if be32 data (base + position) = 0 then stop - (base + position)
      else be32 data (base + position)) = size
  generalize (if be32 data (base + position) = 1 then 16 else 8) = headerSize
  by_cases hfits : size < headerSize ∨ stop - (base + position) < size
  · have hleft : size < headerSize ∨ maxInt32 < size ∨ stop - base - position < size := by omega
    have hright : size < headerSize ∨ stop - (base + position) < size ∨ maxInt64 < size := by omega
    rw [if_pos hleft, if_pos hright]
    rfl
  · have hleft : ¬ (size < headerSize ∨ maxInt32 < size ∨ stop - base - position < size) := by omega
    have hright : ¬ (size < headerSize ∨ stop - (base + position) < size ∨ maxInt64 < size) := by omega
    have hbytes : ((slice data base stop).drop position).take size
        = slice data (base + position) (base + position + size) := by
      rw [slice, drop_drop, drop_take, take_take, Nat.min_eq_left (by omega), slice, drop_take,
        Nat.add_sub_cancel_left]
    have hnext : base + position + size - base = position + size := by omega
    rw [if_neg hleft, if_neg hright, hbytes, Option.map_some, Nat.add_sub_cancel_left, hnext]

/-! ## The walks -/

/-- A box that a walk visits, by its place in the whole. -/
structure Visit where
  boxType : Nat
  payloadStart : Nat
  stop : Nat
  deriving DecidableEq, Repr

/-- The boxes that a loop over `tryReadBox` visits in a slice, and where it stops. -/
def walkSlice (data : Bytes) (base stop : Nat) : Nat → Nat → List Visit × Nat
  | 0, position => ([], base + position)
  | fuel + 1, position =>
    match tryReadBox (slice data base stop) position with
    | none => ([], base + position)
    | some (c, next) =>
      let r := walkSlice data base stop fuel next
      (⟨c.boxType, base + position + c.headerSize, base + next⟩ :: r.1, r.2)

/-- The boxes that a loop over `readInitBox` visits, at most `fuel` of them, and where it stops. -/
def walkInit (data : Bytes) (stop : Nat) : Nat → Nat → List Visit × Nat
  | 0, cursor => ([], cursor)
  | fuel + 1, cursor =>
    match readInitBox data cursor stop with
    | none => ([], cursor)
    | some (b, next) =>
      let r := walkInit data stop fuel next
      (⟨beVal b.typ, b.payloadStart, b.stop⟩ :: r.1, r.2)

/-- **The walks visit the same boxes and stop at the same place.** -/
theorem walkSlice_eq (hsize : data.length < 2 ^ 31) (hstop : stop ≤ data.length) :
    walkSlice data base stop fuel position = walkInit data stop fuel (base + position) := by
  induction fuel generalizing position with
  | zero => rfl
  | succ fuel ih =>
    rw [walkSlice, walkInit, tryReadBox_slice hsize hstop]
    cases hread : readInitBox data (base + position) stop with
    | none => rfl
    | some p =>
      obtain ⟨b, next⟩ := p
      obtain ⟨hpayload, hend, rfl, -, -⟩ := readInitBox_bounds hread
      have hback : base + (b.stop - base) = b.stop := by omega
      dsimp only [Option.map_some]
      rw [ih, hback, Nat.add_sub_cancel' (by omega)]

/-- Each read advances, so that a walk with more rounds than bytes ends where there is no box. -/
theorem readInitBox_walkInit (hfuel : stop - cursor < fuel) :
    readInitBox data (walkInit data stop fuel cursor).2 stop = none := by
  induction fuel generalizing cursor with
  | zero => omega
  | succ fuel ih =>
    rw [walkInit]
    cases hread : readInitBox data cursor stop with
    | none => exact hread
    | some p =>
      obtain ⟨b, next⟩ := p
      obtain ⟨hpayload, hend, rfl, hnext, -⟩ := readInitBox_bounds hread
      exact ih (by omega)

theorem le_walkInit : cursor ≤ (walkInit data stop fuel cursor).2 := by
  induction fuel generalizing cursor with
  | zero => exact le_rfl
  | succ fuel ih =>
    rw [walkInit]
    cases hread : readInitBox data cursor stop with
    | none => exact le_rfl
    | some p =>
      obtain ⟨b, next⟩ := p
      obtain ⟨hpayload, hend, rfl, -, -⟩ := readInitBox_bounds hread
      have hle := @ih b.stop
      dsimp only
      omega

/-! ## The searches -/

/-- The first box of type `typ` between `start` and `stop`. -/
def findInitChild (data : Bytes) (start stop : Nat) (typ : Bytes) : Option InitBox :=
  match _h : readInitBox data start stop with
  | none => none
  | some (b, next) => if b.typ = typ then some b else findInitChild data next stop typ
termination_by stop - start
decreasing_by
  obtain ⟨hpayload, hend, heq, hnext, -⟩ := readInitBox_bounds _h
  omega

/-- A box that `findInitChild` finds, as `findBox` returns it. -/
def SameFind (data : Bytes) (found : Option InitBox) (box : Option (Bytes × Nat)) : Prop :=
  match found with
  | none => box = none
  | some b => ∃ header ≤ b.payloadStart, box = some (slice data (b.payloadStart - header) b.stop, header)

/-- Four bytes are the number that they stand for. -/
theorem beVal_eq_iff {typ typ' : Bytes} (h : typ.length = 4) (h' : typ'.length = 4) :
    beVal typ = beVal typ' ↔ typ = typ' :=
  ⟨beVal_inj (h.trans h'.symm), congrArg beVal⟩

theorem sameFind_from {typ : Bytes} (hsize : data.length < 2 ^ 31) (hstop : stop ≤ data.length)
    (htyp : typ.length = 4) (hfuel : stop - (base + position) ≤ fuel) :
    SameFind data (findInitChild data (base + position) stop typ)
      (((readBoxes fuel (slice data base stop) position).find? fun c => c.boxType == beVal typ).map
        fun c => (c.bytes, c.headerSize)) := by
  induction fuel generalizing position with
  | zero =>
    have hnone : readInitBox data (base + position) stop = none := if_pos (by omega)
    unfold findInitChild
    split
    · rfl
    · rename_i hsome
      rw [hnone] at hsome
      cases hsome
  | succ fuel ih =>
    have hread := @tryReadBox_slice data base stop position hsize hstop
    unfold findInitChild
    split
    · rename_i hnone
      rw [hnone] at hread
      rw [readBoxes, hread]
      rfl
    · rename_i b next hsome
      obtain ⟨hpayload, hend, rfl, hnext, hlength⟩ := readInitBox_bounds hsome
      rw [hsome] at hread
      rw [readBoxes, hread]
      dsimp only [Option.map_some]
      rw [find?_cons]
      dsimp only
      by_cases htype : b.typ = typ
      · rw [if_pos htype, htype, beq_self_eq_true]
        have hstart : b.payloadStart - (b.payloadStart - (base + position)) = base + position := by omega
        exact ⟨b.payloadStart - (base + position), Nat.sub_le _ _, by rw [hstart]; rfl⟩
      · have hne : (beVal b.typ == beVal typ) = false :=
          beq_eq_false_iff_ne.2 fun heq => htype ((beVal_eq_iff hlength htyp).1 heq)
        have hback : base + (b.stop - base) = b.stop := by omega
        have hrest := @ih (b.stop - base) (by omega)
        rw [hback] at hrest
        rw [if_neg htype, hne]
        exact hrest

/-- **The two readers agree.** In every range below `2 ^ 31` bytes the walks with `tryReadBox` and `readInitBox`
visit the same boxes and stop at the same place after finitely many rounds, and the searches find the same
box. -/
theorem readers_agree (hsize : data.length < 2 ^ 31) (hstart : start ≤ stop) (hstop : stop ≤ data.length) :
    (∀ base ≤ start, ∀ fuel, walkSlice data base stop fuel (start - base) = walkInit data stop fuel start) ∧
    (∀ fuel, stop - start < fuel → readInitBox data (walkInit data stop fuel start).2 stop = none ∧
      ∀ base ≤ start, tryReadBox (slice data base stop) ((walkInit data stop fuel start).2 - base) = none) ∧
    ∀ typ : Bytes, typ.length = 4 →
      SameFind data (findInitChild data start stop typ) (findBox (slice data start stop) (beVal typ)) := by
  refine ⟨fun base hbase fuel => ?_, fun fuel hfuel => ⟨readInitBox_walkInit hfuel, fun base hbase => ?_⟩,
    fun typ htyp => ?_⟩
  · rw [walkSlice_eq hsize hstop, Nat.add_sub_cancel' hbase]
  · have hle := @le_walkInit data start stop fuel
    rw [tryReadBox_slice hsize hstop, Nat.add_sub_cancel' (by omega), readInitBox_walkInit hfuel]
    rfl
  · have hfind := @sameFind_from data start stop 0 (stop - start) typ hsize hstop htyp (by omega)
    rw [Nat.add_zero] at hfind
    rw [findBox, children, slice_length hstop]
    exact hfind

/-- Two boxes, the second one up to the end of the data. -/
def openMoov : Bytes := box boxFree [] ++ put32 0 ++ put32 boxMoov

theorem readers_agree_open :
    walkSlice openMoov 0 16 17 0 = walkInit openMoov 16 17 0 ∧ (walkInit openMoov 16 17 0).1.length = 2 ∧
      readInitBox openMoov (walkInit openMoov 16 17 0).2 16 = none ∧
      SameFind openMoov (findInitChild openMoov 0 16 (put32 boxMoov))
        (findBox (slice openMoov 0 16) (beVal (put32 boxMoov))) := by
  obtain ⟨hwalk, hstops, hfind⟩ := @readers_agree openMoov 0 16 (by decide) (by decide) (by decide)
  exact ⟨hwalk 0 (by decide) 17, by decide +kernel, (hstops 17 (by decide)).1, hfind _ rfl⟩

end TorrServer.Gstreamer.Mp4
