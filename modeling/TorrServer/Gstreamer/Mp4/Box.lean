/-
# Gstreamer.Mp4.Box — boxes of an MP4 byte string.

Big-endian fields at a position, and `tryReadBox`, the walk over the boxes of an enclosing box that all parsers
of the remuxer share. `box` is the other direction: the bytes of a box whose size field is its length.
`children_boxes` says that a walk over boxes laid end to end finds these boxes.
-/
import TorrServer.Lib.Checked
import TorrServer.Lib.Endian

namespace TorrServer.Gstreamer.Mp4

open Lib List

/-! ## Fields -/

/-- The `k`-byte big-endian number at position `p`. -/
def beAt (k : Nat) (data : Bytes) (p : Nat) : Nat := beVal ((data.drop p).take k)

/-- `binary.BigEndian.Uint32(data[p:p+4])`. -/
def be32 (data : Bytes) (p : Nat) : Nat := beAt 4 data p

/-- `binary.BigEndian.Uint64(data[p:p+8])`. -/
def be64 (data : Bytes) (p : Nat) : Nat := beAt 8 data p

/-- `binary.BigEndian.PutUint32`, which keeps the low 32 bits. -/
def put32 (n : Nat) : Bytes := beBytes 4 n

/-- `binary.BigEndian.PutUint64`. -/
def put64 (n : Nat) : Bytes := beBytes 8 n

/-- The bounds of Go's integers, `math.MaxInt32` and so on. -/
def maxInt32 : Nat := 2 ^ 31 - 1
def maxInt64 : Nat := 2 ^ 63 - 1
def maxUint32 : Nat := 2 ^ 32 - 1
def maxUint64 : Nat := 2 ^ 64 - 1

/-- Conversion to `int64`; irreducible, because unification must not compute with `2 ^ 64`. -/
@[irreducible] def toInt64 (x : Int) : Int := x.bmod (2 ^ 64)

/-- Conversion of a `uint32` to `int32`. -/
@[irreducible] def toInt32 (n : Nat) : Int := (n : Int).bmod (2 ^ 32)

@[simp] theorem put32_length (n : Nat) : (put32 n).length = 4 := beBytes_length 4 n

@[simp] theorem put64_length (n : Nat) : (put64 n).length = 8 := beBytes_length 8 n

theorem toInt64_add (x y : Int) : toInt64 (toInt64 x + y) = toInt64 (x + y) := by
  unfold toInt64
  exact Int.bmod_add_bmod

theorem toInt64_of_le {n : Nat} (h : n ≤ maxInt64) : toInt64 n = n := by
  have hdef := @Int.bmod_def n (2 ^ 64)
  unfold maxInt64 at h
  unfold toInt64
  omega

theorem toInt64_le_max (x : Int) : toInt64 x ≤ maxInt64 := by
  have hlt : x.bmod (2 ^ 64) < (2 ^ 64 + 1) / 2 := Int.bmod_lt (by decide)
  unfold toInt64 maxInt64
  omega

theorem toInt64_zero : toInt64 0 = 0 := by
  unfold toInt64
  decide

theorem beAt_lt (k : Nat) (data : Bytes) (p : Nat) : beAt k data p < 256 ^ k := by
  refine lt_of_lt_of_le (beVal_lt _) (Nat.pow_le_pow_right (by decide) ?_)
  rw [length_take]
  exact Nat.min_le_left _ _

theorem be32_lt (data : Bytes) (p : Nat) : be32 data p < 2 ^ 32 := beAt_lt 4 data p

theorem be64_lt (data : Bytes) (p : Nat) : be64 data p < 2 ^ 64 := beAt_lt 8 data p

theorem beAt_append_right (k : Nat) (a b : Bytes) (p : Nat) : beAt k (a ++ b) (a.length + p) = beAt k b p := by
  unfold beAt
  rw [drop_append, drop_eq_nil_of_le (by omega), nil_append, Nat.add_sub_cancel_left]

theorem beAt_append_left {k : Nat} {a : Bytes} (b : Bytes) {p : Nat} (h : p + k ≤ a.length) :
    beAt k (a ++ b) p = beAt k a p := by
  unfold beAt
  rw [drop_append_of_le_length (by omega), take_append_of_le_length]
  rw [length_drop]
  omega

theorem beAt_beBytes (k n : Nat) (rest : Bytes) : beAt k (beBytes k n ++ rest) 0 = n % 256 ^ k := by
  unfold beAt
  rw [drop_zero, take_append_of_le_length (by simp), take_of_length_le (by simp), beVal_beBytes]

/-- A field read where it was written. -/
theorem be32_put32 (a : Bytes) {n : Nat} (h : n < 2 ^ 32) (rest : Bytes) :
    be32 (a ++ (put32 n ++ rest)) a.length = n := by
  have hread := beAt_append_right 4 a (put32 n ++ rest) 0
  rw [Nat.add_zero] at hread
  rw [be32, hread, put32, beAt_beBytes]
  exact Nat.mod_eq_of_lt h

/-! ## Box types -/

/-- The number of a four-character code. -/
def typeOf (a b c d : Char) : Nat :=
  ((a.toNat * 256 + b.toNat) * 256 + c.toNat) * 256 + d.toNat

/-- The box types. -/
def boxStyp : Nat := typeOf 's' 't' 'y' 'p'
def boxSidx : Nat := typeOf 's' 'i' 'd' 'x'
def boxEmsg : Nat := typeOf 'e' 'm' 's' 'g'
def boxFree : Nat := typeOf 'f' 'r' 'e' 'e'
def boxPrft : Nat := typeOf 'p' 'r' 'f' 't'
def boxMoov : Nat := typeOf 'm' 'o' 'o' 'v'
def boxMoof : Nat := typeOf 'm' 'o' 'o' 'f'
def boxMdat : Nat := typeOf 'm' 'd' 'a' 't'
def boxMfhd : Nat := typeOf 'm' 'f' 'h' 'd'
def boxTraf : Nat := typeOf 't' 'r' 'a' 'f'
def boxTfhd : Nat := typeOf 't' 'f' 'h' 'd'
def boxTfdt : Nat := typeOf 't' 'f' 'd' 't'
def boxTrun : Nat := typeOf 't' 'r' 'u' 'n'
def boxTrak : Nat := typeOf 't' 'r' 'a' 'k'
def boxTkhd : Nat := typeOf 't' 'k' 'h' 'd'
def boxMdia : Nat := typeOf 'm' 'd' 'i' 'a'
def boxMdhd : Nat := typeOf 'm' 'd' 'h' 'd'
def boxHdlr : Nat := typeOf 'h' 'd' 'l' 'r'
def boxMvex : Nat := typeOf 'm' 'v' 'e' 'x'
def boxTrex : Nat := typeOf 't' 'r' 'e' 'x'
def boxMfra : Nat := typeOf 'm' 'f' 'r' 'a'

/-- The handlers of a video and of an audio track. -/
def handlerVideo : Nat := typeOf 'v' 'i' 'd' 'e'
def handlerAudio : Nat := typeOf 's' 'o' 'u' 'n'

/-- `fourCC`, for messages. -/
def fourCC (boxType : Nat) : String :=
  String.ofList [Char.ofNat (boxType / 2 ^ 24), Char.ofNat (boxType / 2 ^ 16 % 256),
    Char.ofNat (boxType / 2 ^ 8 % 256), Char.ofNat (boxType % 256)]

/-! ## Reading boxes -/

/-- A box as `tryReadBox` returns it. -/
structure Child where
  boxType : Nat
  headerSize : Nat
  bytes : Bytes
  deriving DecidableEq, Repr

/-- `tryReadBox`: the box at `start` and the position after it. -/
def tryReadBox (data : Bytes) (start : Nat) : Option (Child × Nat) :=
  if data.length < start ∨ data.length - start < 8 then none
  else
    let size32 := be32 data start
    let boxType := be32 data (start + 4)
    if size32 = 1 ∧ data.length - start < 16 then none
    else
      let size :=
        if size32 = 1 then be64 data (start + 8)
        else if size32 = 0 then data.length - start
        else size32
      let headerSize := if size32 = 1 then 16 else 8
      if size < headerSize ∨ maxInt32 < size ∨ data.length - start < size then none
      else some (⟨boxType, headerSize, (data.drop start).take size⟩, start + size)

/-- The boxes a loop over `tryReadBox` visits, at most `fuel` of them. -/
def readBoxes : Nat → Bytes → Nat → List Child
  | 0, _, _ => []
  | fuel + 1, data, position =>
    match tryReadBox data position with
    | none => []
    | some (child, next) => child :: readBoxes fuel data next

/-- The boxes from a position on; each has at least eight bytes, so the length is enough fuel. -/
def children (data : Bytes) (position : Nat) : List Child := readBoxes data.length data position

/-- `readUint32`: the value and the new position. -/
def readUint32 (data : Bytes) (position : Nat) : Option (Nat × Nat) :=
  if data.length < position + 4 then none else some (be32 data position, position + 4)

/-! ## Boxes laid end to end -/

/-- The bytes of a box: size, type, body. -/
def box (boxType : Nat) (body : Bytes) : Bytes := put32 (8 + body.length) ++ (put32 boxType ++ body)

@[simp] theorem box_length (boxType : Nat) (body : Bytes) : (box boxType body).length = 8 + body.length := by
  simp [box]
  omega

/-- A box is read back where it stands. -/
theorem tryReadBox_box (a : Bytes) {boxType : Nat} (htype : boxType < 2 ^ 32) {body : Bytes}
    (hsize : 8 + body.length ≤ maxInt32) (rest : Bytes) :
    tryReadBox (a ++ (box boxType body ++ rest)) a.length =
      some (⟨boxType, 8, box boxType body⟩, a.length + (8 + body.length)) := by
  have hlt : 8 + body.length < 2 ^ 32 := lt_of_le_of_lt hsize (by decide)
  have hlen : (a ++ (box boxType body ++ rest)).length - a.length
      = 8 + body.length + rest.length := by
    simp only [length_append, box_length]
    omega
  have hsize32 : be32 (a ++ (box boxType body ++ rest)) a.length = 8 + body.length := by
    unfold box
    rw [append_assoc]
    exact be32_put32 a hlt _
  have htype32 : be32 (a ++ (box boxType body ++ rest)) (a.length + 4) = boxType := by
    have hread := be32_put32 (a ++ put32 (8 + body.length)) htype (body ++ rest)
    rw [length_append, put32_length] at hread
    unfold box
    simpa only [append_assoc] using hread
  have hbytes : ((a ++ (box boxType body ++ rest)).drop a.length).take (8 + body.length)
      = box boxType body := by
    rw [drop_left, take_append_of_le_length (by simp), take_of_length_le (by simp)]
  have hfits : ¬ ((a ++ (box boxType body ++ rest)).length < a.length ∨
      8 + body.length + rest.length < 8) := by
    rw [length_append]
    omega
  have hone : 8 + body.length ≠ 1 := by omega
  have hzero : 8 + body.length ≠ 0 := by omega
  have hrange : ¬ (8 + body.length < 8 ∨ maxInt32 < 8 + body.length ∨
      8 + body.length + rest.length < 8 + body.length) := by omega
  unfold tryReadBox
  simp only [hlen, hsize32, htype32, if_neg hfits, if_neg hzero, hone, false_and, if_false,
    if_neg hrange, hbytes]

theorem tryReadBox_end (data : Bytes) : tryReadBox data data.length = none := by
  unfold tryReadBox
  rw [if_pos (by omega)]

/-- **The walk over boxes laid end to end** visits these boxes. -/
theorem children_boxes (a : Bytes) (boxes : List (Nat × Bytes))
    (htype : ∀ b ∈ boxes, b.1 < 2 ^ 32) (hsize : ∀ b ∈ boxes, 8 + b.2.length ≤ maxInt32) :
    children (a ++ (boxes.map fun b => box b.1 b.2).flatten) a.length =
      boxes.map fun b => ⟨b.1, 8, box b.1 b.2⟩ := by
  have hwalk : ∀ (boxes : List (Nat × Bytes)) (a : Bytes) (fuel : Nat), boxes.length ≤ fuel →
      (∀ b ∈ boxes, b.1 < 2 ^ 32) → (∀ b ∈ boxes, 8 + b.2.length ≤ maxInt32) →
      readBoxes fuel (a ++ (boxes.map fun b => box b.1 b.2).flatten) a.length =
        boxes.map fun b => ⟨b.1, 8, box b.1 b.2⟩ := by
    intro boxes
    induction boxes with
    | nil =>
      intro a fuel _ _ _
      cases fuel with
      | zero => rfl
      | succ fuel => simp [readBoxes, tryReadBox_end]
    | cons b boxes ih =>
      intro a fuel hfuel htype hsize
      cases fuel with
      | zero => simp at hfuel
      | succ fuel =>
        have hread := tryReadBox_box a (htype b (by simp)) (hsize b (by simp))
          (boxes.map fun b => box b.1 b.2).flatten
        have hrest := ih (a ++ box b.1 b.2) fuel (by simpa using hfuel)
          (fun c hc => htype c (by simp [hc])) (fun c hc => hsize c (by simp [hc]))
        rw [length_append, box_length, append_assoc] at hrest
        simp only [map_cons, flatten_cons, readBoxes, hread, hrest]
  refine hwalk boxes a _ ?_ htype hsize
  -- every box has bytes of its own
  have hlen : ∀ boxes : List (Nat × Bytes),
      boxes.length ≤ (boxes.map fun b => box b.1 b.2).flatten.length := by
    intro boxes
    induction boxes with
    | nil => simp
    | cons b boxes ih =>
      simp only [length_cons, map_cons, flatten_cons, length_append, box_length]
      omega
  rw [length_append]
  have := hlen boxes
  omega

end TorrServer.Gstreamer.Mp4
