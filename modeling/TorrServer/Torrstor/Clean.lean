/-
# Torrstor.Clean — one eviction pass over the cache.

`cleanPieces` releases pieces when the cache is over its capacity. `getRemPieces` collects the candidates:
complete pieces with data, outside the window of every reader in use, and not at the head or the tail of a file;
the ones accessed longest ago go first, and no more than the excess asks for.

The pass visits readers and pieces in whatever order the maps give them out, and visiting a reader may switch it
on or off (`checkReader`), which changes the share of the others. A reader's window is the one the pass computes
when it visits it (`windows_of_steady`).

The pass protects more than the head and the tail themselves: `Init` flags the piece after the head too, and
`isIdInFileBE` also looks at small files that are being read. So a candidate is told by the pass's own test,
`Releasable`.
-/
import TorrServer.Torrstor.Pieces
import TorrServer.Torrstor.Ranges
import TorrServer.Torrstor.Reader
import Mathlib.Algebra.BigOperators.Group.Finset.Basic
import Mathlib.Algebra.Order.Ring.Int

namespace TorrServer.Torrstor

open List

variable {id n p r : Nat} {store : PieceStore} {ids : List Nat}

/-! ## The layout of the torrent -/

/-- The piece length, the number of pieces and the lengths of the files. -/
structure Layout where
  pieceLength : Nat
  pieceCount : Nat
  lengths : List Nat
  pieceLength_pos : 0 < pieceLength

namespace Layout

/-- The files one after another, from `offset` on. -/
def filesFrom (offset : Nat) : List Nat → List File
  | [] => []
  | length :: lengths => ⟨offset, length⟩ :: filesFrom (offset + length) lengths

/-- The files of the torrent. -/
def files (L : Layout) : List File := filesFrom 0 L.lengths

/-- `fileRangeNotDelete`: 8 MiB, or a piece if that is more. -/
def keep (L : Layout) : Nat := if L.pieceLength < 8 * 2 ^ 20 then 8 * 2 ^ 20 else L.pieceLength

/-- `Init` flags piece `id` for the file. -/
def flagged (L : Layout) (f : File) (id : Nat) : Bool :=
  if f.length < 10 * 2 ^ 20 then false
  else
    let ss : Int := (f.offset : Int).tdiv L.pieceLength
    let se : Int := ((f.offset : Int) + L.keep).tdiv L.pieceLength
    let se := if se ≥ L.pieceCount then (L.pieceCount : Int) - 1 else se
    let es : Int := ((f.offset : Int) + f.length - L.keep).tdiv L.pieceLength
    let es := if es < 0 then 0 else es
    let ee : Int := ((f.offset : Int) + f.length - 1).tdiv L.pieceLength
    let ee := if ee ≥ L.pieceCount then (L.pieceCount : Int) - 1 else ee
    decide (ss ≤ id ∧ id ≤ se ∧ id < L.pieceCount) || decide (es ≤ id ∧ id ≤ ee ∧ id < L.pieceCount)

/-- `isIndexPiece`, as `Init` leaves it. -/
def isIndexPiece (L : Layout) (id : Nat) : Bool := L.files.any (L.flagged · id)

/-- Whether it is an index piece, or at the beginning or the end of a file that is read. -/
def isIdInFileBE (L : Layout) (ranges : List Range) (id : Nat) : Bool :=
  L.isIndexPiece id || ranges.any fun rng =>
    let ss : Int := (rng.file.offset : Int).tdiv L.pieceLength
    let se : Int := ((rng.file.offset : Int) + L.keep).tdiv L.pieceLength
    let es : Int := ((rng.file.offset : Int) + rng.file.length - L.keep).tdiv L.pieceLength
    let ee : Int := ((rng.file.offset : Int) + rng.file.length).tdiv L.pieceLength
    decide (ss ≤ id ∧ id < se ∨ es < id ∧ id ≤ ee)

/-- The cache `Init` makes for the torrent, without saved index pieces. -/
def config (L : Layout) (capacity : Int) : PieceConfig :=
  { capacity := capacity, pieceLength := L.pieceLength, pieceCount := L.pieceCount
    isIndexPiece := L.isIndexPiece, saved := fun _ => none
    pieceLength_pos := L.pieceLength_pos, saved_le := by simp }

/-- The bytes of piece `id` are none of `lo` up to `hi`. -/
def Apart (L : Layout) (id lo hi : Nat) : Prop := (id + 1) * L.pieceLength ≤ lo ∨ hi ≤ id * L.pieceLength

/-- Piece `id` has none of the first and last `keep` bytes of any file of at least 10 MiB. -/
def AwayFromEnds (L : Layout) (id : Nat) : Prop :=
  ∀ f ∈ L.files, 10 * 2 ^ 20 ≤ f.length →
    L.Apart id f.offset (f.offset + min L.keep f.length) ∧
    L.Apart id (f.offset + (f.length - L.keep)) (f.offset + f.length)

end Layout

/-! ## The windows of the readers -/

/-- The settings, the capacity, the readers with their files, and the pieces. `share part pct` is
`int64(float64(part) * 0.85 * float64(pct) / 100.0)`; the capacity `Init` found fixes the freelist. -/
structure CleanState where
  layout : Layout
  initialCapacity : Int
  capacity : Int
  capacity_nonneg : 0 ≤ capacity
  share : Int → Int → Int
  readerReadAHead : Int
  file : Nat → File
  cache : Cache
  store : PieceStore

namespace CleanState

variable (s : CleanState)

/-- `getOffsetRange` of reader `id`. -/
def getOffsetRange (cache : Cache) (id : Nat) : Int × Int :=
  let readers := if cache.activeReaders = 0 then 1 else cache.activeReaders.toInt
  let currentOffset := ((cache.objs[id]?.map fun r => r.offset.toInt).getD 0)
  let beginOffset := currentOffset - s.share (s.capacity.tdiv readers) (100 - s.readerReadAHead)
  let endOffset := currentOffset + s.share (s.capacity.tdiv readers) s.readerReadAHead
  (if beginOffset < 0 then 0 else beginOffset,
    if endOffset > (s.file id).length then ((s.file id).length : Int) else endOffset)

/-- The piece at an offset in the file. -/
def getPieceNum (id : Nat) (offset : Int) : Int :=
  (offset + (s.file id).offset).tdiv s.layout.pieceLength

/-- `getPiecesRange`: the window of reader `id`. -/
def getPiecesRange (cache : Cache) (id : Nat) : Range :=
  let (startOff, endOff) := s.getOffsetRange cache id
  ⟨s.getPieceNum id startOff, s.getPieceNum id endOff, s.file id⟩

end CleanState

/-- A reader that was not used for a while goes idle, another is active. -/
def Cache.checkReader (c : Cache) (id : Nat) (now : Int) : Cache :=
  let accessTime := ((c.objs[id]?.map (·.lastAccess)).getD 0)
  if c.goesIdle accessTime now then c.readerOff id else c.readerOn id

/-- What the maps and the clock decide: the order of readers and pieces, and when each reader is checked. -/
structure Visit (s : CleanState) where
  readers : List Nat
  pieces : List Nat
  now : Nat → Int
  readers_perm : readers.Perm s.cache.readers
  pieces_perm : pieces.Perm (List.range s.layout.pieceCount)

namespace CleanState

variable (S : Lib.Sorter) (s : CleanState)

/-- The loop of `getRemPieces` over the readers: one reader. -/
def visitReader (now : Nat → Int) (acc : Cache × List (Nat × Range)) (id : Nat) :
    Cache × List (Nat × Range) :=
  let cache := acc.1.checkReader id (now id)
  (cache, if cache.inUse id then acc.2 ++ [(id, s.getPiecesRange cache id)] else acc.2)

/-- The whole loop: the readers as it leaves them, and the windows of those in use. -/
def visitReaders (v : Visit s) : Cache × List (Nat × Range) :=
  v.readers.foldl (s.visitReader v.now) (s.cache, [])

/-! ## The pass -/

/-- `piecesRemove` gets piece `id`. -/
def removable (ranges : List Range) (store : PieceStore) (id : Nat) : Bool :=
  let inRange := decide (id < s.layout.pieceCount) && fillPieceInRange ranges s.layout.pieceCount id
  pieceEvictable (store.pieces id).size (store.pieces id).complete inRange &&
    !s.layout.isIdInFileBE ranges id

/-- The loop of `getRemPieces` that adds the sizes up. -/
def addSizes (store : PieceStore) (ids : List Nat) : Int :=
  ids.foldl (fun fill id =>
    if (store.pieces id).size > 0 then fill + (store.pieces id).size else fill) 0

/-- Releases a piece, unless the cache is closed. -/
def removePiece (store : PieceStore) (id : Nat) : PieceStore :=
  if store.isClosed then store else store.release (s.layout.config s.initialCapacity) id

/-- The loop of `cleanPieces`, with the pieces it has released. -/
def removePieces (s : CleanState) (store : PieceStore) (rems : Int) : List Nat → PieceStore × List Nat
  | [] => (store, [])
  | id :: ids =>
    let store := s.removePiece store id
    let rems := rems - 1
    if rems ≤ 0 then (store, [id])
    else
      let (store, released) := s.removePieces store rems ids
      (store, id :: released)

/-- The pieces and the readers, with the windows the pass has seen and what it has released. -/
structure Outcome where
  store : PieceStore
  cache : Cache
  windows : List (Nat × Range)
  released : List Nat

/-- `getRemPieces`: the readers and windows, the candidates in the order of access, and the total size. -/
def getRemPieces (v : Visit s) : (Cache × List (Nat × Range)) × List Nat × Int :=
  let visited := s.visitReaders v
  let ranges := mergeRange S (visited.2.map (·.2))
  let piecesRemove := v.pieces.filter (s.removable ranges s.store)
  (visited,
    S.sort (fun i j => decide ((s.store.pieces i).accessed < (s.store.pieces j).accessed)) piecesRemove,
    addSizes s.store v.pieces)

/-- `cleanPieces`, past its throttle. -/
def cleanPieces (v : Visit s) : Outcome :=
  if s.store.isClosed then { store := s.store, cache := s.cache, windows := [], released := [] }
  else
    let ((cache, windows), remPieces, filled) := s.getRemPieces S v
    if filled > s.capacity then
      let rems := (filled - s.capacity).tdiv s.layout.pieceLength + 1
      let (store, released) := s.removePieces s.store rems remPieces
      { store := store, cache := cache, windows := windows, released := released }
    else { store := s.store, cache := cache, windows := windows, released := [] }

/-- **What the pass may release**, with the windows it has seen. -/
def Releasable (windows : List (Nat × Range)) (store : PieceStore)
    (id : Nat) : Prop :=
  id < s.layout.pieceCount ∧ (store.pieces id).complete = true ∧ 0 < (store.pieces id).size ∧
    (∀ w ∈ windows, ¬ w.2.Has id) ∧
    s.layout.isIdInFileBE (mergeRange S (windows.map (·.2))) id = false

/-- The total size of the pieces. -/
def filled (store : PieceStore) : Int :=
  ∑ id ∈ Finset.range s.layout.pieceCount, max 0 (store.pieces id).size

end CleanState

/-! ## The ends of the files -/

namespace Layout

variable {L : Layout}

/-- A piece that has one of the bytes `lo` up to `hi` lies between theirs. -/
theorem div_of_not_apart {lo hi : Nat} (h : ¬ L.Apart id lo hi) :
    lo / L.pieceLength ≤ id ∧ id ≤ (hi - 1) / L.pieceLength := by
  simp only [Apart, not_or, Nat.not_le] at h
  constructor
  · exact Nat.lt_succ_iff.mp ((Nat.div_lt_iff_lt_mul L.pieceLength_pos).mpr h.1)
  · exact (Nat.le_div_iff_mul_le L.pieceLength_pos).mpr (by omega)

theorem tdiv_le_div {x : Int} (hx : x ≤ n) : x.tdiv p ≤ ((n / p : Nat) : Int) := by
  cases x with
  | ofNat m => exact Int.ofNat_le.mpr (Nat.div_le_div_right (Int.ofNat_le.mp hx))
  | negSucc m => exact (Int.neg_nonpos_of_nonneg (Int.natCast_nonneg _)).trans (Int.natCast_nonneg _)

theorem div_le_tdiv {x : Int} (hx : n ≤ x) : ((n / p : Nat) : Int) ≤ x.tdiv p := by
  lift x to Nat using (Int.natCast_nonneg n).trans hx
  exact Int.ofNat_le.mpr (Nat.div_le_div_right (Int.ofNat_le.mp hx))

/-- **A piece that `Init` has not flagged is away from the ends.** -/
theorem awayFromEnds_of_not_isIndexPiece (hid : id < L.pieceCount) (hflag : L.isIndexPiece id = false) :
    L.AwayFromEnds id := by
  intro f hf hlength
  have hflagged : L.flagged f id = false := by
    by_contra hne
    have htrue : L.isIndexPiece id = true := any_eq_true.mpr ⟨f, hf, by simpa using hne⟩
    rw [hflag] at htrue
    cases htrue
  simp only [flagged, if_neg (Nat.not_lt.mpr hlength), Bool.or_eq_false_iff, decide_eq_false_iff_not]
    at hflagged
  obtain ⟨hhead, htail⟩ := hflagged
  constructor
  · by_contra hnot
    obtain ⟨hlo, hhi⟩ := div_of_not_apart hnot
    have hss : (f.offset : Int).tdiv L.pieceLength ≤ ((f.offset / L.pieceLength : Nat) : Int) :=
      tdiv_le_div le_rfl
    have hse : (((f.offset + min L.keep f.length - 1) / L.pieceLength : Nat) : Int) ≤
        ((f.offset : Int) + L.keep).tdiv L.pieceLength := div_le_tdiv (by omega)
    -- the clamp to the last piece does not lose it
    refine hhead ⟨by omega, ?_, hid⟩
    split <;> omega
  · by_contra hnot
    obtain ⟨hlo, hhi⟩ := div_of_not_apart hnot
    have hes : ((f.offset : Int) + f.length - L.keep).tdiv L.pieceLength ≤
        (((f.offset + (f.length - L.keep)) / L.pieceLength : Nat) : Int) := tdiv_le_div (by omega)
    have hee : (((f.offset + f.length - 1) / L.pieceLength : Nat) : Int) ≤
        ((f.offset : Int) + f.length - 1).tdiv L.pieceLength := div_le_tdiv (by omega)
    refine htail ⟨?_, ?_, hid⟩
    · split <;> omega
    · split <;> omega

end Layout

/-! ## Releasing a list of pieces -/

namespace PieceStore

variable (cfg : PieceConfig) (s : PieceStore)

theorem putBuffer_pieces (a : Nat) : (s.putBuffer cfg a).pieces = s.pieces := by
  unfold putBuffer
  split_ifs <;> rfl

theorem putBuffer_isClosed (a : Nat) :
    (s.putBuffer cfg a).isClosed = s.isClosed := by
  unfold putBuffer
  split_ifs <;> rfl

theorem releaseMem_pieces (id i : Nat) :
    (s.releaseMem cfg id).pieces i = if i = id then cleared (s.pieces i) else s.pieces i := by
  have hmodify : ∀ t : PieceStore, t.pieces = s.pieces →
      (t.modify id cleared).pieces i = if i = id then cleared (s.pieces i) else s.pieces i := by
    intro t ht
    rw [modify_pieces, ht]
    split
    · rename_i hi
      rw [hi]
    · rfl
  unfold releaseMem
  split
  · exact hmodify _ (putBuffer_pieces cfg s _)
  · exact hmodify _ rfl

theorem releaseMem_isClosed (id : Nat) :
    (s.releaseMem cfg id).isClosed = s.isClosed := by
  unfold releaseMem
  split
  · exact putBuffer_isClosed cfg s _
  · rfl

end PieceStore

namespace CleanState

variable {s : CleanState} {S : Lib.Sorter}

theorem removePiece_eq (hopen : store.isClosed = false) (hindex : s.layout.isIndexPiece id = false) :
    s.removePiece store id = store.releaseMem (s.layout.config s.initialCapacity) id := by
  simp [removePiece, PieceStore.release, hopen, Layout.config, hindex]

/-- **The loop** releases the first `rems` of the pieces, at least one, and clears them. -/
theorem removePieces_spec (hindex : ∀ id ∈ ids, s.layout.isIndexPiece id = false)
    (hopen : store.isClosed = false) (rems : Int) :
    (s.removePieces store rems ids).2 = ids.take (max 1 rems).toNat ∧
      ∀ i, (s.removePieces store rems ids).1.pieces i =
        if i ∈ (s.removePieces store rems ids).2 then PieceStore.cleared (store.pieces i)
        else store.pieces i := by
  induction ids generalizing store rems with
  | nil => simp [removePieces]
  | cons id ids ih =>
    have hid := removePiece_eq hopen (hindex id mem_cons_self)
    rw [removePieces, hid]
    by_cases hlast : rems - 1 ≤ 0
    · have htake : (max 1 rems).toNat = 1 := by omega
      simp only [hlast, if_true, htake, take_succ_cons, take_zero, true_and]
      intro i
      rw [PieceStore.releaseMem_pieces]
      simp
    · have htake : (max 1 rems).toNat = (max 1 (rems - 1)).toNat + 1 := by omega
      have hopen' : (store.releaseMem (s.layout.config s.initialCapacity) id).isClosed = false := by
        rw [PieceStore.releaseMem_isClosed, hopen]
      obtain ⟨hreleased, hpieces⟩ :=
        ih (fun j hj => hindex j (mem_cons_of_mem id hj)) hopen' (rems - 1)
      simp only [hlast, if_false]
      refine ⟨by rw [hreleased, htake, take_succ_cons], fun i => ?_⟩
      rw [hpieces, PieceStore.releaseMem_pieces]
      -- clearing twice is clearing once
      by_cases hi : i = id <;>
        by_cases hmem : i ∈ (s.removePieces (store.releaseMem (s.layout.config s.initialCapacity) id)
          (rems - 1) ids).2 <;>
        simp [hi, hmem, PieceStore.cleared]

/-! ## The candidates -/

/-- **The test of the pass** on one of the pieces. -/
theorem removable_iff {windows : List (Nat × Range)} (hid : id < s.layout.pieceCount) :
    s.removable (mergeRange S (windows.map (·.2))) store id = true ↔ s.Releasable S windows store id := by
  have hcovered : Covered (mergeRange S (windows.map (·.2))) id ↔ ∃ w ∈ windows, w.2.Has id := by
    rw [covered_mergeRange]
    constructor
    · rintro ⟨r, hr, hhas⟩
      obtain ⟨w, hw, rfl⟩ := mem_map.mp hr
      exact ⟨w, hw, hhas⟩
    · rintro ⟨w, hw, hhas⟩
      exact ⟨w.2, mem_map_of_mem hw, hhas⟩
  have hrange : fillPieceInRange (mergeRange S (windows.map (·.2))) s.layout.pieceCount id = false ↔
      ∀ w ∈ windows, ¬ w.2.Has id := by
    rw [Bool.eq_false_iff, ne_eq, fillPieceInRange_iff hid, hcovered]
    simp
  simp only [removable, pieceEvictable, Releasable, hid, decide_true, Bool.true_and, Bool.and_eq_true,
    decide_eq_true_eq, Bool.not_eq_true', hrange, true_and, gt_iff_lt]
  tauto

/-- The sizes are added up in whatever order. -/
theorem addSizes_eq (v : Visit s) : addSizes s.store v.pieces = s.filled s.store := by
  have hfold : ∀ (ids : List Nat) (fill : Int),
      ids.foldl (fun fill id =>
        if (s.store.pieces id).size > 0 then fill + (s.store.pieces id).size else fill) fill =
      fill + (ids.map fun id => max 0 (s.store.pieces id).size).sum := by
    intro ids
    induction ids with
    | nil => simp
    | cons id ids ih =>
      intro fill
      rw [foldl_cons, ih, map_cons, sum_cons]
      split <;> omega
  have hperm := v.pieces_perm
  rw [addSizes, hfold, (hperm.map _).sum_eq, filled]
  have hrange : Finset.range s.layout.pieceCount = (List.range s.layout.pieceCount).toFinset := by
    ext id
    simp
  rw [hrange, sum_toFinset _ nodup_range, zero_add]

/-- The candidates in the order in which they go. -/
def candidates (S : Lib.Sorter) (s : CleanState) (v : Visit s) : List Nat := (s.getRemPieces S v).2.1

/-- **The candidates are the releasable pieces.** -/
theorem mem_candidates (v : Visit s) :
    id ∈ s.candidates S v ↔ s.Releasable S (s.visitReaders v).2 s.store id := by
  have hmem : id ∈ v.pieces ↔ id < s.layout.pieceCount := by rw [v.pieces_perm.mem_iff, mem_range]
  rw [candidates, getRemPieces, S.mem_sort, mem_filter, hmem]
  constructor
  · rintro ⟨hid, hremovable⟩
    exact (removable_iff hid).mp hremovable
  · intro hreleasable
    exact ⟨hreleasable.1, (removable_iff hreleasable.1).mpr hreleasable⟩

theorem nodup_candidates (v : Visit s) : (s.candidates S v).Nodup := by
  rw [candidates, getRemPieces, (S.perm _ _).nodup_iff]
  exact (v.pieces_perm.nodup_iff.mpr nodup_range).filter _

/-- The ones accessed longest ago come first. -/
theorem sorted_candidates (v : Visit s) :
    (s.candidates S v).Pairwise fun i j => (s.store.pieces i).accessed ≤ (s.store.pieces j).accessed := by
  have hweak := Lib.StrictWeakOn.of_key
    (l := v.pieces.filter (s.removable (mergeRange S ((s.visitReaders v).2.map (·.2))) s.store))
    (fun i => (s.store.pieces i).accessed) fun _ _ _ _ => decide_eq_true_iff
  exact (S.sorted hweak).imp fun hle => not_lt.mp (of_decide_eq_false hle)

/-- How many pieces go. -/
def excess (s : CleanState) : Nat :=
  if s.filled s.store > s.capacity then
    ((s.filled s.store - s.capacity).tdiv s.layout.pieceLength + 1).toNat
  else 0

/-- **A pass in one line**: of the candidates the first go, and are cleared. -/
theorem cleanPieces_eq (v : Visit s) (hopen : s.store.isClosed = false) :
    (s.cleanPieces S v).windows = (s.visitReaders v).2 ∧
      (s.cleanPieces S v).cache = (s.visitReaders v).1 ∧
      (s.cleanPieces S v).released = (s.candidates S v).take s.excess ∧
      ∀ i, (s.cleanPieces S v).store.pieces i =
        if i ∈ (s.cleanPieces S v).released then PieceStore.cleared (s.store.pieces i)
        else s.store.pieces i := by
  have hfilled : (s.getRemPieces S v).2.2 = s.filled s.store := addSizes_eq v
  have hindex : ∀ id ∈ (s.getRemPieces S v).2.1, s.layout.isIndexPiece id = false := by
    intro id hid
    have hends := ((mem_candidates v).mp hid).2.2.2.2
    exact (Bool.or_eq_false_iff.mp hends).1
  by_cases hover : s.filled s.store > s.capacity
  · have hexcess : s.excess =
        (max 1 ((s.filled s.store - s.capacity).tdiv s.layout.pieceLength + 1)).toNat := by
      have hnonneg : 0 ≤ (s.filled s.store - s.capacity).tdiv s.layout.pieceLength :=
        Int.tdiv_nonneg (by omega) (Int.natCast_nonneg _)
      rw [excess, if_pos hover]
      omega
    have hloop := removePieces_spec hindex hopen
      ((s.filled s.store - s.capacity).tdiv s.layout.pieceLength + 1)
    simp only [cleanPieces, hopen, Bool.false_eq_true, if_false, hfilled, if_pos hover]
    exact ⟨rfl, rfl, by rw [hloop.1, hexcess, candidates], hloop.2⟩
  · simp only [cleanPieces, hopen, Bool.false_eq_true, if_false, hfilled, if_neg hover, excess, take_zero,
      not_mem_nil]
    exact ⟨rfl, rfl, trivial, fun _ => trivial⟩

/-- Several pieces of full size, of which one may be the last piece of the torrent. -/
theorem lt_sum_sizes {length : Int} (hlength : 0 < length) (last : Nat) (f : Nat → Int) (hnodup : ids.Nodup)
    (hpos : ∀ id ∈ ids, 0 < f id) (hfull : ∀ id ∈ ids, id ≠ last → f id = length) :
    ids.length * length < (ids.map f).sum + length := by
  have hothers : ∀ ids : List Nat, (∀ id ∈ ids, id ≠ last → f id = length) → last ∉ ids →
      (ids.map f).sum = ids.length * length := by
    intro ids hfull hlast
    have hall : ∀ id ∈ ids, f id = length := fun id hid => hfull id hid fun heq => hlast (heq ▸ hid)
    rw [map_congr_left hall, map_const', sum_replicate, nsmul_eq_mul]
  induction ids with
  | nil => simpa using hlength
  | cons id ids ih =>
    obtain ⟨hnot, hnodup'⟩ := nodup_cons.mp hnodup
    have hfull' : ∀ j ∈ ids, j ≠ last → f j = length := fun j hj => hfull j (mem_cons_of_mem id hj)
    rw [map_cons, sum_cons, length_cons]
    push_cast
    by_cases hlast : id = last
    · -- the others are all of full size
      have hsum := hothers ids hfull' (hlast ▸ hnot)
      have hsize := hpos id mem_cons_self
      rw [hsum]
      linarith
    · have hih := ih hnodup' (fun j hj => hpos j (mem_cons_of_mem id hj)) hfull'
      have hsize := hfull id mem_cons_self hlast
      rw [hsize]
      linarith

/-- Clearing pieces takes their sizes off the total. -/
theorem filled_of_cleared (hnodup : ids.Nodup) (hlt : ∀ id ∈ ids, id < s.layout.pieceCount)
    (hpos : ∀ id ∈ ids, 0 < (s.store.pieces id).size) (hpieces : ∀ i, store.pieces i =
      if i ∈ ids then PieceStore.cleared (s.store.pieces i) else s.store.pieces i) :
    s.filled store + (ids.map fun id => (s.store.pieces id).size).sum = s.filled s.store := by
  have hsum : (ids.map fun id => (s.store.pieces id).size).sum =
      ∑ id ∈ Finset.range s.layout.pieceCount, if id ∈ ids then (s.store.pieces id).size else 0 := by
    rw [← sum_toFinset _ hnodup, ← Finset.sum_filter]
    congr 1
    ext id
    simp only [mem_toFinset, Finset.mem_filter, Finset.mem_range]
    exact ⟨fun hid => ⟨hlt id hid, hid⟩, fun hid => hid.2⟩
  rw [hsum, filled, filled, ← Finset.sum_add_distrib]
  refine Finset.sum_congr rfl fun id _ => ?_
  rw [hpieces]
  by_cases hid : id ∈ ids
  · have hsize := hpos id hid
    simp only [if_pos hid, PieceStore.cleared]
    omega
  · simp only [if_neg hid, add_zero]

/-! ## The readers -/

theorem checkReader_inUse_of_ne (c : Cache) (now : Int) (hne : r ≠ id) :
    (c.checkReader id now).inUse r = c.inUse r := by
  have hset : ∀ x : Reader, (c.objs.set id x)[r]? = c.objs[r]? :=
    fun x => getElem?_set_ne (Ne.symm hne)
  simp only [Cache.checkReader, Cache.inUse]
  split
  · unfold Cache.readerOff
    split
    · simp only [hset]
    · rfl
  · unfold Cache.readerOn
    split
    · simp only [hset]
    · rfl

/-- **Every reader in use has its window taken.** -/
theorem exists_window (now : Nat → Int) (order : List Nat) (hr : r ∈ order)
    (huse : (order.foldl (s.visitReader now) (s.cache, [])).1.inUse r = true) :
    ∃ w, (r, w) ∈ (order.foldl (s.visitReader now) (s.cache, [])).2 := by
  induction order using List.reverseRecOn with
  | nil => cases hr
  | append_singleton order id ih =>
    rw [foldl_append, foldl_cons, foldl_nil] at huse ⊢
    generalize order.foldl (s.visitReader now) (s.cache, []) = acc at ih huse ⊢
    simp only [visitReader] at huse ⊢
    by_cases heq : r = id
    · subst heq
      rw [if_pos huse]
      exact ⟨_, mem_append_right _ mem_cons_self⟩
    · rw [checkReader_inUse_of_ne acc.1 (now id) heq] at huse
      have hr : r ∈ order := by
        rcases mem_append.mp hr with hr | hr
        · exact hr
        · exact absurd (mem_singleton.mp hr) heq
      obtain ⟨w, hw⟩ := ih hr huse
      refine ⟨w, ?_⟩
      split
      · exact mem_append_left _ hw
      · exact hw

/-- The pass switches no reader: those in use are not due to go idle, and the others are. -/
def Steady (s : CleanState) (v : Visit s) : Prop :=
  ∀ id ∈ v.readers,
    s.cache.goesIdle ((s.cache.objs[id]?.map (·.lastAccess)).getD 0) (v.now id) = !s.cache.inUse id

/-- Then checking a reader changes nothing. -/
theorem checkReader_of_steady {v : Visit s} (hsteady : s.Steady v) (hid : id ∈ v.readers) :
    s.cache.checkReader id (v.now id) = s.cache := by
  rw [Cache.checkReader, hsteady id hid]
  cases hr : s.cache.objs[id]? with
  | none => cases s.cache.inUse id <;> simp [Cache.readerOff, Cache.readerOn, hr]
  | some r =>
    have huse : s.cache.inUse id = r.isUse := by simp [Cache.inUse, hr]
    have hset : s.cache.objs.set id r = s.cache.objs := by
      obtain ⟨hlt, rfl⟩ := List.getElem?_eq_some_iff.mp hr
      exact set_getElem_self hlt
    cases hcase : r.isUse with
    | true => simp [huse, hcase, Cache.readerOn, hr, Reader.readerOn, hset]
    | false => simp [huse, hcase, Cache.readerOff, hr, Reader.readerOff, hset]

/-- **The windows of readers that are not switched** are those they have. -/
theorem windows_of_steady (v : Visit s) (hsteady : s.Steady v) :
    s.visitReaders v =
      (s.cache, (v.readers.filter s.cache.inUse).map fun id => (id, s.getPiecesRange s.cache id)) := by
  have hfold : ∀ (order : List Nat) (windows : List (Nat × Range)),
      (∀ id ∈ order, s.cache.checkReader id (v.now id) = s.cache) →
      order.foldl (s.visitReader v.now) (s.cache, windows) =
        (s.cache, windows ++
          (order.filter s.cache.inUse).map fun id => (id, s.getPiecesRange s.cache id)) := by
    intro order
    induction order with
    | nil => simp
    | cons id order ih =>
      intro windows hsame
      have hid := hsame id mem_cons_self
      rw [foldl_cons, visitReader, hid]
      rw [ih _ fun j hj => hsame j (mem_cons_of_mem id hj)]
      cases huse : s.cache.inUse id <;> simp [huse]
  rw [visitReaders, hfold v.readers [] fun _ hid => checkReader_of_steady hsteady hid, nil_append]

/-! ## The pass is sound -/

/-- What a pass guarantees. -/
structure CleanSound (S : Lib.Sorter) (s : CleanState) (v : Visit s) (out : Outcome) : Prop where
  /-- Every reader in use has its window taken; without a switch it is the window the reader has. -/
  windows : ∀ r ∈ s.cache.readers, out.cache.inUse r = true →
    ∃ w, (r, w) ∈ out.windows ∧ (s.Steady v → w = s.getPiecesRange s.cache r)
  /-- What is released is complete with data, outside the windows and away from the ends of files. -/
  released : ∀ id ∈ out.released, id < s.layout.pieceCount ∧ (s.store.pieces id).complete = true ∧
    0 < (s.store.pieces id).size ∧ (∀ w ∈ out.windows, ¬ w.2.Has id) ∧ s.layout.AwayFromEnds id
  /-- Released pieces are cleared, the others are left. -/
  pieces : ∀ i, out.store.pieces i =
    if i ∈ out.released then PieceStore.cleared (s.store.pieces i) else s.store.pieces i
  idle : s.filled s.store ≤ s.capacity → out.released = []
  /-- What could be released and is kept was accessed no earlier than what is released. -/
  oldest : ∀ id, s.Releasable S out.windows s.store id → id ∉ out.released →
    ∀ id' ∈ out.released, (s.store.pieces id').accessed ≤ (s.store.pieces id).accessed
  /-- Nothing is left to release, or the total is below the capacity and a piece. -/
  bound : (∀ id, ¬ s.Releasable S out.windows out.store id) ∨
    ((∀ id, id + 1 < s.layout.pieceCount → (s.store.pieces id).complete = true →
        (s.store.pieces id).size = s.layout.pieceLength) →
      s.filled out.store < s.capacity + s.layout.pieceLength)

/-- The excess covers what is above the capacity. -/
theorem filled_lt (hover : s.filled s.store > s.capacity) :
    s.filled s.store < s.capacity + s.excess * s.layout.pieceLength := by
  have hpos : (0 : Int) < s.layout.pieceLength := Int.natCast_pos.mpr s.layout.pieceLength_pos
  have hnonneg : 0 ≤ s.filled s.store - s.capacity := by omega
  have hdiv := Int.lt_ediv_add_one_mul_self (s.filled s.store - s.capacity) hpos
  have hexcess : (s.excess : Int) =
      (s.filled s.store - s.capacity) / s.layout.pieceLength + 1 := by
    have hquot : 0 ≤ (s.filled s.store - s.capacity) / (s.layout.pieceLength : Int) :=
      Int.ediv_nonneg hnonneg hpos.le
    rw [excess, if_pos hover, Int.tdiv_eq_ediv_of_nonneg hnonneg]
    omega
  rw [hexcess]
  linarith

/-- A kept piece that could still be released is a candidate that did not go. -/
theorem releasable_after (v : Visit s) (hopen : s.store.isClosed = false)
    (h : s.Releasable S (s.visitReaders v).2 (s.cleanPieces S v).store id) :
    id ∈ s.candidates S v ∧ id ∉ (s.cleanPieces S v).released := by
  obtain ⟨-, -, -, hpieces⟩ := cleanPieces_eq (S := S) v hopen
  obtain ⟨hlt, hcomplete, hsize, hwindows, hends⟩ := h
  have hkept : id ∉ (s.cleanPieces S v).released := by
    intro hmem
    rw [hpieces, if_pos hmem] at hcomplete
    cases hcomplete
  rw [hpieces, if_neg hkept] at hcomplete hsize
  exact ⟨(mem_candidates v).mpr ⟨hlt, hcomplete, hsize, hwindows, hends⟩, hkept⟩

/-- What goes has been accessed no later than what stays. -/
theorem accessed_le (v : Visit s) {id' : Nat} (hid : id ∈ s.candidates S v)
    (hkept : id ∉ (s.candidates S v).take s.excess) (hid' : id' ∈ (s.candidates S v).take s.excess) :
    (s.store.pieces id').accessed ≤ (s.store.pieces id).accessed := by
  have hsorted := sorted_candidates (S := S) v
  rw [← take_append_drop s.excess (s.candidates S v)] at hid hsorted
  have hstay : id ∈ (s.candidates S v).drop s.excess := (mem_append.mp hid).resolve_left hkept
  exact (pairwise_append.mp hsorted).2.2 id' hid' id hstay

/-- **The memory bound**, when there are enough candidates. -/
theorem filled_after_lt (v : Visit s) (hopen : s.store.isClosed = false)
    (henough : s.excess < (s.candidates S v).length)
    (hfull : ∀ id, id + 1 < s.layout.pieceCount → (s.store.pieces id).complete = true →
      (s.store.pieces id).size = s.layout.pieceLength) :
    s.filled (s.cleanPieces S v).store < s.capacity + s.layout.pieceLength := by
  obtain ⟨-, -, hreleased, hpieces⟩ := cleanPieces_eq (S := S) v hopen
  have hcandidate : ∀ id ∈ (s.cleanPieces S v).released,
      s.Releasable S (s.visitReaders v).2 s.store id := by
    intro id hid
    rw [hreleased] at hid
    exact (mem_candidates v).mp (mem_of_mem_take hid)
  have hlength : (s.cleanPieces S v).released.length = s.excess := by
    rw [hreleased, length_take]
    omega
  have hnodup : (s.cleanPieces S v).released.Nodup := by
    rw [hreleased]
    exact (nodup_candidates v).take
  have hpos : (0 : Int) < s.layout.pieceLength := Int.natCast_pos.mpr s.layout.pieceLength_pos
  have hfilled := filled_of_cleared hnodup (fun id hid => (hcandidate id hid).1)
    (fun id hid => (hcandidate id hid).2.2.1) hpieces
  by_cases hover : s.filled s.store > s.capacity
  · have hsizes := lt_sum_sizes hpos (s.layout.pieceCount - 1) (fun id => (s.store.pieces id).size) hnodup
      (fun id hid => (hcandidate id hid).2.2.1)
      (fun id hid hne => hfull id (by have hlt := (hcandidate id hid).1; omega) (hcandidate id hid).2.1)
    rw [hlength] at hsizes
    have hlt := filled_lt hover
    omega
  · -- nothing goes
    have hnil : (s.cleanPieces S v).released = [] := by rw [hreleased, excess, if_neg hover, take_zero]
    rw [hnil, map_nil, sum_nil] at hfilled
    omega

/-- **One pass is sound**, whatever the order in which it visits readers and pieces. -/
theorem cleanPieces_sound (S : Lib.Sorter) (s : CleanState) (v : Visit s)
    (hopen : s.store.isClosed = false) : s.CleanSound S v (s.cleanPieces S v) := by
  obtain ⟨hwindows, hcache, hreleased, hpieces⟩ := cleanPieces_eq (S := S) v hopen
  refine ⟨?_, ?_, hpieces, ?_, ?_, ?_⟩
  · intro r hr huse
    rw [hcache] at huse
    obtain ⟨w, hw⟩ := exists_window v.now v.readers (v.readers_perm.mem_iff.mpr hr) huse
    rw [hwindows]
    refine ⟨w, hw, fun hsteady => ?_⟩
    have hmem : (r, w) ∈ (s.visitReaders v).2 := hw
    rw [windows_of_steady v hsteady] at hmem
    obtain ⟨r', -, heq⟩ := mem_map.mp hmem
    cases heq
    rfl
  · intro id hid
    rw [hreleased] at hid
    obtain ⟨hlt, hcomplete, hsize, hout, hends⟩ := (mem_candidates v).mp (mem_of_mem_take hid)
    rw [hwindows]
    exact ⟨hlt, hcomplete, hsize, hout,
      Layout.awayFromEnds_of_not_isIndexPiece hlt (Bool.or_eq_false_iff.mp hends).1⟩
  · intro hle
    rw [hreleased, excess, if_neg (by omega), take_zero]
  · intro id hreleasable hkept id' hid'
    rw [hwindows] at hreleasable
    rw [hreleased] at hkept hid'
    exact accessed_le v ((mem_candidates v).mpr hreleasable) hkept hid'
  · rw [hwindows]
    by_cases hall : (s.candidates S v).length ≤ s.excess
    · left
      intro id hreleasable
      obtain ⟨hmem, hkept⟩ := releasable_after v hopen hreleasable
      rw [hreleased, take_of_length_le hall] at hkept
      exact hkept hmem
    · exact .inr (filled_after_lt v hopen (Nat.lt_of_not_le hall))

/-! ## A pass -/

/-- Five pieces of 8 MiB with one reader at the start; the first three are complete, the third accessed last;
the capacity is one piece. -/
def threeOfFive : CleanState where
  layout := { pieceLength := 2 ^ 23, pieceCount := 5, lengths := [5 * 2 ^ 23], pieceLength_pos := by decide }
  initialCapacity := 2 ^ 23
  capacity := 2 ^ 23
  capacity_nonneg := Int.pow_nonneg (Int.natCast_nonneg 2)
  share part pct := (part * 85 * pct).tdiv 10000
  readerReadAHead := 95
  file _ := ⟨0, 5 * 2 ^ 23⟩
  cache := { Cache.init with
    objs := [Reader.new (5 * 2 ^ 23)], handed := [0], readers := [0], activeReaders := 1 }
  store :=
    { heap := fun _ => List.replicate (2 ^ 23) 0, fresh := 3
      pieces := fun id =>
        if id < 3 then { buffer := some id, size := 2 ^ 23, complete := true, accessed := id }
        else { buffer := none, size := 0, complete := false, accessed := 0 }
      free := [], isClosed := false }

/-- The maps in order. -/
def threeOfFive.visit : Visit threeOfFive where
  readers := [0]
  pieces := [0, 1, 2, 3, 4]
  now _ := 0
  readers_perm := .refl _
  pieces_perm := .refl _

/-- The pass releases the third piece. -/
theorem threeOfFive_released : (threeOfFive.cleanPieces .insertion threeOfFive.visit).released = [2] := by
  rw [(cleanPieces_eq threeOfFive.visit rfl).2.2.1]
  decide +kernel

theorem threeOfFive_sound :
    threeOfFive.store.isClosed = false ∧
      threeOfFive.CleanSound .insertion threeOfFive.visit
        (threeOfFive.cleanPieces .insertion threeOfFive.visit) :=
  ⟨rfl, cleanPieces_sound .insertion threeOfFive threeOfFive.visit rfl⟩

/-- **The piece after the head stays**: it is complete with data, outside the window and away from the ends of
the file, but flagged, so that the third, accessed later, goes in its place. -/
theorem piece_after_head_stays :
    (∀ w ∈ (threeOfFive.cleanPieces .insertion threeOfFive.visit).windows, ¬ w.2.Has 1) ∧
      threeOfFive.layout.AwayFromEnds 1 ∧
      threeOfFive.store.pieces 1 = ⟨some 1, 2 ^ 23, true, 1⟩ ∧
      (threeOfFive.cleanPieces .insertion threeOfFive.visit).store.pieces 1 =
        threeOfFive.store.pieces 1 ∧
      2 ∈ (threeOfFive.cleanPieces .insertion threeOfFive.visit).released ∧
      (threeOfFive.store.pieces 1).accessed < (threeOfFive.store.pieces 2).accessed ∧
      (∀ id, (threeOfFive.store.pieces id).complete = true →
        (threeOfFive.store.pieces id).size = threeOfFive.layout.pieceLength) ∧
      threeOfFive.capacity + threeOfFive.layout.pieceLength ≤
        threeOfFive.filled (threeOfFive.cleanPieces .insertion threeOfFive.visit).store := by
  obtain ⟨hwindows, -, -, hpieces⟩ := cleanPieces_eq (S := .insertion) threeOfFive.visit rfl
  have hreleased := threeOfFive_released
  refine ⟨?_, ?_, rfl, ?_, by rw [hreleased]; decide, by decide, ?_, ?_⟩
  · rw [hwindows]
    decide +kernel
  · intro f hf _
    have hfile : f = ⟨0, 5 * 2 ^ 23⟩ := mem_singleton.mp hf
    subst hfile
    exact ⟨.inr (by decide), .inl (by decide)⟩
  · rw [hpieces, hreleased]
    rfl
  · intro id hcomplete
    have hpiece : threeOfFive.store.pieces id =
        if id < 3 then ⟨some id, 2 ^ 23, true, id⟩ else ⟨none, 0, false, 0⟩ := rfl
    by_cases hid : id < 3
    · rw [hpiece, if_pos hid]
      rfl
    · rw [hpiece, if_neg hid] at hcomplete
      cases hcomplete
  · simp only [filled, hpieces, hreleased]
    decide +kernel

end CleanState

end TorrServer.Torrstor
