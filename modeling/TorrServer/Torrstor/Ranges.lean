/-
# Torrstor.Ranges — the piece windows of the readers.

Each reader in use protects a range of pieces. `mergeRange` joins the ranges that overlap and `fillPieceInRange`
marks what they cover. Merging keeps the union: `covered_mergeRange` holds for all ranges, also for one whose
end lies before its start.
-/
import TorrServer.Lib.Sort

namespace TorrServer.Torrstor

open List

variable {pieceCount : Nat}

/-- A file of the torrent: where it starts, and its length. -/
structure File where
  offset : Nat
  length : Nat
  deriving DecidableEq, Repr

/-- `Range`: piece indices, the end included, and the file of the reader. -/
structure Range where
  start : Int
  stop : Int
  file : File
  deriving DecidableEq, Repr

/-- The range has piece `i`. -/
def Range.Has (r : Range) (i : Int) : Prop := r.start ≤ i ∧ i ≤ r.stop

instance (r : Range) (i : Int) : Decidable (r.Has i) := inferInstanceAs (Decidable (_ ∧ _))

/-- One of the ranges has piece `i`. -/
def Covered (ranges : List Range) (i : Int) : Prop := ∃ r ∈ ranges, r.Has i

instance (ranges : List Range) (i : Int) : Decidable (Covered ranges i) :=
  inferInstanceAs (Decidable (∃ r ∈ ranges, r.Has i))

/-- The comparison `mergeRange` sorts with. -/
def lessRange (a b : Range) : Bool :=
  if a.start < b.start then true
  else if a.start = b.start ∧ a.stop < b.stop then true
  else false

/-- One round of the loop over the sorted ranges; `merged[j]` is the head. -/
def mergeStep (merged : List Range) (r : Range) : List Range :=
  match merged with
  | [] => [r]
  | m :: rest =>
    if r.start ≤ m.stop then
      (if m.stop < r.stop then { m with stop := r.stop } else m) :: rest
    else r :: m :: rest

/-- Sorts the ranges and joins those that meet. -/
def mergeRange (S : Lib.Sorter) (ranges : List Range) : List Range :=
  if ranges.length ≤ 1 then ranges else ((S.sort lessRange ranges).foldl mergeStep []).reverse

/-- `fillPieceInRange`, for the piece `i`. -/
def fillPieceInRange (ranges : List Range) (pieceCount i : Nat) : Bool :=
  ranges.any fun rng =>
    let start := if rng.start < 0 then 0 else rng.start
    let stop : Int := if rng.stop ≥ pieceCount then pieceCount - 1 else rng.stop
    decide (start ≤ i ∧ i ≤ stop)

/-- The inner loop of `fillPieceInRange`: `n` pieces from `i` on; `none` is an index out of range. -/
def markLoop (dst : List Bool) (i : Nat) : Nat → Option (List Bool)
  | 0 => some dst
  | n + 1 => if i < dst.length then markLoop (dst.set i true) (i + 1) n else none

/-- The round of `fillPieceInRange` for one range. -/
def markRange (pieceCount : Nat) (dst : List Bool) (rng : Range) : Option (List Bool) :=
  let start := if rng.start < 0 then 0 else rng.start
  let stop : Int := if rng.stop ≥ pieceCount then pieceCount - 1 else rng.stop
  markLoop dst start.toNat (stop + 1 - start).toNat

/-- `fillPieceInRange`, with the slice that it resets and marks. -/
def fillPieceInRangeDst (dst : List Bool) (ranges : List Range) (pieceCount : Nat) : Option (List Bool) :=
  ranges.foldlM (markRange pieceCount) (dst.map fun _ => false)

/-- Binary search for a range that has the piece. -/
def inRanges (ranges : List Range) (ind : Int) : Bool :=
  let i := Lib.search ranges.length fun i => ranges[i]?.any fun r => decide (r.stop ≥ ind)
  ranges[i]?.any fun r => decide (r.start ≤ ind)

/-- A complete piece outside every reader's window may go. -/
def pieceEvictable (size : Int) (complete inReaderWindow : Bool) : Bool :=
  decide (size > 0) && complete && !inReaderWindow

/-! ## Merging keeps the union -/

theorem strictWeakOn_lessRange (ranges : List Range) : Lib.StrictWeakOn lessRange ranges where
  irrefl a _ := by grind [lessRange]
  trans a _ b _ c _ := by grind [lessRange]
  incomparable_trans a _ b _ c _ := by grind [lessRange]

@[simp] theorem covered_nil (i : Int) : ¬ Covered [] i := by simp [Covered]

theorem covered_cons (r : Range) (ranges : List Range) (i : Int) :
    Covered (r :: ranges) i ↔ r.Has i ∨ Covered ranges i := by
  simp [Covered]

variable {merged ranges : List Range}

theorem covered_mergeStep {r : Range} (hstart : ∀ m ∈ merged.head?, m.start ≤ r.start) (i : Int) :
    Covered (mergeStep merged r) i ↔ Covered merged i ∨ r.Has i := by
  cases merged with
  | nil => simp [mergeStep, covered_cons]
  | cons m rest =>
    have hle : m.start ≤ r.start := hstart m rfl
    simp only [mergeStep]
    split
    · -- the two overlap, and their union is an interval
      rename_i hoverlap
      have hjoin : (if m.stop < r.stop then { m with stop := r.stop } else m).Has i ↔
          m.Has i ∨ r.Has i := by
        split
        · simp only [Range.Has]
          omega
        · simp only [Range.Has]
          omega
      rw [covered_cons, covered_cons, hjoin]
      tauto
    · rw [covered_cons, or_comm]

/-- After a round the last range starts no later than the one it took in. -/
theorem head_mergeStep {r : Range} (hstart : ∀ m ∈ merged.head?, m.start ≤ r.start) :
    ∀ m ∈ (mergeStep merged r).head?, m.start ≤ r.start := by
  cases merged with
  | nil => simp [mergeStep]
  | cons m rest =>
    have hle : m.start ≤ r.start := hstart m rfl
    simp only [mergeStep]
    split
    · split <;> simpa using hle
    · simp

theorem covered_foldl_mergeStep (hsorted : ranges.Pairwise fun a b => a.start ≤ b.start)
    (hstart : ∀ m ∈ merged.head?, ∀ r ∈ ranges, m.start ≤ r.start) (i : Int) :
    Covered (ranges.foldl mergeStep merged) i ↔ Covered merged i ∨ Covered ranges i := by
  induction ranges generalizing merged with
  | nil => simp
  | cons r ranges ih =>
    obtain ⟨hfirst, hrest⟩ := pairwise_cons.mp hsorted
    have hr : ∀ m ∈ merged.head?, m.start ≤ r.start := fun m hm => hstart m hm r mem_cons_self
    have hnext : ∀ m ∈ (mergeStep merged r).head?, ∀ r' ∈ ranges, m.start ≤ r'.start :=
      fun m hm r' hr' => (head_mergeStep hr m hm).trans (hfirst r' hr')
    rw [foldl_cons, ih hrest hnext, covered_mergeStep hr, covered_cons, or_assoc]

theorem sorted_lessRange (S : Lib.Sorter) (ranges : List Range) :
    (S.sort lessRange ranges).Pairwise fun a b => a.start ≤ b.start := by
  refine (S.sorted (strictWeakOn_lessRange ranges)).imp fun {a b} hless => ?_
  simp only [lessRange] at hless
  split at hless
  · cases hless
  · rename_i hlt
    exact Int.not_lt.mp hlt

/-- **`mergeRange` covers what the ranges cover.** -/
theorem covered_mergeRange (S : Lib.Sorter) (ranges : List Range) (i : Int) :
    Covered (mergeRange S ranges) i ↔ Covered ranges i := by
  rw [mergeRange]
  split
  · rfl
  · have hreverse : ∀ l : List Range, Covered l.reverse i ↔ Covered l i := by
      intro l
      simp [Covered]
    have hperm : Covered (S.sort lessRange ranges) i ↔ Covered ranges i := by simp only [Covered, S.mem_sort]
    rw [hreverse, covered_foldl_mergeStep (sorted_lessRange S ranges) (by simp), hperm]
    simp

/-- **`fillPieceInRange` marks what the ranges cover.** -/
theorem fillPieceInRange_iff {i : Nat} (hi : i < pieceCount) :
    fillPieceInRange ranges pieceCount i = true ↔ Covered ranges i := by
  simp only [fillPieceInRange, any_eq_true, decide_eq_true_eq, Covered, Range.Has]
  refine exists_congr fun r => and_congr_right fun _ => ?_
  split <;> split <;> omega

/-! ## Merged ranges lie apart -/

/-- Each range ends before the next one starts, and none is empty. -/
structure Apart (ranges : List Range) : Prop where
  gaps : ranges.Pairwise fun a b => a.stop < b.start
  nonempty : ∀ r ∈ ranges, r.start ≤ r.stop

/-- One round keeps the ranges apart; they are collected from the last to the first. -/
theorem apart_mergeStep {r : Range} (hapart : Apart merged.reverse) (hr : r.start ≤ r.stop)
    (hstart : ∀ m ∈ merged.head?, m.start ≤ r.start) : Apart (mergeStep merged r).reverse := by
  cases merged with
  | nil => exact ⟨pairwise_singleton _ r, by simpa [mergeStep] using hr⟩
  | cons m rest =>
    have hm : m.start ≤ r.start := hstart m rfl
    obtain ⟨hgaps, hnonempty⟩ := hapart
    simp only [pairwise_reverse, pairwise_cons, mem_reverse, forall_mem_cons] at hgaps hnonempty
    obtain ⟨⟨hlast, hrest⟩, hmle, hle⟩ := And.intro hgaps hnonempty
    simp only [mergeStep]
    split
    · -- the last range grows at its end only
      rename_i hoverlap
      constructor
      · rw [pairwise_reverse, pairwise_cons]
        refine ⟨fun a ha => ?_, hrest⟩
        split
        · exact hlast a ha
        · exact hlast a ha
      · rw [reverse_cons, forall_mem_append]
        refine ⟨fun a ha => hle a (mem_reverse.1 ha), forall_mem_singleton.2 ?_⟩
        split
        · exact hm.trans hr
        · exact hmle
    · rename_i hgap
      have hmr : m.stop < r.start := Int.not_le.1 hgap
      constructor
      · rw [pairwise_reverse, pairwise_cons, pairwise_cons]
        refine ⟨forall_mem_cons.2 ⟨hmr, fun a ha => ?_⟩, hlast, hrest⟩
        calc a.stop < m.start := hlast a ha
          _ ≤ m.stop := hmle
          _ < r.start := hmr
      · intro a ha
        rcases mem_cons.1 (mem_reverse.1 ha) with rfl | ha
        · exact hr
        · rcases mem_cons.1 ha with rfl | ha
          · exact hmle
          · exact hle a ha

theorem apart_foldl_mergeStep (hsorted : ranges.Pairwise fun a b => a.start ≤ b.start)
    (hranges : ∀ r ∈ ranges, r.start ≤ r.stop) (hapart : Apart merged.reverse)
    (hstart : ∀ m ∈ merged.head?, ∀ r ∈ ranges, m.start ≤ r.start) :
    Apart (ranges.foldl mergeStep merged).reverse := by
  induction ranges generalizing merged with
  | nil => exact hapart
  | cons r ranges ih =>
    obtain ⟨hfirst, hrest⟩ := pairwise_cons.mp hsorted
    have hr : ∀ m ∈ merged.head?, m.start ≤ r.start := fun m hm => hstart m hm r mem_cons_self
    rw [foldl_cons]
    apply ih hrest (fun r' hr' => hranges r' (mem_cons_of_mem r hr'))
    · exact apart_mergeStep hapart (hranges r mem_cons_self) hr
    · exact fun m hm r' hr' => (head_mergeStep hr m hm).trans (hfirst r' hr')

theorem apart_mergeRange (S : Lib.Sorter) (h : ∀ r ∈ ranges, r.start ≤ r.stop) :
    Apart (mergeRange S ranges) := by
  unfold mergeRange
  split
  · rename_i hlength
    refine ⟨?_, h⟩
    match ranges, hlength with
    | [], _ => exact List.Pairwise.nil
    | [r], _ => exact pairwise_singleton _ r
  · exact apart_foldl_mergeStep (sorted_lessRange S ranges) (fun r hr => h r (S.mem_sort.1 hr))
      ⟨List.Pairwise.nil, fun r hr => nomatch hr⟩ fun m hm => nomatch hm

/-- In ranges that lie apart the binary search finds the one range that can have the piece. -/
theorem inRanges_iff (h : Apart ranges) (ind : Int) : inRanges ranges ind = true ↔ Covered ranges ind := by
  have hgap : ∀ {a b : Nat} {ra rb : Range}, a < b → ranges[a]? = some ra → ranges[b]? = some rb →
      ra.stop < rb.start := by
    intro a b ra rb hab ha hb
    obtain ⟨hlta, rfl⟩ := List.getElem?_eq_some_iff.1 ha
    obtain ⟨hltb, rfl⟩ := List.getElem?_eq_some_iff.1 hb
    exact pairwise_iff_getElem.1 h.gaps a b hlta hltb hab
  have hends : ∀ a b, a ≤ b → b < ranges.length → (ranges[a]?.any fun r => decide (r.stop ≥ ind)) = true →
      (ranges[b]?.any fun r => decide (r.stop ≥ ind)) = true := by
    intro a b hab hb ha
    rcases Nat.eq_or_lt_of_le hab with rfl | hlt
    · exact ha
    · obtain ⟨ra, hra, hend⟩ := (Option.any_eq_true _ _).1 ha
      have hrb := getElem?_eq_getElem hb
      have hnext := hgap hlt hra hrb
      have hle := h.nonempty _ (getElem_mem hb)
      rw [hrb, Option.any_some, decide_eq_true_eq]
      have hend : ind ≤ ra.stop := of_decide_eq_true hend
      show ind ≤ ranges[b].stop
      omega
  obtain ⟨hbefore, hfrom⟩ := Lib.search_spec hends
  unfold inRanges
  constructor
  · intro hin
    obtain ⟨r, hr, hstart⟩ := (Option.any_eq_true _ _).1 hin
    have hlt := (List.getElem?_eq_some_iff.1 hr).1
    have hend := hfrom _ le_rfl hlt
    rw [hr, Option.any_some] at hend
    exact ⟨r, mem_of_getElem? hr, of_decide_eq_true hstart, of_decide_eq_true hend⟩
  · rintro ⟨r, hmem, hstart, hend⟩
    obtain ⟨k, hk⟩ := mem_iff_getElem?.1 hmem
    have hprop : (ranges[k]?.any fun r => decide (r.stop ≥ ind)) = true := by
      rw [hk]
      exact decide_eq_true hend
    -- the search stops no later than at `r`, and a range before `r` ends too early
    rcases Nat.lt_trichotomy k (Lib.search ranges.length fun i => ranges[i]?.any fun r => decide (r.stop ≥ ind))
      with hlt | heq | hgt
    · exact absurd hprop (Bool.eq_false_iff.1 (hbefore k hlt))
    · rw [← heq]
      show (ranges[k]?.any fun r => decide (r.start ≤ ind)) = true
      rw [hk]
      exact decide_eq_true hstart
    · have hlen := hgt.trans (List.getElem?_eq_some_iff.1 hk).1
      have hat := getElem?_eq_getElem hlen
      have hearly := hfrom _ le_rfl hlen
      rw [hat, Option.any_some] at hearly
      have hearly := of_decide_eq_true hearly
      have hnext := hgap hgt hat hk
      omega

/-! ## The marks of `fillPieceInRange` -/

/-- The marks after the inner loop, where all of its indices are in range. -/
theorem markLoop_spec {dst : List Bool} {i n : Nat} (h : n = 0 ∨ i + n ≤ dst.length) :
    ∃ out, markLoop dst i n = some out ∧ out.length = dst.length ∧
      ∀ k < dst.length, out[k]? = some true ↔ dst[k]? = some true ∨ (i ≤ k ∧ k < i + n) := by
  induction n generalizing dst i with
  | zero => exact ⟨dst, rfl, rfl, fun k _ => ⟨.inl, Or.rec id fun hk => by omega⟩⟩
  | succ n ih =>
    have hi : i < dst.length := by omega
    have hrest : n = 0 ∨ i + 1 + n ≤ (dst.set i true).length := by
      rw [length_set]
      omega
    obtain ⟨out, hout, hlength, hmarks⟩ := ih hrest
    rw [length_set] at hlength hmarks
    refine ⟨out, ?_, hlength, fun k hk => ?_⟩
    · rw [markLoop, if_pos hi, hout]
    · rw [hmarks k hk, getElem?_set]
      by_cases heq : i = k
      · rw [if_pos heq, if_pos hi]
        simp only [true_or, true_iff]
        omega
      · rw [if_neg heq]
        refine or_congr_right ?_
        omega

/-- No index is out of range, and a piece is marked as `fillPieceInRange` says. -/
theorem foldlM_markRange_spec (ranges : List Range) {dst : List Bool} (h : dst.length = pieceCount) :
    ∃ out, ranges.foldlM (markRange pieceCount) dst = some out ∧ out.length = pieceCount ∧
      ∀ k < pieceCount, out[k]? = some true ↔ dst[k]? = some true ∨
        fillPieceInRange ranges pieceCount k = true := by
  induction ranges generalizing dst with
  | nil => exact ⟨dst, rfl, h, fun k _ => by simp [fillPieceInRange]⟩
  | cons rng ranges ih =>
    have hround : ∃ out, markRange pieceCount dst rng = some out ∧ out.length = pieceCount ∧
        ∀ k < pieceCount, out[k]? = some true ↔
          dst[k]? = some true ∨ fillPieceInRange [rng] pieceCount k = true := by
      unfold markRange fillPieceInRange
      extract_lets start stop
      have hstart : 0 ≤ start := by
        unfold start
        split <;> omega
      have hstop : stop < pieceCount := by
        unfold stop
        split <;> omega
      have hloop := @markLoop_spec dst start.toNat (stop + 1 - start).toNat (by omega)
      obtain ⟨out, hout, hlength, hmarks⟩ := hloop
      refine ⟨out, hout, hlength.trans h, fun k hk => ?_⟩
      rw [hmarks k (h ▸ hk)]
      refine or_congr_right ?_
      show _ ↔ (decide (start ≤ k ∧ k ≤ stop) || false) = true
      rw [Bool.or_false, decide_eq_true_eq]
      omega
    obtain ⟨next, hnext, hlength, hmarks⟩ := hround
    obtain ⟨out, hout, hlen, hall⟩ := ih hlength
    refine ⟨out, ?_, hlen, fun k hk => ?_⟩
    · rw [foldlM_cons, hnext]
      exact hout
    · rw [hall k hk, hmarks k hk, or_assoc]
      refine or_congr_right ?_
      simp [fillPieceInRange]

theorem fillPieceInRangeDst_spec {dst : List Bool} (h : dst.length = pieceCount) :
    ∃ out, fillPieceInRangeDst dst ranges pieceCount = some out ∧
      ∀ i < pieceCount, out[i]? = some true ↔ Covered ranges i := by
  have hreset : (dst.map fun _ => false).length = pieceCount := by rw [length_map, h]
  obtain ⟨out, hout, -, hmarks⟩ := foldlM_markRange_spec ranges hreset
  refine ⟨out, hout, fun i hi => ?_⟩
  have hnone : (dst.map fun _ => false)[i]? ≠ some true := by
    rw [getElem?_map]
    cases dst[i]? with
    | none => exact fun heq => nomatch heq
    | some mark => exact fun heq => nomatch heq
  rw [hmarks i hi, fillPieceInRange_iff hi, or_iff_right hnone]

/-- **A piece is in the merged ranges if and only if one of the ranges has it**, by search and by marks; what is
merged is sorted and disjoint. -/
theorem mergeRange_lookup (S : Lib.Sorter) {ranges : List Range} (h : ∀ r ∈ ranges, r.start ≤ r.stop) :
    (∀ i : Int, inRanges (mergeRange S ranges) i = true ↔ ∃ r ∈ ranges, r.start ≤ i ∧ i ≤ r.stop) ∧
      (∀ (pieceCount : Nat) (dst : List Bool), dst.length = pieceCount →
        ∃ out, fillPieceInRangeDst dst (mergeRange S ranges) pieceCount = some out ∧
          ∀ i < pieceCount, out[i]? = some true ↔ ∃ r ∈ ranges, r.start ≤ i ∧ i ≤ r.stop) ∧
      (mergeRange S ranges).Pairwise (fun a b => a.start < b.start ∧ a.stop < b.stop) ∧
      (mergeRange S ranges).Pairwise fun a b => ∀ i : Int, ¬ (a.Has i ∧ b.Has i) := by
  have hapart := apart_mergeRange S h
  refine ⟨fun i => ?_, fun pieceCount dst hlength => ?_, ?_, ?_⟩
  · rw [inRanges_iff hapart, covered_mergeRange]
    rfl
  · obtain ⟨out, hout, hmarks⟩ := fillPieceInRangeDst_spec hlength
    refine ⟨out, hout, fun i hi => ?_⟩
    rw [hmarks i hi, covered_mergeRange]
    rfl
  · refine List.Pairwise.imp_of_mem (fun {a b} ha hb hlt => ?_) hapart.gaps
    have hale := hapart.nonempty a ha
    have hble := hapart.nonempty b hb
    omega
  · refine hapart.gaps.imp fun {a b} hlt i hboth => ?_
    have hend := hboth.1.2
    have hstart := hboth.2.1
    omega

/-- Overlapping, nested and touching ranges, and one that is out of order. -/
theorem mergeRange_lookup_mixed :
    (inRanges
      (mergeRange Lib.Sorter.insertion [⟨5, 9, ⟨0, 0⟩⟩, ⟨0, 3, ⟨0, 0⟩⟩, ⟨6, 7, ⟨0, 0⟩⟩, ⟨9, 12, ⟨0, 0⟩⟩]) 10
        = true ↔
      ∃ r ∈ [(⟨5, 9, ⟨0, 0⟩⟩ : Range), ⟨0, 3, ⟨0, 0⟩⟩, ⟨6, 7, ⟨0, 0⟩⟩, ⟨9, 12, ⟨0, 0⟩⟩], r.start ≤ 10 ∧
        10 ≤ r.stop) :=
  (mergeRange_lookup Lib.Sorter.insertion (by decide)).1 10

end TorrServer.Torrstor
