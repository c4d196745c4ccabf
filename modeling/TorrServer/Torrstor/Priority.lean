/-
# Torrstor.Priority — the priorities of the pieces, and the record the cache keeps of them.

`setLoadPriority` gives the pieces in front of each reader a priority: under `muPriority` it enters them into
`localPriority`, and after the lock it hands them to the torrent as a batch. `clearPriority` takes back what is
recorded and lies outside the readers' windows; it trusts the record. Both run in goroutines of their own, and
`Release` takes the priority of an evicted piece without a look at the record.

The record is right exactly as long as no step is `Unordered` (`record_agrees_iff`): a piece is not cleared or
planned anew with another priority while a batch that names it is under way, and no recorded piece is released.
-/
import TorrServer.Torrstor.Ranges
import TorrServer.Lib.Threads
import Mathlib.Logic.Function.Basic

namespace TorrServer.Torrstor.Priority

open Lib (Along Each Threads Next)
open Lib.Threads (Act)

/-! ## What a reader asks for -/

/-- `PiecePriority`. -/
inductive PiecePriority
  | none
  | normal
  | high
  | readahead
  | next
  | now
  deriving DecidableEq, Repr

/-- The sizes of the cache. -/
structure Config where
  capacity : Int64
  pieceLength : Int64
  pieceCount : Nat
  isIndexPiece : Nat → Bool

/-- The share of the cache, in percent, that a reader's front may take. -/
def prefetchBudgetPct : Int64 := 40

/-- The cap on the number of pieces; the product may wrap. -/
def pieceBudgetCount (count capacity pieceLength : Int64) : Int64 :=
  if count ≤ 1 ∨ capacity ≤ 0 ∨ pieceLength ≤ 0 then count
  else
    let most := capacity * prefetchBudgetPct / 100 / pieceLength
    let most := if most < 1 then 1 else most
    if most < count then most else count

/-- A reader in use: its piece, the piece its readahead reaches, the end of its range, and the number of pieces
the connections would allow. -/
structure Demand where
  readerPos : Nat
  readerRAHPos : Nat
  stop : Nat
  share : Int64
  deriving DecidableEq, Repr

variable (cfg : Config)

/-- A tenth of the cache in pieces, and at least five. -/
def highPriorityWindow : Nat := max (cfg.capacity / cfg.pieceLength / 10).toInt.toNat 5

/-- The number of incomplete pieces a batch may visit, at least one. -/
def Demand.count (d : Demand) : Nat :=
  (max (pieceBudgetCount d.share cfg.capacity cfg.pieceLength).toInt 1).toNat

/-- The priority of an incomplete piece; `none` if nothing is to be set. -/
def Demand.prio (d : Demand) (recorded : PiecePriority) (i : Nat) : PiecePriority :=
  if i = d.readerPos then .now
  else if i = d.readerPos + 1 then .next
  else if d.readerPos < i ∧ i ≤ d.readerRAHPos then .readahead
  else if d.readerRAHPos < i ∧ i ≤ d.readerRAHPos + highPriorityWindow cfg then
    if recorded ≠ .high then .high else .none
  else if d.readerRAHPos + highPriorityWindow cfg < i then
    if recorded ≠ .normal then .normal else .none
  else .none

/-- `localPriority` gives `none` for a piece without an entry. -/
abbrev Record := Nat → PiecePriority

/-- A map from pieces to priorities; the entry made last comes first. -/
abbrev Batch := List (Nat × PiecePriority)

/-- The variables of the loop. -/
structure Plan where
  localPriority : Record
  batch : Batch := []
  limit : Nat := 0

/-- A round of the loop; the loop ends when the limit is reached. -/
def planRound (d : Demand) (complete : Nat → Bool) (p : Plan) (i : Nat) : Plan :=
  if p.limit < d.count cfg ∧ complete i = false then
    let prio := d.prio cfg (p.localPriority i) i
    if prio ≠ .none then
      { localPriority := Function.update p.localPriority i prio
        batch := (i, prio) :: p.batch
        limit := p.limit + 1 }
    else { p with limit := p.limit + 1 }
  else p

/-- The part of `setLoadPriority` for one reader that is under the lock. -/
def plan (d : Demand) (complete : Nat → Bool) (localPriority : Record) : Plan :=
  (List.range' d.readerPos (min d.stop cfg.pieceCount - d.readerPos)).foldl (planRound cfg d complete)
    { localPriority := localPriority }

/-- `SetPiecePriorities`. -/
def Batch.onto (b : Batch) (priority : Record) : Record := fun i => (b.lookup i).getD (priority i)

/-! ## The calls -/

/-- What the calls share: the record of the cache, and the priorities the torrent has. -/
structure Shared where
  localPriority : Record := fun _ => .none
  priority : Record := fun _ => .none

/-- The calls that set priorities. -/
inductive Call
  | setLoadPriority
  | clearPriority (ranges : List Range)
  | release (id : Nat)

/-- Where a call stands; `clear` has the merged ranges of the readers. -/
inductive Pc
  | load
  | apply (batch : Batch)
  | clear (ranges : List Range)
  | release (id : Nat)

/-- The next reader or the next entry of the record that a loop comes to, if any, and which pieces are
complete. -/
structure Env where
  reader : Option Demand := .none
  id : Option Nat := .none
  complete : Nat → Bool := fun _ => false

/-- Where a call starts. -/
def enter : Call → Pc
  | .setLoadPriority => .load
  | .clearPriority ranges => .clear ranges
  | .release id => .release id

/-- `clearPriority` takes the piece back. -/
def Clears (s : Shared) (ranges : List Range) (complete : Nat → Bool) (id : Nat) : Prop :=
  s.localPriority id ≠ .none ∧ (ranges = [] ∨ inRanges ranges id = false) ∧
    ¬ (cfg.isIndexPiece id = true ∧ complete id = false)

instance (s : Shared) (ranges : List Range) (complete : Nat → Bool) (id : Nat) :
    Decidable (Clears cfg s ranges complete id) := inferInstanceAs (Decidable (_ ∧ _))

/-- One step of a call; others may run between two steps. -/
def resume (s : Shared) (env : Env) : Pc → Shared × Next Pc Unit
  | .load =>
    match env.reader with
    | .none => (s, .ret ())
    | some d =>
      let p := plan cfg d env.complete s.localPriority
      ({ s with localPriority := p.localPriority }, .goOn (.apply p.batch))
  | .apply batch => ({ s with priority := batch.onto s.priority }, .goOn .load)
  | .clear ranges =>
    match env.id with
    | .none => (s, .ret ())
    | some id =>
      if Clears cfg s ranges env.complete id then
        ({ localPriority := Function.update s.localPriority id .none
           priority := Function.update s.priority id .none }, .goOn (.clear ranges))
      else (s, .goOn (.clear ranges))
  | .release id =>
    if cfg.isIndexPiece id then (s, .ret ())
    else ({ s with priority := Function.update s.priority id .none }, .ret ())

/-- The priorities and the calls under way. -/
abbrev System := Threads Shared Pc Unit

/-- A call starts, or a thread goes on. -/
abbrev Label := Act Call Env

/-- One act of one thread. -/
def step : System → Label → Option System := Threads.step enter (resume cfg)

/-! ## What a plan does -/

section Plans

variable {cfg} {d : Demand} {complete : Nat → Bool} {p : Plan} {start : Record}

/-- A plan records what its batch says, and nothing else. -/
def Plan.Records (start : Record) (p : Plan) : Prop := p.localPriority = p.batch.onto start

theorem records_planRound (h : p.Records start) (i : Nat) : (planRound cfg d complete p i).Records start := by
  unfold planRound
  split
  · dsimp only
    split
    · funext j
      have hj : p.localPriority j = p.batch.onto start j := congrFun h j
      show Function.update p.localPriority i _ j = (((i, _) :: p.batch).lookup j).getD (start j)
      by_cases hji : j = i
      · subst hji
        rw [Function.update_self, List.lookup_cons_self]
        rfl
      · rw [Function.update_of_ne hji, hj, List.lookup_cons, beq_false_of_ne hji]
        rfl
    · exact h
  · exact h

theorem localPriority_plan (start : Record) (i : Nat) : (plan cfg d complete start).localPriority i =
    ((plan cfg d complete start).batch.lookup i).getD (start i) := by
  have h : (plan cfg d complete start).Records start :=
    List.foldlRecOn _ _ rfl fun _ h i _ => records_planRound h i
  exact congrFun h i

/-- What is planned so far: as many pieces as rounds counted, each of them incomplete and from the window. -/
structure Plan.Within (d : Demand) (complete : Nat → Bool) (most stop : Nat) (p : Plan) : Prop where
  length : p.batch.length ≤ p.limit
  limit : p.limit ≤ most
  entries : ∀ e ∈ p.batch, d.readerPos ≤ e.1 ∧ e.1 < stop ∧ complete e.1 = false

theorem within_planRound {stop i : Nat} (h : p.Within d complete (d.count cfg) stop)
    (hi : d.readerPos ≤ i ∧ i < stop) :
    (planRound cfg d complete p i).Within d complete (d.count cfg) stop := by
  unfold planRound
  split
  · rename_i hround
    dsimp only
    split
    · refine ⟨Nat.succ_le_succ h.length, hround.1, fun e he => ?_⟩
      rcases List.mem_cons.1 he with rfl | he
      · exact ⟨hi.1, hi.2, hround.2⟩
      · exact h.entries e he
    · exact ⟨Nat.le_succ_of_le h.length, hround.1, h.entries⟩
  · exact h

/-- A round for another piece leaves the entry of a piece alone. -/
theorem lookup_planRound {i j : Nat} (hne : j ≠ i) :
    (planRound cfg d complete p i).batch.lookup j = p.batch.lookup j := by
  unfold planRound
  split
  · dsimp only
    split
    · rw [List.lookup_cons, beq_false_of_ne hne]
    · rfl
  · rfl

theorem count_pos : 0 < d.count cfg := by
  unfold Demand.count
  omega

/-- As many pieces as the quotient says fit into the budget: a product that wraps is only smaller. -/
theorem budget_quotient_mul_le {capacity pieceLength : Int64} (hcapacity : 0 < capacity.toInt)
    (hlength : 0 < pieceLength.toInt)
    (hpos : 0 < (capacity * prefetchBudgetPct / 100 / pieceLength).toInt) :
    (capacity * prefetchBudgetPct / 100 / pieceLength).toInt * pieceLength.toInt ≤
      capacity.toInt * prefetchBudgetPct.toInt / 100 := by
  have hne : pieceLength ≠ -1 := by
    rintro rfl
    exact absurd hlength (by decide)
  have hwrapped : (capacity * prefetchBudgetPct).toInt ≤ capacity.toInt * prefetchBudgetPct.toInt := by
    rw [Int64.toInt_mul, Int.bmod]
    have hproduct : 0 ≤ capacity.toInt * prefetchBudgetPct.toInt := Int.mul_nonneg hcapacity.le (by decide)
    omega
  rw [Int64.toInt_div_of_ne_right _ _ hne, Int64.toInt_div_of_ne_right _ _ (by decide),
    show (100 : Int64).toInt = 100 from rfl] at hpos ⊢
  generalize (capacity * prefetchBudgetPct).toInt = product at *
  have hnonneg : 0 ≤ product := by
    by_contra hneg
    have hnonpos :=
      Int.tdiv_nonneg (Int.tdiv_nonneg (a := -product) (b := 100) (by omega) (by decide)) hlength.le
    rw [Int.neg_tdiv, Int.neg_tdiv] at hnonpos
    omega
  rw [Int.tdiv_eq_ediv_of_nonneg hnonneg, Int.tdiv_eq_ediv_of_nonneg (by omega)]
  have hmost := Int.ediv_mul_le (product / 100) hlength.ne'
  omega

/-- The budget in bytes: two fifths of the capacity, or one piece. -/
theorem count_mul_le (hcapacity : 0 < cfg.capacity) (hlength : 0 < cfg.pieceLength) :
    (d.count cfg : Int) * cfg.pieceLength.toInt ≤
      max cfg.pieceLength.toInt (cfg.capacity.toInt * prefetchBudgetPct.toInt / 100) := by
  have hcapacity' : 0 < cfg.capacity.toInt := Int64.lt_iff_toInt_lt.1 hcapacity
  have hlength' : 0 < cfg.pieceLength.toInt := Int64.lt_iff_toInt_lt.1 hlength
  -- the count is one, or at most as many pieces as the budget holds
  have hcases : (pieceBudgetCount d.share cfg.capacity cfg.pieceLength).toInt ≤ 1 ∨
      0 < (cfg.capacity * prefetchBudgetPct / 100 / cfg.pieceLength).toInt ∧
      (pieceBudgetCount d.share cfg.capacity cfg.pieceLength).toInt ≤
        (cfg.capacity * prefetchBudgetPct / 100 / cfg.pieceLength).toInt := by
    unfold pieceBudgetCount
    have hzero : (0 : Int64).toInt = 0 := rfl
    have hunit : (1 : Int64).toInt = 1 := rfl
    simp only [Int64.lt_iff_toInt_lt, Int64.le_iff_toInt_le, hunit, hzero]
    split_ifs <;> omega
  unfold Demand.count
  by_cases hone : (pieceBudgetCount d.share cfg.capacity cfg.pieceLength).toInt ≤ 1
  · rw [max_eq_right hone]
    simp
  · obtain ⟨hpos, hle⟩ := hcases.resolve_left hone
    have hbudget := budget_quotient_mul_le hcapacity' hlength' hpos
    have hmul := Int.mul_le_mul_of_nonneg_right hle hlength'.le
    rw [max_eq_left (by omega), Int.toNat_of_nonneg (by omega)]
    exact (hmul.trans hbudget).trans (le_max_right _ _)

/-- With the largest capacity the product is negative. -/
example : pieceBudgetCount 12 Int64.maxValue 1048576 = 1 := by decide

end Plans

/-- **The front of a reader stays within its budget.** The pieces a batch names are incomplete ones of the
window, together they take no more than two fifths of the capacity, unless there is only one; and the piece that
is being read gets the highest priority if it is incomplete. -/
theorem plan_within_budget (cfg : Config) (d : Demand) (complete : Nat → Bool) (start : Record)
    (hcapacity : 0 < cfg.capacity) (hlength : 0 < cfg.pieceLength) :
    let batch := (plan cfg d complete start).batch
    (batch.length : Int) * cfg.pieceLength.toInt ≤
        max cfg.pieceLength.toInt (cfg.capacity.toInt * prefetchBudgetPct.toInt / 100) ∧
      (∀ e ∈ batch, d.readerPos ≤ e.1 ∧ e.1 < min d.stop cfg.pieceCount ∧ complete e.1 = false) ∧
      (d.readerPos < min d.stop cfg.pieceCount → complete d.readerPos = false →
        batch.lookup d.readerPos = some .now) := by
  intro batch
  have hwithin : (plan cfg d complete start).Within d complete (d.count cfg) (min d.stop cfg.pieceCount) := by
    refine List.foldlRecOn _ _ ⟨Nat.le_refl 0, Nat.zero_le _, fun _ h => (nomatch h)⟩ fun _ h i hi => ?_
    have hrange := List.mem_range'_1.1 hi
    exact within_planRound h ⟨hrange.1, by omega⟩
  refine ⟨?_, hwithin.entries, fun hpos hincomplete => ?_⟩
  · have hle : (batch.length : Int) ≤ d.count cfg := by exact_mod_cast hwithin.length.trans hwithin.limit
    have hlength' : 0 ≤ cfg.pieceLength.toInt := (Int64.lt_iff_toInt_lt.1 hlength).le
    exact (Int.mul_le_mul_of_nonneg_right hle hlength').trans (count_mul_le hcapacity hlength)
  · -- the first round enters the piece, and the later ones are about others
    obtain ⟨n, hn⟩ : ∃ n, min d.stop cfg.pieceCount - d.readerPos = n + 1 :=
      ⟨_, (Nat.succ_pred (by omega)).symm⟩
    unfold batch plan
    rw [hn, List.range'_succ, List.foldl_cons]
    refine List.foldlRecOn (motive := fun p : Plan => p.batch.lookup d.readerPos = some .now) _ _ ?_
      fun p h i hi => ?_
    · unfold planRound
      rw [if_pos ⟨count_pos, hincomplete⟩]
      simp [Demand.prio]
    · rw [lookup_planRound (by have := (List.mem_range'_1.1 hi).1; omega), h]

/-- Ten pieces, none of them an index piece. -/
def tenPieces : Config :=
  { capacity := 100, pieceLength := 10, pieceCount := 10, isIndexPiece := fun _ => false }

/-- A reader at piece 3 that may ask for nine pieces gets four. -/
theorem plan_within_budget_tenPieces :
    let batch := (plan tenPieces ⟨3, 4, 10, 9⟩ (fun _ => false) fun _ => .none).batch
    batch = [(6, .high), (5, .high), (4, .next), (3, .now)] ∧ (batch.length : Int) * 10 ≤ 40 :=
  ⟨by decide,
    (plan_within_budget tenPieces ⟨3, 4, 10, 9⟩ (fun _ => false) (fun _ => .none) (by decide) (by decide)).1⟩

/-! ## The record and the torrent -/

variable {cfg}

/-- A batch that names the piece is still to be handed to the torrent. -/
def Underway (T : System) (id : Nat) : Prop :=
  ∃ tid b p, T.pcs tid = some (.apply b) ∧ List.lookup id b = some p

/-- Every batch under way has the recorded priority of the piece, and the torrent has it too or will get it. -/
structure Tracked (T : System) (id : Nat) : Prop where
  pending : ∀ tid b p, T.pcs tid = some (.apply b) → List.lookup id b = some p → p = T.shared.localPriority id
  applied : T.shared.priority id = T.shared.localPriority id ∨ Underway T id

variable (cfg)

/-- All pieces but the index pieces, which the cache asks for without a record. -/
def AllTracked (T : System) : Prop := ∀ id, cfg.isIndexPiece id = false → Tracked T id

/-- The record of a piece changes while a batch that names it is under way, or a recorded piece is released when
none is. -/
def Unordered (T : System) : Label → Prop
  | .call _ _ => False
  | .resume tid env => ∃ pc, T.pcs tid = some pc ∧ ∃ id, cfg.isIndexPiece id = false ∧
      (Underway T id ∧ (resume cfg T.shared env pc).1.localPriority id ≠ T.shared.localPriority id ∨
        pc = .release id ∧ T.shared.localPriority id ≠ .none ∧ ¬ Underway T id)

section Tracking

variable {cfg} {T : System} {tid id : Nat} {pc : Pc} {env : Env} {out : Shared × Next Pc Unit}

/-- A step of a call that has no batch to hand over leaves the batches under way. -/
theorem Underway.settle (h : Underway T id) (hpc : T.pcs tid = some pc)
    (hno : ∀ b p, pc = .apply b → List.lookup id b ≠ some p) : Underway (T.settle tid out) id := by
  obtain ⟨t, b, p, ht, hp⟩ := h
  refine ⟨t, b, p, (Threads.pcs_settle_of_ne _ ?_).trans ht, hp⟩
  rintro rfl
  exact hno b p (Option.some.inj (hpc.symm.trans ht)) hp

variable (cfg) in
/-- What the step of a call can be. -/
inductive Effect (s : Shared) : Pc → Shared × Next Pc Unit → Prop
  | idle (pc : Pc) (next : Next Pc Unit) (hpc : ∀ b, pc ≠ .apply b) (hnext : ∀ b, next ≠ .goOn (.apply b)) :
      Effect s pc (s, next)
  | plans (d : Demand) (complete : Nat → Bool) :
      Effect s .load ({ s with localPriority := (plan cfg d complete s.localPriority).localPriority },
        .goOn (.apply (plan cfg d complete s.localPriority).batch))
  | applies (b : Batch) : Effect s (.apply b) ({ s with priority := b.onto s.priority }, .goOn .load)
  | clears (ranges : List Range) (id : Nat) :
      Effect s (.clear ranges) ({ localPriority := Function.update s.localPriority id .none
                                  priority := Function.update s.priority id .none }, .goOn (.clear ranges))
  | releases (id : Nat) :
      Effect s (.release id) ({ s with priority := Function.update s.priority id .none }, .ret ())

theorem effect_resume (s : Shared) (env : Env) (pc : Pc) : Effect cfg s pc (resume cfg s env pc) := by
  unfold resume
  split
  · split
    · exact .idle _ _ (by simp) (by simp)
    · exact .plans _ _
  · exact .applies _
  · split
    · exact .idle _ _ (by simp) (by simp)
    · split
      · exact .clears _ _
      · exact .idle _ _ (by simp) (by simp)
  · split
    · exact .idle _ _ (by simp) (by simp)
    · exact .releases _

/-- Only `setLoadPriority` makes a batch, and the record then has what it says. -/
theorem Effect.pending (h : Effect cfg T.shared pc out) {b : Batch} {p : PiecePriority}
    (hgo : out.2 = .goOn (.apply b)) (hp : List.lookup id b = some p) : p = out.1.localPriority id := by
  cases h with
  | idle pc next _ hnext => exact absurd hgo (hnext b)
  | plans d complete =>
    cases hgo
    show p = (plan cfg d complete T.shared.localPriority).localPriority id
    rw [localPriority_plan, hp]
    rfl
  | applies | clears | releases => cases hgo

/-- The torrent keeps up with the record unless a recorded piece is released. -/
theorem Effect.applied (h : Effect cfg T.shared pc out) (hpc : T.pcs tid = some pc) (htracked : Tracked T id)
    (hrelease : pc = .release id → T.shared.localPriority id ≠ .none → Underway T id) :
    out.1.priority id = out.1.localPriority id ∨ Underway (T.settle tid out) id := by
  have hkeep : (∀ b, pc ≠ .apply b) → Underway T id → Underway (T.settle tid out) id := fun hno hunder =>
    hunder.settle hpc fun b _ heq => absurd heq (hno b)
  cases h with
  | idle pc next hno => exact htracked.applied.imp (fun h => h) (hkeep hno)
  | plans d complete =>
    cases hlookup : List.lookup id (plan cfg d complete T.shared.localPriority).batch with
    | some p => exact .inr ⟨tid, _, p, if_pos rfl, hlookup⟩
    | none =>
      refine htracked.applied.imp (fun heq => ?_) (hkeep (by simp))
      show _ = (plan cfg d complete T.shared.localPriority).localPriority id
      rw [localPriority_plan, hlookup]
      exact heq
  | applies b =>
    cases hlookup : List.lookup id b with
    | some p =>
      left
      show (List.lookup id b).getD _ = _
      rw [hlookup]
      exact htracked.pending tid b p hpc hlookup
    | none =>
      refine htracked.applied.imp (fun heq => ?_) fun hunder => hunder.settle hpc ?_
      · show (List.lookup id b).getD _ = _
        rw [hlookup]
        exact heq
      · rintro b' p heq
        cases heq
        rw [hlookup]
        exact fun h => (nomatch h)
  | clears ranges id' =>
    by_cases hid : id = id'
    · left
      show Function.update _ id' _ id = Function.update _ id' _ id
      rw [hid, Function.update_self, Function.update_self]
    · refine htracked.applied.imp (fun heq => ?_) (hkeep (by simp))
      show Function.update _ id' _ id = Function.update _ id' _ id
      rw [Function.update_of_ne hid, Function.update_of_ne hid]
      exact heq
  | releases id' =>
    by_cases hid : id = id'
    · subst hid
      by_cases hnone : T.shared.localPriority id = .none
      · exact .inl ((Function.update_self id _ _).trans hnone.symm)
      · exact .inr (hkeep (by simp) (hrelease rfl hnone))
    · exact htracked.applied.imp (fun heq => (Function.update_of_ne hid _ _).trans heq) (hkeep (by simp))

/-- Whoever hands over a batch leaves the record alone. -/
theorem Effect.ne_apply (h : Effect cfg T.shared pc out)
    (hchanged : out.1.localPriority id ≠ T.shared.localPriority id) (b : Batch) : pc ≠ .apply b := by
  rintro rfl
  cases h with
  | idle pc next hno => exact absurd rfl (hno b)
  | applies b => exact absurd rfl hchanged

/-- A step leaves all pieces tracked exactly if it is not unordered. -/
theorem allTracked_step {T' : System} {a : Label} (hT : AllTracked cfg T) (hstep : step cfg T a = some T') :
    AllTracked cfg T' ↔ ¬ Unordered cfg T a := by
  cases a with
  | call tid c =>
    -- a call that starts has no batch
    refine ⟨fun _ h => h, fun _ id hid => ?_⟩
    simp only [step, Threads.step] at hstep
    split at hstep <;> cases hstep
    rename_i hidle
    have hnew : ∀ t b, (T.settle tid (T.shared, .goOn (enter c))).pcs t = some (.apply b) →
        T.pcs t = some (.apply b) := by
      intro t b ht
      rcases Threads.pcs_settle ht with ⟨-, hgo⟩ | ⟨-, hold⟩
      · cases c <;> cases hgo
      · exact hold
    refine ⟨fun t b p ht hp => (hT id hid).pending t b p (hnew t b ht) hp,
      (hT id hid).applied.imp (fun h => h) ?_⟩
    rintro ⟨t, b, p, ht, hp⟩
    refine ⟨t, b, p, (Threads.pcs_settle_of_ne _ ?_).trans ht, hp⟩
    rintro rfl
    rw [ht] at hidle
    cases hidle
  | resume tid env =>
    obtain ⟨pc, hpc, rfl⟩ := Option.map_eq_some_iff.1 hstep
    have heffect : Effect cfg T.shared pc (resume cfg T.shared env pc) := effect_resume T.shared env pc
    constructor
    · -- an unordered step leaves its piece with another priority than the record
      rintro hT' ⟨pc', hpc', id, hid, hbad⟩
      cases hpc.symm.trans hpc'
      rcases hbad with ⟨⟨t, b, p, ht, hp⟩, hchanged⟩ | ⟨rfl, hrecorded, hno⟩
      · have hne : t ≠ tid := by
          rintro rfl
          exact heffect.ne_apply hchanged b (Option.some.inj (hpc.symm.trans ht))
        have hnew := (hT' id hid).pending t b p ((Threads.pcs_settle_of_ne _ hne).trans ht) hp
        exact hchanged (hnew.symm.trans ((hT id hid).pending t b p ht hp))
      · have hout : resume cfg T.shared env (.release id) =
            ({ T.shared with priority := Function.update T.shared.priority id .none }, .ret ()) := by
          simp [resume, hid]
        rcases (hT' id hid).applied with heq | ⟨t, b, p, ht, hp⟩
        · rw [hout] at heq
          exact hrecorded (heq.symm.trans (Function.update_self id _ _))
        · rcases Threads.pcs_settle ht with ⟨-, hgo⟩ | ⟨-, hold⟩
          · rw [hout] at hgo
            cases hgo
          · exact hno ⟨t, b, p, hold, hp⟩
    · intro hordered id hid
      refine ⟨fun t b p ht hp => ?_, heffect.applied hpc (hT id hid) fun hrel hrecorded => ?_⟩
      · rcases Threads.pcs_settle ht with ⟨-, hgo⟩ | ⟨-, hold⟩
        · exact heffect.pending hgo hp
        · -- a batch that was under way keeps the record from changing
          rw [(hT id hid).pending t b p hold hp]
          by_contra hchanged
          exact hordered ⟨pc, hpc, id, hid, .inl ⟨⟨t, b, p, hold, hp⟩, fun h => hchanged h.symm⟩⟩
      · by_contra hno
        exact hordered ⟨pc, hpc, id, hid, .inr ⟨hrel, hrecorded, hno⟩⟩

end Tracking

/-! ## Runs -/

/-- After `SetTorrent`: the index pieces that are not complete have a priority, and there is no record. -/
def new (complete : Nat → Bool) : System :=
  { shared :=
      { priority := fun id => if cfg.isIndexPiece id = true ∧ complete id = false then .high else .none } }

/-- **The exact condition for the record.** However the calls interleave, along a run each piece but the index
pieces is tracked exactly if no step is unordered; and after such a run, once no batch is under way, the torrent
has for each of them the priority that is recorded, so that clearing the record clears the torrent. -/
theorem record_agrees_iff {complete : Nat → Bool} {acts : List Label} {T : System}
    (hrun : Lib.run (step cfg) (new cfg complete) acts = some T) :
    (Along (step cfg) (AllTracked cfg) (new cfg complete) acts ↔
      Each (step cfg) (fun T a => ¬ Unordered cfg T a) (new cfg complete) acts) ∧
    (Each (step cfg) (fun T a => ¬ Unordered cfg T a) (new cfg complete) acts →
      ∀ id, cfg.isIndexPiece id = false → ¬ Underway T id →
        T.shared.priority id = T.shared.localPriority id) := by
  have hnew : AllTracked cfg (new cfg complete) := by
    intro id hid
    refine ⟨fun _ _ _ h => (nomatch h), .inl ?_⟩
    simp [new, hid]
  have hiff := Lib.along_iff_each (fun _ _ _ _ _ => trivial) (fun _ _ _ _ hT hstep => allTracked_step hT hstep)
    trivial hnew hrun
  exact ⟨hiff, fun hordered id hid hno => (((hiff.2 hordered).last hrun id hid).applied).resolve_right hno⟩

/-- Thread 0 plans for a reader at piece 3; thread 1 clears the piece; thread 0 hands its batch over. -/
def clearedTooEarly : List Label :=
  [.call 0 .setLoadPriority, .resume 0 { reader := some ⟨3, 3, 4, 1⟩ }, .call 1 (.clearPriority []),
    .resume 1 { id := some 3 }, .resume 1 {}, .resume 0 {}, .resume 0 {}]

/-- Piece 3 keeps the highest priority, though no reader is left and nothing records it. -/
theorem record_agrees_iff_clearedTooEarly :
    ∃ T, Lib.run (step tenPieces) (new tenPieces fun _ => false) clearedTooEarly = some T ∧
      (∀ tid, T.pcs tid = none) ∧ T.shared.priority 3 = .now ∧ T.shared.localPriority 3 = .none ∧
      ¬ Each (step tenPieces) (fun T a => ¬ Unordered tenPieces T a)
      (new tenPieces fun _ => false) clearedTooEarly := by
  obtain ⟨T, hrun⟩ : ∃ T, Lib.run (step tenPieces) (new tenPieces fun _ => false) clearedTooEarly
      = some T := ⟨_, rfl⟩
  have hT := Option.some.inj hrun
  have hidle : ∀ tid, T.pcs tid = none := by
    intro tid
    rw [← hT]
    by_cases h0 : tid = 0
    · rw [h0]
      rfl
    · by_cases h1 : tid = 1
      · rw [h1]
        rfl
      · simp [Threads.settle, h0, h1, new]
  have hpriority : T.shared.priority 3 = .now := by
    rw [← hT]
    decide
  have hlocal : T.shared.localPriority 3 = .none := by
    rw [← hT]
    decide
  refine ⟨T, hrun, hidle, hpriority, hlocal, fun hordered => ?_⟩
  have hno : ¬ Underway T 3 := by
    rintro ⟨tid, b, p, h, -⟩
    rw [hidle tid] at h
    cases h
  have hagrees := (record_agrees_iff _ hrun).2 hordered 3 rfl hno
  rw [hpriority, hlocal] at hagrees
  cases hagrees

end TorrServer.Torrstor.Priority
