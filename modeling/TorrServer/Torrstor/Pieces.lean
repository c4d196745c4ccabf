/-
# Torrstor.Pieces — piece buffers and the freelist they move through.

A piece of the cache has a buffer while it holds data. `WriteAt` takes one from the cache's freelist, or
allocates one; `Release` gives it back, or drops it when the freelist is full or the cache closed; `Close` drops
all of them. A buffer is a reference: `heap a` is the content of buffer `a`, and every buffer below `fresh` has
been allocated.

`Contents` is the bytes written to each piece since its last release. `Inv` relates the two, for every sequence
of calls from the cache that `Init` leaves, with the index pieces it found on disk (`pieces_sound`).
-/
import TorrServer.Lib.Runs
import TorrServer.Lib.Strconv
import Mathlib.Logic.Function.Basic
import Mathlib.Data.List.Nodup

namespace TorrServer.Torrstor

open List

open TorrServer.Lib (Bytes)

variable {i id a off : Nat}

/-! ## The cache -/

/-- What `Init` fixes: the sizes, the pieces at head and tail of files, and the files of `index_cache`, none
longer than a piece. -/
structure PieceConfig where
  capacity : Int
  pieceLength : Nat
  pieceCount : Nat
  isIndexPiece : Nat → Bool
  saved : Nat → Option Bytes
  pieceLength_pos : 0 < pieceLength
  saved_le : ∀ id data, saved id = some data → data.length ≤ pieceLength

/-- The capacity, by default four pieces. -/
def PieceConfig.budget (cfg : PieceConfig) : Int :=
  if cfg.capacity = 0 then cfg.pieceLength * 4 else cfg.capacity

/-- How many free buffers are kept. -/
def PieceConfig.freeCap (cfg : PieceConfig) : Nat :=
  max 2 ((cfg.budget.tdiv 4).tdiv cfg.pieceLength).toNat

/-- `Piece` with its `MemPiece`. -/
structure Piece where
  buffer : Option Nat
  size : Int
  complete : Bool
  accessed : Int
  deriving DecidableEq, Repr

/-- The pieces of a cache, the buffers and the freelist, its top first. -/
structure PieceStore where
  heap : Nat → Bytes
  fresh : Nat
  pieces : Nat → Piece
  free : List Nat
  isClosed : Bool

namespace PieceStore

variable (cfg : PieceConfig) (s : PieceStore)

/-- `NewCache`, with the pieces `Init` makes. -/
def empty : PieceStore :=
  { heap := fun _ => [], fresh := 0
    pieces := fun _ => { buffer := none, size := 0, complete := false, accessed := 0 }
    free := [], isClosed := false }

/-- Change piece `id`. -/
def modify (id : Nat) (f : Piece → Piece) : PieceStore :=
  { s with pieces := Function.update s.pieces id (f (s.pieces id)) }

/-- `getBuffer`: the last buffer that was put back, if there is one. -/
def getBuffer : Option Nat × PieceStore :=
  match s.free with
  | [] => (none, s)
  | a :: free => (some a, { s with free := free })

/-- `make`: a new buffer of zeros. -/
def alloc : Nat × PieceStore :=
  (s.fresh,
    { s with
      heap := Function.update s.heap s.fresh (List.replicate cfg.pieceLength 0)
      fresh := s.fresh + 1 })

/-- A spare buffer, or a new one. -/
def newBuffer : Nat × PieceStore :=
  match s.getBuffer with
  | (some a, s) => (a, s)
  | (none, s) => s.alloc cfg

/-- The buffer of piece `id`, which gets one if it has none. -/
def acquire (id : Nat) : Nat × PieceStore :=
  match (s.pieces id).buffer with
  | some a => (a, s)
  | none =>
    let (a, s) := s.newBuffer cfg
    (a, s.modify id fun p => { p with buffer := some a })

/-- `copy(buf[off:], b)`. -/
def overwrite (buf : Bytes) (off : Nat) (b : Bytes) : Bytes :=
  buf.take off ++ b.take (buf.length - off) ++ buf.drop (off + b.length)

/-- `WriteAt`: the bytes written, or a panic on an offset outside the buffer, which the piece has by then. -/
def writeAt (id : Nat) (b : Bytes) (off : Int) (now : Int) :
    Option Nat × PieceStore :=
  let (a, s) := s.acquire cfg id
  if 0 ≤ off ∧ off ≤ (s.heap a).length then
    let n := min b.length ((s.heap a).length - off.toNat)
    let s := { s with heap := Function.update s.heap a (overwrite (s.heap a) off.toNat b) }
    (some n, s.modify id fun p =>
      { p with size := min (p.size + n) cfg.pieceLength, accessed := now })
  else (none, s)

/-- What a `ReadAt` returns. -/
inductive ReadResult
  | eof
  | data (bytes : Bytes)
  | panic
  deriving DecidableEq, Repr

/-- The buffer of piece `id`, empty if it has none. -/
def buffer (s : PieceStore) (id : Nat) : Bytes :=
  match (s.pieces id).buffer with
  | some a => s.heap a
  | none => []

/-- `ReadAt` of `len` bytes. -/
def readAt (id len : Nat) (off : Int) (now : Int) : ReadResult × PieceStore :=
  let buf := s.buffer id
  let size : Int := if len + off > buf.length then max 0 (buf.length - off) else len
  if buf.length < off ∨ buf.length < off + size then (.eof, s)
  else if off < 0 then (.panic, s)
  else
    let bytes := (buf.drop off.toNat).take size.toNat
    let s := s.modify id fun p => { p with accessed := now }
    if bytes = [] then (.eof, s) else (.data bytes, s)

/-- A buffer goes back to the free ones, if there is room. -/
def putBuffer (a : Nat) : PieceStore :=
  if (s.heap a).length ≠ cfg.pieceLength ∨ cfg.pieceLength = 0 ∨ s.isClosed then s
  else if cfg.freeCap ≤ s.free.length then s
  else { s with free := a :: s.free }

/-- A piece without data. -/
def cleared (p : Piece) : Piece := { p with buffer := none, size := 0, complete := false }

/-- `MemPiece.Release`. -/
def releaseMem (id : Nat) : PieceStore :=
  match (s.pieces id).buffer with
  | some a => (s.putBuffer cfg a).modify id cleared
  | none => s.modify id cleared

/-- `Piece.Release` leaves index pieces alone while the cache is open. -/
def release (id : Nat) : PieceStore :=
  if !s.isClosed && cfg.isIndexPiece id then s else s.releaseMem cfg id

/-- `Close`, which `drop`s every piece. -/
def close : PieceStore :=
  if s.isClosed then s
  else { s with isClosed := true, pieces := fun id => cleared (s.pieces id), free := [] }

/-- One round of `preloadIndexCache`. -/
def preload (now : Int) (s : PieceStore) (id : Nat) : PieceStore :=
  match cfg.isIndexPiece id, cfg.saved id with
  | true, some (x :: data) =>
    (s.writeAt cfg id (x :: data) 0 now).2.modify id fun p =>
      { p with complete := true, size := (x :: data).length }
  | _, _ => s

/-- A new cache, with the saved index pieces loaded. -/
def init (now : Int) : PieceStore :=
  (List.range cfg.pieceCount).foldl (preload cfg now) empty

/-- What `saveIndexPieceToDisk` writes of piece `id`. -/
def savedIndexPiece (id : Nat) : Option Bytes :=
  (s.pieces id).buffer.map fun a =>
    let size := (s.pieces id).size
    (s.heap a).take (if size ≤ 0 ∨ size > (s.heap a).length then (s.heap a).length else size.toNat)

end PieceStore

/-! ## What the pieces are for -/

/-- The bytes written to each piece since its last release. -/
structure Contents where
  isClosed : Bool
  written : Nat → Nat → Option UInt8

namespace Contents

/-- Nothing yet. -/
def empty : Contents := { isClosed := false, written := fun _ _ => none }

/-- The bytes of `b` that lie in the piece are written from `off` on. -/
def write (cfg : PieceConfig) (c : Contents) (id : Nat) (b : Bytes) (off : Int) : Contents :=
  { c with
    written := fun i pos =>
      if i = id ∧ 0 ≤ off ∧ off ≤ pos ∧ pos < off + b.length ∧ pos < cfg.pieceLength then
        b[pos - off.toNat]?
      else c.written i pos }

/-- A release; it has no effect on index pieces while the cache is open. -/
def release (cfg : PieceConfig) (c : Contents) (id : Nat) : Contents :=
  if !c.isClosed && cfg.isIndexPiece id then c
  else { c with written := fun i pos => if i = id then none else c.written i pos }

/-- The first close releases everything. -/
def close (c : Contents) : Contents :=
  if c.isClosed then c else { isClosed := true, written := fun _ _ => none }

/-- `preloadIndexCache` writes what it finds. -/
def preload (cfg : PieceConfig) (c : Contents) (id : Nat) : Contents :=
  match cfg.isIndexPiece id, cfg.saved id with
  | true, some (x :: data) => c.write cfg id (x :: data) 0
  | _, _ => c

variable {cfg : PieceConfig} (c : Contents)

theorem write_self (id : Nat) (b : Bytes) (off pos : Nat) :
    (c.write cfg id b off).written id pos =
      if off ≤ pos ∧ pos < off + b.length ∧ pos < cfg.pieceLength then b[pos - off]?
      else c.written id pos := by
  have hcond : (id = id ∧ 0 ≤ (off : Int) ∧ (off : Int) ≤ pos ∧ (pos : Int) < off + b.length ∧
      pos < cfg.pieceLength) ↔ off ≤ pos ∧ pos < off + b.length ∧ pos < cfg.pieceLength := by
    omega
  exact if_congr hcond rfl rfl

theorem write_of_ne (b : Bytes) (off : Int) (pos : Nat) (hne : i ≠ id) :
    (c.write cfg id b off).written i pos = c.written i pos := by
  have hcond : ¬ (i = id ∧ 0 ≤ off ∧ off ≤ pos ∧ pos < off + b.length ∧ pos < cfg.pieceLength) :=
    fun hc => hne hc.1
  simp only [write, if_neg hcond]

theorem write_outside (id : Nat) (b : Bytes) {off : Int} (hoff : ¬ (0 ≤ off ∧ off ≤ cfg.pieceLength)) :
    c.write cfg id b off = c := by
  have hcond : ∀ i pos : Nat, ¬ (i = id ∧ 0 ≤ off ∧ off ≤ pos ∧ pos < off + b.length ∧
      pos < cfg.pieceLength) := by
    rintro i pos ⟨-, h0, h1, -, h3⟩
    exact hoff ⟨h0, by omega⟩
  simp only [write, if_neg (hcond _ _)]

end Contents

/-! ## Runs -/

/-- A call on a piece of the cache, or `Close`. -/
inductive PieceCall
  | writeAt (id : Nat) (b : Bytes) (off : Int) (now : Int)
  | readAt (id len : Nat) (off : Int) (now : Int)
  | release (id : Nat)
  | close
  deriving DecidableEq, Repr

/-- The cache and what its pieces are to hold. -/
structure PieceRun where
  store : PieceStore
  contents : Contents

namespace PieceRun

/-- After `Init`. -/
def init (cfg : PieceConfig) (now : Int) : PieceRun :=
  { store := .init cfg now, contents := (List.range cfg.pieceCount).foldl (Contents.preload cfg) .empty }

/-- One call, on one of the pieces. -/
def step (cfg : PieceConfig) (s : PieceRun) : PieceCall → Option PieceRun
  | .writeAt id b off now =>
    if id < cfg.pieceCount then
      some { store := (s.store.writeAt cfg id b off now).2, contents := s.contents.write cfg id b off }
    else none
  | .readAt id len off now =>
    if id < cfg.pieceCount then some { s with store := (s.store.readAt id len off now).2 } else none
  | .release id =>
    if id < cfg.pieceCount then
      some { store := s.store.release cfg id, contents := s.contents.release cfg id }
    else none
  | .close => some { store := s.store.close, contents := s.contents.close }

end PieceRun

/-! ## The invariant -/

namespace PieceStore

variable (cfg : PieceConfig) (s : PieceStore)

/-- Every piece and every freelist slot has its own buffer, allocated with the length of a piece. -/
structure Owned : Prop where
  piece : ∀ {id a}, (s.pieces id).buffer = some a → a < s.fresh ∧ a ∉ s.free
  unique : ∀ {id id' a}, (s.pieces id).buffer = some a → (s.pieces id').buffer = some a → id = id'
  free_lt : ∀ {a}, a ∈ s.free → a < s.fresh
  free_nodup : s.free.Nodup
  length : ∀ {a}, a < s.fresh → (s.heap a).length = cfg.pieceLength

/-- The bounds: of the freelist, and of the sizes. -/
structure Bounded : Prop where
  free_le : s.free.length ≤ cfg.freeCap
  closed : s.isClosed = true → s.free = []
  size_le : ∀ id, 0 ≤ (s.pieces id).size ∧ (s.pieces id).size ≤ cfg.pieceLength
  no_buffer : ∀ {id}, (s.pieces id).buffer = none → (s.pieces id).size = 0

/-- The pieces have what they are to hold. -/
structure Holds (c : Contents) : Prop where
  isClosed : c.isClosed = s.isClosed
  written : ∀ {id pos x}, c.written id pos = some x →
    ∃ a, (s.pieces id).buffer = some a ∧ (s.heap a)[pos]? = some x

/-- All of it. -/
structure Inv (c : Contents) : Prop where
  owned : s.Owned cfg
  bounded : s.Bounded cfg
  holds : s.Holds c

variable {cfg : PieceConfig} {s : PieceStore} {c : Contents}

/-- What `saveIndexPieceToDisk` writes is as short as `saved_le` asks of what the next start reads. -/
theorem savedIndexPiece_length_le (h : s.Owned cfg) {data : Bytes} (hsaved : s.savedIndexPiece id = some data) :
    data.length ≤ cfg.pieceLength := by
  obtain ⟨a, hbuffer, rfl⟩ := Option.map_eq_some_iff.1 hsaved
  rw [← h.length (h.piece hbuffer).1]
  exact List.length_take_le' _ _

section

variable (s : PieceStore) (id : Nat) (f : Piece → Piece)

theorem modify_pieces (i : Nat) :
    (s.modify id f).pieces i = if i = id then f (s.pieces id) else s.pieces i := by
  simp only [modify, Function.update_apply]

@[simp] theorem modify_pieces_self : (s.modify id f).pieces id = f (s.pieces id) := by
  simp [modify_pieces]

@[simp] theorem modify_heap : (s.modify id f).heap = s.heap := rfl

@[simp] theorem modify_fresh : (s.modify id f).fresh = s.fresh := rfl

@[simp] theorem modify_free : (s.modify id f).free = s.free := rfl

@[simp] theorem modify_isClosed : (s.modify id f).isClosed = s.isClosed := rfl

end

theorem modify_pieces_of_ne (s : PieceStore) (f : Piece → Piece) (hne : i ≠ id) :
    (s.modify id f).pieces i = s.pieces i := by
  simp [modify_pieces, hne]

theorem Inv.empty : Inv cfg .empty .empty where
  owned := ⟨by simp [PieceStore.empty], by simp [PieceStore.empty], by simp [PieceStore.empty],
    by simp [PieceStore.empty], by simp [PieceStore.empty]⟩
  bounded := ⟨by simp [PieceStore.empty], by simp [PieceStore.empty], by simp [PieceStore.empty],
    by simp [PieceStore.empty]⟩
  holds := ⟨rfl, by simp [Contents.empty]⟩

/-! ### A change of one piece -/

theorem Inv.modify (h : Inv cfg s c) {f : Piece → Piece}
    (hbuffer : (f (s.pieces id)).buffer = (s.pieces id).buffer)
    (hsize : 0 ≤ (f (s.pieces id)).size ∧ (f (s.pieces id)).size ≤ cfg.pieceLength)
    (hnone : (s.pieces id).buffer = none → (f (s.pieces id)).size = 0) : Inv cfg (s.modify id f) c := by
  have hsame : ∀ i, ((s.modify id f).pieces i).buffer = (s.pieces i).buffer := by
    intro i
    by_cases hi : i = id
    · subst hi
      rw [modify_pieces_self, hbuffer]
    · rw [modify_pieces_of_ne s f hi]
  constructor
  · exact ⟨fun hb => h.owned.piece (by rwa [hsame] at hb),
      fun hb hb' => h.owned.unique (by rwa [hsame] at hb) (by rwa [hsame] at hb'),
      h.owned.free_lt, h.owned.free_nodup, h.owned.length⟩
  · refine ⟨h.bounded.free_le, h.bounded.closed, fun i => ?_, fun {i} hb => ?_⟩
    · by_cases hi : i = id
      · subst hi
        rw [modify_pieces_self]
        exact hsize
      · rw [modify_pieces_of_ne s f hi]
        exact h.bounded.size_le i
    · rw [hsame] at hb
      by_cases hi : i = id
      · subst hi
        rw [modify_pieces_self]
        exact hnone hb
      · rw [modify_pieces_of_ne s f hi]
        exact h.bounded.no_buffer hb
  · refine ⟨h.holds.isClosed, fun hw => ?_⟩
    obtain ⟨a, hb, hx⟩ := h.holds.written hw
    exact ⟨a, by rw [hsame, hb], hx⟩

/-! ### Taking a buffer -/

/-- A buffer that nobody has. -/
structure Spare (s : PieceStore) (a : Nat) : Prop where
  lt : a < s.fresh
  not_free : a ∉ s.free
  not_piece : ∀ id, (s.pieces id).buffer ≠ some a

theorem Inv.alloc (h : Inv cfg s c) : Inv cfg (s.alloc cfg).2 c ∧ (s.alloc cfg).2.Spare (s.alloc cfg).1 := by
  -- what was allocated before is not touched
  have hheap : ∀ {a}, a < s.fresh → (s.alloc cfg).2.heap a = s.heap a := by
    intro a ha
    simp [PieceStore.alloc, Nat.ne_of_lt ha]
  refine ⟨⟨?_, ⟨h.bounded.free_le, h.bounded.closed, h.bounded.size_le, h.bounded.no_buffer⟩, ?_⟩, ?_⟩
  · refine ⟨fun hb => ?_, h.owned.unique, fun ha => Nat.lt_succ_of_lt (h.owned.free_lt ha),
      h.owned.free_nodup, fun {a} ha => ?_⟩
    · obtain ⟨hlt, hfree⟩ := h.owned.piece hb
      exact ⟨Nat.lt_succ_of_lt hlt, hfree⟩
    · rcases Nat.lt_succ_iff_lt_or_eq.mp ha with hlt | rfl
      · rw [hheap hlt, h.owned.length hlt]
      · simp [PieceStore.alloc]
  · refine ⟨h.holds.isClosed, fun hw => ?_⟩
    obtain ⟨a, hb, hx⟩ := h.holds.written hw
    exact ⟨a, hb, by rw [hheap (h.owned.piece hb).1, hx]⟩
  · exact ⟨Nat.lt_succ_self _, fun hfree => Nat.lt_irrefl _ (h.owned.free_lt hfree),
      fun id hb => Nat.lt_irrefl _ (h.owned.piece hb).1⟩

/-- **`getBuffer` or `make`** gives a spare buffer. -/
theorem Inv.newBuffer (h : Inv cfg s c) :
    Inv cfg (s.newBuffer cfg).2 c ∧ (s.newBuffer cfg).2.Spare (s.newBuffer cfg).1 := by
  cases hfree : s.free with
  | nil =>
    simp only [PieceStore.newBuffer, getBuffer, hfree]
    exact h.alloc
  | cons a free =>
    simp only [PieceStore.newBuffer, getBuffer, hfree]
    have hnodup : (a :: free).Nodup := hfree ▸ h.owned.free_nodup
    have hsub : ∀ {b}, b ∈ free → b ∈ s.free := by
      intro b hb
      rw [hfree]
      exact mem_cons_of_mem a hb
    have hmem : a ∈ s.free := by
      rw [hfree]
      exact mem_cons_self
    refine ⟨⟨?_, ?_, h.holds.isClosed, h.holds.written⟩, ?_⟩
    · refine ⟨fun hb => ?_, h.owned.unique, fun ha => h.owned.free_lt (hsub ha), hnodup.of_cons,
        h.owned.length⟩
      exact ⟨(h.owned.piece hb).1, fun hin => (h.owned.piece hb).2 (hsub hin)⟩
    · refine ⟨?_, fun hclosed => ?_, h.bounded.size_le, h.bounded.no_buffer⟩
      · have hle := h.bounded.free_le
        rw [hfree, length_cons] at hle
        exact Nat.le_of_succ_le hle
      · have hnil := h.bounded.closed hclosed
        rw [hfree] at hnil
        cases hnil
    · exact ⟨h.owned.free_lt hmem, (nodup_cons.mp hnodup).1,
        fun id hb => (h.owned.piece hb).2 hmem⟩

theorem newBuffer_pieces (s : PieceStore) : (s.newBuffer cfg).2.pieces = s.pieces := by
  cases hfree : s.free <;> simp [PieceStore.newBuffer, getBuffer, hfree, PieceStore.alloc]

theorem Inv.give (h : Inv cfg s c) (hnone : (s.pieces id).buffer = none) (ha : s.Spare a) :
    Inv cfg (s.modify id fun p => { p with buffer := some a }) c := by
  have hcases : ∀ {i b}, ((s.modify id fun p => { p with buffer := some a }).pieces i).buffer = some b →
      (i = id ∧ b = a) ∨ (i ≠ id ∧ (s.pieces i).buffer = some b) := by
    intro i b hb
    by_cases hi : i = id
    · subst hi
      rw [modify_pieces_self] at hb
      exact .inl ⟨rfl, (Option.some.inj hb).symm⟩
    · rw [modify_pieces_of_ne s _ hi] at hb
      exact .inr ⟨hi, hb⟩
  constructor
  · refine ⟨fun hb => ?_, fun hb hb' => ?_, h.owned.free_lt, h.owned.free_nodup, h.owned.length⟩
    · rcases hcases hb with ⟨-, rfl⟩ | ⟨-, hb⟩
      · exact ⟨ha.lt, ha.not_free⟩
      · exact h.owned.piece hb
    · rcases hcases hb with ⟨hi, rfl⟩ | ⟨hi, hb⟩ <;> rcases hcases hb' with ⟨hi', heq⟩ | ⟨hi', hb'⟩
      · rw [hi, hi']
      · exact absurd hb' (ha.not_piece _)
      · exact absurd (heq ▸ hb) (ha.not_piece _)
      · exact h.owned.unique hb hb'
  · refine ⟨h.bounded.free_le, h.bounded.closed, fun i => ?_, fun {i} hb => ?_⟩
    · by_cases hi : i = id
      · subst hi
        rw [modify_pieces_self]
        exact h.bounded.size_le i
      · rw [modify_pieces_of_ne s _ hi]
        exact h.bounded.size_le i
    · by_cases hi : i = id
      · subst hi
        rw [modify_pieces_self] at hb
        cases hb
      · rw [modify_pieces_of_ne s _ hi] at hb ⊢
        exact h.bounded.no_buffer hb
  · refine ⟨h.holds.isClosed, fun {i pos x} hw => ?_⟩
    obtain ⟨b, hb, hx⟩ := h.holds.written hw
    have hi : i ≠ id := by
      rintro rfl
      rw [hnone] at hb
      cases hb
    exact ⟨b, by rw [modify_pieces_of_ne s _ hi, hb], hx⟩

/-- **`WriteAt` finds the piece with a buffer.** -/
theorem Inv.acquire (h : Inv cfg s c) (id : Nat) :
    Inv cfg (s.acquire cfg id).2 c ∧
      ((s.acquire cfg id).2.pieces id).buffer = some (s.acquire cfg id).1 := by
  cases hb : (s.pieces id).buffer with
  | some a =>
    simp only [PieceStore.acquire, hb]
    exact ⟨h, trivial⟩
  | none =>
    simp only [PieceStore.acquire, hb]
    obtain ⟨hinv, hspare⟩ := h.newBuffer
    have hnone : ((s.newBuffer cfg).2.pieces id).buffer = none := by rw [newBuffer_pieces, hb]
    exact ⟨hinv.give hnone hspare, by rw [modify_pieces_self]⟩

/-! ### Writing -/

theorem overwrite_length {buf : Bytes} (b : Bytes) (hoff : off ≤ buf.length) :
    (overwrite buf off b).length = buf.length := by
  simp only [overwrite, length_append, length_take, length_drop]
  omega

/-- **A position after `copy`**: the new byte where there is one, else what was there. -/
theorem overwrite_getElem? {buf : Bytes} (b : Bytes) (hoff : off ≤ buf.length) (pos : Nat) :
    (overwrite buf off b)[pos]? =
      if off ≤ pos ∧ pos < off + b.length ∧ pos < buf.length then b[pos - off]? else buf[pos]? := by
  have htake : (buf.take off).length = off := by rw [length_take]; omega
  by_cases hlt : pos < off
  · rw [overwrite, append_assoc, getElem?_append_left (by rw [htake]; exact hlt),
      getElem?_take_of_lt hlt, if_neg (by omega)]
  · rw [overwrite, append_assoc, getElem?_append_right (by rw [htake]; omega), htake]
    by_cases hin : pos < off + b.length ∧ pos < buf.length
    · rw [getElem?_append_left (by rw [length_take]; omega), getElem?_take_of_lt (by omega),
        if_pos ⟨by omega, hin⟩]
    · rw [getElem?_append_right (by rw [length_take]; omega), getElem?_drop, length_take,
        if_neg (fun hc => hin hc.2)]
      by_cases hbuf : pos < buf.length
      · congr 1
        omega
      · rw [getElem?_eq_none (by omega), getElem?_eq_none (by omega)]

/-- The bytes go into the buffer of the piece, and into no other. -/
theorem Inv.overwrite (h : Inv cfg s c) (hbuffer : (s.pieces id).buffer = some a) (b : Bytes)
    (hoff : off ≤ cfg.pieceLength) :
    Inv cfg { s with heap := Function.update s.heap a (overwrite (s.heap a) off b) }
      (c.write cfg id b off) := by
  have hlength : (s.heap a).length = cfg.pieceLength := h.owned.length (h.owned.piece hbuffer).1
  have hoff : off ≤ (s.heap a).length := by rw [hlength]; exact hoff
  constructor
  · refine ⟨h.owned.piece, h.owned.unique, h.owned.free_lt, h.owned.free_nodup, fun {a'} ha' => ?_⟩
    by_cases heq : a' = a
    · subst heq
      show (Function.update s.heap a' _ a').length = cfg.pieceLength
      rw [Function.update_self, overwrite_length b hoff, hlength]
    · show (Function.update s.heap a _ a').length = cfg.pieceLength
      rw [Function.update_of_ne heq, h.owned.length ha']
  · exact ⟨h.bounded.free_le, h.bounded.closed, h.bounded.size_le, h.bounded.no_buffer⟩
  · refine ⟨h.holds.isClosed, fun {i pos x} hw => ?_⟩
    by_cases hi : i = id
    · subst hi
      refine ⟨a, hbuffer, ?_⟩
      show (Function.update s.heap a _ a)[pos]? = some x
      rw [Function.update_self, overwrite_getElem? b hoff pos, hlength]
      -- the abstract write and `copy` hit the same positions
      rw [Contents.write_self] at hw
      by_cases hin : off ≤ pos ∧ pos < off + b.length ∧ pos < cfg.pieceLength
      · rw [if_pos hin] at hw ⊢
        exact hw
      · rw [if_neg hin] at hw ⊢
        obtain ⟨a', hb', hx⟩ := h.holds.written hw
        cases hbuffer.symm.trans hb'
        exact hx
    · rw [Contents.write_of_ne c b off pos hi] at hw
      obtain ⟨a', hb', hx⟩ := h.holds.written hw
      have hne : a' ≠ a := by
        rintro rfl
        exact hi (h.owned.unique hb' hbuffer)
      refine ⟨a', hb', ?_⟩
      show (Function.update s.heap a _ a')[pos]? = some x
      rw [Function.update_of_ne hne, hx]

/-- **`WriteAt`** keeps the invariant, and leaves the piece with a buffer. -/
theorem Inv.writeAt (h : Inv cfg s c) (id : Nat) (b : Bytes) (off now : Int) :
    Inv cfg (s.writeAt cfg id b off now).2 (c.write cfg id b off) ∧
      ((s.writeAt cfg id b off now).2.pieces id).buffer ≠ none := by
  obtain ⟨hinv, hbuffer⟩ := h.acquire id
  have hlength := hinv.owned.length (hinv.owned.piece hbuffer).1
  simp only [PieceStore.writeAt, hlength]
  by_cases hoff : 0 ≤ off ∧ off ≤ cfg.pieceLength
  · rw [if_pos hoff]
    obtain ⟨off, rfl⟩ := Int.eq_ofNat_of_zero_le hoff.1
    simp only [Int.toNat_natCast]
    have hwritten := hinv.overwrite hbuffer b (show off ≤ cfg.pieceLength by omega)
    have hsize := hinv.bounded.size_le id
    constructor
    · apply hwritten.modify
      · rfl
      · dsimp only
        omega
      · intro hnone
        cases hbuffer.symm.trans hnone
    · rw [modify_pieces_self]
      dsimp only
      simp [hbuffer]
  · rw [if_neg hoff, c.write_outside id b hoff]
    exact ⟨hinv, by simp [hbuffer]⟩

/-! ### Reading -/

theorem Inv.readAt (h : Inv cfg s c) (id len : Nat) (off now : Int) :
    Inv cfg (s.readAt id len off now).2 c := by
  have haccess : Inv cfg (s.modify id fun p => { p with accessed := now }) c :=
    h.modify rfl (h.bounded.size_le id) h.bounded.no_buffer
  simp only [PieceStore.readAt]
  split_ifs <;> first | exact h | exact haccess

/-- **`ReadAt` returns what was written** since the last release, at every position of its range. -/
theorem Inv.readAt_written (h : Inv cfg s c) {len k : Nat} {x : UInt8} (now : Int) (hk : k < len)
    (hw : c.written id (off + k) = some x) :
    ∃ bytes, (s.readAt id len off now).1 = .data bytes ∧ bytes[k]? = some x := by
  obtain ⟨a, hbuffer, hx⟩ := h.holds.written hw
  have hlt : off + k < (s.heap a).length := (List.getElem?_eq_some_iff.mp hx).1
  -- what is read ends where the buffer ends, or after `len` bytes
  have hsize : (if (len : Int) + off > (s.heap a).length then max 0 ((s.heap a).length - (off : Int)) else len)
      = (min len ((s.heap a).length - off) : Nat) := by
    split <;> omega
  have hk' : k < min len ((s.heap a).length - off) := by omega
  have hread : (((s.heap a).drop off).take (min len ((s.heap a).length - off)))[k]? = some x := by
    rw [getElem?_take_of_lt hk', getElem?_drop, hx]
  have hne : ((s.heap a).drop off).take (min len ((s.heap a).length - off)) ≠ [] := by
    intro hnil
    rw [hnil] at hread
    cases hread
  refine ⟨_, ?_, hread⟩
  have hbuf : s.buffer id = s.heap a := by simp only [buffer, hbuffer]
  simp only [PieceStore.readAt, hbuf, hsize, Int.toNat_natCast]
  rw [if_neg (by omega), if_neg (by omega), if_neg hne]

/-! ### Giving a buffer back -/

/-- **`putBuffer`** of a buffer that no piece has. -/
theorem Inv.putBuffer (h : Inv cfg s c) (ha : s.Spare a) : Inv cfg (s.putBuffer cfg a) c := by
  unfold PieceStore.putBuffer
  split
  · exact h
  · rename_i hkeep
    split
    · exact h
    · rename_i hroom
      refine ⟨⟨fun hb => ?_, h.owned.unique, fun hmem => ?_, ?_, h.owned.length⟩,
        ⟨?_, fun hclosed => ?_, h.bounded.size_le, h.bounded.no_buffer⟩, h.holds.isClosed, h.holds.written⟩
      · obtain ⟨hlt, hfree⟩ := h.owned.piece hb
        refine ⟨hlt, fun hmem => ?_⟩
        rcases mem_cons.mp hmem with rfl | hmem
        · exact ha.not_piece _ hb
        · exact hfree hmem
      · rcases mem_cons.mp hmem with rfl | hmem
        · exact ha.lt
        · exact h.owned.free_lt hmem
      · exact nodup_cons.mpr ⟨ha.not_free, h.owned.free_nodup⟩
      · exact Nat.lt_of_not_le hroom
      · exact absurd (.inr (.inr hclosed)) hkeep

theorem Inv.clear (h : Inv cfg s c) (id : Nat) :
    Inv cfg (s.modify id cleared)
      { c with written := fun i pos => if i = id then none else c.written i pos } := by
  have hcases : ∀ {i b}, ((s.modify id cleared).pieces i).buffer = some b →
      (s.pieces i).buffer = some b := by
    intro i b hb
    by_cases hi : i = id
    · subst hi
      rw [modify_pieces_self] at hb
      cases hb
    · rwa [modify_pieces_of_ne s _ hi] at hb
  constructor
  · exact ⟨fun hb => h.owned.piece (hcases hb), fun hb hb' => h.owned.unique (hcases hb) (hcases hb'),
      h.owned.free_lt, h.owned.free_nodup, h.owned.length⟩
  · refine ⟨h.bounded.free_le, h.bounded.closed, fun i => ?_, fun {i} hb => ?_⟩
    · by_cases hi : i = id
      · subst hi
        rw [modify_pieces_self]
        exact ⟨Int.le_refl 0, Int.natCast_nonneg _⟩
      · rw [modify_pieces_of_ne s _ hi]
        exact h.bounded.size_le i
    · by_cases hi : i = id
      · subst hi
        rw [modify_pieces_self]
        rfl
      · rw [modify_pieces_of_ne s _ hi] at hb ⊢
        exact h.bounded.no_buffer hb
  · refine ⟨h.holds.isClosed, fun {i pos x} hw => ?_⟩
    dsimp only at hw
    by_cases hi : i = id
    · rw [if_pos hi] at hw
      cases hw
    · rw [if_neg hi] at hw
      obtain ⟨a, hb, hx⟩ := h.holds.written hw
      exact ⟨a, by rw [modify_pieces_of_ne s _ hi, hb], hx⟩

/-- **`MemPiece.Release`**. -/
theorem Inv.releaseMem (h : Inv cfg s c) (id : Nat) :
    Inv cfg (s.releaseMem cfg id)
      { c with written := fun i pos => if i = id then none else c.written i pos } := by
  cases hb : (s.pieces id).buffer with
  | none =>
    simp only [PieceStore.releaseMem, hb]
    exact h.clear id
  | some a =>
    have hcleared := h.clear id
    -- once the piece has let go of it, the buffer is spare
    have hspare : (s.modify id cleared).Spare a := by
      refine ⟨(h.owned.piece hb).1, (h.owned.piece hb).2, fun i hi => ?_⟩
      by_cases heq : i = id
      · subst heq
        rw [modify_pieces_self] at hi
        cases hi
      · rw [modify_pieces_of_ne s _ heq] at hi
        exact heq (h.owned.unique hi hb)
    have hswap : (s.putBuffer cfg a).modify id cleared = (s.modify id cleared).putBuffer cfg a := by
      rw [PieceStore.putBuffer]
      split
      · rename_i hdrop
        exact (if_pos hdrop).symm
      · rename_i hkeep
        split
        · rename_i hfull
          exact ((if_neg hkeep).trans (if_pos hfull)).symm
        · rename_i hroom
          exact ((if_neg hkeep).trans (if_neg hroom)).symm
    simp only [PieceStore.releaseMem, hb, hswap]
    exact hcleared.putBuffer hspare

/-- **`Piece.Release`**. -/
theorem Inv.release (h : Inv cfg s c) (id : Nat) : Inv cfg (s.release cfg id) (c.release cfg id) := by
  have hclosed : s.isClosed = c.isClosed := h.holds.isClosed.symm
  unfold PieceStore.release Contents.release
  rw [hclosed]
  split
  · exact h
  · exact h.releaseMem id

/-- **`Close`**. -/
theorem Inv.close (h : Inv cfg s c) : Inv cfg s.close c.close := by
  unfold PieceStore.close Contents.close
  rw [h.holds.isClosed]
  split
  · exact h
  · refine ⟨⟨?_, ?_, ?_, nodup_nil, h.owned.length⟩, ⟨Nat.zero_le _, fun _ => rfl, fun id => ?_, ?_⟩,
      rfl, ?_⟩
    · intro id a hb
      cases hb
    · intro id id' a hb
      cases hb
    · intro a ha
      cases ha
    · exact ⟨Int.le_refl 0, Int.natCast_nonneg _⟩
    · intro id _
      rfl
    · intro id pos x hw
      cases hw

/-! ### Init -/

theorem Inv.preload (h : Inv cfg s c) (now : Int) (id : Nat) :
    Inv cfg (s.preload cfg now id) (c.preload cfg id) := by
  unfold PieceStore.preload Contents.preload
  split
  · rename_i x data _ hsaved
    obtain ⟨hinv, hbuffer⟩ := h.writeAt id (x :: data) 0 now
    have hle := cfg.saved_le id _ hsaved
    apply hinv.modify
    · rfl
    · exact ⟨Int.natCast_nonneg _, Int.ofNat_le.mpr hle⟩
    · intro hnone
      exact absurd hnone hbuffer
  · exact h

/-- **`Init`** establishes the invariant. -/
theorem Inv.init (now : Int) :
    Inv cfg (.init cfg now) ((List.range cfg.pieceCount).foldl (Contents.preload cfg) .empty) := by
  have hfold : ∀ (ids : List Nat) (s : PieceStore) (c : Contents), Inv cfg s c →
      Inv cfg (ids.foldl (PieceStore.preload cfg now) s) (ids.foldl (Contents.preload cfg) c) := by
    intro ids
    induction ids with
    | nil => exact fun s c h => h
    | cons id ids ih => exact fun s c h => ih _ _ (h.preload now id)
  exact hfold _ _ _ Inv.empty

end PieceStore

namespace PieceRun

theorem inv_step {cfg : PieceConfig} {s t : PieceRun} {call : PieceCall}
    (h : s.store.Inv cfg s.contents) (hstep : s.step cfg call = some t) : t.store.Inv cfg t.contents := by
  cases call with
  | writeAt id b off now =>
    obtain ⟨-, ⟨⟩⟩ := Option.ite_none_right_eq_some.mp hstep
    exact (h.writeAt id b off now).1
  | readAt id len off now =>
    obtain ⟨-, ⟨⟩⟩ := Option.ite_none_right_eq_some.mp hstep
    exact h.readAt id len off now
  | release id =>
    obtain ⟨-, ⟨⟩⟩ := Option.ite_none_right_eq_some.mp hstep
    exact h.release id
  | close =>
    cases hstep
    exact h.close

/-- What a state of the cache guarantees. -/
structure Sound (cfg : PieceConfig) (s : PieceRun) : Prop where
  /-- No two owners of a buffer: pieces, and slots of the freelist. -/
  one_piece : ∀ id id' a, (s.store.pieces id).buffer = some a → (s.store.pieces id').buffer = some a →
    id = id'
  one_slot : s.store.free.Nodup
  not_both : ∀ id a, (s.store.pieces id).buffer = some a → a ∉ s.store.free
  free_le : s.store.free.length ≤ cfg.freeCap
  free_length : ∀ a ∈ s.store.free, (s.store.heap a).length = cfg.pieceLength
  closed : s.store.isClosed = true → s.store.free = []
  no_buffer : ∀ id, (s.store.pieces id).buffer = none → (s.store.pieces id).size = 0
  size : ∀ id, 0 ≤ (s.store.pieces id).size ∧ (s.store.pieces id).size ≤ cfg.pieceLength
  /-- `ReadAt` returns the byte written last, at every position written since the last release. -/
  read : ∀ id len off k x now, k < len → s.contents.written id (off + k) = some x →
    ∃ bytes, (s.store.readAt id len off now).1 = .data bytes ∧ bytes[k]? = some x

theorem sound_of_inv {cfg : PieceConfig} {s : PieceRun} (h : s.store.Inv cfg s.contents) :
    s.Sound cfg where
  one_piece _ _ _ hb hb' := h.owned.unique hb hb'
  one_slot := h.owned.free_nodup
  not_both _ _ hb := (h.owned.piece hb).2
  free_le := h.bounded.free_le
  free_length _ ha := h.owned.length (h.owned.free_lt ha)
  closed := h.bounded.closed
  no_buffer _ hb := h.bounded.no_buffer hb
  size := h.bounded.size_le
  read _ _ _ _ _ now hk hw := h.readAt_written now hk hw

/-- **The pieces are sound in every state** that calls on them and `Close` lead to from `Init`. -/
theorem pieces_sound (cfg : PieceConfig) (now : Int) (calls : List PieceCall) :
    Lib.Along (step cfg) (Sound cfg) (init cfg now) calls := by
  have hinv : Lib.Along (step cfg) (fun s => s.store.Inv cfg s.contents) (init cfg now) calls :=
    (Lib.each_true (init cfg now) calls).along (fun _ _ _ h _ hstep => inv_step h hstep)
      (PieceStore.Inv.init now)
  exact hinv.mono fun _ h => sound_of_inv h

/-- Two pieces of four bytes. -/
def twoPieces : PieceConfig :=
  { capacity := 0, pieceLength := 4, pieceCount := 2, isIndexPiece := fun _ => false
    saved := fun _ => none, pieceLength_pos := by decide, saved_le := by simp }

-- the second piece gets the buffer the first has released, with its old bytes still in it
example : (Lib.run (step twoPieces) (init twoPieces 0)
      [.writeAt 0 [1, 2, 3] 0 1, .release 0, .writeAt 1 [7, 8, 9] 2 3]).map
      (fun s => ((s.store.pieces 1).buffer, (s.store.readAt 1 9 1 4).1)) =
    some (some 0, .data [2, 7, 8]) := by
  decide +kernel

end PieceRun

end TorrServer.Torrstor
