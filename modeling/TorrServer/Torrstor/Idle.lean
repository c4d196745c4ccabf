/-
# Torrstor.Idle — what going idle does to the calls on a reader.

`checkReader` parks a reader that nobody uses: `readerOff` drops its readahead and moves the engine's reader to
the start, and the next `Seek` or `Read` switches it on again. The holder of the reader should not notice: it
may count on a position and the readahead asked for last (`Ideal`).

It may notice: `SeekCurrent` moves twice as far on a parked reader, since `readerOn` restores an offset that
`Seek` has moved already; and `readerOff` saves a readahead of `0`, which `readerOn` moreover cannot pass on,
since `isUse` is not set yet. `idle_transparent_iff` says exactly which calls tell.
-/
import TorrServer.Torrstor.Reader
import Mathlib.Algebra.Order.Ring.Int

namespace TorrServer.Torrstor

/-! ## Calls and what they show -/

/-- The three values of `whence`. -/
inductive Origin
  | seekStart
  | seekCurrent
  | seekEnd
  deriving DecidableEq, Repr

/-- As an argument of `Seek`. -/
def Origin.whence : Origin → Whence
  | seekStart => .seekStart
  | seekCurrent => .seekCurrent
  | seekEnd => .seekEnd

/-- A call of the holder. -/
inductive Op
  | seek (off : Int64) (origin : Origin) (now : Int)
  | read (env : Env)
  | setReadahead (n : Int64)
  deriving DecidableEq, Repr

/-- A call, or the reader goes idle. -/
inductive Event
  | call (op : Op)
  | readerOff
  deriving DecidableEq, Repr

/-- The result of `Seek`, or the position and the readahead of the engine's reader while `Read` reads. -/
inductive Answer
  | sought (n : Int64)
  | readAt (pos : Int64) (readahead : Option Int64)
  | noInfo
  | done
  deriving DecidableEq, Repr

/-- A call with `Offset()` around it. -/
structure Seen where
  before : Int64
  answer : Answer
  after : Int64
  deriving DecidableEq, Repr

namespace Reader

/-- One call on an open reader. -/
def exec (r : Reader) : Op → Answer × Reader
  | .seek off origin now =>
    let r := (r.seekBegin off origin.whence).readerOn
    let n := (r.inner.seek off origin.whence).1
    (.sought n, (r.innerSeek off origin.whence).seekDone n now)
  | .read env =>
    if env.hasInfo then
      let r := r.readerOn
      (.readAt r.inner.pos r.inner.readahead, (r.innerRead env.bytes).readDone env.bytes env.now)
    else (.noInfo, r)
  | .setReadahead n => (.done, r.setReadahead n)

/-- What the call shows. -/
def seen (r : Reader) (op : Op) : Seen :=
  { before := r.offset, answer := (r.exec op).1, after := (r.exec op).2.offset }

/-- What a sequence of events shows. -/
def trace (r : Reader) : List Event → List Seen
  | [] => []
  | .call op :: events => r.seen op :: (r.exec op).2.trace events
  | .readerOff :: events => r.readerOff.trace events

end Reader

/-- The calls among the events. -/
def calls (events : List Event) : List Event := events.filter (· ≠ .readerOff)

/-! ## The ideal reader and the history -/

/-- A position in a file of the given length, and the readahead asked for last. -/
structure Ideal where
  length : Int64
  offset : Int64
  readahead : Option Int64
  deriving DecidableEq, Repr

namespace Ideal

/-- Where a `Seek` leads. -/
def target (i : Ideal) (off : Int64) : Origin → Int64
  | .seekStart => off
  | .seekCurrent => i.offset + off
  | .seekEnd => i.length + off

/-- One call. -/
def exec (i : Ideal) : Op → Answer × Ideal
  | .seek off origin _ => (.sought (i.target off origin), { i with offset := i.target off origin })
  | .read env =>
    if env.hasInfo then (.readAt i.offset i.readahead, { i with offset := i.offset + env.bytes })
    else (.noInfo, i)
  | .setReadahead n => (.done, { i with readahead := some n })

/-- What the call shows. -/
def seen (i : Ideal) (op : Op) : Seen :=
  { before := i.offset, answer := (i.exec op).1, after := (i.exec op).2.offset }

end Ideal

/-- The ideal reader, whether the reader is parked, and whether it has been since the last readahead. -/
structure History where
  ideal : Ideal
  idle : Bool
  muted : Bool
  deriving DecidableEq, Repr

namespace History

/-- A new reader. -/
def new (length : Int64) : History :=
  { ideal := { length := length, offset := 0, readahead := none }, idle := false, muted := false }

/-- The call is one that switches a parked reader on. -/
def wakes : Op → Bool
  | .seek _ _ _ => true
  | .read env => env.hasInfo
  | .setReadahead _ => false

/-- The call tells the engine the readahead, on a reader in use. -/
def tells : Op → Bool
  | .setReadahead _ => true
  | _ => false

/-- One event. -/
def next (h : History) : Event → History
  | .call op =>
    { ideal := (h.ideal.exec op).2
      idle := h.idle && !wakes op
      muted := h.muted && (h.idle || !tells op) }
  | .readerOff => { h with idle := true, muted := h.muted || !h.idle }

/-- `next` as a step. -/
def step (h : History) (e : Event) : Option History := some (h.next e)

/-- **The condition**: no `SeekCurrent` other than by `0` finds the reader parked at an offset of at least `0`;
and a `Read` on a reader parked since the engine last heard of a readahead asks for none. -/
def Fair (h : History) : Event → Prop
  | .call (.seek off .seekCurrent _) => h.idle = true → off = 0 ∨ h.ideal.offset < 0
  | .call (.read env) => env.hasInfo = true → h.muted = true → h.ideal.readahead = some 0
  | _ => True

/-- A reader with this history. -/
structure Describes (h : History) (r : Reader) : Prop where
  hasCache : r.hasCache = true
  length : r.inner.length = h.ideal.length
  offset : r.offset = h.ideal.offset
  isUse : r.isUse = !h.idle
  pos : r.inner.pos = if h.idle = true ∧ 0 < h.ideal.offset then 0 else h.ideal.offset
  readahead : r.inner.readahead = if h.muted then some 0 else h.ideal.readahead
  muted : h.idle = true → h.muted = true

end History

/-! ## What `readerOn` and `readerOff` do -/

@[simp] theorem InnerReader.seek_length (r : InnerReader) (off : Int64) (w : Whence) :
    (r.seek off w).2.length = r.length := by cases w <;> rfl

@[simp] theorem InnerReader.seek_readahead (r : InnerReader) (off : Int64) (w : Whence) :
    (r.seek off w).2.readahead = r.readahead := by cases w <;> rfl

theorem InnerReader.seek_pos (r : InnerReader) (off : Int64) (origin : Origin) :
    (r.seek off origin.whence).2.pos = (r.seek off origin.whence).1 := by cases origin <;> rfl

namespace Reader

variable (r : Reader)

@[simp] theorem readerOn_offset : r.readerOn.offset = r.offset := by
  unfold readerOn setReadahead
  split
  · rfl
  · dsimp only
    split <;> rfl

@[simp] theorem readerOn_hasCache : r.readerOn.hasCache = r.hasCache := by
  unfold readerOn setReadahead
  split
  · rfl
  · dsimp only
    split <;> simp_all

@[simp] theorem readerOn_length : r.readerOn.inner.length = r.inner.length := by
  unfold readerOn setReadahead
  split
  · rfl
  · dsimp only
    split <;> split <;> simp_all [InnerReader.seek]

@[simp] theorem readerOn_readahead : r.readerOn.inner.readahead = r.inner.readahead := by
  unfold readerOn setReadahead
  split
  · rfl
  · dsimp only
    split <;> split <;> simp_all [InnerReader.seek]

@[simp] theorem seekBegin_inner (off : Int64) (w : Whence) : (r.seekBegin off w).inner = r.inner := by
  cases w <;> rfl

@[simp] theorem seekBegin_hasCache (off : Int64) (w : Whence) :
    (r.seekBegin off w).hasCache = r.hasCache := by cases w <;> rfl

theorem readerOn_pos : r.readerOn.inner.pos = if r.isUse = false ∧ r.inner.pos = 0 then r.offset
    else r.inner.pos := by
  cases huse : r.isUse with
  | true => simp [readerOn, huse]
  | false =>
    -- the readahead that is set here stays in the wrapper
    have hinner : r.readerOn.inner =
        if (r.inner.seek 0 .seekCurrent).1 = 0 then (r.inner.seek r.offset .seekStart).2 else r.inner := by
      simp only [readerOn, setReadahead, huse, Bool.false_eq_true, if_false]
      split <;> rfl
    by_cases hpos : r.inner.pos = 0
    · simp [hinner, InnerReader.seek, hpos]
    · simp [hinner, InnerReader.seek, hpos]

end Reader

/-! ## The history describes the reader -/

namespace History

variable {h : History} {r : Reader}

theorem describes_new (length : Int64) : Describes (new length) (Reader.new length) :=
  ⟨rfl, rfl, rfl, rfl, rfl, rfl, by simp [new]⟩

/-- `Read` reads from the offset. -/
theorem Describes.readerOn_pos (hr : Describes h r) : r.readerOn.inner.pos = h.ideal.offset := by
  rw [Reader.readerOn_pos, hr.isUse, hr.pos, hr.offset]
  cases h.idle with
  | false => simp
  | true =>
    by_cases hpos : 0 < h.ideal.offset
    · simp [hpos]
    · by_cases hzero : h.ideal.offset = 0 <;> simp [hpos, hzero]

/-- Where a `SeekCurrent` starts from: the offset, or the target itself on a parked reader. -/
theorem Describes.seekBegin_pos (hr : Describes h r) (off : Int64) :
    (r.seekBegin off .seekCurrent).readerOn.inner.pos =
      if h.idle = true ∧ ¬ h.ideal.offset < 0 then h.ideal.offset + off else h.ideal.offset := by
  rw [Reader.readerOn_pos]
  simp only [Reader.seekBegin, hr.isUse, hr.pos, hr.offset]
  cases h.idle with
  | false => simp
  | true =>
    by_cases hneg : h.ideal.offset < 0
    · have hpos : ¬ 0 < h.ideal.offset := Int64.lt_asymm hneg
      have hne : h.ideal.offset ≠ 0 := Int64.ne_of_lt hneg
      simp [hneg, hpos, hne]
    · rcases Int64.lt_or_eq_of_le (Int64.not_lt.mp hneg) with hpos | hzero
      · simp [hneg, hpos]
      · simp [← hzero]

/-- **Going idle** is described. -/
theorem Describes.readerOff (hr : Describes h r) : Describes (h.next .readerOff) r.readerOff := by
  cases hidle : h.idle with
  | true =>
    have huse : r.isUse = false := by rw [hr.isUse, hidle]; rfl
    have hsame : h.next .readerOff = h := by
      simp [next, hidle]
      rw [← hidle]
    have hstay : r.readerOff = r := by simp [Reader.readerOff, huse]
    rw [hsame, hstay]
    exact hr
  | false =>
    have huse : r.isUse = true := by rw [hr.isUse, hidle]; rfl
    have hoff : r.readerOff =
        { r with
          inner :=
            { r.inner with
              pos := if 0 < r.offset then 0 else r.inner.pos
              readahead := some 0 }
          readahead := 0
          isUse := false } := by
      simp only [Reader.readerOff, Reader.setReadahead, huse, hr.hasCache, if_true]
      split <;> simp_all [InnerReader.setReadahead, InnerReader.seek]
    have hpos : r.inner.pos = h.ideal.offset := by simpa [hidle] using hr.pos
    rw [hoff]
    exact ⟨hr.hasCache, hr.length, hr.offset, by simp [next], by simp [next, hr.offset, hpos],
      by simp [next, hidle], by simp [next, hidle]⟩

/-- A reader that is not parked at an offset of at least `0` starts from the offset. -/
theorem Describes.seek_iff (hr : Describes h r) (off : Int64) (origin : Origin) (now : Int) :
    (((r.seekBegin off origin.whence).readerOn.inner.seek off origin.whence).1 =
      h.ideal.target off origin) ↔ h.Fair (.call (.seek off origin now)) := by
  cases origin with
  | seekStart => simp [Origin.whence, InnerReader.seek, Ideal.target, Fair]
  | seekEnd => simp [Origin.whence, InnerReader.seek, Ideal.target, Fair, Reader.seekBegin, hr.length]
  | seekCurrent =>
    simp only [Origin.whence, InnerReader.seek, Ideal.target, Fair, hr.seekBegin_pos]
    by_cases hparked : h.idle = true ∧ ¬ h.ideal.offset < 0
    · -- the offset has been added to already
      rw [if_pos hparked]
      simp [hparked.1, hparked.2]
    · rw [if_neg hparked]
      have hfair : h.idle = true → off = 0 ∨ h.ideal.offset < 0 := by
        intro hidle
        by_contra hnot
        exact hparked ⟨hidle, fun hneg => hnot (.inr hneg)⟩
      exact iff_of_true rfl hfair

/-- **A call shows what the ideal reader shows exactly when it is fair.** -/
theorem Describes.seen_eq_iff (hr : Describes h r) (op : Op) :
    r.seen op = h.ideal.seen op ↔ h.Fair (.call op) := by
  cases op with
  | seek off origin now =>
    rw [← hr.seek_iff off origin now]
    simp only [Reader.seen, Ideal.seen, Reader.exec, Ideal.exec, Reader.seekDone, Seen.mk.injEq,
      Answer.sought.injEq]
    exact ⟨fun hseen => hseen.2.1, fun hn => ⟨hr.offset, hn, hn⟩⟩
  | read env =>
    cases hinfo : env.hasInfo with
    | false => simp [Reader.seen, Ideal.seen, Reader.exec, Ideal.exec, Fair, hinfo, hr.offset]
    | true =>
      simp only [Reader.seen, Ideal.seen, Reader.exec, Ideal.exec, Fair, hinfo, if_true,
        hr.readerOn_pos, Reader.readerOn_readahead, hr.readahead, Reader.readDone, Reader.innerRead,
        Reader.readerOn_offset, hr.offset, Seen.mk.injEq, Answer.readAt.injEq, true_and, and_true, true_implies]
      cases h.muted with
      | false => simp
      | true => simp [eq_comm]
  | setReadahead n =>
    have hset : (r.setReadahead n).offset = r.offset := by simp [Reader.setReadahead, hr.hasCache]
    simp [Reader.seen, Ideal.seen, Reader.exec, Ideal.exec, Fair, hset, hr.offset]

/-- **A fair call keeps the description.** -/
theorem Describes.exec (hr : Describes h r) {op : Op} (hfair : h.Fair (.call op)) :
    Describes (h.next (.call op)) (r.exec op).2 := by
  cases op with
  | seek off origin now =>
    have hn := (hr.seek_iff off origin now).mpr hfair
    simp only [Reader.exec, hn, Reader.innerSeek, Reader.seekDone]
    refine ⟨?_, ?_, rfl, ?_, ?_, ?_, ?_⟩
    · simpa using hr.hasCache
    · simpa [next, Ideal.exec] using hr.length
    · simp [next, wakes]
    · rw [InnerReader.seek_pos, hn]
      simp [next, wakes, Ideal.exec]
    · simpa [next, tells, Ideal.exec] using hr.readahead
    · simp [next, wakes]
  | read env =>
    cases hinfo : env.hasInfo with
    | false =>
      have hsame : h.next (.call (.read env)) = h := by simp [next, Ideal.exec, wakes, tells, hinfo]
      simpa [Reader.exec, hinfo, hsame] using hr
    | true =>
      simp only [Reader.exec, hinfo, if_true, Reader.innerRead, Reader.readDone]
      refine ⟨?_, ?_, ?_, ?_, ?_, ?_, ?_⟩
      · simpa using hr.hasCache
      · simpa [next, Ideal.exec, hinfo] using hr.length
      · simp [next, Ideal.exec, hinfo, hr.offset]
      · simp [next, wakes, hinfo]
      · simp [next, wakes, Ideal.exec, hinfo, hr.readerOn_pos]
      · simpa [next, tells, Ideal.exec, hinfo] using hr.readahead
      · simp [next, wakes, hinfo]
  | setReadahead n =>
    have hset : (r.exec (.setReadahead n)).2 =
        { r with
          inner := if r.isUse then r.inner.setReadahead n else r.inner
          readahead := n } := by
      simp [Reader.exec, Reader.setReadahead, hr.hasCache]
    rw [hset, hr.isUse]
    cases hidle : h.idle with
    | true =>
      -- the engine does not hear of it, and still has the readahead it was parked with
      have hmuted : h.muted = true := hr.muted hidle
      refine ⟨hr.hasCache, hr.length, hr.offset, ?_, ?_, ?_, ?_⟩
      · simp [next, wakes, hidle]
      · simpa [next, wakes, hidle, Ideal.exec] using hr.pos
      · simpa [next, hidle, hmuted] using hr.readahead
      · simp [next, hmuted, hidle]
    | false =>
      refine ⟨hr.hasCache, hr.length, hr.offset, ?_, ?_, ?_, ?_⟩
      · simp [next, wakes, hidle]
      · simpa [next, wakes, hidle, Ideal.exec, InnerReader.setReadahead] using hr.pos
      · simp [next, hidle, tells, Ideal.exec, InnerReader.setReadahead]
      · simp [next, hidle]

/-! ## Transparency -/

/-- The same calls on a reader that never went idle. -/
def awake (h : History) : History := { h with idle := false, muted := false }

/-- To it every call is fair. -/
theorem awake_fair (h : History) (e : Event) : h.awake.Fair e := by
  cases e with
  | readerOff => trivial
  | call op =>
    cases op with
    | seek off origin now => cases origin <;> simp [Fair, awake]
    | read env => simp [Fair, awake]
    | setReadahead n => trivial

theorem awake_next (h : History) (op : Op) : h.awake.next (.call op) = (h.next (.call op)).awake := by
  simp [next, awake]

/-- One reader that goes idle and one that does not, from any point of the same history. -/
theorem trace_eq_iff {p : Reader} (hr : Describes h r) (hp : Describes h.awake p) (events : List Event) :
    r.trace events = p.trace (calls events) ↔ Lib.Each step Fair h events := by
  induction events generalizing h r p with
  | nil => exact iff_of_true rfl trivial
  | cons e events ih =>
    rw [Lib.each_cons_some (show h.step e = some (h.next e) from rfl)]
    cases e with
    | readerOff =>
      have hcalls : calls (.readerOff :: events) = calls events := by simp [calls]
      rw [Reader.trace, hcalls, ih hr.readerOff hp]
      exact ⟨fun heach => ⟨trivial, heach⟩, fun heach => heach.2⟩
    | call op =>
      have hcalls : calls (.call op :: events) = .call op :: calls events := by simp [calls]
      have hplain : p.seen op = h.ideal.seen op := (hp.seen_eq_iff op).mpr (h.awake_fair _)
      have hp' : Describes (h.next (.call op)).awake (p.exec op).2 := by
        rw [← awake_next]
        exact hp.exec (h.awake_fair _)
      rw [Reader.trace, hcalls, Reader.trace, List.cons.injEq, hplain, hr.seen_eq_iff]
      -- after an unfair call the rest does not matter
      exact and_congr_right fun hfair => ih (hr.exec hfair) hp'

end History

/-- **Going idle is transparent exactly when every call is fair**: the results of `Seek`, the positions and
readahead of `Read`, and `Offset()` are those without it. -/
theorem idle_transparent_iff (length : Int64) (events : List Event) :
    (Reader.new length).trace events = (Reader.new length).trace (calls events) ↔
      Lib.Each History.step History.Fair (History.new length) events :=
  History.trace_eq_iff (History.describes_new length) (History.describes_new length) events

/-- **A parked reader shows**: `SeekCurrent` by 10 from 100 leads to 120, and a `Read` after
`SetReadahead(1 << 20)` has none. -/
theorem parked_reader_shows :
    (Reader.new 1000).trace
        [.call (.seek 100 .seekStart 0), .readerOff, .call (.seek 10 .seekCurrent 0)] =
      [⟨0, .sought 100, 100⟩, ⟨100, .sought 120, 120⟩] ∧
    (Reader.new 1000).trace
        [.call (.seek 100 .seekStart 0), .call (.seek 10 .seekCurrent 0)] =
      [⟨0, .sought 100, 100⟩, ⟨100, .sought 110, 110⟩] ∧
    (Reader.new 1000).trace
        [.call (.setReadahead (2 ^ 20)), .readerOff, .call (.read ⟨0, 5, true⟩)] =
      [⟨0, .done, 0⟩, ⟨0, .readAt 0 (some 0), 5⟩] ∧
    (Reader.new 1000).trace [.call (.setReadahead (2 ^ 20)), .call (.read ⟨0, 5, true⟩)] =
      [⟨0, .done, 0⟩, ⟨0, .readAt 0 (some (2 ^ 20)), 5⟩] := by
  decide +kernel

end TorrServer.Torrstor
