/-
# Torrstor.Reader — the torrent storage reader and its use counter.

`torrstor.Reader` wraps the engine's reader of one file. It keeps its own offset and readahead, a closed flag,
and an `isUse` flag that goes off when the reader is idle; the cache counts the readers in use in
`activeReaders`, and every reader's window is the capacity divided by that count.

In the cache any number of calls are in flight: one step is one mutex-delimited section of `newReader`, `Seek`,
`Read`, `Reader.Close`, `Cache.CloseReader`, or of the `checkReader` loop that `getRemPieces` and
`clearPriority` run. `Read` and `ReadContext` have the same sections.

The counter is exact in every reachable state, up to the width of its type. That a closed reader is idle is not
so: `readerOn` does not look at `isClosed`. It is so for calls in good order, apart from the moment in which
`Close` has set the flag and not yet switched the reader off (`orderly_closed_idle`).
-/
import TorrServer.Lib.Runs
import Mathlib.Algebra.Order.Ring.Int
import Mathlib.Data.List.Count

namespace TorrServer.Torrstor

open List

/-! ## The engine's reader -/

/-- The third argument of `Seek`; `bad` stands for every value that is not one of the three. -/
inductive Whence
  | seekStart
  | seekCurrent
  | seekEnd
  | bad
  deriving DecidableEq, Repr

/-- The engine's reader of one file. A `readahead` of `none` is the dynamic default of a new reader. -/
structure InnerReader where
  pos : Int64
  length : Int64
  readahead : Option Int64
  deriving DecidableEq, Repr

/-- `reader.Seek`: the new position, or `0` and no change on a bad `whence`. -/
def InnerReader.seek (r : InnerReader) (off : Int64) : Whence → Int64 × InnerReader
  | .seekStart => (off, { r with pos := off })
  | .seekCurrent => (r.pos + off, { r with pos := r.pos + off })
  | .seekEnd => (r.length + off, { r with pos := r.length + off })
  | .bad => (0, r)

/-- `SetReadahead`. -/
def InnerReader.setReadahead (r : InnerReader) (n : Int64) : InnerReader :=
  { r with readahead := some n }

/-! ## The wrapper -/

/-- `torrstor.Reader`.  `hasCache` is `r.cache != nil`. -/
structure Reader where
  inner : InnerReader
  offset : Int64
  readahead : Int64
  hasCache : Bool
  isClosed : Bool
  lastAccess : Int
  isUse : Bool
  deriving DecidableEq, Repr

namespace Reader

variable (r : Reader)

/-- `SetReadahead`: nothing before the cache is attached; the engine hears of it while the reader is in use. -/
def setReadahead (r : Reader) (n : Int64) : Reader :=
  if r.hasCache then
    { r with
      inner := if r.isUse then r.inner.setReadahead n else r.inner
      readahead := n }
  else r

/-- What `newReader` builds. Its own `SetReadahead(16 << 20)` comes before `r.cache = cache`, without effect. -/
def new (length : Int64) : Reader :=
  let r : Reader :=
    { inner := { pos := 0, length := length, readahead := none }
      offset := 0, readahead := 0, hasCache := false
      isClosed := false, lastAccess := 0, isUse := false }
  let r := r.setReadahead (16 * 1024 * 1024)
  { r with hasCache := true, isUse := true }

/-- `readerOn` without the counter: restore the position of a reader parked at the start. -/
def readerOn : Reader :=
  if r.isUse then r
  else
    let inner := if (r.inner.seek 0 .seekCurrent).1 = 0 then (r.inner.seek r.offset .seekStart).2
      else r.inner
    let r := { r with inner := inner }
    { r.setReadahead r.readahead with isUse := true }

/-- `readerOff` without the counter: drop the readahead and park the engine's reader. -/
def readerOff : Reader :=
  if r.isUse then
    let r := { r.setReadahead 0 with isUse := false }
    if r.offset > 0 then { r with inner := (r.inner.seek 0 .seekStart).2 } else r
  else r

/-- First section of `Seek`, taken only by an open reader. -/
def seekBegin (off : Int64) : Whence → Reader
  | .seekStart => { r with offset := off }
  | .seekCurrent => { r with offset := r.offset + off }
  | .seekEnd => { r with offset := r.inner.length + off }
  | .bad => r

/-- Last section of `Seek`. -/
def seekDone (n : Int64) (now : Int) : Reader :=
  { r with offset := n, lastAccess := now }

/-- Last section of `Read` and `ReadContext`. -/
def readDone (n : Int64) (now : Int) : Reader :=
  { r with offset := r.offset + n, lastAccess := now }

/-- The engine's `Seek` between the sections. -/
def innerSeek (off : Int64) (w : Whence) : Reader :=
  { r with inner := (r.inner.seek off w).2 }

/-- The engine's `Read` of `n` bytes between the sections. -/
def innerRead (n : Int64) : Reader :=
  { r with inner := { r.inner with pos := r.inner.pos + n } }

/-- The section of `Close` that an open reader takes. -/
def markClosed : Reader := { r with isClosed := true }

/-! What each of them does to the two flags. -/

@[simp] theorem setReadahead_isUse (n : Int64) : (r.setReadahead n).isUse = r.isUse := by
  unfold setReadahead; split <;> rfl

@[simp] theorem setReadahead_isClosed (n : Int64) : (r.setReadahead n).isClosed = r.isClosed := by
  unfold setReadahead; split <;> rfl

@[simp] theorem new_isUse (length : Int64) : (new length).isUse = true := rfl

@[simp] theorem new_isClosed (length : Int64) : (new length).isClosed = false := by simp [new]

@[simp] theorem readerOn_isUse : r.readerOn.isUse = true := by
  unfold readerOn
  split
  · assumption
  · rfl

@[simp] theorem readerOn_isClosed : r.readerOn.isClosed = r.isClosed := by
  unfold readerOn
  split <;> simp

@[simp] theorem readerOff_isUse : r.readerOff.isUse = false := by
  unfold readerOff
  split
  · dsimp only
    split <;> rfl
  · simp_all

@[simp] theorem readerOff_isClosed : r.readerOff.isClosed = r.isClosed := by
  unfold readerOff
  split
  · dsimp only
    split <;> simp
  · rfl

@[simp] theorem seekBegin_isUse (off : Int64) (w : Whence) :
    (r.seekBegin off w).isUse = r.isUse := by cases w <;> rfl

@[simp] theorem seekBegin_isClosed (off : Int64) (w : Whence) :
    (r.seekBegin off w).isClosed = r.isClosed := by cases w <;> rfl

end Reader

/-! ## The cache and the calls in flight -/

/-- Where a call stands between two sections. -/
inductive Pc
  /-- `newReader` has counted its reader and is about to enter it in `cache.readers`. -/
  | newReader (id : Nat)
  /-- `Seek` found the reader open and is about to run `readerOn`. -/
  | seekOn (id : Nat) (off : Int64) (w : Whence)
  | seekInner (id : Nat) (off : Int64) (w : Whence)
  | seekDone (id : Nat) (n : Int64)
  /-- `Read` found the reader open and is about to run `readerOn`. -/
  | readOn (id : Nat)
  | readInner (id : Nat)
  | readDone (id : Nat) (n : Int64)
  /-- `Close` has set `isClosed` and is about to run `readerOff`. -/
  | closeOff (id : Nat) (viaCache : Bool)
  /-- `CloseReader` holds `muReaders` and is about to call `Close`. -/
  | closeReader (id : Nat)
  | closeDelete (id : Nat)
  /-- The `checkReader` loop, between two readers. -/
  | sweep (todo : List Nat)
  /-- `checkReader` has read `lastAccess` and is about to switch the reader on or off. -/
  | check (id : Nat) (accessTime : Int) (todo : List Nat)
  deriving DecidableEq, Repr

/-- The calls of a thread. `sweep` is the loop of `getRemPieces` and of `clearPriority`, in any order. -/
inductive Call
  | newReader (length : Int64)
  | seek (id : Nat) (off : Int64) (w : Whence)
  | read (id : Nat)
  | close (id : Nat)
  | closeReader (id : Nat)
  | sweep (order : List Nat)
  deriving DecidableEq, Repr

/-- The clock, the number of bytes the engine read, and whether the torrent still has its info. -/
structure Env where
  now : Int
  bytes : Int64
  hasInfo : Bool
  deriving DecidableEq, Repr

/-- One step: thread `tid` starts a call, or runs the next section of the call it is in. -/
inductive Act
  | call (tid : Nat) (c : Call)
  | resume (tid : Nat) (env : Env)
  deriving DecidableEq, Repr

/-- Every reader ever created, the ids `newReader` has returned, those in `cache.readers`, the counter,
`muReaders`, and the calls in flight. -/
structure Cache where
  objs : List Reader
  handed : List Nat
  readers : List Nat
  activeReaders : Int32
  muWriter : Bool
  muReads : Nat
  threads : Nat → Option Pc

namespace Cache

variable (c : Cache)

/-- `NewCache`: no reader yet. -/
def init : Cache :=
  { objs := [], handed := [], readers := [], activeReaders := 0
    muWriter := false, muReads := 0, threads := fun _ => none }

/-- Put thread `tid` at `pc`, or end its call. -/
def setThread (tid : Nat) (pc : Option Pc) : Cache :=
  { c with threads := fun t => if t = tid then pc else c.threads t }

/-- Apply `f` to reader `id`. -/
def modify (id : Nat) (f : Reader → Reader) : Cache :=
  match c.objs[id]? with
  | some r => { c with objs := c.objs.set id (f r) }
  | none => c

/-- `readerOn` with its counter. -/
def readerOn (c : Cache) (id : Nat) : Cache :=
  match c.objs[id]? with
  | some r =>
    { c with
      objs := c.objs.set id r.readerOn
      activeReaders := if r.isUse then c.activeReaders else c.activeReaders + 1 }
  | none => c

/-- `readerOff` with its counter. -/
def readerOff (c : Cache) (id : Nat) : Cache :=
  match c.objs[id]? with
  | some r =>
    { c with
      objs := c.objs.set id r.readerOff
      activeReaders := if r.isUse then c.activeReaders - 1 else c.activeReaders }
  | none => c

/-- Reader `id` is closed. -/
def closed (id : Nat) : Bool := (c.objs[id]?.map (·.isClosed)).getD false

/-- Reader `id` is in use. -/
def inUse (id : Nat) : Bool := (c.objs[id]?.map (·.isUse)).getD false

/-- The number of readers in use. -/
def useCount : Nat := c.objs.countP (·.isUse)

/-- `checkReader`'s test: idle for more than a minute, and not the only reader of the cache. -/
def goesIdle (accessTime now : Int) : Bool :=
  now > accessTime + 60 && c.readers.length > 1

/-- First section of a call by thread `tid`. -/
def begin (tid : Nat) : Call → Option Cache
  | .newReader length =>
    some ({ c with
      objs := c.objs ++ [Reader.new length]
      activeReaders := c.activeReaders + 1 }.setThread tid (some (.newReader c.objs.length)))
  | .seek id off w =>
    if id ∉ c.handed then none
    else if c.closed id then some c
    else some ((c.modify id (·.seekBegin off w)).setThread tid (some (.seekOn id off w)))
  | .read id =>
    if id ∉ c.handed then none
    else if c.closed id then some c
    else some (c.setThread tid (some (.readOn id)))
  | .close id =>
    if id ∉ c.handed then none
    else if c.closed id then some c
    else some ((c.modify id (·.markClosed)).setThread tid (some (.closeOff id false)))
  | .closeReader id =>
    if id ∉ c.handed then none
    else if c.muWriter || c.muReads != 0 then none
    else some ({ c with muWriter := true }.setThread tid (some (.closeReader id)))
  | .sweep order =>
    if c.muWriter then none
    else if order.isPerm c.readers then
      some ({ c with muReads := c.muReads + 1 }.setThread tid (some (.sweep order)))
    else none

/-- The next section of the call thread `tid` is in. -/
def resume (tid : Nat) (env : Env) : Pc → Option Cache
  | .newReader id =>
    if c.muWriter || c.muReads != 0 then none
    else some ({ c with
      readers := id :: c.readers
      handed := id :: c.handed }.setThread tid none)
  | .seekOn id off w => some ((c.readerOn id).setThread tid (some (.seekInner id off w)))
  | .seekInner id off w =>
    let n := ((c.objs[id]?.map fun r => (r.inner.seek off w).1).getD 0)
    some ((c.modify id (·.innerSeek off w)).setThread tid (some (.seekDone id n)))
  | .seekDone id n => some ((c.modify id (·.seekDone n env.now)).setThread tid none)
  | .readOn id =>
    if env.hasInfo then some ((c.readerOn id).setThread tid (some (.readInner id)))
    else some (c.setThread tid none)
  | .readInner id =>
    some ((c.modify id (·.innerRead env.bytes)).setThread tid (some (.readDone id env.bytes)))
  | .readDone id n => some ((c.modify id (·.readDone n env.now)).setThread tid none)
  | .closeOff id viaCache =>
    some ((c.readerOff id).setThread tid (if viaCache then some (.closeDelete id) else none))
  | .closeReader id =>
    if c.closed id then some (c.setThread tid (some (.closeDelete id)))
    else some ((c.modify id (·.markClosed)).setThread tid (some (.closeOff id true)))
  | .closeDelete id =>
    some ({ c with readers := c.readers.erase id, muWriter := false }.setThread tid none)
  | .sweep [] => some ({ c with muReads := c.muReads - 1 }.setThread tid none)
  | .sweep (id :: todo) =>
    let accessTime := ((c.objs[id]?.map (·.lastAccess)).getD 0)
    some (c.setThread tid (some (.check id accessTime todo)))
  | .check id accessTime todo =>
    if c.goesIdle accessTime env.now then
      some ((c.readerOff id).setThread tid (some (.sweep todo)))
    else some ((c.readerOn id).setThread tid (some (.sweep todo)))

/-- One step: a thread that is in no call starts one, one that is in a call goes on. -/
def step : Act → Option Cache
  | .call tid call => if c.threads tid = none then c.begin tid call else none
  | .resume tid env => (c.threads tid).bind (c.resume tid env)

/-! ## What one step can do to the flags and to the counter -/

/-- The reader on which the step runs `readerOn`, if it does. -/
def turnsOn : Act → Option Nat
  | .call _ _ => none
  | .resume tid env =>
    match c.threads tid with
    | some (.seekOn id _ _) => some id
    | some (.readOn id) => if env.hasInfo then some id else none
    | some (.check id accessTime _) => if c.goesIdle accessTime env.now then none else some id
    | _ => none

/-- The reader the step marks as closed, if it does. -/
def closes : Act → Option Nat
  | .call _ (.close id) => if c.closed id then none else some id
  | .call _ _ => none
  | .resume tid _ =>
    match c.threads tid with
    | some (.closeReader id) => if c.closed id then none else some id
    | _ => none

/-- Same counter, and the same two flags on every reader. -/
def SameUse (c c' : Cache) : Prop :=
  c'.objs.map (fun r => (r.isClosed, r.isUse)) = c.objs.map (fun r => (r.isClosed, r.isUse)) ∧
    c'.activeReaders = c.activeReaders

@[grind =] theorem setThread_threads (tid : Nat) (pc : Option Pc) (t : Nat) :
    (c.setThread tid pc).threads t = if t = tid then pc else c.threads t := rfl

@[grind =] theorem modify_threads (id : Nat) (f : Reader → Reader) :
    (c.modify id f).threads = c.threads := by
  unfold modify
  split <;> rfl

@[grind =] theorem readerOn_threads (id : Nat) : (c.readerOn id).threads = c.threads := by
  unfold readerOn
  split <;> rfl

@[grind =] theorem readerOff_threads (id : Nat) : (c.readerOff id).threads = c.threads := by
  unfold readerOff
  split <;> rfl

@[simp] theorem setThread_objs (tid : Nat) (pc : Option Pc) : (c.setThread tid pc).objs = c.objs := rfl

@[simp] theorem setThread_activeReaders (tid : Nat) (pc : Option Pc) :
    (c.setThread tid pc).activeReaders = c.activeReaders := rfl

@[simp] theorem modify_activeReaders (id : Nat) (f : Reader → Reader) :
    (c.modify id f).activeReaders = c.activeReaders := by
  unfold modify; split <;> rfl

theorem sameUse_modify (id : Nat) (f : Reader → Reader)
    (hc : ∀ r, (f r).isClosed = r.isClosed) (hu : ∀ r, (f r).isUse = r.isUse) :
    SameUse c (c.modify id f) := by
  refine ⟨?_, modify_activeReaders c id f⟩
  unfold modify
  split
  · rename_i r hr
    apply ext_getElem?
    intro j
    simp only [getElem?_map, getElem?_set]
    by_cases hj : id = j
    · subst hj
      obtain ⟨hlt, rfl⟩ := List.getElem?_eq_some_iff.mp hr
      simp [hlt, hc, hu]
    · simp [hj]
  · rfl

/-- What a step does: it leaves flags and counter, creates an open reader in use, switches a reader on, or off,
or marks an open one closed. The indices are the reader it switches on and the one it closes. -/
inductive Effect (c c' : Cache) : Option Nat → Option Nat → Prop
  | same (h : SameUse c c') : Effect c c' none none
  | create (length : Int64) (ho : c'.objs = c.objs ++ [Reader.new length])
      (hn : c'.activeReaders = c.activeReaders + 1) : Effect c c' none none
  | on (id : Nat) (ho : c'.objs = (c.readerOn id).objs)
      (hn : c'.activeReaders = (c.readerOn id).activeReaders) : Effect c c' (some id) none
  | off (id : Nat) (ho : c'.objs = (c.readerOff id).objs)
      (hn : c'.activeReaders = (c.readerOff id).activeReaders) : Effect c c' none none
  | close (id : Nat) (ho : c'.objs = (c.modify id Reader.markClosed).objs)
      (hn : c'.activeReaders = c.activeReaders) : Effect c c' none (some id)

/-- **Every step is one of these.** -/
theorem effect_of_step {c c' : Cache} {a : Act} (h : c.step a = some c') :
    Effect c c' (c.turnsOn a) (c.closes a) := by
  have hsame : ∀ {id : Nat} {f : Reader → Reader} {tid : Nat} {pc : Option Pc},
      (∀ r, (f r).isClosed = r.isClosed) → (∀ r, (f r).isUse = r.isUse) →
      Effect c ((c.modify id f).setThread tid pc) none none :=
    fun hclosed huse => .same (sameUse_modify c _ _ hclosed huse)
  have hclose : ∀ {id tid : Nat} {pc : Option Pc},
      Effect c ((c.modify id Reader.markClosed).setThread tid pc) none (some id) :=
    .close _ rfl (modify_activeReaders c _ _)
  cases a with
  | call tid call =>
    simp only [step] at h
    split at h
    case isFalse => cases h
    case isTrue =>
    cases call with
    | newReader length =>
      cases h
      exact .create length rfl rfl
    | seek id off w =>
      simp only [begin] at h
      split at h
      · cases h
      · split at h <;> cases h
        · exact .same ⟨rfl, rfl⟩
        · exact hsame (by simp) (by simp)
    | read id =>
      simp only [begin] at h
      split at h
      · cases h
      · split at h <;> cases h <;> exact .same ⟨rfl, rfl⟩
    | close id =>
      simp only [begin, closes] at h ⊢
      split at h
      · cases h
      · split at h <;> cases h <;> rename_i hclosed
        · rw [if_pos hclosed]
          exact .same ⟨rfl, rfl⟩
        · rw [if_neg hclosed]
          exact hclose
    | closeReader id =>
      simp only [begin] at h
      split at h
      · cases h
      · split at h <;> cases h
        exact .same ⟨rfl, rfl⟩
    | sweep order =>
      simp only [begin] at h
      split at h
      · cases h
      · split at h <;> cases h
        exact .same ⟨rfl, rfl⟩
  | resume tid env =>
    simp only [step, Option.bind_eq_some_iff] at h
    obtain ⟨pc, hpc, h⟩ := h
    simp only [turnsOn, closes, hpc]
    cases pc with
    | newReader id =>
      simp only [resume] at h
      split at h <;> cases h
      exact .same ⟨rfl, rfl⟩
    | seekOn id off w =>
      cases h
      exact .on id rfl rfl
    | seekInner | seekDone | readInner | readDone =>
      cases h
      exact hsame (fun _ => rfl) (fun _ => rfl)
    | readOn id =>
      simp only [resume] at h ⊢
      split at h <;> cases h <;> rename_i hinfo
      · rw [if_pos hinfo]
        exact .on id rfl rfl
      · rw [if_neg hinfo]
        exact .same ⟨rfl, rfl⟩
    | closeOff id viaCache =>
      cases h
      exact .off id rfl rfl
    | closeReader id =>
      simp only [resume] at h ⊢
      split at h <;> cases h <;> rename_i hclosed
      · rw [if_pos hclosed]
        exact .same ⟨rfl, rfl⟩
      · rw [if_neg hclosed]
        exact hclose
    | closeDelete id =>
      cases h
      exact .same ⟨rfl, rfl⟩
    | sweep todo => cases todo <;> cases h <;> exact .same ⟨rfl, rfl⟩
    | check id accessTime todo =>
      -- `checkReader` switches the reader one way or the other, closed or not
      simp only [resume] at h ⊢
      split at h <;> cases h <;> rename_i hidle
      · rw [if_pos hidle]
        exact .off id rfl rfl
      · rw [if_neg hidle]
        exact .on id rfl rfl

/-! ## The counter -/

/-- `activeReaders` is the number of readers in use, as far as its type reaches. -/
def Counted : Prop := c.activeReaders = Int32.ofNat c.useCount

theorem Counted.toInt_eq {c : Cache} (h : c.Counted) (hlt : c.useCount < 2 ^ 31) :
    c.activeReaders.toInt = c.useCount := by
  rw [h, Int32.toInt_ofNat_of_lt hlt]

theorem SameUse.useCount_eq {c c' : Cache} (h : SameUse c c') : c'.useCount = c.useCount := by
  have hcount : ∀ l : List Reader,
      l.countP (·.isUse) = (l.map fun r => (r.isClosed, r.isUse)).countP (·.2) := by
    intro l
    rw [countP_map]
    rfl
  unfold useCount
  rw [hcount, hcount, h.1]

theorem useCount_modify (id : Nat) (f : Reader → Reader)
    (hu : ∀ r, (f r).isUse = r.isUse) : (c.modify id f).useCount = c.useCount := by
  unfold modify useCount
  split
  · rename_i r hr
    obtain ⟨hlt, rfl⟩ := List.getElem?_eq_some_iff.mp hr
    have hle := boole_getElem_le_countP (p := fun r : Reader => r.isUse) hlt
    rw [countP_set hlt]
    simp only [hu]
    omega
  · rfl

theorem Counted.readerOn {c : Cache} (h : c.Counted) (id : Nat) : (c.readerOn id).Counted := by
  unfold Counted Cache.readerOn useCount at *
  split
  · rename_i r hr
    obtain ⟨hlt, rfl⟩ := List.getElem?_eq_some_iff.mp hr
    have hle := boole_getElem_le_countP (p := fun r : Reader => r.isUse) hlt
    simp only [countP_set hlt, Reader.readerOn_isUse, if_true]
    split
    · rename_i hu
      rw [if_pos hu] at hle
      rw [h, Nat.sub_add_cancel hle]
    · rw [Nat.sub_zero, h, Int32.ofNat_add]
      rfl
  · exact h

theorem Counted.readerOff {c : Cache} (h : c.Counted) (id : Nat) : (c.readerOff id).Counted := by
  unfold Counted Cache.readerOff useCount at *
  split
  · rename_i r hr
    obtain ⟨hlt, rfl⟩ := List.getElem?_eq_some_iff.mp hr
    have hle := boole_getElem_le_countP (p := fun r : Reader => r.isUse) hlt
    simp only [countP_set hlt, Reader.readerOff_isUse]
    split
    · rename_i hu
      rw [if_pos hu] at hle
      rw [h, ← Nat.sub_add_cancel hle, Int32.ofNat_add]
      simp
    · simp [h]
  · exact h

/-- The counter stays exact over every step. -/
theorem Counted.step {c c' : Cache} {a : Act} (hc : c.Counted) (h : c.step a = some c') : c'.Counted := by
  have heffect := effect_of_step h
  generalize c.turnsOn a = on, c.closes a = closing at heffect
  cases heffect with
  | same hs =>
    rw [Counted, hs.2, hs.useCount_eq]
    exact hc
  | create length ho hn =>
    rw [Counted, useCount, ho, hn, hc, useCount]
    simp [Int32.ofNat_add]
  | on id ho hn =>
    rw [Counted, useCount, ho, hn]
    exact hc.readerOn id
  | off id ho hn =>
    rw [Counted, useCount, ho, hn]
    exact hc.readerOff id
  | close id ho hn =>
    rw [Counted, useCount, ho, hn, hc]
    exact congrArg _ (useCount_modify c id Reader.markClosed fun _ => rfl).symm

/-! ## When a closed reader is idle -/

/-- The call may still run `readerOn` on the reader: it is a `Read` or `Seek` that has found the reader open, or
a loop that is still to visit it. -/
def mayTurnOn (id : Nat) : Pc → Prop
  | .seekOn i _ _ => i = id
  | .readOn i => i = id
  | .sweep todo => id ∈ todo
  | .check i _ todo => i = id ∨ id ∈ todo
  | _ => False

/-- The condition on a step: when `Close` sets `isClosed`, no call in flight may still switch the reader on; and
no `checkReader` loop starts while a closed reader is left in `cache.readers`. -/
structure Orderly (a : Act) : Prop where
  close : ∀ id, c.closes a = some id → ∀ tid pc, c.threads tid = some pc → ¬ mayTurnOn id pc
  sweep : ∀ tid order, a = .call tid (.sweep order) → ∀ id ∈ c.readers, c.closed id = false

/-- A closed reader is idle, or its `Close` has still to switch it off. -/
def IdleOnceClosed : Prop :=
  ∀ id, c.closed id = true → c.inUse id = true → ∃ tid viaCache, c.threads tid = some (.closeOff id viaCache)

/-- What holds between the calls of an orderly run. -/
structure InOrder : Prop where
  opened : ∀ tid pc id, c.threads tid = some pc → mayTurnOn id pc → c.closed id = false
  idle : c.IdleOnceClosed

section Steps

variable {c c' : Cache} {a : Act} {id : Nat}

/-- A call that may switch the reader on was such a call before the step, or has just found it open, or is a
loop that starts with it in `cache.readers`. -/
theorem mayTurnOn_of_step (h : c.step a = some c') {t : Nat} {pc : Pc} (ht : c'.threads t = some pc)
    (hpc : mayTurnOn id pc) :
    (∃ pc', c.threads t = some pc' ∧ mayTurnOn id pc') ∨ (c.closes a = none ∧ c.closed id = false) ∨
      ∃ order, a = .call t (.sweep order) ∧ id ∈ c.readers := by
  cases a with
  | call tid call =>
    simp only [step] at h
    split at h
    case isFalse => cases h
    case isTrue =>
    cases call with
    | sweep order =>
      simp only [begin] at h
      split at h
      · cases h
      · split at h <;> cases h
        rename_i hperm
        rw [setThread_threads] at ht
        split at ht
        · rename_i htid
          cases ht
          exact .inr (.inr ⟨order, by rw [htid], (List.isPerm_iff.1 hperm).mem_iff.1 hpc⟩)
        · exact .inl ⟨pc, ht, hpc⟩
    | _ =>
      simp only [begin, closes] at h ⊢
      grind [mayTurnOn]
  | resume tid env =>
    simp only [step, Option.bind_eq_some_iff] at h
    obtain ⟨pc', hpc', h⟩ := h
    cases pc' with
    | sweep todo => cases todo <;> simp only [resume] at h <;> grind [mayTurnOn]
    | _ =>
      simp only [resume] at h
      grind [mayTurnOn]

/-- A step that runs `readerOn` belongs to a call that might do so. -/
theorem mayTurnOn_of_turnsOn (h : c.turnsOn a = some id) :
    ∃ tid pc, c.threads tid = some pc ∧ mayTurnOn id pc := by
  cases a with
  | call tid call => cases h
  | resume tid env =>
    simp only [turnsOn] at h
    split at h <;> grind [mayTurnOn]

/-- The step that sets `isClosed` leaves its call before `readerOff`. -/
theorem closeOff_of_closes (h : c.step a = some c') (hcloses : c.closes a = some id) :
    ∃ tid viaCache, c'.threads tid = some (.closeOff id viaCache) := by
  cases a with
  | call tid call =>
    cases call with
    | close i =>
      simp only [step, begin, closes] at h hcloses
      exact ⟨tid, false, by grind⟩
    | _ => cases hcloses
  | resume tid env =>
    simp only [step, Option.bind_eq_some_iff] at h
    obtain ⟨pc, hpc, h⟩ := h
    simp only [closes, hpc] at hcloses
    cases pc with
    | closeReader i =>
      simp only [resume] at h
      exact ⟨tid, true, by grind⟩
    | _ => cases hcloses

theorem inUse_readerOff (c : Cache) (id : Nat) : (c.readerOff id).inUse id = false := by
  unfold readerOff inUse
  split
  · rename_i r hr
    obtain ⟨hlt, rfl⟩ := List.getElem?_eq_some_iff.mp hr
    simp [hlt]
  · rename_i hr
    simp [hr]

/-- A call before `readerOff` stays there until it has switched the reader off. -/
theorem closeOff_of_step (h : c.step a = some c') {t : Nat} {viaCache : Bool}
    (ht : c.threads t = some (.closeOff id viaCache)) :
    c'.threads t = some (.closeOff id viaCache) ∨ c'.inUse id = false := by
  cases a with
  | call tid call =>
    simp only [step] at h
    split at h
    case isFalse => cases h
    case isTrue =>
    cases call <;> simp only [begin] at h <;> grind
  | resume tid env =>
    simp only [step, Option.bind_eq_some_iff] at h
    obtain ⟨pc, hpc, h⟩ := h
    by_cases htid : t = tid
    · subst htid
      cases hpc.symm.trans ht
      cases h
      exact .inr (inUse_readerOff c id)
    · left
      cases pc with
      | sweep todo => cases todo <;> simp only [resume] at h <;> grind
      | _ =>
        simp only [resume] at h
        grind

theorem getElem?_modify (c : Cache) (i id : Nat) (f : Reader → Reader) :
    (c.modify i f).objs[id]? = if i = id then c.objs[id]?.map f else c.objs[id]? := by
  unfold modify
  split
  · rename_i r hr
    rw [List.getElem?_set]
    split
    · rename_i heq
      rw [← heq, hr, if_pos (List.getElem?_eq_some_iff.mp hr).1]
      rfl
    · rfl
  · rename_i hr
    split
    · rename_i heq
      rw [← heq, hr]
      rfl
    · rfl

theorem readerOn_objs (c : Cache) (id : Nat) : (c.readerOn id).objs = (c.modify id Reader.readerOn).objs := by
  unfold readerOn modify
  split <;> rfl

theorem readerOff_objs (c : Cache) (id : Nat) :
    (c.readerOff id).objs = (c.modify id Reader.readerOff).objs := by
  unfold readerOff modify
  split <;> rfl

theorem SameUse.flags (h : SameUse c c') (id : Nat) :
    c'.closed id = c.closed id ∧ c'.inUse id = c.inUse id := by
  have hflags := congrArg (·[id]?) h.1
  simp only [List.getElem?_map] at hflags
  simp only [closed, inUse]
  cases hobj : c.objs[id]? <;> cases hobj' : c'.objs[id]? <;> simp_all

/-- **The flags after a step**: only the section of `Close` makes a reader closed, and only `readerOn` brings a
closed reader into use. -/
theorem flags_of_step (h : c.step a = some c') (hclosed : c'.closed id = true) :
    (c.closed id = true ∨ c.closes a = some id) ∧
      (c'.inUse id = true → c.inUse id = true ∨ c.turnsOn a = some id) := by
  unfold closed inUse at *
  have heffect := effect_of_step h
  generalize c.turnsOn a = on, c.closes a = closing at heffect ⊢
  cases heffect with
  | same hs =>
    obtain ⟨hsame, hsameUse⟩ := hs.flags id
    simp only [closed, inUse] at hsame hsameUse
    exact ⟨.inl (hsame ▸ hclosed), fun huse => .inl (hsameUse ▸ huse)⟩
  | create length ho hn =>
    rw [ho] at hclosed ⊢
    by_cases hid : id < c.objs.length
    · rw [List.getElem?_append_left hid] at hclosed ⊢
      exact ⟨.inl hclosed, .inl⟩
    · -- a new reader is open
      rw [List.getElem?_append_right (by omega), List.getElem?_singleton] at hclosed
      split at hclosed <;> simp at hclosed
  | on i ho hn =>
    rw [ho, readerOn_objs, getElem?_modify] at hclosed ⊢
    by_cases hid : i = id
    · subst hid
      rw [if_pos rfl, Option.map_map] at hclosed
      exact ⟨.inl (by simpa [Function.comp_def] using hclosed), fun _ => .inr rfl⟩
    · rw [if_neg hid] at hclosed ⊢
      exact ⟨.inl hclosed, .inl⟩
  | off i ho hn =>
    rw [ho, readerOff_objs, getElem?_modify] at hclosed ⊢
    split at hclosed
    · rename_i hid
      rw [if_pos hid]
      rw [Option.map_map] at hclosed ⊢
      refine ⟨.inl (by simpa [Function.comp_def] using hclosed), fun huse => ?_⟩
      cases hobj : c.objs[id]? <;> simp [hobj] at huse
    · rename_i hid
      rw [if_neg hid]
      exact ⟨.inl hclosed, .inl⟩
  | close i ho hn =>
    rw [ho, getElem?_modify] at hclosed ⊢
    by_cases hid : i = id
    · subst hid
      refine ⟨.inr rfl, fun huse => .inl ?_⟩
      rw [if_pos rfl, Option.map_map] at huse
      exact huse
    · rw [if_neg hid] at hclosed ⊢
      exact ⟨.inl hclosed, .inl⟩

/-- **An orderly step** keeps the order. -/
theorem InOrder.step (hc : c.InOrder) (ha : c.Orderly a) (h : c.step a = some c') : c'.InOrder := by
  refine ⟨fun tid pc id hpc hmay => ?_, fun id hclosed huse => ?_⟩
  · by_contra hclosed
    rw [Bool.not_eq_false] at hclosed
    rcases mayTurnOn_of_step h hpc hmay, (flags_of_step h hclosed).1 with
      ⟨⟨pc', hpc', hmay'⟩ | ⟨hno, hopen⟩ | ⟨order, rfl, hid⟩, hbefore | hcloses⟩
    · exact absurd (hc.opened tid pc' id hpc' hmay') (by simp [hbefore])
    · exact ha.close id hcloses tid pc' hpc' hmay'
    · exact absurd hopen (by simp [hbefore])
    · exact absurd (hno.symm.trans hcloses) (by simp)
    · exact absurd (ha.sweep tid order rfl id hid) (by simp [hbefore])
    · cases hcloses
  · obtain ⟨hbefore, hused⟩ := flags_of_step h hclosed
    rcases hbefore with hbefore | hcloses
    · rcases hused huse with hused | hturns
      · obtain ⟨t, viaCache, ht⟩ := hc.idle id hbefore hused
        rcases closeOff_of_step h ht with hstays | hoff
        · exact ⟨t, viaCache, hstays⟩
        · exact absurd huse (by simp [hoff])
      · obtain ⟨t, pc, hpc, hmay⟩ := mayTurnOn_of_turnsOn hturns
        exact absurd (hc.opened t pc id hpc hmay) (by simp [hbefore])
    · exact closeOff_of_closes h hcloses

theorem orderly_of_quiet (hcloses : c.closes a = none) (hsweep : ∀ tid order, a ≠ .call tid (.sweep order)) :
    c.Orderly a :=
  ⟨fun id hid => absurd (hcloses.symm.trans hid) (by simp), fun tid order ha => absurd ha (hsweep tid order)⟩

end Steps

/-- **Closed readers go idle in orderly runs, and the counter is right in all.** In every state of a run of
orderly steps a closed reader is idle or its `Close` has still to switch it off; and in every state of any run
`activeReaders` counts the readers in use, up to the width of its type. -/
theorem orderly_closed_idle (acts : List Act) :
    (Lib.Each step Orderly init acts → Lib.Along step IdleOnceClosed init acts) ∧
      Lib.Along step (fun c => c.activeReaders = Int32.ofNat c.useCount ∧
        (c.useCount < 2 ^ 31 → c.activeReaders.toInt = c.useCount)) init acts := by
  constructor
  · intro horderly
    have hinit : init.InOrder := by
      refine ⟨fun tid pc id hpc => ?_, fun id hclosed => ?_⟩
      · cases hpc
      · simp [closed, init] at hclosed
    have halong : Lib.Along step InOrder init acts :=
      horderly.along (fun _ _ _ hc ha h => hc.step ha h) hinit
    exact halong.mono fun _ hc => hc.idle
  · have hinit : init.Counted := rfl
    have halong : Lib.Along step Counted init acts :=
      Lib.Each.along (fun _ _ _ hc _ h => hc.step h) hinit (Lib.each_true init acts)
    exact halong.mono fun _ hc => ⟨hc, Counted.toInt_eq hc⟩

/-- A reader reads and is closed by `CloseReader`; a second one is there for the sweep that follows. -/
def readThenClosed : List Act :=
  [.call 0 (.newReader 100), .resume 0 ⟨0, 0, true⟩, .call 0 (.read 0), .resume 0 ⟨0, 0, true⟩,
   .resume 0 ⟨0, 10, true⟩, .resume 0 ⟨5, 0, true⟩, .call 1 (.newReader 100), .resume 1 ⟨5, 0, true⟩,
   .call 0 (.closeReader 0), .resume 0 ⟨6, 0, true⟩, .resume 0 ⟨6, 0, true⟩, .resume 0 ⟨6, 0, true⟩,
   .call 1 (.sweep [1]), .resume 1 ⟨7, 0, true⟩, .resume 1 ⟨7, 0, true⟩, .resume 1 ⟨7, 0, true⟩]

theorem readThenClosed_closed_idle :
    ∃ c, Lib.run step init readThenClosed = some c ∧ c.closed 0 = true ∧ c.inUse 0 = false ∧ c.IdleOnceClosed ∧
      c.activeReaders = 1 := by
  have horderly : Lib.Each step Orderly init readThenClosed := by
    iterate 9
      refine ⟨orderly_of_quiet rfl (by simp), fun _ h => ?_⟩
      cases h
    -- `CloseReader` sets the flag, and no other call is in flight
    refine ⟨⟨fun id _ tid pc hpc => ?_, by simp⟩, fun _ h => ?_⟩
    · rcases tid with _ | _ | tid <;> cases hpc
      exact not_false
    cases h
    iterate 2
      refine ⟨orderly_of_quiet rfl (by simp), fun _ h => ?_⟩
      cases h
    refine ⟨⟨fun id hid => (nomatch hid), fun _ _ _ => by decide⟩, fun _ h => ?_⟩
    cases h
    iterate 3
      refine ⟨orderly_of_quiet rfl (by simp), fun _ h => ?_⟩
      cases h
    trivial
  obtain ⟨c, hc⟩ : ∃ c, Lib.run step init readThenClosed = some c := ⟨_, rfl⟩
  have hflags : (Lib.run step init readThenClosed).map (fun c => (c.closed 0, c.inUse 0, c.activeReaders)) =
      some (true, false, 1) := by decide
  rw [hc] at hflags
  simp only [Option.map_some, Option.some.injEq, Prod.mk.injEq] at hflags
  exact ⟨c, hc, hflags.1, hflags.2.1, ((orderly_closed_idle readThenClosed).1 horderly).last hc, hflags.2.2⟩

/-- A reader that `Reader.Close` closed without leaving `cache.readers`, and the sweep that `Close` starts. -/
def closedThenSwept : List Act :=
  [.call 0 (.newReader 100), .resume 0 ⟨0, 0, true⟩, .call 1 (.close 0), .resume 1 ⟨0, 0, true⟩,
   .call 2 (.sweep [0]), .resume 2 ⟨0, 0, true⟩, .resume 2 ⟨0, 0, true⟩, .resume 2 ⟨0, 0, true⟩]

/-- A reader that is closed while a `Read` is between its test of `isClosed` and `readerOn`. -/
def closedUnderRead : List Act :=
  [.call 0 (.newReader 100), .resume 0 ⟨0, 0, true⟩, .call 0 (.read 0), .call 1 (.closeReader 0),
   .resume 1 ⟨0, 0, true⟩, .resume 1 ⟨0, 0, true⟩, .resume 1 ⟨0, 0, true⟩, .resume 0 ⟨0, 0, true⟩,
   .resume 0 ⟨0, 10, true⟩, .resume 0 ⟨0, 0, true⟩]

/-- Every call of the run returns, and it leaves the first reader closed and in use. -/
def LeavesInUse (acts : List Act) : Prop :=
  ∃ c, Lib.run step init acts = some c ∧ (∀ tid, c.threads tid = none) ∧ c.closed 0 = true ∧ c.inUse 0 = true ∧
    ¬ c.IdleOnceClosed

/-- The sweep, or the `Read`, switches the closed reader on again. -/
theorem closedThenSwept_in_use : LeavesInUse closedThenSwept ∧ LeavesInUse closedUnderRead := by
  have hnever : ∀ {c : Cache}, (∀ tid, c.threads tid = none) → c.closed 0 = true → c.inUse 0 = true →
      ¬ c.IdleOnceClosed := by
    intro c hthreads hclosed huse hidle
    obtain ⟨tid, viaCache, htid⟩ := hidle 0 hclosed huse
    cases (hthreads tid).symm.trans htid
  constructor
  · refine ⟨_, rfl, ?_, rfl, rfl, hnever ?_ rfl rfl⟩ <;> rintro (_ | _ | _ | tid) <;> rfl
  · refine ⟨_, rfl, ?_, rfl, rfl, hnever ?_ rfl rfl⟩ <;> rintro (_ | _ | tid) <;> rfl

end Cache
end TorrServer.Torrstor
