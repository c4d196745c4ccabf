/-
# Settings.ReadCache — the read cache in front of the settings database.

`DBReadCache` keeps two maps in front of a `TorrServerDB`: the data read or written per `(xPath, name)`, and the
name list read per `xPath`. `Get` and `List` fill a map after they have read the database and without holding
the lock in between; `Set` and `Rem` change the maps first and the database last. A step is one locked cache
access or one database access of one call. The database is any implementation of the interface that meets the
usual laws of a store.

The cache is coherent whenever all calls have returned, provided that writes of one key do not overlap and
nothing is filled in across a write (`coherent_of_exclusive`).
-/
import TorrServer.Lib.Runs

namespace TorrServer.Settings

variable {tid : Nat}

/-! ## The database -/

/-- `TorrServerDB` over states `δ`; `Get` gives `none` for Go's `nil`. An operation on one path leaves the
others alone. -/
structure Database (δ X N V : Type) where
  get : δ → X → N → Option V
  list : δ → X → List N
  set : δ → X → N → V → δ
  rem : δ → X → N → δ
  clear : δ → X → δ
  get_set_self : ∀ d x n v, get (set d x n v) x n = some v
  get_set_of_ne : ∀ d x n v y m, (y, m) ≠ (x, n) → get (set d x n v) y m = get d y m
  list_set_of_ne : ∀ d x n v y, y ≠ x → list (set d x n v) y = list d y
  get_rem_of_ne : ∀ d x n y m, (y, m) ≠ (x, n) → get (rem d x n) y m = get d y m
  list_rem_of_ne : ∀ d x n y, y ≠ x → list (rem d x n) y = list d y
  get_clear_of_ne : ∀ d x y m, y ≠ x → get (clear d x) y m = get d y m
  list_clear_of_ne : ∀ d x y, y ≠ x → list (clear d x) y = list d y

/-! ## The cache and the calls in flight -/

section Model

variable {δ X N V : Type}

/-- Where a call stands: the access it makes next. -/
inductive ReadCache.Pc (X N V : Type)
  | getDb (x : X) (n : N)
  | getFill (x : X) (n : N) (data : Option V)
  | listDb (x : X)
  | listFill (x : X) (names : List N)
  | setList (x : X) (n : N) (v : V)
  | setDb (x : X) (n : N) (v : V)
  | remList (x : X) (n : N)
  | remDb (x : X) (n : N)
  | clearList (x : X)
  | clearData (x : X)
  deriving DecidableEq, Repr

/-- The calls. -/
inductive ReadCache.Call (X N V : Type)
  | get (x : X) (n : N)
  | list (x : X)
  | set (x : X) (n : N) (v : V)
  | rem (x : X) (n : N)
  | clear (x : X)
  deriving DecidableEq, Repr

/-- One step: thread `tid` starts a call, or makes the next access of the call it is in. -/
inductive ReadCache.Act (X N V : Type)
  | call (tid : Nat) (c : ReadCache.Call X N V)
  | resume (tid : Nat)
  deriving DecidableEq, Repr

/-- `DBReadCache` with the calls in flight.  `dataCache x n = some none` is a cached `nil`. -/
structure ReadCache (δ X N V : Type) where
  db : δ
  listCache : X → Option (List N)
  dataCache : X → N → Option (Option V)
  threads : Nat → Option (ReadCache.Pc X N V)

namespace ReadCache

variable (D : Database δ X N V)

/-- `NewDBReadCache`. -/
def new (db : δ) : ReadCache δ X N V :=
  { db := db, listCache := fun _ => none, dataCache := fun _ _ => none, threads := fun _ => none }

/-- Put thread `tid` at `pc`, or end its call. -/
def setThread (c : ReadCache δ X N V) (tid : Nat) (pc : Option (Pc X N V)) : ReadCache δ X N V :=
  { c with threads := fun t => if t = tid then pc else c.threads t }

section Steps

variable [DecidableEq X] [DecidableEq N] (c : ReadCache δ X N V)

/-- `dataCache[key] = data` or `delete(dataCache, key)`. -/
def putData (x : X) (n : N) (e : Option (Option V)) : ReadCache δ X N V :=
  { c with dataCache := fun y m => if (y, m) = (x, n) then e else c.dataCache y m }

/-- `listCache[xPath] = names` or `delete(listCache, xPath)`. -/
def putList (x : X) (e : Option (List N)) : ReadCache δ X N V :=
  { c with listCache := fun y => if y = x then e else c.listCache y }

/-- The loop of `Clear` over `dataCache`. -/
def dropData (x : X) : ReadCache δ X N V :=
  { c with dataCache := fun y m => if y = x then none else c.dataCache y m }

/-- The first access of a call.  `Get` and `List` return at once on a hit. -/
def begin (tid : Nat) : Call X N V → ReadCache δ X N V
  | .get x n =>
    match c.dataCache x n with
    | some _ => c
    | none => c.setThread tid (some (.getDb x n))
  | .list x =>
    match c.listCache x with
    | some _ => c
    | none => c.setThread tid (some (.listDb x))
  | .set x n v => (c.putData x n (some (some v))).setThread tid (some (.setList x n v))
  | .rem x n => (c.putData x n none).setThread tid (some (.remList x n))
  | .clear x => { c with db := D.clear c.db x }.setThread tid (some (.clearList x))

/-- The next access of the call thread `tid` is in. -/
def resume (tid : Nat) : Pc X N V → ReadCache δ X N V
  | .getDb x n => c.setThread tid (some (.getFill x n (D.get c.db x n)))
  | .getFill x n data => (c.putData x n (some data)).setThread tid none
  | .listDb x => c.setThread tid (some (.listFill x (D.list c.db x)))
  | .listFill x names => (c.putList x (some names)).setThread tid none
  | .setList x n v => (c.putList x none).setThread tid (some (.setDb x n v))
  | .setDb x n v => { c with db := D.set c.db x n v }.setThread tid none
  | .remList x n => (c.putList x none).setThread tid (some (.remDb x n))
  | .remDb x n => { c with db := D.rem c.db x n }.setThread tid none
  | .clearList x => (c.putList x none).setThread tid (some (.clearData x))
  | .clearData x => (c.dropData x).setThread tid none

/-- One step: a thread that is in no call starts one, one that is in a call goes on. -/
def step : Act X N V → Option (ReadCache δ X N V)
  | .call tid call => if (c.threads tid).isNone then some (begin D c tid call) else none
  | .resume tid => (c.threads tid).map (resume D c tid)

end Steps

variable (c : ReadCache δ X N V)

/-- What a `Get` that now runs on its own returns. -/
def getNow (x : X) (n : N) : Option V :=
  (c.dataCache x n).getD (D.get c.db x n)

/-- What a `List` that now runs on its own returns. -/
def listNow (x : X) : List N :=
  (c.listCache x).getD (D.list c.db x)

/-! ## Coherence -/

/-- All calls have returned. -/
def Quiet : Prop := ∀ tid, c.threads tid = none

/-- Every cached entry is what the database holds, and so is every answer. -/
structure Coherent : Prop where
  data : ∀ x n e, c.dataCache x n = some e → e = D.get c.db x n
  lists : ∀ x l, c.listCache x = some l → l = D.list c.db x
  getNow_eq : ∀ x n, getNow D c x n = D.get c.db x n
  listNow_eq : ∀ x, listNow D c x = D.list c.db x

variable {D}

theorem Coherent.of_entries {c : ReadCache δ X N V}
    (hd : ∀ x n e, c.dataCache x n = some e → e = D.get c.db x n)
    (hl : ∀ x l, c.listCache x = some l → l = D.list c.db x) : Coherent D c := by
  refine ⟨hd, hl, fun x n => ?_, fun x => ?_⟩
  · unfold getNow
    cases he : c.dataCache x n with
    | none => rfl
    | some e => exact hd x n e he
  · unfold listNow
    cases he : c.listCache x with
    | none => rfl
    | some l => exact hl x l he

/-! ## Overlap -/

/-- The key a `Set` or `Rem` is writing: its cache access is made, its database access is not. -/
def Pc.writes : Pc X N V → Option (X × N)
  | .setList x n _ | .setDb x n _ | .remList x n | .remDb x n => some (x, n)
  | _ => none

/-- The path whose name list a `Set` or `Rem` has dropped, its database access being next. -/
def Pc.writesList : Pc X N V → Option X
  | .setDb x _ _ | .remDb x _ => some x
  | _ => none

/-- No call in flight is writing the key. -/
def KeyFree (x : X) (n : N) : Prop :=
  ∀ tid pc, c.threads tid = some pc → pc.writes ≠ some (x, n)

/-- No call in flight is about to write the database under the path. -/
def ListFree (x : X) : Prop :=
  ∀ tid pc, c.threads tid = some pc → pc.writesList ≠ some x

variable (D) in
/-- The condition on a step: a `Set` or `Rem` starts only while no other one writes its key; a `Get` or `List`
fills in only what the database still holds, while no call is writing it. -/
def Exclusive : Act X N V → Prop
  | .call _ (.set x n _) | .call _ (.rem x n) => c.KeyFree x n
  | .call _ _ => True
  | .resume tid =>
    match c.threads tid with
    | some (.getFill x n data) => data = D.get c.db x n ∧ c.KeyFree x n
    | some (.listFill x names) => names = D.list c.db x ∧ c.ListFree x
    | _ => True

/-- Some call in flight, of a thread other than `tid`, stands at an access that `Q` picks out. -/
def OtherAt (tid : Nat) (Q : Pc X N V → Prop) : Prop :=
  ∃ t pc, t ≠ tid ∧ c.threads t = some pc ∧ Q pc

/-- Some call in flight stands at an access that `Q` picks out. -/
def At (Q : Pc X N V → Prop) : Prop :=
  ∃ t pc, c.threads t = some pc ∧ Q pc

theorem At.other {c : ReadCache δ X N V} {Q : Pc X N V → Prop} (h : c.At Q)
    (hn : ∀ pc, c.threads tid = some pc → ¬ Q pc) : c.OtherAt tid Q := by
  obtain ⟨t, pc, ht, hq⟩ := h
  refine ⟨t, pc, ?_, ht, hq⟩
  rintro rfl
  exact hn pc ht hq

/-- The calls that answer for a cached entry: a `Set` on its way to the database, a `Clear` to the data
cache. -/
def Pc.Covers (x : X) (n : N) : Pc X N V → Prop
  | .setList y m _ | .setDb y m _ => (y, m) = (x, n)
  | .clearList y | .clearData y => y = x
  | _ => False

/-- The calls that still answer for a cached list: a `Clear` on its way to the list cache. -/
def Pc.CoversList (x : X) : Pc X N V → Prop
  | .clearList y => y = x
  | _ => False

/-- A writing call relies on this: only its own value can be cached under its key, and no list of its path once
it has dropped it. -/
def Pc.Ok : Pc X N V → Prop
  | .setList x n v => c.dataCache x n = none ∨ c.dataCache x n = some (some v)
  | .setDb x n v =>
    (c.dataCache x n = none ∨ c.dataCache x n = some (some v)) ∧ c.listCache x = none
  | .remList x n => c.dataCache x n = none
  | .remDb x n => c.dataCache x n = none ∧ c.listCache x = none
  | _ => True

theorem Pc.Ok.mono {c c' : ReadCache δ X N V} {p : Pc X N V} (h : p.Ok c)
    (hd : ∀ x n, p.writes = some (x, n) →
      c'.dataCache x n = c.dataCache x n ∨ c'.dataCache x n = none)
    (hl : ∀ x, p.writesList = some x → c'.listCache x = c.listCache x ∨ c'.listCache x = none) :
    p.Ok c' := by
  cases p with
  | setList x n v =>
    rcases hd x n rfl with hd | hd
    · rw [Pc.Ok, hd]
      exact h
    · exact .inl hd
  | setDb x n v =>
    refine ⟨?_, ?_⟩
    · rcases hd x n rfl with hd | hd
      · rw [hd]
        exact h.1
      · exact .inl hd
    · rcases hl x rfl with hl | hl
      · exact hl.trans h.2
      · exact hl
  | remList x n =>
    rcases hd x n rfl with hd | hd
    · exact hd.trans h
    · exact hd
  | remDb x n =>
    refine ⟨?_, ?_⟩
    · rcases hd x n rfl with hd | hd
      · exact hd.trans h.1
      · exact hd
    · rcases hl x rfl with hl | hl
      · exact hl.trans h.2
      · exact hl
  | getDb | getFill | listDb | listFill | clearList | clearData => trivial

variable (D) in
/-- A key has one writer at most, and a cached entry that is not the database's is covered by a call that will
put this right. -/
structure Inv : Prop where
  one : ∀ t u p q k, c.threads t = some p → c.threads u = some q →
    p.writes = some k → q.writes = some k → t = u
  ok : ∀ t p, c.threads t = some p → p.Ok c
  data : ∀ x n e, c.dataCache x n = some e → e = D.get c.db x n ∨ c.At (Pc.Covers x n)
  lists : ∀ x l, c.listCache x = some l → l = D.list c.db x ∨ c.At (Pc.CoversList x)

theorem Inv.new (db : δ) : Inv D (new db : ReadCache δ X N V) := by
  refine ⟨?_, ?_, ?_, ?_⟩ <;> simp [ReadCache.new]

theorem Inv.coherent {c : ReadCache δ X N V} (h : Inv D c) (hq : c.Quiet) : Coherent D c := by
  have hnone : ∀ Q, ¬ c.At Q := by
    rintro Q ⟨t, p, ht, -⟩
    simp [hq t] at ht
  apply Coherent.of_entries
  · intro x n e he
    exact (h.data x n e he).resolve_right (hnone _)
  · intro x l hl
    exact (h.lists x l hl).resolve_right (hnone _)

/-- While thread `tid` writes a key no other thread does. -/
theorem Inv.others_ne {c : ReadCache δ X N V} (h : Inv D c) {pc : Pc X N V} {k : X × N}
    (hpc : c.threads tid = some pc)
    (hk : pc.writes = some k) {t : Nat} {p : Pc X N V} (ht : t ≠ tid) (hp : c.threads t = some p) :
    p.writes ≠ some k := by
  intro hpk
  exact ht (h.one t tid p pc k hp hpc hpk hk)

/-- **One access** of thread `tid`, from `c` to `c'`, leaving it at `pc`: it takes up a key only if nobody else
writes it (`hone`), finds what it relies on (`hself`), only deletes what others rely on (`hdata`, `hlist`), and
every entry is the database's or covered (`hd`, `hl`). -/
theorem Inv.move {c c' : ReadCache δ X N V} (h : Inv D c) {pc : Option (Pc X N V)}
    (hth : c'.threads = c.threads) (hone : ∀ p k, pc = some p → p.writes = some k →
      ∀ t q, t ≠ tid → c.threads t = some q → q.writes ≠ some k) (hself : ∀ p, pc = some p → p.Ok c')
    (hdata : ∀ t p x n, t ≠ tid → c.threads t = some p → p.writes = some (x, n) →
      c'.dataCache x n = c.dataCache x n ∨ c'.dataCache x n = none)
    (hlist : ∀ t p x, t ≠ tid → c.threads t = some p → p.writesList = some x →
      c'.listCache x = c.listCache x ∨ c'.listCache x = none)
    (hd : ∀ x n e, c'.dataCache x n = some e → e = D.get c'.db x n ∨
      c.OtherAt tid (Pc.Covers x n) ∨ ∃ p, pc = some p ∧ p.Covers x n)
    (hl : ∀ x l, c'.listCache x = some l → l = D.list c'.db x ∨
      c.OtherAt tid (Pc.CoversList x) ∨ ∃ p, pc = some p ∧ p.CoversList x) :
    Inv D (c'.setThread tid pc) := by
  have hat : ∀ Q, (c.OtherAt tid Q ∨ ∃ p, pc = some p ∧ Q p) → (c'.setThread tid pc).At Q := by
    rintro Q (⟨t, p, htt, ht, hp⟩ | ⟨p, rfl, hp⟩)
    · exact ⟨t, p, by simpa [setThread, htt, hth] using ht, hp⟩
    · exact ⟨tid, p, by simp [setThread], hp⟩
  refine ⟨?_, ?_, ?_, ?_⟩
  · intro t u p q k ht hu hp hq
    simp only [setThread, hth] at ht hu
    split at ht <;> split at hu
    · rw [‹t = tid›, ‹u = tid›]
    · exact absurd hq (hone p k ht hp u q ‹_› hu)
    · exact absurd hp (hone q k hu hq t p ‹_› ht)
    · exact h.one t u p q k ht hu hp hq
  · intro t p ht
    simp only [setThread, hth] at ht
    split at ht
    · exact (hself p ht).mono (fun _ _ _ => .inl rfl) (fun _ _ => .inl rfl)
    · have hne : t ≠ tid := ‹_›
      exact (h.ok t p ht).mono (fun x n hw => hdata t p x n hne ht hw)
        (fun x hw => hlist t p x hne ht hw)
  · intro x n e he
    exact (hd x n e he).imp_right (hat _)
  · intro x l he
    exact (hl x l he).imp_right (hat _)

/-- A cached entry stays covered when thread `tid`, which covered nothing of it, moves on. -/
theorem Inv.data_other {c : ReadCache δ X N V} (h : Inv D c) {x : X} {n : N} {e : Option V}
    (he : c.dataCache x n = some e) (hn : ∀ pc, c.threads tid = some pc → ¬ pc.Covers x n) :
    e = D.get c.db x n ∨ c.OtherAt tid (Pc.Covers x n) :=
  (h.data x n e he).imp_right fun hat => hat.other hn

theorem Inv.lists_other {c : ReadCache δ X N V} (h : Inv D c) {x : X} {l : List N} (hl : c.listCache x = some l)
    (hn : ∀ pc, c.threads tid = some pc → ¬ pc.CoversList x) :
    l = D.list c.db x ∨ c.OtherAt tid (Pc.CoversList x) :=
  (h.lists x l hl).imp_right fun hat => hat.other hn

/-- A `Get` or `List` that misses, or that reads the database, changes nothing but its thread. -/
theorem Inv.read {c : ReadCache δ X N V} (h : Inv D c) (pc : Pc X N V) (hw : pc.writes = none) (hok : pc.Ok c)
    (hd : ∀ x n q, c.threads tid = some q → ¬ q.Covers x n)
    (hl : ∀ x q, c.threads tid = some q → ¬ q.CoversList x) :
    Inv D (c.setThread tid (some pc)) := by
  refine h.move rfl ?_ ?_ (fun _ _ _ _ _ _ _ => .inl rfl) (fun _ _ _ _ _ _ => .inl rfl) ?_ ?_
  · rintro p k ⟨rfl⟩ hk
    simp [hw] at hk
  · rintro p ⟨rfl⟩
    exact hok
  · intro y m e he
    exact (h.data_other he (hd y m)).imp_right .inl
  · intro y l he
    exact (h.lists_other he (hl y)).imp_right .inl

section Steps

variable [DecidableEq X] [DecidableEq N] (c : ReadCache δ X N V)

theorem putData_of_ne {x y : X} {n m : N} (e : Option (Option V))
    (hne : (y, m) ≠ (x, n)) : (c.putData x n e).dataCache y m = c.dataCache y m :=
  if_neg hne

omit [DecidableEq N] in
theorem putList_of_ne {x y : X} (e : Option (List N)) (hne : y ≠ x) :
    (c.putList x e).listCache y = c.listCache y :=
  if_neg hne

omit [DecidableEq N] in
theorem putList_none (x y : X) :
    (c.putList x none).listCache y = c.listCache y ∨ (c.putList x none).listCache y = none := by
  by_cases hy : y = x
  · exact .inr (if_pos hy)
  · exact .inl (putList_of_ne c none hy)

omit [DecidableEq N] in
theorem putList_none_eq_some {c : ReadCache δ X N V} {x y : X} {l : List N}
    (h : (c.putList x none).listCache y = some l) : y ≠ x ∧ c.listCache y = some l := by
  by_cases hy : y = x
  · simp [putList, hy] at h
  · exact ⟨hy, (putList_of_ne c none hy).symm.trans h⟩

theorem Inv.begin {c : ReadCache δ X N V} (h : Inv D c) (hn : c.threads tid = none) (call : Call X N V)
    (hok : Exclusive D c (.call tid call)) : Inv D (begin D c tid call) := by
  have hdn : ∀ x n pc, c.threads tid = some pc → ¬ pc.Covers x n := by simp [hn]
  have hln : ∀ x pc, c.threads tid = some pc → ¬ pc.CoversList x := by simp [hn]
  cases call with
  | get x n =>
    simp only [ReadCache.begin]
    split
    · exact h
    · exact h.read _ rfl trivial hdn hln
  | list x =>
    simp only [ReadCache.begin]
    split
    · exact h
    · exact h.read _ rfl trivial hdn hln
  | set x n v =>
    -- the cache has the value before the database: the call covers the key until it has written
    have hfree : c.KeyFree x n := hok
    refine h.move rfl ?_ ?_ ?_ (fun _ _ _ _ _ _ => .inl rfl) ?_ ?_
    · rintro p k ⟨rfl⟩ ⟨rfl⟩ t q _ ht
      exact hfree t q ht
    · rintro p ⟨rfl⟩
      exact .inr (if_pos rfl)
    · intro t p y m _ ht hw
      exact .inl (putData_of_ne c _ fun heq => hfree t p ht (heq ▸ hw))
    · intro y m e he
      by_cases hk : (y, m) = (x, n)
      · exact .inr (.inr ⟨_, rfl, hk.symm⟩)
      · rw [putData_of_ne c _ hk] at he
        exact (h.data_other he (hdn y m)).imp_right .inl
    · intro y l hl
      exact (h.lists_other hl (hln y)).imp_right .inl
  | rem x n =>
    -- the entry is dropped before the database is asked
    have hfree : c.KeyFree x n := hok
    refine h.move rfl ?_ ?_ ?_ (fun _ _ _ _ _ _ => .inl rfl) ?_ ?_
    · rintro p k ⟨rfl⟩ ⟨rfl⟩ t q _ ht
      exact hfree t q ht
    · rintro p ⟨rfl⟩
      exact if_pos rfl
    · intro t p y m _ ht hw
      exact .inl (putData_of_ne c _ fun heq => hfree t p ht (heq ▸ hw))
    · intro y m e he
      by_cases hk : (y, m) = (x, n)
      · cases hk
        simp [putData] at he
      · rw [putData_of_ne c _ hk] at he
        exact (h.data_other he (hdn y m)).imp_right .inl
    · intro y l hl
      exact (h.lists_other hl (hln y)).imp_right .inl
  | clear x =>
    -- the database is cleared first: the call covers what the cache still has
    refine h.move rfl ?_ ?_ (fun _ _ _ _ _ _ _ => .inl rfl) (fun _ _ _ _ _ _ => .inl rfl) ?_ ?_
    · rintro p k ⟨rfl⟩ ⟨⟩
    · rintro p ⟨rfl⟩
      trivial
    · intro y m e he
      by_cases hy : y = x
      · exact .inr (.inr ⟨_, rfl, hy.symm⟩)
      · rw [D.get_clear_of_ne c.db x y m hy]
        exact (h.data_other he (hdn y m)).imp_right .inl
    · intro y l hl
      by_cases hy : y = x
      · exact .inr (.inr ⟨_, rfl, hy.symm⟩)
      · rw [D.list_clear_of_ne c.db x y hy]
        exact (h.lists_other hl (hln y)).imp_right .inl

theorem Inv.resume {c : ReadCache δ X N V} (h : Inv D c) {pc : Pc X N V} (hpc : c.threads tid = some pc)
    (hok : Exclusive D c (.resume tid)) :
    Inv D (resume D c tid pc) := by
  have hrely := h.ok tid pc hpc
  simp only [Exclusive, hpc] at hok
  cases pc with
  | getDb x n =>
    exact h.read _ rfl trivial (by simp [hpc, Pc.Covers]) (by simp [hpc, Pc.CoversList])
  | getFill x n data =>
    -- what was read is still in the database, and no call is writing it
    obtain ⟨hfresh, hfree⟩ := hok
    refine h.move rfl (by simp) (by simp) ?_ (fun _ _ _ _ _ _ => .inl rfl) ?_ ?_
    · intro t p y m _ ht hw
      exact .inl (putData_of_ne c _ fun heq => hfree t p ht (heq ▸ hw))
    · intro y m e he
      by_cases hk : (y, m) = (x, n)
      · cases hk
        simp only [putData, if_true, Option.some.injEq] at he
        exact .inl (he ▸ hfresh)
      · rw [putData_of_ne c _ hk] at he
        exact (h.data_other he (by simp [hpc, Pc.Covers])).imp_right .inl
    · intro y l hl
      exact (h.lists_other hl (by simp [hpc, Pc.CoversList])).imp_right .inl
  | listDb x =>
    exact h.read _ rfl trivial (by simp [hpc, Pc.Covers]) (by simp [hpc, Pc.CoversList])
  | listFill x names =>
    obtain ⟨hfresh, hfree⟩ := hok
    refine h.move rfl (by simp) (by simp) (fun _ _ _ _ _ _ _ => .inl rfl) ?_ ?_ ?_
    · intro t p y _ ht hw
      exact .inl (putList_of_ne c _ fun heq => hfree t p ht (heq ▸ hw))
    · intro y m e he
      exact (h.data_other he (by simp [hpc, Pc.Covers])).imp_right .inl
    · intro y l hl
      by_cases hy : y = x
      · subst hy
        simp only [putList, if_true, Option.some.injEq] at hl
        exact .inl (hl ▸ hfresh)
      · rw [putList_of_ne c _ hy] at hl
        exact (h.lists_other hl (by simp [hpc, Pc.CoversList])).imp_right .inl
  | setList x n v =>
    -- the names of the path are dropped; the key stays covered
    refine h.move rfl ?_ ?_ (fun _ _ _ _ _ _ _ => .inl rfl) (fun _ _ y _ _ _ => putList_none c x y)
      ?_ ?_
    · rintro p k ⟨rfl⟩ hk t q ht hq
      exact h.others_ne hpc hk ht hq
    · rintro p ⟨rfl⟩
      exact ⟨hrely, if_pos rfl⟩
    · intro y m e he
      by_cases hk : (y, m) = (x, n)
      · exact .inr (.inr ⟨_, rfl, hk.symm⟩)
      · refine (h.data_other he ?_).imp_right .inl
        rintro q hq
        cases hpc.symm.trans hq
        exact fun heq => hk heq.symm
    · intro y l hl
      exact (h.lists_other (putList_none_eq_some hl).2
        (by simp [hpc, Pc.CoversList])).imp_right .inl
  | setDb x n v =>
    refine h.move rfl (by simp) (by simp) (fun _ _ _ _ _ _ _ => .inl rfl)
      (fun _ _ _ _ _ _ => .inl rfl) ?_ ?_
    · -- what is cached under the key is the value that now reaches the database
      intro y m e he
      by_cases hk : (y, m) = (x, n)
      · cases hk
        rcases hrely.1 with hnone | hv
        · exact absurd (hnone.symm.trans he) (by simp)
        · cases hv.symm.trans he
          exact .inl (D.get_set_self c.db x n v).symm
      · rw [D.get_set_of_ne c.db x n v y m hk]
        refine (h.data_other he ?_).imp_right .inl
        rintro q hq
        cases hpc.symm.trans hq
        exact fun heq => hk heq.symm
    · intro y l hl
      have hy : y ≠ x := by
        rintro rfl
        exact absurd (hrely.2.symm.trans hl) (by simp)
      rw [D.list_set_of_ne c.db x n v y hy]
      exact (h.lists_other hl (by simp [hpc, Pc.CoversList])).imp_right .inl
  | remList x n =>
    refine h.move rfl ?_ ?_ (fun _ _ _ _ _ _ _ => .inl rfl) (fun _ _ y _ _ _ => putList_none c x y)
      ?_ ?_
    · rintro p k ⟨rfl⟩ hk t q ht hq
      exact h.others_ne hpc hk ht hq
    · rintro p ⟨rfl⟩
      exact ⟨hrely, if_pos rfl⟩
    · intro y m e he
      exact (h.data_other he (by simp [hpc, Pc.Covers])).imp_right .inl
    · intro y l hl
      exact (h.lists_other (putList_none_eq_some hl).2
        (by simp [hpc, Pc.CoversList])).imp_right .inl
  | remDb x n =>
    -- neither the entry nor the names are cached any more
    refine h.move rfl (by simp) (by simp) (fun _ _ _ _ _ _ _ => .inl rfl)
      (fun _ _ _ _ _ _ => .inl rfl) ?_ ?_
    · intro y m e he
      have hk : (y, m) ≠ (x, n) := by
        rintro ⟨⟩
        exact absurd (hrely.1.symm.trans he) (by simp)
      rw [D.get_rem_of_ne c.db x n y m hk]
      exact (h.data_other he (by simp [hpc, Pc.Covers])).imp_right .inl
    · intro y l hl
      have hy : y ≠ x := by
        rintro rfl
        exact absurd (hrely.2.symm.trans hl) (by simp)
      rw [D.list_rem_of_ne c.db x n y hy]
      exact (h.lists_other hl (by simp [hpc, Pc.CoversList])).imp_right .inl
  | clearList x =>
    refine h.move rfl ?_ ?_ (fun _ _ _ _ _ _ _ => .inl rfl) (fun _ _ y _ _ _ => putList_none c x y)
      ?_ ?_
    · rintro p k ⟨rfl⟩ ⟨⟩
    · rintro p ⟨rfl⟩
      trivial
    · intro y m e he
      by_cases hy : y = x
      · exact .inr (.inr ⟨_, rfl, hy.symm⟩)
      · refine (h.data_other he ?_).imp_right .inl
        rintro q hq
        cases hpc.symm.trans hq
        exact fun heq => hy heq.symm
    · intro y l hl
      obtain ⟨hy, hl'⟩ := putList_none_eq_some hl
      refine (h.lists_other hl' ?_).imp_right .inl
      rintro q hq
      cases hpc.symm.trans hq
      exact fun heq => hy heq.symm
  | clearData x =>
    -- an entry that is dropped is right whatever the other calls do
    refine h.move rfl (by simp) (by simp) ?_ (fun _ _ _ _ _ _ => .inl rfl) ?_ ?_
    · intro t p y m _ _ _
      by_cases hy : y = x
      · exact .inr (if_pos hy)
      · exact .inl (if_neg hy)
    · intro y m e he
      by_cases hy : y = x
      · simp [dropData, hy] at he
      · refine (h.data_other ((if_neg hy).symm.trans he) ?_).imp_right .inl
        rintro q hq
        cases hpc.symm.trans hq
        exact fun heq => hy heq.symm
    · intro y l hl
      exact (h.lists_other hl (by simp [hpc, Pc.CoversList])).imp_right .inl

theorem Inv.step {c c' : ReadCache δ X N V} {a : Act X N V} (h : Inv D c) (hok : Exclusive D c a)
    (hs : step D c a = some c') : Inv D c' := by
  cases a with
  | call tid call =>
    simp only [ReadCache.step, Option.isNone_iff_eq_none] at hs
    split at hs
    · cases hs
      exact h.begin ‹_› call hok
    · cases hs
  | resume tid =>
    obtain ⟨pc, hpc, rfl⟩ := Option.map_eq_some_iff.mp hs
    exact h.resume hpc hok

/-- **Exclusive calls leave a coherent cache**: whenever all calls have returned every cached entry and every
answer is the database's. -/
theorem coherent_of_exclusive (D : Database δ X N V) (db : δ) (acts : List (Act X N V))
    (hex : Lib.Each (step D) (Exclusive D) (new db) acts) :
    Lib.Along (step D) (fun c => c.Quiet → Coherent D c) (new db) acts := by
  have hinv : Lib.Along (step D) (Inv D) (new db) acts :=
    Lib.Each.along (fun _ _ _ hc hok hs => hc.step hok hs) (Inv.new db) hex
  exact Lib.Along.mono (fun c hc => hc.coherent) hinv

end Steps

end ReadCache
end Model

/-! ## A store to run it on -/

/-- A store that keeps its entries in a list. -/
def listStore (X N V : Type) [DecidableEq X] [DecidableEq N] :
    Database (List ((X × N) × V)) X N V where
  get d x n := (d.find? fun e => e.1 = (x, n)).map (·.2)
  list d x := (d.filter fun e => e.1.1 = x).map (·.1.2)
  set d x n v := ((x, n), v) :: d.filter fun e => e.1 ≠ (x, n)
  rem d x n := d.filter fun e => e.1 ≠ (x, n)
  clear d x := d.filter fun e => e.1.1 ≠ x
  get_set_self := by simp
  get_set_of_ne := by
    intro d x n v y m hne
    have hhead : ¬ (x, n) = (y, m) := fun heq => hne heq.symm
    rw [List.find?_cons_of_neg (by simpa using hhead), List.find?_filter]
    congr 2
    funext e
    grind
  list_set_of_ne := by
    intro d x n v y hne
    rw [List.filter_cons_of_neg (by simpa using hne.symm), List.filter_filter]
    congr 2
    funext e
    grind
  get_rem_of_ne := by
    intro d x n y m hne
    rw [List.find?_filter]
    congr 2
    funext e
    grind
  list_rem_of_ne := by
    intro d x n y hne
    rw [List.filter_filter]
    congr 2
    funext e
    grind
  get_clear_of_ne := by
    intro d x y m hne
    rw [List.find?_filter]
    congr 2
    funext e
    grind
  list_clear_of_ne := by
    intro d x y hne
    rw [List.filter_filter]
    congr 2
    funext e
    grind

namespace ReadCache

/-- A `Get` of one hash runs inside a `Set` of another one. -/
def getInsideSet : List (Act String String Nat) :=
  [.call 0 (.set "Viewed" "h" 1), .call 1 (.get "Viewed" "g"), .resume 0, .resume 1, .resume 1, .resume 0]

theorem getInsideSet_exclusive :
    Lib.Each (step (listStore String String Nat)) (Exclusive (listStore String String Nat)) (new [])
      getInsideSet := by
  refine (Lib.each_cons_some rfl).mpr ⟨?_, ?_⟩
  · intro t pc ht
    cases ht
  refine (Lib.each_cons_some rfl).mpr ⟨trivial, ?_⟩
  refine (Lib.each_cons_some rfl).mpr ⟨trivial, ?_⟩
  refine (Lib.each_cons_some rfl).mpr ⟨trivial, ?_⟩
  -- the `Get` fills in while the `Set` of the other hash is on its way to the database
  refine (Lib.each_cons_some rfl).mpr ⟨⟨rfl, ?_⟩, ?_⟩
  · rintro (_ | _ | t) pc ht <;> cases ht <;> decide
  exact (Lib.each_cons_some rfl).mpr ⟨trivial, trivial⟩

theorem getInsideSet_coherent :
    ∃ c, Lib.run (step (listStore String String Nat)) (new []) getInsideSet = some c ∧ c.Quiet ∧
      Coherent (listStore String String Nat) c ∧ c.dataCache "Viewed" "h" = some (some 1) := by
  have halong := coherent_of_exclusive (listStore String String Nat) [] getInsideSet
    getInsideSet_exclusive
  refine ⟨_, rfl, ?quiet, halong.last rfl ?quiet, rfl⟩
  rintro (_ | _ | tid) <;> rfl

/-- `Get` misses and reads the empty database, `Set` runs to its end, `Get` fills in what it read. -/
def getAcrossSet : List (Act String String Nat) :=
  [.call 0 (.get "Viewed" "h"), .resume 0, .call 1 (.set "Viewed" "h" 1), .resume 1, .resume 1, .resume 0]

/-- The cache now answers `nil` for good, and the database holds the value. -/
theorem getAcrossSet_stale :
    ∃ c, Lib.run (step (listStore String String Nat)) (new []) getAcrossSet = some c ∧ c.Quiet ∧
      c.dataCache "Viewed" "h" = some none ∧
      (listStore String String Nat).get c.db "Viewed" "h" = some 1 ∧
      getNow (listStore String String Nat) c "Viewed" "h" = none ∧
      ¬ Coherent (listStore String String Nat) c := by
  refine ⟨_, rfl, ?_, rfl, rfl, rfl, ?_⟩
  · rintro (_ | _ | tid) <;> rfl
  · intro h
    exact absurd (h.getNow_eq "Viewed" "h") (by decide)

end ReadCache

end TorrServer.Settings
