/-
# Torr.Trackers — the cached trackers list and its generation.

`InvalidateTrackersCache` clears the list, bumps the generation and starts a prefetch. A fetch records the
generation before it goes out, and stores its list only if the generation is still that one, once before it
takes the lock and once inside. The lock does not protect the counter, so a fetch may pass both tests and store
its list after the clearing and before the bump: the old list then survives the call. `no_older_list` says that
this is the only way. A step is one locked section or one atomic access; generations are counted without bound,
and compared as the code's `uint64` does.
-/
import TorrServer.Lib.Runs
import Mathlib.Algebra.Order.Ring.Nat

namespace TorrServer.Torr

/-! ## The state and the calls in flight -/

/-- The access made next. `produced` is the generation of the call of `InvalidateTrackersCache` it belongs to,
`gen` the one recorded for a list. -/
inductive Trackers.Pc
  /-- `InvalidateTrackersCache` has cleared the list. -/
  | bump
  | prefetchLoad (produced : Option Nat)
  | prefetchMark (gen : Nat) (produced : Option Nat)
  /-- `fetchTrackersAsync` waits for the network. -/
  | fetch (gen : Nat)
  | refreshLoad
  /-- The refresh loop waits for the network. -/
  | refresh (gen : Nat)
  /-- `setLoadedTrackers` or `updateLoadedTrackersIfCurrent`, at the first test. -/
  | check (gen : Nat) (list : List String) (produced : Option Nat)
  | lock (gen : Nat) (list : List String) (produced : Option Nat)
  /-- At the second test, inside the lock. -/
  | recheck (gen : Nat) (list : List String) (produced : Option Nat)
  | write (gen : Nat) (list : List String) (produced : Option Nat)
  deriving DecidableEq, Repr

/-- The calls; `refresh` is one round of the refresh loop. -/
inductive Trackers.Call
  | invalidate
  | prefetch
  | refresh
  deriving DecidableEq, Repr

/-- One step.  `urls` says whether a list is configured, `result` is what the network gives. -/
inductive Trackers.Act
  | call (tid : Nat) (c : Trackers.Call)
  | resume (tid : Nat) (urls : Bool) (result : Option (List String)) (defaults : List String)
  deriving DecidableEq, Repr

/-- The globals, the holder of `trackersMu`, and the calls in flight. The list carries the generation its fetch
recorded; `returned` is the newest generation of a call of `InvalidateTrackersCache` that has returned. -/
structure Trackers where
  loaded : Option (List String × Nat)
  fetchGen : Nat
  prefetchStartedGen : Nat
  mu : Option Nat
  threads : Nat → Option Trackers.Pc
  returned : Nat

namespace Trackers

/-- The number of values of the counter. -/
def genSize : Nat := 2 ^ 64

/-- `trackersFetchGen.Load() == gen`. -/
def current (s : Trackers) (gen : Nat) : Bool := gen % genSize == s.fetchGen % genSize

/-- The start of the process. -/
def init : Trackers :=
  { loaded := none, fetchGen := 0, prefetchStartedGen := genSize - 1, mu := none
    threads := fun _ => none, returned := 0 }

/-- Put thread `tid` at `pc`, or end it. -/
def setThread (s : Trackers) (tid : Nat) (pc : Option Pc) : Trackers :=
  { s with threads := fun t => if t = tid then pc else s.threads t }

/-- The call that produced a generation returns. -/
def ret (s : Trackers) (produced : Option Nat) : Trackers :=
  { s with returned := max s.returned (produced.getD 0) }

/-- The downloaded list, or the configured one until there is one. -/
def getDefTrackers (s : Trackers) (configured : List String) : List String :=
  match s.loaded with
  | some (list, _) => list
  | none => configured

/-- The first step of a call. -/
def begin (s : Trackers) (tid : Nat) : Call → Option Trackers
  | .invalidate =>
    if s.mu = none then some ({ s with loaded := none }.setThread tid (some .bump)) else none
  | .prefetch => some (s.setThread tid (some (.prefetchLoad none)))
  | .refresh => some (s.setThread tid (some .refreshLoad))

/-- The next step of the thread that stands at `pc`. -/
def next (s : Trackers) (tid : Nat) (urls : Bool) (result : Option (List String)) (defaults : List String) :
    Pc → Option Trackers
  | .bump => some ({ s with fetchGen := s.fetchGen + 1 }.setThread tid
      (some (.prefetchLoad (some (s.fetchGen + 1)))))
  | .prefetchLoad produced => some (s.setThread tid (some (.prefetchMark s.fetchGen produced)))
  | .prefetchMark gen produced =>
    if s.prefetchStartedGen = gen % genSize then some ((s.ret produced).setThread tid none)
    else
      let s := { s with prefetchStartedGen := gen % genSize }
      if urls then some ((s.ret produced).setThread tid (some (.fetch gen)))
      else some (s.setThread tid (some (.check gen defaults produced)))
  | .fetch gen => some (s.setThread tid (some (.check gen (result.getD defaults) none)))
  | .refreshLoad => some (s.setThread tid (some (.refresh s.fetchGen)))
  | .refresh gen =>
    match result with
    | some list => some (s.setThread tid (some (.check gen list none)))
    | none => some (s.setThread tid none)
  | .check gen list produced =>
    if s.current gen then some (s.setThread tid (some (.lock gen list produced)))
    else some ((s.ret produced).setThread tid none)
  | .lock gen list produced =>
    if s.mu = none then
      some ({ s with mu := some tid }.setThread tid (some (.recheck gen list produced)))
    else none
  | .recheck gen list produced =>
    if s.current gen then some (s.setThread tid (some (.write gen list produced)))
    else some (({ s with mu := none }.ret produced).setThread tid none)
  | .write gen list produced =>
    some (({ s with loaded := some (list, gen), mu := none }.ret produced).setThread tid none)

/-- One step; a thread in a call starts no other. -/
def step (s : Trackers) : Act → Option Trackers
  | .call tid c => if s.threads tid = none then s.begin tid c else none
  | .resume tid urls result defaults => (s.threads tid).bind (s.next tid urls result defaults)

/-! ## The property and the condition -/

/-- **The property**: `GetDefTrackers` returns no list older than a call of `InvalidateTrackersCache` that has
returned. -/
def NoOlderList (s : Trackers) : Prop :=
  ∀ list gen, s.loaded = some (list, gen) → s.returned ≤ gen

/-- The thread is about to store a list. -/
def Storing (s : Trackers) (tid : Nat) : Prop :=
  ∃ gen list produced, s.threads tid = some (.write gen list produced)

/-- **The condition**: no list has been stored, or passed its last test, when the generation is bumped;
and no fetch outlives a whole round of the counter. -/
def InOrder (s : Trackers) : Act → Prop
  | .call _ _ => True
  | .resume tid _ _ _ =>
    match s.threads tid with
    | some .bump => s.loaded = none ∧ ∀ t ∈ s.mu, ¬ s.Storing t
    | some (.recheck gen _ _) => s.current gen = true → gen = s.fetchGen
    | _ => True

/-! ## The invariant -/

/-- The generation that the call of a thread will have produced when it returns. -/
def Pc.produced : Pc → Nat
  | .prefetchLoad produced => produced.getD 0
  | .prefetchMark _ produced => produced.getD 0
  | .check _ _ produced => produced.getD 0
  | .lock _ _ produced => produced.getD 0
  | .recheck _ _ produced => produced.getD 0
  | .write _ _ produced => produced.getD 0
  | _ => 0

/-- The thread holds `trackersMu`. -/
def Pc.Holds : Pc → Prop
  | .recheck _ _ _ => True
  | .write _ _ _ => True
  | _ => False

/-- What a thread at `pc` has to do with the state. -/
structure PcInv (s : Trackers) (tid : Nat) (pc : Pc) : Prop where
  produced : pc.produced ≤ s.fetchGen
  holds : pc.Holds → s.mu = some tid
  write : ∀ gen list produced, pc = .write gen list produced → gen = s.fetchGen

/-- The list is of the newest generation. -/
structure Inv (s : Trackers) : Prop where
  loaded : ∀ list gen, s.loaded = some (list, gen) → gen = s.fetchGen
  returned : s.returned ≤ s.fetchGen
  threads : ∀ t pc, s.threads t = some pc → s.PcInv t pc

theorem Inv.noOlderList {s : Trackers} (h : s.Inv) : s.NoOlderList := by
  intro list gen hloaded
  rw [h.loaded list gen hloaded]
  exact h.returned

theorem Inv.init : init.Inv :=
  ⟨by simp [Trackers.init], Nat.le_refl 0, by simp [Trackers.init]⟩

/-- A thread moves on; the others keep their place. -/
theorem Inv.setThread {s s' : Trackers} (h : s.Inv) {tid : Nat} {pc' : Option Pc}
    (hthreads : s'.threads = s.threads)
    (hloaded : ∀ list gen, s'.loaded = some (list, gen) → gen = s'.fetchGen)
    (hreturned : s'.returned ≤ s'.fetchGen)
    (hothers : ∀ t pc, t ≠ tid → s.threads t = some pc → s.PcInv t pc → s'.PcInv t pc)
    (hown : ∀ pc ∈ pc', s'.PcInv tid pc) : (s'.setThread tid pc').Inv := by
  refine ⟨hloaded, hreturned, fun t pc hpc => ?_⟩
  have hplace : s'.PcInv t pc := by
    rw [Trackers.setThread] at hpc
    dsimp only at hpc
    split at hpc
    · rename_i heq
      exact heq ▸ hown pc hpc
    · rename_i hne
      rw [hthreads] at hpc
      exact hothers t pc hne hpc (h.threads t pc hpc)
  exact ⟨hplace.produced, hplace.holds, hplace.write⟩

/-- A thread that does not hold the lock does not notice when it is taken or given up. -/
theorem PcInv.of_mu {s s' : Trackers} {tid t : Nat} {pc : Pc} (h : s.PcInv t pc) (hne : t ≠ tid)
    (hgen : s'.fetchGen = s.fetchGen) (hmu : s.mu = none ∨ s.mu = some tid) : s'.PcInv t pc := by
  have hnot : ¬ pc.Holds := by
    intro hholds
    have hmine := h.holds hholds
    rcases hmu with hfree | htid
    · simp [hfree] at hmine
    · rw [htid] at hmine
      exact hne (Option.some.inj hmine).symm
  refine ⟨hgen ▸ h.produced, fun hholds => absurd hholds hnot, fun gen list produced heq => ?_⟩
  rw [heq] at hnot
  exact absurd trivial hnot

theorem PcInv.of_same {s s' : Trackers} {t : Nat} {pc : Pc} (h : s.PcInv t pc)
    (hgen : s'.fetchGen = s.fetchGen) (hmu : s'.mu = s.mu) : s'.PcInv t pc :=
  ⟨hgen ▸ h.produced, fun hholds => hmu.trans (h.holds hholds), fun gen list produced heq =>
    (h.write gen list produced heq).trans hgen.symm⟩

/-- The list and the counter are left alone, and the call may return. -/
theorem Inv.move {s : Trackers} (h : s.Inv) {tid : Nat} {pc : Pc} (hpc : s.threads tid = some pc)
    {produced : Option Nat} {started : Nat} {pc' : Option Pc} (hproduced : produced.getD 0 ≤ pc.produced)
    (hown : ∀ q ∈ pc', s.PcInv tid q) :
    ((Trackers.ret { s with prefetchStartedGen := started } produced).setThread tid pc').Inv := by
  have hle : produced.getD 0 ≤ s.fetchGen := Nat.le_trans hproduced (h.threads tid pc hpc).produced
  refine h.setThread rfl h.loaded (Nat.max_le.mpr ⟨h.returned, hle⟩) ?_ ?_
  · exact fun t q _ _ hq => hq.of_same rfl rfl
  · exact fun q hq => (hown q hq).of_same rfl rfl

theorem Inv.begin {s s' : Trackers} (h : s.Inv) {tid : Nat} {c : Call} (hstep : s.begin tid c = some s') :
    s'.Inv := by
  cases c with
  | invalidate =>
    rw [Trackers.begin] at hstep
    split at hstep
    · cases hstep
      refine h.setThread rfl (by simp) h.returned (fun t q _ _ hq => hq.of_same rfl rfl) ?_
      rintro _ ⟨⟩
      exact ⟨Nat.zero_le _, False.elim, by simp⟩
    · cases hstep
  | prefetch =>
    cases hstep
    refine h.setThread rfl h.loaded h.returned (fun t q _ _ hq => hq) ?_
    rintro _ ⟨⟩
    exact ⟨Nat.zero_le _, False.elim, by simp⟩
  | refresh =>
    cases hstep
    refine h.setThread rfl h.loaded h.returned (fun t q _ _ hq => hq) ?_
    rintro _ ⟨⟩
    exact ⟨Nat.zero_le _, False.elim, by simp⟩

/-- **A step that meets the condition** keeps the list of the newest generation. -/
theorem Inv.next {s s' : Trackers} (h : s.Inv) {tid : Nat} {pc : Pc} (hpc : s.threads tid = some pc)
    {urls : Bool} {result : Option (List String)} {defaults : List String}
    (hok : s.InOrder (.resume tid urls result defaults))
    (hstep : s.next tid urls result defaults pc = some s') : s'.Inv := by
  have hown := h.threads tid pc hpc
  simp only [InOrder, hpc] at hok
  -- a thread outside the lock stands anywhere it likes
  have hfree : ∀ q : Pc, q.produced ≤ pc.produced → ¬ q.Holds → s.PcInv tid q := by
    intro q hle hnot
    refine ⟨Nat.le_trans hle hown.produced, fun hholds => absurd hholds hnot, fun _ _ _ heq => ?_⟩
    rw [heq] at hnot
    exact absurd trivial hnot
  cases pc with
  | bump =>
    cases hstep
    obtain ⟨hnone, hstoring⟩ := hok
    have hle : s.returned ≤ s.fetchGen + 1 := Nat.le_succ_of_le h.returned
    refine h.setThread rfl (by simp [hnone]) hle ?_ ?_
    · intro t q _ hq hinv
      refine ⟨Nat.le_succ_of_le hinv.produced, hinv.holds, fun gen list produced heq => ?_⟩
      -- a thread about to store would hold the lock
      rw [heq] at hq hinv
      exact absurd ⟨gen, list, produced, hq⟩ (hstoring t (hinv.holds trivial))
    · rintro _ ⟨⟩
      exact ⟨Nat.le_refl _, False.elim, by simp⟩
  | prefetchLoad produced =>
    cases hstep
    refine h.setThread rfl h.loaded h.returned (fun t q _ _ hq => hq) ?_
    rintro _ ⟨⟩
    exact hfree _ (Nat.le_refl _) id
  | prefetchMark gen produced =>
    rw [Trackers.next] at hstep
    split at hstep
    · cases hstep
      exact h.move hpc (Nat.le_refl _) (by simp)
    · dsimp only at hstep
      split at hstep
      · cases hstep
        refine h.move hpc (Nat.le_refl _) ?_
        rintro _ ⟨⟩
        exact hfree _ (Nat.zero_le _) id
      · cases hstep
        refine h.setThread rfl h.loaded h.returned (fun t q _ _ hq => hq.of_same rfl rfl) ?_
        rintro _ ⟨⟩
        exact (hfree (.check gen defaults produced) (Nat.le_refl _) id).of_same rfl rfl
  | fetch gen =>
    cases hstep
    refine h.setThread rfl h.loaded h.returned (fun t q _ _ hq => hq) ?_
    rintro _ ⟨⟩
    exact hfree _ (Nat.zero_le _) id
  | refreshLoad =>
    cases hstep
    refine h.setThread rfl h.loaded h.returned (fun t q _ _ hq => hq) ?_
    rintro _ ⟨⟩
    exact hfree _ (Nat.zero_le _) id
  | refresh gen =>
    simp only [Trackers.next] at hstep
    split at hstep
    · cases hstep
      refine h.setThread rfl h.loaded h.returned (fun t q _ _ hq => hq) ?_
      rintro _ ⟨⟩
      exact hfree _ (Nat.zero_le _) id
    · cases hstep
      exact h.setThread rfl h.loaded h.returned (fun t q _ _ hq => hq) (by simp)
  | check gen list produced =>
    rw [Trackers.next] at hstep
    split at hstep
    · cases hstep
      refine h.setThread rfl h.loaded h.returned (fun t q _ _ hq => hq) ?_
      rintro _ ⟨⟩
      exact hfree _ (Nat.le_refl _) id
    · cases hstep
      exact h.move hpc (Nat.le_refl _) (by simp)
  | lock gen list produced =>
    rw [Trackers.next] at hstep
    split at hstep
    · rename_i hmu
      cases hstep
      refine h.setThread rfl h.loaded h.returned
        (fun t q hne _ hq => hq.of_mu hne rfl (.inl hmu)) ?_
      rintro _ ⟨⟩
      exact ⟨hown.produced, fun _ => rfl, by simp⟩
    · cases hstep
  | recheck gen list produced =>
    have hmu : s.mu = some tid := hown.holds trivial
    rw [Trackers.next] at hstep
    split at hstep
    · rename_i hcurrent
      cases hstep
      refine h.setThread rfl h.loaded h.returned (fun t q _ _ hq => hq) ?_
      rintro _ ⟨⟩
      refine ⟨hown.produced, fun _ => hmu, ?_⟩
      rintro _ _ _ ⟨⟩
      exact hok hcurrent
    · cases hstep
      refine h.setThread rfl h.loaded ?_ (fun t q hne _ hq => hq.of_mu hne rfl (.inr hmu)) (by simp)
      exact Nat.max_le.mpr ⟨h.returned, hown.produced⟩
  | write gen list produced =>
    have hmu : s.mu = some tid := hown.holds trivial
    cases hstep
    refine h.setThread rfl ?_ ?_ (fun t q hne _ hq => hq.of_mu hne rfl (.inr hmu)) (by simp)
    · rintro _ _ ⟨⟩
      exact hown.write gen list produced rfl
    · exact Nat.max_le.mpr ⟨h.returned, hown.produced⟩

/-- **No list of an older generation is returned** in any run that meets the condition. -/
theorem no_older_list (acts : List Act) (hok : Lib.Each step InOrder init acts) :
    Lib.Along step NoOlderList init acts := by
  refine Lib.Along.mono (fun s hs => hs.noOlderList) (Lib.Each.along ?_ Inv.init hok)
  intro s a s' hinv hok hstep
  cases a with
  | call tid c =>
    simp only [step] at hstep
    split at hstep
    · exact hinv.begin hstep
    · cases hstep
  | resume tid urls result defaults =>
    obtain ⟨pc, hpc, hnext⟩ := Option.bind_eq_some_iff.mp hstep
    exact hinv.next hpc hok hnext

/-- Thread `tid` goes on, at an access that needs nothing from the network. -/
def go (tid : Nat) : Act := .resume tid true none []

/-- A prefetch has its list and passes the first test while an invalidation runs, which then fetches a list of
its own. -/
def invalidated : List Act :=
  [.call 0 .prefetch, go 0, go 0, .resume 0 true (some ["old"]) [], .call 1 .invalidate, go 0, go 1, go 0, go 0,
    go 1, go 1, .resume 1 true (some ["new"]) [], go 1, go 1, go 1, go 1]

/-- The same prefetch, which stores its list while the invalidation stands before the bump. -/
def storedBeforeBump : List Act :=
  [.call 0 .prefetch, go 0, go 0, .resume 0 true (some ["old"]) [], go 0, .call 1 .invalidate, go 0, go 0, go 0,
    go 1, go 1, go 1]

/-- The prefetch fails the second test, and the list is the one fetched since. -/
theorem invalidated_noOlderList : ∃ s, Lib.run step init invalidated = some s ∧ s.returned = 1 ∧
    s.loaded = some (["new"], 1) ∧ NoOlderList s := by
  have hok : Lib.Each step InOrder init invalidated := by
    repeat' refine (Lib.each_cons_some rfl).mpr ⟨?_, ?_⟩
    all_goals
      first | trivial | exact fun _ => rfl | exact ⟨rfl, by rintro _ ⟨⟩⟩ | exact fun h => absurd h (by decide)
  exact ⟨_, rfl, rfl, rfl, (no_older_list invalidated hok).last rfl⟩

/-- The invalidation has returned, and `GetDefTrackers` still gives the list fetched before it. -/
theorem storedBeforeBump_returned : ∃ s, Lib.run step init storedBeforeBump = some s ∧
    s.returned = 1 ∧ (∀ configured, s.getDefTrackers configured = ["old"]) ∧
    s.loaded = some (["old"], 0) ∧ ¬ Lib.Along step NoOlderList init storedBeforeBump := by
  refine ⟨_, rfl, rfl, fun _ => rfl, rfl, fun halong => ?_⟩
  have hlast := halong.last rfl _ _ rfl
  exact absurd hlast (by decide)

end Trackers

end TorrServer.Torr
