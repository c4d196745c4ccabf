/-
# Torrstor.Shield — the corruption shield and its watchdog.

Repeated corruption switches a global shield on (STRICT mode). A watchdog goroutine switches it off again after
a clean streak; `isWatchdogRunning` is to keep it single. A step is one atomic access of `MarkNotComplete`,
`ResetShield` or the watchdog.

`ResetShield` clears `isWatchdogRunning` while the watchdog goes on, so that the next corruption starts a second
one; and a corruption that falls into the last accesses of the watchdog, or into a reset, can switch the shield
on for good. `single_watchdog` says under which steps neither happens.

The calls are on pieces with data and with `ResponsiveMode` on. `lastCorruptionUnix` and the time only decide
the watchdog's test, which may come out either way.
-/
import TorrServer.Lib.Runs
import Mathlib.Algebra.Order.Ring.Int

namespace TorrServer.Torrstor

open List

/-! ## The flags and the actors -/

/-- The access a call makes next: those of `MarkNotComplete`, and those of `ResetShield`. -/
inductive Shield.CallPc
  | markLoad
  | markCount
  | markCycle
  | markStore
  | markTest
  | markSwap
  | resetShield
  | resetRunning
  | resetCount
  deriving DecidableEq, Repr

/-- The access the watchdog makes next: the test of the clean streak, with the swap of `shieldActive`, or one
that follows. -/
inductive Shield.DogPc
  | watch
  | clearCount
  | clearCycle
  | stop
  deriving DecidableEq, Repr

/-- One step: a call begins, or a call or a watchdog makes its next access. -/
inductive Shield.Act
  | markNotComplete
  | resetShield
  | call (i : Nat)
  | dog (i : Nat) (clean : Bool)
  deriving DecidableEq, Repr

/-- The globals, the calls in progress and the watchdogs alive. -/
structure Shield where
  shieldActive : Bool
  isWatchdogRunning : Bool
  staticCorruptionCount : Int
  strictCycleCount : Int
  calls : List Shield.CallPc
  dogs : List Shield.DogPc
  deriving DecidableEq, Repr

namespace Shield

/-- `atomic.Int32`. -/
def wrap32 (n : Int) : Int := (n + 2 ^ 31) % 2 ^ 32 - 2 ^ 31

/-- The start of the process. -/
def init : Shield :=
  { shieldActive := false, isWatchdogRunning := false, staticCorruptionCount := 0
    strictCycleCount := 0, calls := [], dogs := [] }

/-- The `i`-th call goes on, or returns. -/
def goOn (s : Shield) (i : Nat) : Option CallPc → Shield
  | some pc => { s with calls := s.calls.set i pc }
  | none => { s with calls := s.calls.eraseIdx i }

/-- The next access of the `i`-th call. -/
def stepCall (s : Shield) (i : Nat) : CallPc → Shield
  | .markLoad => s.goOn i (if s.shieldActive then some .markTest else some .markCount)
  | .markCount =>
    let count := wrap32 (s.staticCorruptionCount + 1)
    { s with staticCorruptionCount := count }.goOn i
      (if 1 < count then some .markCycle else some .markTest)
  | .markCycle =>
    { s with strictCycleCount := wrap32 (s.strictCycleCount + 1) }.goOn i (some .markStore)
  | .markStore => { s with shieldActive := true }.goOn i (some .markTest)
  | .markTest => s.goOn i (if 1 ≤ s.staticCorruptionCount then some .markSwap else none)
  | .markSwap =>
    if s.isWatchdogRunning then s.goOn i none
    else { s with isWatchdogRunning := true, dogs := s.dogs ++ [DogPc.watch] }.goOn i none
  | .resetShield => { s with shieldActive := false }.goOn i (some .resetRunning)
  | .resetRunning => { s with isWatchdogRunning := false }.goOn i (some .resetCount)
  | .resetCount => { s with staticCorruptionCount := 0 }.goOn i none

/-- The next access of the `i`-th watchdog. -/
def stepDog (s : Shield) (i : Nat) (clean : Bool) : DogPc → Shield
  | .watch =>
    if clean then { s with shieldActive := false, dogs := s.dogs.set i .clearCount } else s
  | .clearCount => { s with staticCorruptionCount := 0, dogs := s.dogs.set i .clearCycle }
  | .clearCycle => { s with strictCycleCount := 0, dogs := s.dogs.set i .stop }
  | .stop => { s with isWatchdogRunning := false, dogs := s.dogs.eraseIdx i }

/-- One step. -/
def step (s : Shield) : Act → Option Shield
  | .markNotComplete => some { s with calls := s.calls ++ [.markLoad] }
  | .resetShield => some { s with calls := s.calls ++ [.resetShield] }
  | .call i => (s.calls[i]?).map (s.stepCall i)
  | .dog i clean => (s.dogs[i]?).map (s.stepDog i clean)

/-! ## The property and the condition -/

/-- **The property**: with no call in progress there is at most one watchdog, and the shield is watched. -/
def Watched (s : Shield) : Prop :=
  s.calls = [] → s.dogs.length ≤ 1 ∧ (s.shieldActive = true → s.dogs ≠ [])

/-- `ResetShield` has cleared the shield and goes on. -/
def CallPc.Resetting (pc : CallPc) : Prop := pc = .resetRunning ∨ pc = .resetCount

instance (pc : CallPc) : Decidable pc.Resetting := inferInstanceAs (Decidable (_ ∨ _))

/-- What the next access of a `MarkNotComplete` needs. -/
def Safe (s : Shield) : CallPc → Prop
  | .markSwap => s.isWatchdogRunning = false → s.dogs = []
  | .markStore => (∀ d ∈ s.dogs, d = .watch) ∧ (∀ pc ∈ s.calls, ¬ pc.Resetting) ∧
      1 ≤ s.staticCorruptionCount
  | .markCount => s.staticCorruptionCount < 2 ^ 31 - 1
  | _ => True

/-- **The condition**: a `MarkNotComplete` that finds `isWatchdogRunning` clear finds no watchdog alive;
it switches the shield on only while no watchdog is on its way out, no reset is under way and the
corruption is still counted; and the counter does not overflow. -/
def Orderly (s : Shield) : Act → Prop
  | .call i => ∀ pc ∈ s.calls[i]?, s.Safe pc
  | _ => True

instance (s : Shield) : (pc : CallPc) → Decidable (s.Safe pc)
  | .markSwap => inferInstanceAs (Decidable (_ → _))
  | .markStore => inferInstanceAs (Decidable (_ ∧ _))
  | .markCount => inferInstanceAs (Decidable (_ < _))
  | .markLoad | .markCycle | .markTest | .resetShield | .resetRunning | .resetCount => isTrue trivial

instance (s : Shield) : (a : Act) → Decidable (s.Orderly a)
  | .call i => inferInstanceAs (Decidable (∀ pc ∈ s.calls[i]?, s.Safe pc))
  | .markNotComplete | .resetShield | .dog _ _ => isTrue trivial

/-! ## The invariant -/

/-- `MarkNotComplete` will see to a watchdog. -/
def CallPc.Starting (pc : CallPc) : Prop := pc = .markTest ∨ pc = .markSwap

/-- The shield is on, and stays watched. -/
structure Guarded (s : Shield) : Prop where
  dogs : ∀ d ∈ s.dogs, d = .watch
  calls : ∀ pc ∈ s.calls, ¬ pc.Resetting
  counted : 1 ≤ s.staticCorruptionCount
  watched : s.dogs ≠ [] ∨ ∃ pc ∈ s.calls, pc.Starting

/-- At most one watchdog, which runs if the flag says so, and a guarded shield. -/
structure Inv (s : Shield) : Prop where
  single : s.dogs.length ≤ 1
  running : s.isWatchdogRunning = true → s.dogs ≠ []
  active : s.shieldActive = true → s.Guarded

theorem Inv.watched {s : Shield} (h : s.Inv) : s.Watched := by
  intro hcalls
  refine ⟨h.single, fun hactive => ?_⟩
  rcases (h.active hactive).watched with hdogs | ⟨pc, hmem, -⟩
  · exact hdogs
  · rw [hcalls] at hmem
    cases hmem

theorem Inv.keep {s t : Shield} (h : s.Inv) (hdogs : t.dogs = s.dogs)
    (hrunning : t.isWatchdogRunning = s.isWatchdogRunning)
    (hactive : t.shieldActive = true → t.Guarded) : t.Inv :=
  ⟨by rw [hdogs]; exact h.single, by rw [hdogs, hrunning]; exact h.running, hactive⟩

theorem Inv.init : init.Inv := ⟨Nat.zero_le 1, by simp [Shield.init], by simp [Shield.init]⟩

section

variable {s : Shield} {i : Nat} {pc : CallPc} {pc' : Option CallPc}

@[simp] theorem goOn_dogs : (s.goOn i pc').dogs = s.dogs := by cases pc' <;> rfl

@[simp] theorem goOn_shieldActive : (s.goOn i pc').shieldActive = s.shieldActive := by cases pc' <;> rfl

@[simp] theorem goOn_isWatchdogRunning : (s.goOn i pc').isWatchdogRunning = s.isWatchdogRunning := by
  cases pc' <;> rfl

@[simp] theorem goOn_staticCorruptionCount :
    (s.goOn i pc').staticCorruptionCount = s.staticCorruptionCount := by
  cases pc' <;> rfl

theorem mem_goOn {q : CallPc} (hq : q ∈ (s.goOn i pc').calls) : q ∈ s.calls ∨ pc' = some q := by
  cases pc' with
  | none => exact .inl (mem_of_mem_eraseIdx hq)
  | some p =>
    rcases mem_or_eq_of_mem_set hq with hq | rfl
    · exact .inl hq
    · exact .inr rfl

theorem mem_goOn_of_ne {q : CallPc} (hpc : s.calls[i]? = some pc) (hq : q ∈ s.calls) (hne : q ≠ pc) :
    q ∈ (s.goOn i pc').calls := by
  obtain ⟨j, hj⟩ := mem_iff_getElem?.mp hq
  have hij : i ≠ j := by
    rintro rfl
    exact hne (Option.some.inj (hj.symm.trans hpc))
  cases pc' with
  | none => exact mem_eraseIdx_iff_getElem?.mpr ⟨j, hij.symm, hj⟩
  | some p =>
    refine mem_iff_getElem?.mpr ⟨j, ?_⟩
    show (s.calls.set i p)[j]? = some q
    rw [getElem?_set_ne hij, hj]

theorem self_mem_goOn {p : CallPc} (hpc : s.calls[i]? = some pc) : p ∈ (s.goOn i (some p)).calls :=
  List.mem_set (List.getElem?_eq_some_iff.mp hpc).1 p

/-- A call that goes on keeps the shield guarded, unless it was the one to see to the watchdog. -/
theorem Guarded.goOn (h : s.Guarded) (hpc : s.calls[i]? = some pc)
    (hreset : ∀ p ∈ pc', ¬ p.Resetting)
    (hstart : ¬ pc.Starting ∨ (∃ p ∈ pc', p.Starting) ∨ s.dogs ≠ []) : (s.goOn i pc').Guarded := by
  refine ⟨by simpa using h.dogs, fun q hq => ?_, by simpa using h.counted, ?_⟩
  · rcases mem_goOn hq with hq | hq
    · exact h.calls q hq
    · exact hreset q hq
  · rw [goOn_dogs]
    rcases h.watched with hdogs | ⟨q, hmem, hq⟩
    · exact .inl hdogs
    · rcases hstart with hnot | ⟨p, hp, hstarting⟩ | hdogs
      · refine .inr ⟨q, mem_goOn_of_ne hpc hmem ?_, hq⟩
        rintro rfl
        exact hnot hq
      · cases hp
        exact .inr ⟨p, self_mem_goOn hpc, hstarting⟩
      · exact .inl hdogs

theorem Inv.stepCall (h : s.Inv) (hpc : s.calls[i]? = some pc) (hok : s.Safe pc) : (s.stepCall i pc).Inv := by
  have hmem : pc ∈ s.calls := mem_of_getElem? hpc
  cases pc with
  | markLoad =>
    refine h.keep (by simp [Shield.stepCall]) (by simp [Shield.stepCall]) fun hactive => ?_
    have hactive : s.shieldActive = true := by simpa [Shield.stepCall] using hactive
    simp only [Shield.stepCall, hactive, if_true]
    exact (h.active hactive).goOn hpc (by simp [CallPc.Resetting]) (.inl (by simp [CallPc.Starting]))
  | markCount =>
    refine h.keep (by simp [Shield.stepCall]) (by simp [Shield.stepCall]) fun hactive => ?_
    have hguarded : s.Guarded := h.active (by simpa [Shield.stepCall] using hactive)
    -- without overflow the counter stays at least one
    have hcount : 1 ≤ wrap32 (s.staticCorruptionCount + 1) := by
      have hcounted := hguarded.counted
      simp only [Safe, wrap32] at hok ⊢
      omega
    have hbumped : Guarded { s with staticCorruptionCount := wrap32 (s.staticCorruptionCount + 1) } :=
      ⟨hguarded.dogs, hguarded.calls, hcount, hguarded.watched⟩
    refine hbumped.goOn hpc ?_ (.inl (by simp [CallPc.Starting]))
    intro p hp
    split at hp <;> cases hp <;> simp [CallPc.Resetting]
  | markCycle =>
    refine h.keep (by simp [Shield.stepCall]) (by simp [Shield.stepCall]) fun hactive => ?_
    have hguarded : s.Guarded := h.active (by simpa [Shield.stepCall] using hactive)
    have hbumped : Guarded { s with strictCycleCount := wrap32 (s.strictCycleCount + 1) } :=
      ⟨hguarded.dogs, hguarded.calls, hguarded.counted, hguarded.watched⟩
    have hreset : ∀ p ∈ some CallPc.markStore, ¬ p.Resetting := by simp [CallPc.Resetting]
    exact hbumped.goOn hpc hreset (.inl (by simp [CallPc.Starting]))
  | markStore =>
    obtain ⟨hdogs, hcalls, hcounted⟩ := hok
    refine h.keep (by simp [Shield.stepCall]) (by simp [Shield.stepCall]) fun _ =>
      ⟨by simpa [Shield.stepCall] using hdogs, fun q hq => ?_, by simpa [Shield.stepCall] using hcounted,
        .inr ⟨.markTest, self_mem_goOn (s := { s with shieldActive := true }) hpc, .inl rfl⟩⟩
    rcases mem_goOn hq with hq | hq
    · exact hcalls q hq
    · cases hq
      simp [CallPc.Resetting]
  | markTest =>
    refine h.keep (by simp [Shield.stepCall]) (by simp [Shield.stepCall]) fun hactive => ?_
    have hguarded : s.Guarded := h.active (by simpa [Shield.stepCall] using hactive)
    simp only [Shield.stepCall, if_pos hguarded.counted]
    exact hguarded.goOn hpc (by simp [CallPc.Resetting]) (.inr (.inl ⟨.markSwap, rfl, .inr rfl⟩))
  | markSwap =>
    cases hrunning : s.isWatchdogRunning with
    | true =>
      have hdogs : s.dogs ≠ [] := h.running hrunning
      simp only [Shield.stepCall, hrunning, if_true]
      refine ⟨by simpa using h.single, fun _ => by simpa using hdogs, fun hactive => ?_⟩
      exact (h.active (by simpa using hactive)).goOn hpc (by simp) (.inr (.inr hdogs))
    | false =>
      have hdogs : s.dogs = [] := hok hrunning
      simp only [Shield.stepCall, hrunning, Bool.false_eq_true, if_false, hdogs, nil_append]
      refine ⟨by simp, by simp, fun hactive => ?_⟩
      have hguarded : s.Guarded := h.active (by simpa using hactive)
      have hstarted : Guarded { s with isWatchdogRunning := true, dogs := [DogPc.watch] } :=
        ⟨by simp, hguarded.calls, hguarded.counted, .inl (by simp)⟩
      exact hstarted.goOn hpc (by simp) (.inr (.inr (by simp)))
  | resetShield =>
    exact h.keep (by simp [Shield.stepCall]) (by simp [Shield.stepCall]) (by simp [Shield.stepCall])
  | resetRunning =>
    refine ⟨by simpa [Shield.stepCall] using h.single, by simp [Shield.stepCall], fun hactive => ?_⟩
    exact absurd (.inl rfl)
      ((h.active (by simpa [Shield.stepCall] using hactive)).calls .resetRunning hmem)
  | resetCount =>
    refine h.keep (by simp [Shield.stepCall]) (by simp [Shield.stepCall]) fun hactive => ?_
    exact absurd (.inr rfl)
      ((h.active (by simpa [Shield.stepCall] using hactive)).calls .resetCount hmem)

end

theorem Inv.stepDog {s : Shield} {i : Nat} {pc : DogPc} (h : s.Inv) (clean : Bool)
    (hpc : s.dogs[i]? = some pc) : (s.stepDog i clean pc).Inv := by
  -- a watchdog on its way out has switched the shield off
  have hoff : pc ≠ .watch → s.shieldActive = false := by
    intro hne
    by_contra hactive
    exact hne ((h.active (by simpa using hactive)).dogs pc (mem_of_getElem? hpc))
  cases pc with
  | watch =>
    cases clean with
    | true => exact ⟨by simpa [Shield.stepDog] using h.single,
        by simpa [Shield.stepDog] using h.running, by simp [Shield.stepDog]⟩
    | false => exact h
  | clearCount =>
    refine ⟨by simpa [Shield.stepDog] using h.single, by simpa [Shield.stepDog] using h.running, ?_⟩
    simp [Shield.stepDog, hoff]
  | clearCycle =>
    refine ⟨by simpa [Shield.stepDog] using h.single, by simpa [Shield.stepDog] using h.running, ?_⟩
    simp [Shield.stepDog, hoff]
  | stop =>
    refine ⟨?_, by simp [Shield.stepDog], by simp [Shield.stepDog, hoff]⟩
    exact Nat.le_trans (length_eraseIdx_le s.dogs i) h.single

theorem Inv.begin {s : Shield} {pc : CallPc} (h : s.Inv) (hpc : ¬ pc.Resetting) :
    Inv { s with calls := s.calls ++ [pc] } := by
  refine ⟨h.single, h.running, fun hactive => ?_⟩
  have hguarded : s.Guarded := h.active hactive
  refine ⟨hguarded.dogs, fun q hq => ?_, hguarded.counted, ?_⟩
  · rcases mem_append.mp hq with hq | hq
    · exact hguarded.calls q hq
    · rw [mem_singleton.mp hq]
      exact hpc
  · rcases hguarded.watched with hdogs | ⟨q, hq, hstarting⟩
    · exact .inl hdogs
    · exact .inr ⟨q, mem_append_left _ hq, hstarting⟩

theorem Inv.step {s t : Shield} {a : Act} (h : s.Inv) (hok : s.Orderly a)
    (hstep : s.step a = some t) : t.Inv := by
  cases a with
  | markNotComplete =>
    cases hstep
    exact h.begin (by simp [CallPc.Resetting])
  | resetShield =>
    cases hstep
    exact h.begin (by simp [CallPc.Resetting])
  | call i =>
    obtain ⟨pc, hpc, rfl⟩ := Option.map_eq_some_iff.mp hstep
    exact h.stepCall hpc (hok pc hpc)
  | dog i clean =>
    obtain ⟨pc, hpc, rfl⟩ := Option.map_eq_some_iff.mp hstep
    exact h.stepDog clean hpc

/-- **The shield is watched by a single watchdog** in every run whose steps are orderly. -/
theorem single_watchdog (acts : List Act) (hok : Lib.Each step Orderly init acts) :
    Lib.Along step Watched init acts :=
  (hok.along (I := Inv) (fun _ _ _ h hok hstep => h.step hok hstep) Inv.init).mono fun _ h => h.watched

/-! ## Runs -/

/-- A `MarkNotComplete` that counts the second corruption, switches the shield on and sees to the watchdog. -/
def second : List Act := .markNotComplete :: List.replicate 6 (.call 0)

/-- A first `MarkNotComplete`: it counts, and starts the watchdog. -/
def first : List Act := .markNotComplete :: List.replicate 4 (.call 0)

/-- A whole `ResetShield`. -/
def reset : List Act := .resetShield :: List.replicate 3 (.call 0)

/-- Two corruptions, the watchdog's round and exit, a reset, and corruption again. -/
def corrupted : List Act :=
  first ++ second ++ [.dog 0 false, .dog 0 true, .dog 0 true, .dog 0 true, .dog 0 true] ++ reset ++
    first ++ second

/-- The run comes to its end, with the shield on and one watchdog. -/
theorem corrupted_watched : (Lib.run step init corrupted).map (fun s => (s.shieldActive, s.dogs)) =
      some (true, [.watch]) ∧ Lib.Along step Watched init corrupted :=
  ⟨by decide +kernel, single_watchdog corrupted (by decide +kernel)⟩

/-- **Two ways to lose the single watchdog**: a corruption after `ResetShield` starts a second one; and one that
is counted between the swap of the shield and the clearing of the flag leaves it on without a watchdog. -/
theorem unwatched_runs :
    (∃ acts s, Lib.run step init acts = some s ∧ s.calls = [] ∧ s.dogs.length = 2) ∧
      ∃ acts s, Lib.run step init acts = some s ∧ s.calls = [] ∧ s.shieldActive = true ∧ s.dogs = [] := by
  constructor
  · exact ⟨first ++ reset ++ first, _, rfl, rfl, rfl⟩
  · refine ⟨first ++ [.dog 0 true] ++ second ++ [.dog 0 true, .dog 0 true, .dog 0 true], _, rfl, rfl, ?_, ?_⟩
    · decide +kernel
    · decide +kernel

end Shield

end TorrServer.Torrstor
