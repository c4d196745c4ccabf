/-
# Lib.Serial — calls in two sections, and the order they are equivalent to.

A call that reads a shared state in one atomic section and writes it in another behaves as if it ran alone when
its write does what it would do on the state it now finds. If every call of a run does, the run is equivalent to
the calls one after the other, in the order of their second sections (`serializable`).
-/
import TorrServer.Lib.Runs
import Mathlib.Data.List.Perm.Basic

namespace TorrServer.Lib

variable {σ κ ρ : Type*}

/-- Calls `κ` in two sections: the first takes from the state what the second one needs. -/
structure TwoSection (σ κ ρ : Type*) where
  read : κ → σ → ρ
  write : κ → ρ → σ → σ

/-- One step: a call runs its first section, or the `i`-th call in flight its second. -/
inductive TwoSection.Act (κ : Type*)
  | call (k : κ)
  | finish (i : Nat)
  deriving DecidableEq, Repr

/-- The shared state, the calls in flight with what they have read, and those returned in order. -/
structure TwoSection.Concurrent (σ κ ρ : Type*) where
  shared : σ
  flight : List (κ × ρ)
  done : List κ

namespace TwoSection

variable (S : TwoSection σ κ ρ)

/-- A call that runs alone. -/
def exec (s : σ) (k : κ) : σ := S.write k (S.read k s) s

/-- No call yet. -/
def start (s : σ) : Concurrent σ κ ρ := ⟨s, [], []⟩

/-- One step. -/
def step (c : Concurrent σ κ ρ) : Act κ → Option (Concurrent σ κ ρ)
  | .call k => some { c with flight := c.flight ++ [(k, S.read k c.shared)] }
  | .finish i =>
    match c.flight[i]? with
    | some (k, r) =>
      some { shared := S.write k r c.shared, flight := c.flight.eraseIdx i, done := c.done ++ [k] }
    | none => none

/-- The second section does what the whole call would do now. -/
def Undisturbed (c : Concurrent σ κ ρ) : Act κ → Prop
  | .call _ => True
  | .finish i => ∀ k r, c.flight[i]? = some (k, r) → S.write k r c.shared = S.exec c.shared k

/-- The calls of a run. -/
def calls (acts : List (Act κ)) : List κ :=
  acts.filterMap fun
    | .call k => some k
    | .finish _ => none

variable {S} {c c' : Concurrent σ κ ρ} {s : σ} {acts : List (Act κ)}

theorem step_cases {a : Act κ} (h : S.step c a = some c') :
    (∃ k, a = .call k ∧ c' = { c with flight := c.flight ++ [(k, S.read k c.shared)] }) ∨
      ∃ i k r, a = .finish i ∧ c.flight[i]? = some (k, r) ∧
        c' = { shared := S.write k r c.shared, flight := c.flight.eraseIdx i, done := c.done ++ [k] } := by
  cases a with
  | call k =>
    cases h
    exact .inl ⟨k, rfl, rfl⟩
  | finish i =>
    rw [step] at h
    split at h
    · rename_i k r hflight
      cases h
      exact .inr ⟨i, k, r, rfl, hflight, rfl⟩
    · cases h

/-- Taking a call out of flight rearranges the calls. -/
theorem perm_finish {flight : List (κ × ρ)} {i : Nat} {k : κ} {r : ρ} (h : flight[i]? = some (k, r)) :
    (flight.map Prod.fst).Perm (k :: (flight.eraseIdx i).map Prod.fst) := by
  obtain ⟨hi, hget⟩ := List.getElem?_eq_some_iff.mp h
  have hsplit := (List.getElem_cons_eraseIdx_perm hi).symm.map Prod.fst
  rwa [hget] at hsplit

/-- The calls that have returned and those in flight are the calls of the run. -/
theorem calls_perm (hrun : run S.step c acts = some c') :
    (c'.done ++ c'.flight.map Prod.fst).Perm (c.done ++ c.flight.map Prod.fst ++ calls acts) := by
  induction acts generalizing c with
  | nil =>
    cases hrun
    simp [calls]
  | cons a acts ih =>
    obtain ⟨c₁, hstep, hrun⟩ := (run_cons_eq_some S.step).mp hrun
    refine (ih hrun).trans ?_
    rcases step_cases hstep with ⟨k, rfl, rfl⟩ | ⟨i, k, r, rfl, hflight, rfl⟩
    · simp [calls]
    · show (c.done ++ [k] ++ (c.flight.eraseIdx i).map Prod.fst ++ calls acts).Perm
        (c.done ++ c.flight.map Prod.fst ++ calls acts)
      rw [List.append_assoc c.done]
      exact ((perm_finish hflight).symm.append_left c.done).append_right (calls acts)

/-- **Undisturbed calls are serial**: the shared state is what the returned calls make of it one by one. -/
theorem shared_eq_foldl (hok : Each S.step S.Undisturbed c acts) (hrun : run S.step c acts = some c')
    (hc : c.shared = c.done.foldl S.exec s) : c'.shared = c'.done.foldl S.exec s := by
  induction acts generalizing c with
  | nil =>
    cases hrun
    exact hc
  | cons a acts ih =>
    obtain ⟨c₁, hstep, hrun⟩ := (run_cons_eq_some S.step).mp hrun
    refine ih (hok.2 c₁ hstep) hrun ?_
    rcases step_cases hstep with ⟨k, rfl, rfl⟩ | ⟨i, k, r, rfl, hflight, rfl⟩
    · exact hc
    · have hwrite := hok.1 k r hflight
      rw [List.foldl_append, ← hc]
      exact hwrite

/-- **Serializability**: once no call is in flight, the run did what its calls do one after the other. -/
theorem serializable (hok : Each S.step S.Undisturbed (start s) acts)
    (hrun : run S.step (start s) acts = some c) (hflight : c.flight = []) :
    c.done.Perm (calls acts) ∧ c.shared = c.done.foldl S.exec s := by
  refine ⟨?_, shared_eq_foldl hok hrun rfl⟩
  have hperm := calls_perm hrun
  rw [hflight] at hperm
  simpa [start] using hperm

end TwoSection

end TorrServer.Lib
