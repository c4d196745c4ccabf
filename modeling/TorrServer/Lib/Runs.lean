/-
# Lib.Runs — runs of a partial step function, conditions along a run, invariants.

A partial step function `step : σ → α → Option σ` gives the atomic steps or the calls of a component: the label
`α` carries every choice of the environment, and a label that is not enabled gives `none`.

* `run` replays a list of labels;
* `Along P` says that `P` holds in every state a run visits;
* `Each ok` says that every step of a run is taken from a state that meets `ok`.
-/
import Mathlib.Logic.Function.Basic
import Mathlib.Tactic.Basic

namespace TorrServer.Lib

variable {σ α : Type*} (step : σ → α → Option σ)

variable {s t : σ} {as : List α} {P I : σ → Prop} {ok : σ → α → Prop}

/-! ## Replaying labels -/

/-- Replay `labels` from `s`; `none` as soon as a label is not enabled. -/
def run (s : σ) : List α → Option σ
  | [] => some s
  | a :: as => (step s a).bind fun s' => run s' as

@[simp] theorem run_nil (s : σ) : run step s [] = some s := rfl

theorem run_cons (s : σ) (a : α) (as : List α) :
    run step s (a :: as) = (step s a).bind fun s' => run step s' as := rfl

theorem run_cons_eq_some {a : α} :
    run step s (a :: as) = some t ↔ ∃ s', step s a = some s' ∧ run step s' as = some t := by
  rw [run_cons, Option.bind_eq_some_iff]

/-! ## Properties and conditions along a run -/

/-- `P` holds in `s` and in every state the labels lead through. -/
def Along (P : σ → Prop) (s : σ) : List α → Prop
  | [] => P s
  | a :: as => P s ∧ ∀ s', step s a = some s' → Along P s' as

/-- Every step of the run is taken from a state that meets `ok` for its label. -/
def Each (ok : σ → α → Prop) (s : σ) : List α → Prop
  | [] => True
  | a :: as => ok s a ∧ ∀ s', step s a = some s' → Each ok s' as

variable {step}

theorem Along.head : ∀ {as : List α}, Along step P s as → P s
  | [], h => h
  | _ :: _, h => h.1

theorem Along.mono {Q : σ → Prop} (hPQ : ∀ s, P s → Q s) (h : Along step P s as) : Along step Q s as := by
  induction as generalizing s with
  | nil => exact hPQ s h
  | cons a as ih => exact ⟨hPQ s h.1, fun s' hs => ih (h.2 s' hs)⟩

theorem Along.last (h : Along step P s as) (hr : run step s as = some t) : P t := by
  induction as generalizing s with
  | nil => cases hr; exact h
  | cons a as ih =>
    obtain ⟨s', hs, hr'⟩ := (run_cons_eq_some step).mp hr
    exact ih (h.2 s' hs) hr'

theorem each_cons_some {s' : σ} {a : α} (hs : step s a = some s') :
    Each step ok s (a :: as) ↔ ok s a ∧ Each step ok s' as := by
  constructor
  · rintro ⟨hok, h⟩
    exact ⟨hok, h s' hs⟩
  · rintro ⟨hok, h⟩
    refine ⟨hok, fun u hu => ?_⟩
    cases hs.symm.trans hu
    exact h

theorem each_cons_none {a : α} (hs : step s a = none) : Each step ok s (a :: as) ↔ ok s a := by
  constructor
  · exact fun h => h.1
  · intro hok
    refine ⟨hok, fun u hu => ?_⟩
    cases hs.symm.trans hu

/-- A decidable condition can be checked along a concrete run. -/
instance Each.decidable {ok : σ → α → Prop} [∀ s a, Decidable (ok s a)] :
    ∀ (s : σ) (as : List α), Decidable (Each step ok s as)
  | _, [] => isTrue trivial
  | s, a :: as =>
    match hs : step s a with
    | none => decidable_of_iff (ok s a) (each_cons_none hs).symm
    | some s' =>
      have : Decidable (Each step ok s' as) := Each.decidable s' as
      decidable_of_iff (ok s a ∧ Each step ok s' as) (each_cons_some hs).symm

theorem each_true (s : σ) (as : List α) : Each step (fun _ _ => True) s as := by
  induction as generalizing s with
  | nil => trivial
  | cons a as ih => exact ⟨trivial, fun s' _ => ih s'⟩

/-- **Invariants of runs under a condition.** What every step that meets `ok` keeps holds along runs of such
steps. -/
theorem Each.along (hstep : ∀ s a s', I s → ok s a → step s a = some s' → I s') (hs : I s)
    (h : Each step ok s as) :
    Along step I s as := by
  induction as generalizing s with
  | nil => exact hs
  | cons a as ih =>
    refine ⟨hs, fun s' hs' => ?_⟩
    exact ih (hstep s a s' hs h.1 hs') (h.2 s' hs')

/-- With an invariant at hand, one condition on the steps of a run gives another. -/
theorem Each.imp {ok' : σ → α → Prop} (hstep : ∀ s a s', I s → ok s a → step s a = some s' → I s')
    (himp : ∀ s a, I s → ok s a → ok' s a) (hs : I s) (h : Each step ok s as) : Each step ok' s as := by
  induction as generalizing s with
  | nil => trivial
  | cons a as ih =>
    refine ⟨himp s a hs h.1, fun s' hs' => ?_⟩
    exact ih (hstep s a s' hs h.1 hs') (h.2 s' hs')

/-- **The exact condition of a run property.** If from `J` and `P` a step keeps `P` exactly when it meets `ok`,
a run that can be replayed has `P` in all its states exactly when all its steps meet `ok`. -/
theorem along_iff_each {J : σ → Prop} (hJ : ∀ s a s', J s → step s a = some s' → J s')
    (hP : ∀ s a s', J s → P s → step s a = some s' → (P s' ↔ ok s a)) (hJs : J s) (hPs : P s)
    (hr : run step s as = some t) :
    Along step P s as ↔ Each step ok s as := by
  induction as generalizing s with
  | nil => exact ⟨fun _ => trivial, fun _ => hPs⟩
  | cons a as ih =>
    obtain ⟨s', hs, hr'⟩ := (run_cons_eq_some step).mp hr
    have hJ' : J s' := hJ s a s' hJs hs
    constructor
    · rintro ⟨-, h⟩
      have hPs' : P s' := (h s' hs).head
      refine ⟨(hP s a s' hJs hPs hs).mp hPs', fun u hu => ?_⟩
      cases hs.symm.trans hu
      exact (ih hJ' hPs' hr').mp (h s' hs)
    · rintro ⟨hok, h⟩
      refine ⟨hPs, fun u hu => ?_⟩
      cases hs.symm.trans hu
      exact (ih hJ' ((hP s a s' hJs hPs hs).mpr hok) hr').mpr (h s' hs)

end TorrServer.Lib
