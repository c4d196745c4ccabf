/-
# Lib.Threads — calls that interleave on a shared state.

Any number of threads make calls on one shared state `σ`. A call stands at a program counter `κ`; one step of it
is one atomic access (a locked section, an atomic load or compare-and-swap), after which it goes on or returns
an answer. The environment `ε` of a step holds what the code does not decide.

* An `Outline` gives an invariant of the shared state, an assertion at every program counter, a relation
  between any two calls in flight and a lasting guarantee for every answer. The steps are checked one
  by one, against the assertion of a single other call (`Outline.step`, `Outline.run`);
* a *duty* is done already, or some call in flight still has it (`Due.step`, `Due.run`).
-/
import TorrServer.Lib.Runs
import Mathlib.Tactic.SplitIfs

namespace TorrServer.Lib

variable {σ κ ρ ι ε : Type}

/-- Where a step leads: to the next program counter, or out of the call. -/
inductive Next (κ ρ : Type)
  | goOn (pc : κ)
  | ret (answer : ρ)

namespace Next

/-- Where the thread stands, if it goes on. -/
def pc : Next κ ρ → Option κ
  | .goOn pc => some pc
  | .ret _ => none

/-- The answer, if the call returned. -/
def answers : Next κ ρ → List ρ
  | .goOn _ => []
  | .ret answer => [answer]

theorem pc_eq_some {next : Next κ ρ} {pc : κ} : next.pc = some pc ↔ next = .goOn pc := by
  cases next <;> simp [Next.pc]

theorem mem_answers {next : Next κ ρ} {a : ρ} : a ∈ next.answers ↔ next = .ret a := by
  cases next <;> simp [Next.answers, eq_comm]

end Next

/-- The shared state, the calls in flight and the answers given so far. -/
structure Threads (σ κ ρ : Type) where
  shared : σ
  pcs : Nat → Option κ := fun _ => none
  answers : List ρ := []

/-- A thread that is in no call makes one, or one that is in a call takes its next step. -/
inductive Threads.Act (ι ε : Type)
  | call (tid : Nat) (c : ι)
  | resume (tid : Nat) (env : ε)

namespace Threads

variable (enter : ι → κ) (resume : σ → ε → κ → σ × Next κ ρ)

/-- The thread `tid` has taken a step to `out`. -/
def settle (T : Threads σ κ ρ) (tid : Nat) (out : σ × Next κ ρ) : Threads σ κ ρ :=
  { shared := out.1
    pcs := fun t => if t = tid then out.2.pc else T.pcs t
    answers := T.answers ++ out.2.answers }

/-- One act; `none` if the thread is busy with a call, or has none to resume. -/
def step (T : Threads σ κ ρ) : Act ι ε → Option (Threads σ κ ρ)
  | .call tid c => if (T.pcs tid).isNone then some (T.settle tid (T.shared, .goOn (enter c))) else none
  | .resume tid env => (T.pcs tid).map fun pc => T.settle tid (resume T.shared env pc)

/-- All calls have returned. -/
def Quiet (T : Threads σ κ ρ) : Prop := ∀ tid, T.pcs tid = none

variable {enter resume} {T T' : Threads σ κ ρ}

/-- A step is the entry into a call by an idle thread, or a step of a call in flight. -/
theorem step_cases {a : Act ι ε} (h : step enter resume T a = some T') :
    (∃ tid c, T.pcs tid = none ∧ T' = T.settle tid (T.shared, .goOn (enter c))) ∨
      ∃ tid env pc, T.pcs tid = some pc ∧ T' = T.settle tid (resume T.shared env pc) := by
  cases a with
  | call tid c =>
    rw [step] at h
    split_ifs at h with hidle
    exact .inl ⟨tid, c, Option.isNone_iff_eq_none.1 hidle, (Option.some.inj h).symm⟩
  | resume tid env =>
    obtain ⟨pc, hpc, heq⟩ := Option.map_eq_some_iff.1 h
    exact .inr ⟨tid, env, pc, hpc, heq.symm⟩

/-- A call in flight after a step of `tid` is the one that took it, or was in flight before. -/
theorem pcs_settle {tid t : Nat} {out : σ × Next κ ρ} {pc : κ}
    (h : (T.settle tid out).pcs t = some pc) :
    (t = tid ∧ out.2 = .goOn pc) ∨ (t ≠ tid ∧ T.pcs t = some pc) := by
  by_cases ht : t = tid
  · refine .inl ⟨ht, ?_⟩
    simp only [settle, if_pos ht] at h
    exact Next.pc_eq_some.1 h
  · refine .inr ⟨ht, ?_⟩
    simpa only [settle, if_neg ht] using h

theorem pcs_settle_of_ne {tid t : Nat} (out : σ × Next κ ρ) (h : t ≠ tid) :
    (T.settle tid out).pcs t = T.pcs t := if_neg h

/-- The thread that takes a step. -/
def Act.tid : Act ι ε → Nat
  | .call tid _ => tid
  | .resume tid _ => tid

/-- A thread that takes no step stays where it is. -/
theorem pcs_run {acts : List (Act ι ε)} (hrun : Lib.run (step enter resume) T acts = some T') {t : Nat}
    (h : ∀ a ∈ acts, a.tid ≠ t) : T'.pcs t = T.pcs t := by
  induction acts generalizing T with
  | nil => cases hrun; rfl
  | cons act acts ih =>
    obtain ⟨T₁, hstep, hrest⟩ := (run_cons_eq_some _).1 hrun
    have hne := h act List.mem_cons_self
    rw [ih hrest fun a ha => h a (List.mem_cons_of_mem _ ha)]
    cases act with
    | call tid c =>
      rw [step] at hstep
      split_ifs at hstep
      cases hstep
      exact pcs_settle_of_ne _ (Ne.symm hne)
    | resume tid env =>
      obtain ⟨pc, -, rfl⟩ := Option.map_eq_some_iff.1 hstep
      exact pcs_settle_of_ne _ (Ne.symm hne)

theorem answers_run {acts : List (Act ι ε)} (hrun : Lib.run (step enter resume) T acts = some T') {a : ρ}
    (h : a ∈ T.answers) : a ∈ T'.answers := by
  induction acts generalizing T with
  | nil => cases hrun; exact h
  | cons act acts ih =>
    obtain ⟨T₁, hstep, hrest⟩ := (run_cons_eq_some _).1 hrun
    apply ih hrest
    rcases step_cases hstep with ⟨tid, c, -, rfl⟩ | ⟨tid, env, pc, -, rfl⟩
    · exact List.mem_append_left _ h
    · exact List.mem_append_left _ h

/-! ## Proof outlines -/

variable (enter resume)

/-- `I` is an invariant, `A` an assertion at each program counter, `R` a relation between two calls, and `Q`
what an answer promises. -/
structure Outline (I : σ → Prop) (A : σ → κ → Prop) (R : κ → κ → Prop) (Q : σ → ρ → Prop) : Prop where
  enters : ∀ s c, A s (enter c)
  enters_apart : ∀ c pc, R (enter c) pc
  symm : ∀ pc pc', R pc pc' → R pc' pc
  keeps : ∀ s env pc, I s → A s pc → I (resume s env pc).1
  goesOn : ∀ s env pc pc', I s → A s pc → (resume s env pc).2 = .goOn pc' →
    A (resume s env pc).1 pc'
  returns : ∀ s env pc a, I s → A s pc → (resume s env pc).2 = .ret a → Q (resume s env pc).1 a
  lasts : ∀ s env pc a, I s → A s pc → Q s a → Q (resume s env pc).1 a
  undisturbed : ∀ s env pc other, I s → A s pc → A s other → R pc other →
    A (resume s env pc).1 other
  apart : ∀ s env pc pc' other, I s → A s pc → A s other → R pc other →
    (resume s env pc).2 = .goOn pc' → R pc' other

variable {enter resume}

/-- What an outline says of the shared state and all calls. -/
structure Meets (I : σ → Prop) (A : σ → κ → Prop) (R : κ → κ → Prop) (Q : σ → ρ → Prop)
    (T : Threads σ κ ρ) : Prop where
  shared : I T.shared
  pcs : ∀ tid pc, T.pcs tid = some pc → A T.shared pc
  apart : ∀ tid tid' pc pc', tid ≠ tid' → T.pcs tid = some pc → T.pcs tid' = some pc' → R pc pc'
  answers : ∀ a ∈ T.answers, Q T.shared a

section Rules

variable {I : σ → Prop} {A : σ → κ → Prop} {R : κ → κ → Prop} {Q : σ → ρ → Prop}

/-- A pair of calls after a step of `tid` is related if the new one is to all others. -/
theorem apart_settle {tid : Nat} {out : σ × Next κ ρ} (hsymm : ∀ pc pc', R pc pc' → R pc' pc)
    (hold : ∀ t t' pc pc', t ≠ t' → T.pcs t = some pc → T.pcs t' = some pc' → R pc pc')
    (hnew : ∀ t pc pc', t ≠ tid → T.pcs t = some pc → out.2 = .goOn pc' → R pc' pc) :
    ∀ t t' pc pc', t ≠ t' → (T.settle tid out).pcs t = some pc →
      (T.settle tid out).pcs t' = some pc' → R pc pc' := by
  intro t t' pc pc' hne hpc hpc'
  rcases pcs_settle hpc with ⟨ht, hgo⟩ | ⟨ht, hbefore⟩
  · rcases pcs_settle hpc' with ⟨ht', -⟩ | ⟨ht', hbefore'⟩
    · exact absurd (ht.trans ht'.symm) hne
    · exact hnew t' pc' pc ht' hbefore' hgo
  · rcases pcs_settle hpc' with ⟨-, hgo'⟩ | ⟨-, hbefore'⟩
    · exact hsymm _ _ (hnew t pc pc' ht hbefore hgo')
    · exact hold t t' pc pc' hne hbefore hbefore'

theorem Outline.step (h : Outline enter resume I A R Q) {a : Act ι ε} (hT : Meets I A R Q T)
    (hstep : Threads.step enter resume T a = some T') : Meets I A R Q T' := by
  rcases step_cases hstep with ⟨tid, c, -, rfl⟩ | ⟨tid, env, pc, hpc, rfl⟩
  · refine ⟨hT.shared, ?_, ?_, ?_⟩
    · intro t pc hpc
      rcases pcs_settle hpc with ⟨-, hgo⟩ | ⟨-, hold⟩
      · cases hgo
        exact h.enters _ c
      · exact hT.pcs t pc hold
    · refine apart_settle h.symm hT.apart ?_
      intro t pc pc' _ _ hgo
      cases hgo
      exact h.enters_apart c pc
    · intro a ha
      exact hT.answers a (by simpa [settle, Next.answers] using ha)
  · have hA := hT.pcs tid pc hpc
    refine ⟨h.keeps _ env pc hT.shared hA, ?_, ?_, ?_⟩
    · intro t other hother
      rcases pcs_settle hother with ⟨-, hgo⟩ | ⟨ht, hold⟩
      · exact h.goesOn _ env pc other hT.shared hA hgo
      · exact h.undisturbed _ env pc other hT.shared hA (hT.pcs t other hold)
          (hT.apart tid t pc other (Ne.symm ht) hpc hold)
    · refine apart_settle h.symm hT.apart ?_
      intro t other pc' ht hother hgo
      exact h.apart _ env pc pc' other hT.shared hA (hT.pcs t other hother)
        (hT.apart tid t pc other (Ne.symm ht) hpc hother) hgo
    · intro a ha
      rcases List.mem_append.1 ha with hold | hnew
      · exact h.lasts _ env pc a hT.shared hA (hT.answers a hold)
      · exact h.returns _ env pc a hT.shared hA (Next.mem_answers.1 hnew)

/-- Everything an outline says holds after every run. -/
theorem Outline.run (h : Outline enter resume I A R Q) {acts : List (Act ι ε)} (hT : Meets I A R Q T)
    (hrun : Lib.run (Threads.step enter resume) T acts = some T') : Meets I A R Q T' := by
  have halong : Along (Threads.step enter resume) (Meets I A R Q) T acts :=
    Each.along (fun _ _ _ hT _ hstep => h.step hT hstep) hT (each_true T acts)
  exact halong.last hrun

/-- Before any call is made only the invariant is to be shown. -/
theorem Meets.init {s : σ} (hI : I s) : Meets I A R Q { shared := s } where
  shared := hI
  pcs := fun _ _ h => nomatch h
  apart := fun _ _ _ _ _ h => nomatch h
  answers := fun _ h => nomatch h

/-! ## Duties -/

/-- Either `D` holds, or some call in flight has the duty `H`. -/
def Due (D : σ → Prop) (H : κ → Prop) (T : Threads σ κ ρ) : Prop :=
  D T.shared ∨ ∃ tid pc, T.pcs tid = some pc ∧ H pc

variable {D : σ → Prop} {H : κ → Prop}

/-- A step keeps `Due` if neither `D` nor the duty of the call that takes it gets lost. -/
theorem Due.step (hkeep : ∀ s env pc, I s → A s pc → D s ∨ H pc →
      D (resume s env pc).1 ∨ ∃ pc', (resume s env pc).2 = .goOn pc' ∧ H pc')
    (hT : Meets I A R Q T) {a : Act ι ε} (hstep : Threads.step enter resume T a = some T')
    (hdue : Due D H T) : Due D H T' := by
  rcases step_cases hstep with ⟨tid, c, hidle, rfl⟩ | ⟨tid, env, pc, hpc, rfl⟩
  · refine hdue.imp id ?_
    rintro ⟨t, pc, hpc, hH⟩
    have ht : t ≠ tid := by
      rintro rfl
      rw [hidle] at hpc
      cases hpc
    exact ⟨t, pc, (pcs_settle_of_ne _ ht).trans hpc, hH⟩
  · have hmine : D T.shared ∨ H pc → Due D H (T.settle tid (resume T.shared env pc)) := by
      intro hDH
      refine (hkeep _ env pc hT.shared (hT.pcs tid pc hpc) hDH).imp id ?_
      rintro ⟨pc', hgo, hH⟩
      exact ⟨tid, pc', (if_pos rfl).trans (Next.pc_eq_some.2 hgo), hH⟩
    rcases hdue with hD | ⟨t, other, hother, hH⟩
    · exact hmine (.inl hD)
    · by_cases ht : t = tid
      · subst ht
        cases hpc.symm.trans hother
        exact hmine (.inr hH)
      · exact .inr ⟨t, other, (pcs_settle_of_ne _ ht).trans hother, hH⟩

/-- A duty that steps do not drop is done or still had after every run. -/
theorem Due.run (h : Outline enter resume I A R Q)
    (hkeep : ∀ s env pc, I s → A s pc → D s ∨ H pc →
      D (resume s env pc).1 ∨ ∃ pc', (resume s env pc).2 = .goOn pc' ∧ H pc')
    {acts : List (Act ι ε)} (hT : Meets I A R Q T) (hdue : Due D H T)
    (hrun : Lib.run (Threads.step enter resume) T acts = some T') : Due D H T' := by
  induction acts generalizing T with
  | nil => cases hrun; exact hdue
  | cons a acts ih =>
    obtain ⟨T₁, hstep, hrest⟩ := (run_cons_eq_some _).1 hrun
    exact ih (h.step hT hstep) (Due.step hkeep hT hstep hdue) hrest

/-- When all calls have returned nobody has a duty left. -/
theorem Due.done (hdue : Due D H T) (hquiet : T.Quiet) : D T.shared := by
  rcases hdue with hD | ⟨tid, pc, hpc, -⟩
  · exact hD
  · rw [hquiet tid] at hpc
    cases hpc

end Rules

end Threads

end TorrServer.Lib
