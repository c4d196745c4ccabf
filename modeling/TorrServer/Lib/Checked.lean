/-
# Lib.Checked — computations that stop at the first failed check.

Go code of the form `if bad { return err }` becomes a chain of `require` in the `Except` monad. The lemmas turn
a chain that succeeded into the conjunction of its conditions, and a chain whose conditions are known into its
result.
-/
import Mathlib.Tactic.Basic

namespace TorrServer.Lib

universe u v w

variable {ε : Type u} {α β : Type v}

/-- Go on if `c` holds, otherwise stop with the error `e`. -/
def require (c : Prop) [Decidable c] (e : ε) : Except ε Unit := if c then .ok () else .error e

theorem require_eq_ok {c : Prop} [Decidable c] {e : ε} {u : Unit} : require c e = .ok u ↔ c := by
  unfold require
  split <;> simp_all

theorem require_of {c : Prop} [Decidable c] (e : ε) (h : c) : require c e = .ok () := if_pos h

theorem bind_eq_ok {x : Except ε α} {f : α → Except ε β} {b : β} :
    (x >>= f) = .ok b ↔ ∃ a, x = .ok a ∧ f a = .ok b := by
  cases x with
  | error e => simp [bind, Except.bind]
  | ok a => simp [bind, Except.bind]

theorem pure_eq_ok {a b : α} : (pure a : Except ε α) = .ok b ↔ a = b := by simp [pure, Except.pure]

@[simp] theorem ok_bind (a : α) (f : α → Except ε β) : ((.ok a : Except ε α) >>= f) = f a := rfl

theorem require_bind {γ : Type} {c : Prop} [Decidable c] {e : ε} {f : Unit → Except ε γ} (h : c) :
    (require c e >>= f) = f () := by
  rw [require_of e h, ok_bind]

@[simp] theorem error_bind (e : ε) (f : α → Except ε β) : ((.error e : Except ε α) >>= f) = .error e := rfl

theorem map_bind {γ : Type v} (x : Except ε α) (f : α → Except ε β) (g : β → γ) :
    (x >>= f).map g = x >>= fun a => (f a).map g := by
  cases x <;> rfl

/-- What every round of a loop keeps holds at its end; `P` is told the elements done. -/
theorem foldlM_invariant {γ : Type w} {f : α → γ → Except ε α} {P : List γ → α → Prop} {a b : α}
    {l : List γ} (h0 : P [] a)
    (hstep : ∀ done c a a', P done a → f a c = .ok a' → P (done ++ [c]) a')
    (h : l.foldlM f a = .ok b) : P l b := by
  have hgen : ∀ (l done : List γ) (a : α), P done a → l.foldlM f a = .ok b → P (done ++ l) b := by
    intro l
    induction l with
    | nil =>
      intro done a hP h
      cases h
      simpa using hP
    | cons c l ih =>
      intro done a hP h
      rw [List.foldlM_cons, bind_eq_ok] at h
      obtain ⟨a', ha, h⟩ := h
      simpa using ih (done ++ [c]) a' (hstep done c a a' hP ha) h
  exact hgen l [] a h0 h

theorem toOption_eq_some {ε α : Type} {x : Except ε α} {a : α} : x.toOption = some a ↔ x = .ok a := by
  cases x <;> simp [Except.toOption]

theorem toOption_eq_none {ε α : Type} {x : Except ε α} : x.toOption = none ↔ ∃ e, x = .error e := by
  cases x <;> simp [Except.toOption]

end TorrServer.Lib
