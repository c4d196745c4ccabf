/-
# Lib.Polling — machines that are polled for what they have ready.

A machine takes inputs one at a time, and gives what it has ready when it is polled. Some inputs are followed by
polls of their own; whoever feeds the machine may poll it at other times as well. `canon` is the run with no
polls but the machine's own.

A poll in between changes nothing if it finds nothing. If it finds something, then what the machine gives is the
same in the end as long as the next input commutes with polls (`Harmless`). `Calm` asks this along an input;
`canon_eq_predict` is what follows.
-/
import Mathlib.Data.List.Basic

namespace TorrServer.Lib

/-- States `σ`, inputs `β`, of which `ω` can be seen. A poll fails, gives something, or finds nothing and leaves
the state. An input fails or is taken, with a flag whether a poll is due. There is only so much to give. -/
structure Polled (σ β ω : Type) where
  out : σ → ω
  poll : σ → Option (σ × Bool)
  take : σ → β → Except ω (σ × Bool)
  size : σ → Nat
  poll_false : ∀ {s t : σ}, poll s = some (t, false) → t = s
  poll_lt : ∀ {s t : σ}, poll s = some (t, true) → size t < size s

namespace Polled

variable {σ β ω : Type} (M : Polled σ β ω)

/-! ## Runs -/

/-- Poll at most so often; the flag says that no poll failed. -/
def settleUpTo : Nat → σ → σ × Bool
  | 0, s => (s, true)
  | n + 1, s =>
    match M.poll s with
    | none => (s, false)
    | some (t, false) => (t, true)
    | some (t, true) => settleUpTo n t

/-- Poll until nothing is ready. -/
def settle (s : σ) : σ × Bool := M.settleUpTo (M.size s + 1) s

/-- A poll finds nothing. -/
def Idle (s : σ) : Prop := (M.poll s).map Prod.snd = some false

instance (s : σ) : Decidable (M.Idle s) := inferInstanceAs (Decidable (_ = _))

/-- The run with no polls but those that are due: what is seen, and whether all went well. -/
def canon : σ → List β → ω × Bool
  | s, [] => (M.out s, true)
  | s, b :: bs =>
    match M.take s b with
    | .error o => (o, false)
    | .ok (t, false) => canon t bs
    | .ok (t, true) =>
      match M.settle t with
      | (u, true) => canon u bs
      | (u, false) => (M.out u, false)

/-- The run after polls. -/
def predict (s : σ) (bs : List β) : ω × Bool :=
  match M.settle s with
  | (t, true) => M.canon t bs
  | (t, false) => (M.out t, false)

/-- Where something is ready that is not polled for, the next input is harmless; at the end nothing is. -/
def Calm (Harmless : σ → β → Prop) : σ → List β → Prop
  | s, [] => M.Idle s
  | s, b :: bs =>
    (M.Idle s ∨ Harmless s b) ∧
      match M.take s b with
      | .error _ => True
      | .ok (t, false) => Calm Harmless t bs
      | .ok (t, true) =>
        match M.settle t with
        | (u, true) => Calm Harmless u bs
        | (_, false) => True

instance decidableCalm {Harmless : σ → β → Prop} [∀ s b, Decidable (Harmless s b)] :
    (s : σ) → (bs : List β) → Decidable (M.Calm Harmless s bs)
  | s, [] => inferInstanceAs (Decidable (M.Idle s))
  | s, b :: bs =>
    let rest : Decidable (match M.take s b with
        | .error _ => True
        | .ok (t, false) => M.Calm Harmless t bs
        | .ok (t, true) =>
          match M.settle t with
          | (u, true) => M.Calm Harmless u bs
          | (_, false) => True) :=
      match M.take s b with
      | .error _ => .isTrue trivial
      | .ok (t, false) => decidableCalm t bs
      | .ok (t, true) =>
        show Decidable (match M.settle t with
          | (u, true) => M.Calm Harmless u bs
          | (_, false) => True) from
        match M.settle t with
        | (u, true) => decidableCalm u bs
        | (_, false) => .isTrue trivial
    @instDecidableAnd _ _ inferInstance rest

/-- After polls the run is calm. -/
def CalmAfter (Harmless : σ → β → Prop) (s : σ) (bs : List β) : Prop :=
  ∀ t, M.settle s = (t, true) → M.Calm Harmless t bs

/-- Harmless inputs are taken, and commute with polls. -/
structure Commutes (Good : σ → Prop) (Harmless : σ → β → Prop) : Prop where
  good_poll : ∀ {s t : σ} {given : Bool}, Good s → M.poll s = some (t, given) → Good t
  good_take : ∀ {s t : σ} {b : β} {due : Bool}, Good s → M.take s b = .ok (t, due) → Good t
  takes : ∀ {s : σ} {b : β}, Harmless s b → ∃ t due, M.take s b = .ok (t, due)
  gives : ∀ {s t u : σ} {b : β} {due : Bool}, Good s → Harmless s b → M.take s b = .ok (t, due) →
    M.poll s = some (u, true) →
      ∃ v, M.poll t = some (v, true) ∧ M.take u b = .ok (v, due) ∧ Harmless u b
  fails : ∀ {s t : σ} {b : β} {due : Bool}, Good s → Harmless s b → M.take s b = .ok (t, due) →
    M.poll s = none → M.poll t = none ∧ M.out t = M.out s
  idle : ∀ {s t : σ} {b : β}, Good s → Harmless s b → M.take s b = .ok (t, false) → M.Idle s → M.Idle t

variable {M} {s t u : σ} {b : β} {bs : List β} {due : Bool} {Good : σ → Prop} {Harmless : σ → β → Prop}

/-! ## Polls -/

theorem idle_iff : M.Idle s ↔ M.poll s = some (s, false) := by
  rw [Idle]
  constructor
  · intro h
    rw [Option.map_eq_some_iff] at h
    obtain ⟨⟨t, given⟩, hpoll, rfl⟩ := h
    rw [hpoll, M.poll_false hpoll]
  · intro h
    rw [h]
    rfl

/-- Polls end: more of them than there is to give change nothing. -/
theorem settleUpTo_eq {n m : Nat} (hn : M.size s < n) (hm : M.size s < m) :
    M.settleUpTo n s = M.settleUpTo m s := by
  induction n generalizing s m with
  | zero => omega
  | succ n ih =>
    cases m with
    | zero => omega
    | succ m =>
      rw [settleUpTo, settleUpTo]
      split
      · rfl
      · rfl
      · rename_i t hpoll
        have hlt := M.poll_lt hpoll
        exact ih (by omega) (by omega)

theorem settle_of_none (h : M.poll s = none) : M.settle s = (s, false) := by rw [settle, settleUpTo, h]

theorem settle_of_idle (h : M.Idle s) : M.settle s = (s, true) := by rw [settle, settleUpTo, idle_iff.mp h]

theorem settle_of_some (h : M.poll s = some (t, true)) : M.settle s = M.settle t := by
  have hlt := M.poll_lt h
  rw [settle, settleUpTo, h]
  exact settleUpTo_eq hlt (Nat.lt_succ_self _)

/-- Induction on the polls from a state on. -/
theorem poll_induction {P : σ → Prop} (hnone : ∀ s, M.poll s = none → P s) (hidle : ∀ s, M.Idle s → P s)
    (hsome : ∀ s t, M.poll s = some (t, true) → P t → P s) (s : σ) : P s := by
  induction hn : M.size s using Nat.strongRecOn generalizing s with
  | ind n ih =>
    subst hn
    cases hpoll : M.poll s with
    | none => exact hnone s hpoll
    | some result =>
      obtain ⟨t, given⟩ := result
      cases given with
      | false =>
        obtain rfl := M.poll_false hpoll
        exact hidle t (idle_iff.mpr hpoll)
      | true => exact hsome s t hpoll (ih _ (M.poll_lt hpoll) t rfl)

/-- After polls nothing is ready. -/
theorem idle_of_settle (h : M.settle s = (t, true)) : M.Idle t := by
  induction s using M.poll_induction with
  | hnone s hpoll =>
    rw [settle_of_none hpoll] at h
    cases h
  | hidle s hidle =>
    rw [settle_of_idle hidle] at h
    cases h
    exact hidle
  | hsome s u hpoll ih => exact ih (settle_of_some hpoll ▸ h)

theorem predict_of_idle (h : M.Idle s) (bs : List β) : M.predict s bs = M.canon s bs := by
  rw [predict, settle_of_idle h]

theorem predict_of_none (h : M.poll s = none) (bs : List β) : M.predict s bs = (M.out s, false) := by
  rw [predict, settle_of_none h]

theorem predict_of_some (h : M.poll s = some (t, true)) (bs : List β) : M.predict s bs = M.predict t bs := by
  rw [predict, predict, settle_of_some h]

theorem calmAfter_of_some (h : M.poll s = some (t, true)) (hcalm : M.CalmAfter Harmless s bs) :
    M.CalmAfter Harmless t bs :=
  fun u hu => hcalm u ((settle_of_some h).trans hu)

theorem CalmAfter.calm (h : M.CalmAfter Harmless s bs) (hidle : M.Idle s) : M.Calm Harmless s bs :=
  h s (settle_of_idle hidle)

/-! ## Polls in between -/

/-- A harmless input and the polls before it, in either order. -/
theorem Commutes.settle_take (hM : M.Commutes Good Harmless) (hgood : Good s) (hharmless : Harmless s b)
    (htake : M.take s b = .ok (t, due)) :
    (∀ u, M.settle s = (u, true) →
        Good u ∧ Harmless u b ∧ ∃ v, M.take u b = .ok (v, due) ∧ M.settle t = M.settle v) ∧
      ∀ u, M.settle s = (u, false) → ∃ v, M.settle t = (v, false) ∧ M.out v = M.out u := by
  induction s using M.poll_induction generalizing t with
  | hnone s hpoll =>
    obtain ⟨hnone, hout⟩ := hM.fails hgood hharmless htake hpoll
    rw [settle_of_none hpoll, settle_of_none hnone]
    refine ⟨fun u hu => ?_, fun u hu => ?_⟩
    · cases hu
    · cases hu
      exact ⟨t, rfl, hout⟩
  | hidle s hidle =>
    rw [settle_of_idle hidle]
    refine ⟨fun u hu => ?_, fun u hu => ?_⟩
    · cases hu
      exact ⟨hgood, hharmless, t, htake, rfl⟩
    · cases hu
  | hsome s u hpoll ih =>
    obtain ⟨v, hpolled, htaken, hnext⟩ := hM.gives hgood hharmless htake hpoll
    rw [settle_of_some hpoll, settle_of_some hpolled]
    exact ih (hM.good_poll hgood hpoll) hnext htaken

/-- **Polls change nothing in a calm run**: neither what it comes to, nor that it is calm. -/
theorem Commutes.canon_eq_predict (hM : M.Commutes Good Harmless) (hgood : Good s)
    (hcalm : M.Calm Harmless s bs) :
    M.canon s bs = M.predict s bs ∧ M.CalmAfter Harmless s bs := by
  have hdone : ∀ {s : σ} {bs : List β}, M.Idle s → M.Calm Harmless s bs →
      M.canon s bs = M.predict s bs ∧ M.CalmAfter Harmless s bs := by
    intro s bs hidle hcalm
    refine ⟨(predict_of_idle hidle bs).symm, fun t ht => ?_⟩
    rw [settle_of_idle hidle] at ht
    cases ht
    exact hcalm
  induction bs generalizing s with
  | nil => exact hdone hcalm hcalm
  | cons b bs ih =>
    obtain ⟨hidle | hharmless, hrest⟩ := hcalm
    · exact hdone hidle ⟨.inl hidle, hrest⟩
    -- the polls before the input have the same effect after it
    obtain ⟨t, due, htake⟩ := hM.takes hharmless
    rw [htake] at hrest
    obtain ⟨hwell, hfailed⟩ := hM.settle_take hgood hharmless htake
    have hgoodt := hM.good_take hgood htake
    cases hsettle : M.settle s with
    | mk u well =>
      cases well with
      | false =>
        obtain ⟨v, hv, hout⟩ := hfailed u hsettle
        refine ⟨?_, fun w hw => ?_⟩
        · rw [predict, hsettle, canon, htake]
          cases due with
          | true => simp only [hv, hout]
          | false =>
            simp only
            rw [(ih hgoodt hrest).1, predict, hv]
            simp only [hout]
        · rw [hsettle] at hw
          cases hw
      | true =>
        obtain ⟨hgoodu, hnext, v, htaken, hsame⟩ := hwell u hsettle
        have hidle := idle_of_settle hsettle
        have hgoal : M.canon s (b :: bs) = M.canon u (b :: bs) ∧ M.Calm Harmless u (b :: bs) := by
          rw [canon, canon, Calm, htake, htaken]
          cases due with
          | true =>
            simp only at hrest ⊢
            rw [← hsame]
            exact ⟨rfl, .inl hidle, hrest⟩
          | false =>
            simp only at hrest ⊢
            have hidlev := hM.idle hgoodu hnext htaken hidle
            obtain ⟨heq, hafter⟩ := ih hgoodt hrest
            rw [settle_of_idle hidlev] at hsame
            refine ⟨?_, .inl hidle, hafter v hsame⟩
            rw [heq, predict, hsame]
        refine ⟨?_, fun w hw => ?_⟩
        · rw [hgoal.1, predict, hsettle]
        · rw [hsettle] at hw
          cases hw
          exact hgoal.2

end Polled

end TorrServer.Lib
