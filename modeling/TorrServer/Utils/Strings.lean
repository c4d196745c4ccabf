/-
# Utils.Strings — the number-aware comparison of paths.

`CompareStrings` takes the common prefix off both strings and compares what is left: by the numbers the
remainders start with if both start with one, a number before everything else, and by bytes if neither does. A
common prefix that ends inside a run of digits cuts a number in two.

On remainders (`remainderLess`) this is the order pulled back from a linear order by `rank`. Whether it is a
strict total order on a set of strings is settled by `strictTotalOn_iff`.
-/
import TorrServer.Lib.Strconv
import Mathlib.Data.List.TakeWhile
import Mathlib.Data.Sum.Order

namespace TorrServer.Utils

open List

open Lib (Bytes isDigit parseInt)

variable {p a b q c x y : Bytes} {S : Set Bytes}

/-! ## The source's functions -/

/-- What both texts start with. -/
def commonPrefix : Bytes → Bytes → Bytes
  | x :: xs, y :: ys => if x = y then x :: commonPrefix xs ys else []
  | _, _ => []

/-- `strings.TrimPrefix`. -/
def trimPrefix (s p : Bytes) : Bytes := if p <+: s then s.drop p.length else s

/-- `NumberPrefix`; `none` is the error of `Atoi`, on no digits or too many. -/
def numberPrefix (s : Bytes) : Option Int := parseInt (s.takeWhile isDigit)

/-- The comparison `CompareStrings` makes once the common prefix is gone. -/
def remainderLess (r₁ r₂ : Bytes) : Bool :=
  match numberPrefix r₁, numberPrefix r₂ with
  | some n₁, some n₂ => n₁ < n₂
  | some _, none => true
  | none, some _ => false
  | none, none => r₁ < r₂

/-- The order of two names, by what is left after their common start. -/
def compareStrings (first second : Bytes) : Bool :=
  let p := commonPrefix first second
  remainderLess (trimPrefix first p) (trimPrefix second p)

/-! ## Common prefixes -/

theorem commonPrefix_comm (s t : Bytes) : commonPrefix s t = commonPrefix t s := by
  induction s generalizing t with
  | nil => cases t <;> rfl
  | cons x xs ih =>
    cases t with
    | nil => rfl
    | cons y ys =>
      by_cases h : x = y
      · subst h
        simp [commonPrefix, ih]
      · simp [commonPrefix, h, Ne.symm h]

theorem commonPrefix_append (p s t : Bytes) : commonPrefix (p ++ s) (p ++ t) = p ++ commonPrefix s t := by
  induction p with
  | nil => rfl
  | cons x p ih => simp [commonPrefix, ih]

/-- Both strings are their common prefix followed by remainders that share nothing. -/
theorem exists_remainders (s t : Bytes) :
    ∃ a b, s = commonPrefix s t ++ a ∧ t = commonPrefix s t ++ b ∧ commonPrefix a b = [] := by
  induction s generalizing t with
  | nil => exact ⟨[], t, by cases t <;> rfl, by cases t <;> rfl, by cases t <;> rfl⟩
  | cons x xs ih =>
    cases t with
    | nil => exact ⟨x :: xs, [], rfl, rfl, rfl⟩
    | cons y ys =>
      by_cases h : x = y
      · subst h
        obtain ⟨a, b, ha, hb, hab⟩ := ih ys
        refine ⟨a, b, ?_, ?_, hab⟩
        · simpa [commonPrefix] using ha
        · simpa [commonPrefix] using hb
      · exact ⟨x :: xs, y :: ys, by simp [commonPrefix, h], by simp [commonPrefix, h],
          by simp [commonPrefix, h]⟩

@[simp] theorem trimPrefix_append (p s : Bytes) : trimPrefix (p ++ s) p = s := by simp [trimPrefix]

/-- **What is compared** once the common prefix is known. -/
theorem compareStrings_append (h : commonPrefix a b = []) :
    compareStrings (p ++ a) (p ++ b) = remainderLess a b := by
  simp [compareStrings, commonPrefix_append, h]

/-- Of three strings, two of the three pairs part at the same place. -/
theorem exists_three_remainders (x y z : Bytes) :
    ∃ p a b c, x = p ++ a ∧ y = p ++ b ∧ z = p ++ c ∧
      ((commonPrefix a c = [] ∧ commonPrefix b c = []) ∨
       (commonPrefix a b = [] ∧ commonPrefix c b = []) ∨
       (commonPrefix b a = [] ∧ commonPrefix c a = [])) := by
  induction x generalizing y z with
  | nil =>
    exact ⟨[], [], y, z, rfl, rfl, rfl, .inr (.inr ⟨by cases y <;> rfl, by cases z <;> rfl⟩)⟩
  | cons u us ih =>
    rcases y with _ | ⟨v, vs⟩
    · exact ⟨[], u :: us, [], z, rfl, rfl, rfl, .inr (.inl ⟨rfl, by cases z <;> rfl⟩)⟩
    rcases z with _ | ⟨w, ws⟩
    · exact ⟨[], u :: us, v :: vs, [], rfl, rfl, rfl, .inl ⟨rfl, rfl⟩⟩
    by_cases huv : u = v
    · by_cases huw : u = w
      · subst huv huw
        obtain ⟨p, a, b, c, rfl, rfl, rfl, h⟩ := ih vs ws
        exact ⟨u :: p, a, b, c, rfl, rfl, rfl, h⟩
      · have hvw : v ≠ w := huv ▸ huw
        exact ⟨[], u :: us, v :: vs, w :: ws, rfl, rfl, rfl,
          .inl ⟨by simp [commonPrefix, huw], by simp [commonPrefix, hvw]⟩⟩
    · by_cases hvw : v = w
      · have huw : u ≠ w := hvw ▸ huv
        exact ⟨[], u :: us, v :: vs, w :: ws, rfl, rfl, rfl,
          .inr (.inr ⟨by simp [commonPrefix, Ne.symm huv], by simp [commonPrefix, Ne.symm huw]⟩)⟩
      · exact ⟨[], u :: us, v :: vs, w :: ws, rfl, rfl, rfl,
          .inr (.inl ⟨by simp [commonPrefix, huv], by simp [commonPrefix, Ne.symm hvw]⟩)⟩

/-! ## The order of remainders -/

/-- Numbers by value, then everything else by bytes. -/
def rank (r : Bytes) : Int ⊕ₗ Bytes :=
  match numberPrefix r with
  | some n => Sum.inlₗ n
  | none => Sum.inrₗ r

theorem remainderLess_iff (a b : Bytes) : remainderLess a b = true ↔ rank a < rank b := by
  unfold remainderLess rank
  cases numberPrefix a <;> cases numberPrefix b <;> simp

theorem remainderLess_eq_false_iff (a b : Bytes) : remainderLess a b = false ↔ rank b ≤ rank a := by
  rw [← not_lt, ← remainderLess_iff, Bool.not_eq_true]

/-- Different remainders rank the same only if they start with the same number. -/
theorem rank_eq_iff (hab : a ≠ b) :
    rank a = rank b ↔ ∃ n, numberPrefix a = some n ∧ numberPrefix b = some n := by
  unfold rank
  cases numberPrefix a <;> cases numberPrefix b <;> simp [hab]
  exact eq_comm

/-! ## Irreflexive and asymmetric -/

@[simp] theorem compareStrings_self (s : Bytes) : compareStrings s s = false := by
  obtain ⟨a, b, ha, hb, -⟩ := exists_remainders s s
  have hab : a = b := append_cancel_left (ha.symm.trans hb)
  rw [compareStrings]
  exact (remainderLess_eq_false_iff _ _).mpr le_rfl

theorem compareStrings_asymm {s t : Bytes} (h : compareStrings s t = true) : compareStrings t s = false := by
  rw [compareStrings, remainderLess_iff] at h
  rw [compareStrings, commonPrefix_comm, remainderLess_eq_false_iff]
  exact h.le

/-! ## Cut numbers -/

/-- A prefix that holds something else than digits fixes the number the string starts with. -/
theorem numberPrefix_append_of_not_digits (hq : ¬ q.all isDigit = true) (a b : Bytes) :
    numberPrefix (q ++ a) = numberPrefix (q ++ b) := by
  unfold numberPrefix
  have htake : ∀ r : Bytes, (q ++ r).takeWhile isDigit = q.takeWhile isDigit := by
    intro r
    rw [takeWhile_append, if_neg]
    intro hlen
    apply hq
    rw [all_eq_true]
    have hfront : q.takeWhile isDigit <+: q := takeWhile_prefix isDigit
    have heq := hfront.eq_of_length hlen
    intro d hd
    rw [← heq] at hd
    exact mem_takeWhile_imp hd
  rw [htake a, htake b]

theorem lt_of_parted (hq : q ≠ []) (hc : commonPrefix (q ++ a) c = []) (h : q ++ a < c) : q ++ b < c := by
  obtain ⟨x, q, rfl⟩ := exists_cons_of_ne_nil hq
  cases c with
  | nil => exact absurd h (by simp)
  | cons y c =>
    have hxy : x ≠ y := by
      rintro rfl
      simp [commonPrefix] at hc
    simp only [cons_append, cons_lt_cons_iff, hxy, false_and, or_false] at h ⊢
    exact h

/-- **Only a cut number can be separated.** If `c` lies between `q ++ a` and `q ++ b` and parts from them at the
first byte, `q` is a run of digits. -/
theorem digits_of_between (hq : q ≠ []) (hc : commonPrefix (q ++ a) c = []) (h₁ : rank (q ++ a) < rank c)
    (h₂ : rank c < rank (q ++ b)) : q.all isDigit = true := by
  by_contra hall
  have hnum := numberPrefix_append_of_not_digits hall a b
  -- the two have the same number, or none, in which case `c` has none either and bytes decide
  unfold rank at h₁ h₂
  rw [← hnum] at h₂
  cases ha : numberPrefix (q ++ a) with
  | some n =>
    rw [ha] at h₁ h₂
    exact lt_asymm h₁ h₂
  | none =>
    rw [ha] at h₁ h₂
    cases hcn : numberPrefix c with
    | some m =>
      rw [hcn] at h₁
      simp at h₁
    | none =>
      rw [hcn] at h₁ h₂
      simp only [Sum.Lex.inr_lt_inr_iff] at h₁ h₂
      exact lt_asymm (lt_of_parted hq hc h₁) h₂

/-! ## When it is a strict total order -/

/-- Irreflexive, transitive, and of two different strings exactly one is less than the other. -/
structure StrictTotalOn (S : Set Bytes) : Prop where
  irrefl : ∀ x ∈ S, compareStrings x x = false
  trans : ∀ x ∈ S, ∀ y ∈ S, ∀ z ∈ S, compareStrings x y = true → compareStrings y z = true →
    compareStrings x z = true
  exactly_one : ∀ x ∈ S, ∀ y ∈ S, x ≠ y →
    (compareStrings x y = true ∧ compareStrings y x = false) ∨
      (compareStrings y x = true ∧ compareStrings x y = false)

/-- No two strings go on, after their common prefix, with numbers of the same value, such as `1` and `01`. -/
def NoEqualNumbers (S : Set Bytes) : Prop :=
  ∀ p a b, p ++ a ∈ S → p ++ b ∈ S → commonPrefix a b = [] → a ≠ b →
    ∀ n, numberPrefix a = some n → numberPrefix b ≠ some n

/-- Where the common prefix of `q ++ a` and `q ++ b` is a run `q` of digits that cuts their numbers in two, and
a third string lies between them, the parts that are left compare the way the third string has it. -/
def CutsAgree (S : Set Bytes) : Prop :=
  ∀ p q a b c, p ++ (q ++ a) ∈ S → p ++ (q ++ b) ∈ S → p ++ c ∈ S → q ≠ [] →
    q.all isDigit = true → commonPrefix a b = [] → commonPrefix (q ++ a) c = [] →
    remainderLess (q ++ a) c = true → remainderLess c (q ++ b) = true → remainderLess a b = true

/-- Two remainders of strings in a set without equal numbers compare one way or the other. -/
theorem NoEqualNumbers.rank_ne (h : NoEqualNumbers S) (ha : p ++ a ∈ S) (hb : p ++ b ∈ S)
    (hab : commonPrefix a b = []) (hne : a ≠ b) :
    rank a ≠ rank b := by
  rw [ne_eq, rank_eq_iff hne]
  rintro ⟨n, hna, hnb⟩
  exact h p a b ha hb hab hne n hna hnb

theorem NoEqualNumbers.total (h : NoEqualNumbers S) (hx : x ∈ S) (hy : y ∈ S) (hne : x ≠ y) :
    compareStrings x y = true ∨ compareStrings y x = true := by
  obtain ⟨a, b, ha, hb, hab⟩ := exists_remainders x y
  generalize commonPrefix x y = p at ha hb
  subst ha hb
  have hab' : a ≠ b := fun heq => hne (by rw [heq])
  rw [compareStrings_append hab, compareStrings_append (commonPrefix_comm a b ▸ hab),
    remainderLess_iff, remainderLess_iff]
  exact lt_or_gt_of_ne (h.rank_ne hx hy hab hab')

/-- No cycle of three in which the first two strings share more than they share with the third. -/
theorem CutsAgree.no_cycle (h : CutsAgree S) (ha : p ++ a ∈ S) (hb : p ++ b ∈ S) (hc : p ++ c ∈ S)
    (hac : commonPrefix a c = []) (hbc : commonPrefix b c = []) (h₁ : compareStrings (p ++ a) (p ++ b) = true)
    (h₂ : compareStrings (p ++ b) (p ++ c) = true) (h₃ : compareStrings (p ++ c) (p ++ a) = true) : False := by
  rw [compareStrings_append hbc, remainderLess_iff] at h₂
  rw [compareStrings_append (commonPrefix_comm a c ▸ hac), remainderLess_iff] at h₃
  obtain ⟨a', b', ha', hb', hab⟩ := exists_remainders a b
  generalize commonPrefix a b = q at ha' hb'
  subst ha' hb'
  rw [← append_assoc, ← append_assoc, compareStrings_append hab, remainderLess_iff] at h₁
  by_cases hq : q = []
  · -- all three part at the same place, where the comparison is one linear order
    subst hq
    exact lt_irrefl _ (h₁.trans (h₂.trans h₃))
  · have hdig := digits_of_between hq hbc h₂ h₃
    have hagree := h p q b' a' c hb ha hc hq hdig (commonPrefix_comm a' b' ▸ hab) hbc
      ((remainderLess_iff _ _).mpr h₂) ((remainderLess_iff _ _).mpr h₃)
    exact lt_asymm h₁ ((remainderLess_iff _ _).mp hagree)

theorem CutsAgree.no_three_cycle (h : CutsAgree S) {z : Bytes} (hx : x ∈ S) (hy : y ∈ S) (hz : z ∈ S)
    (hxy : compareStrings x y = true) (hyz : compareStrings y z = true)
    (hzx : compareStrings z x = true) : False := by
  obtain ⟨p, a, b, c, rfl, rfl, rfl, ⟨hac, hbc⟩ | ⟨hab, hcb⟩ | ⟨hba, hca⟩⟩ :=
    exists_three_remainders x y z
  · exact h.no_cycle hx hy hz hac hbc hxy hyz hzx
  · exact h.no_cycle hz hx hy hcb hab hzx hxy hyz
  · exact h.no_cycle hy hz hx hba hca hyz hzx hxy

/-- **The exact condition.** `CompareStrings` is a strict total order on a set exactly when it has no equal
numbers and every cut number that a third string separates agrees. -/
theorem strictTotalOn_iff (S : Set Bytes) : StrictTotalOn S ↔ NoEqualNumbers S ∧ CutsAgree S := by
  constructor
  · intro h
    constructor
    · intro p a b ha hb hab hne n hna hnb
      have hne' : p ++ a ≠ p ++ b := fun heq => hne (append_cancel_left heq)
      have hab' : commonPrefix b a = [] := commonPrefix_comm a b ▸ hab
      have hrank : rank a = rank b := (rank_eq_iff hne).mpr ⟨n, hna, hnb⟩
      rcases h.exactly_one _ ha _ hb hne' with ⟨hlt, -⟩ | ⟨hlt, -⟩
      · rw [compareStrings_append hab, remainderLess_iff] at hlt
        exact hlt.ne hrank
      · rw [compareStrings_append hab', remainderLess_iff] at hlt
        exact hlt.ne hrank.symm
    · intro p q a b c ha hb hc hq _ hab hac h₁ h₂
      have hbc : commonPrefix c (q ++ b) = [] := by
        obtain ⟨x, q, rfl⟩ := exists_cons_of_ne_nil hq
        rw [commonPrefix_comm]
        cases c with
        | nil => rfl
        | cons y c =>
          have hxy : x ≠ y := by
            rintro rfl
            simp [commonPrefix] at hac
          simp [commonPrefix, hxy]
      rw [← compareStrings_append hac] at h₁
      rw [← compareStrings_append hbc] at h₂
      have htrans := h.trans _ ha _ hc _ hb h₁ h₂
      rwa [← append_assoc, ← append_assoc, compareStrings_append hab] at htrans
  · rintro ⟨hnum, hcut⟩
    refine ⟨fun x _ => compareStrings_self x, ?_, ?_⟩
    · intro x hx y hy z hz hxy hyz
      have hxz : x ≠ z := by
        rintro rfl
        rw [compareStrings_asymm hxy] at hyz
        cases hyz
      rcases hnum.total hx hz hxz with hlt | hgt
      · exact hlt
      · exact (hcut.no_three_cycle hx hy hz hxy hyz hgt).elim
    · intro x hx y hy hne
      rcases hnum.total hx hy hne with hlt | hgt
      · exact .inl ⟨hlt, compareStrings_asymm hlt⟩
      · exact .inr ⟨hgt, compareStrings_asymm hgt⟩

end TorrServer.Utils
