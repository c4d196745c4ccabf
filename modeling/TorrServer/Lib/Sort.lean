/-
# Lib.Sort — sorting with a comparison, not necessarily stable.

A library sort promises a permutation of its input that the comparison has nothing against, if the comparison is
a strict weak order on the elements; it promises nothing about elements that compare equal. `SortSlice` is that
promise and `Sorter` any sort that keeps it at every type.
-/
import Mathlib.Data.List.Sort

namespace TorrServer.Lib

/-- `less` is a strict weak order on the elements of `l`. -/
structure StrictWeakOn {α : Type} (less : α → α → Bool) (l : List α) : Prop where
  irrefl : ∀ x ∈ l, less x x = false
  trans : ∀ x ∈ l, ∀ y ∈ l, ∀ z ∈ l, less x y = true → less y z = true → less x z = true
  incomparable_trans : ∀ x ∈ l, ∀ y ∈ l, ∀ z ∈ l, less x y = false → less y z = false → less x z = false

namespace StrictWeakOn

variable {α : Type} {less : α → α → Bool} {l l' : List α}

/-- A comparison of keys is one. -/
theorem of_key {κ : Type} [LinearOrder κ] (key : α → κ)
    (h : ∀ x ∈ l, ∀ y ∈ l, less x y = true ↔ key x < key y) : StrictWeakOn less l where
  irrefl x hx := by
    rw [← Bool.not_eq_true, h x hx x hx]
    exact lt_irrefl (key x)
  trans x hx y hy z hz := by
    rw [h x hx y hy, h y hy z hz, h x hx z hz]
    exact lt_trans
  incomparable_trans x hx y hy z hz := by
    rw [← Bool.not_eq_true, ← Bool.not_eq_true, ← Bool.not_eq_true, h x hx y hy, h y hy z hz, h x hx z hz,
      not_lt, not_lt, not_lt]
    exact fun hyx hzy => hzy.trans hyx

theorem of_perm (h : StrictWeakOn less l) (hperm : l.Perm l') : StrictWeakOn less l' where
  irrefl x hx := h.irrefl x (hperm.mem_iff.mpr hx)
  trans x hx y hy z hz :=
    h.trans x (hperm.mem_iff.mpr hx) y (hperm.mem_iff.mpr hy) z (hperm.mem_iff.mpr hz)
  incomparable_trans x hx y hy z hz :=
    h.incomparable_trans x (hperm.mem_iff.mpr hx) y (hperm.mem_iff.mpr hy) z (hperm.mem_iff.mpr hz)

end StrictWeakOn

/-- The contract of `sort.Slice`. -/
def SortSlice {α : Type} (sort : (α → α → Bool) → List α → List α) : Prop :=
  ∀ less l, StrictWeakOn less l →
    (sort less l).Perm l ∧ (sort less l).Pairwise fun x y => less y x = false

/-- Sorting a list of elements that `less` orders strictly and totally has one possible result. -/
theorem SortSlice.eq_of_perm {α : Type} {sort : (α → α → Bool) → List α → List α} (hsort : SortSlice sort)
    {less : α → α → Bool} {l₁ l₂ : List α} (hperm : l₁.Perm l₂) (hweak : StrictWeakOn less l₁)
    (htotal : ∀ x ∈ l₁, ∀ y ∈ l₁, less x y = false → less y x = false → x = y) :
    sort less l₁ = sort less l₂ := by
  obtain ⟨hp₁, hs₁⟩ := hsort less l₁ hweak
  obtain ⟨hp₂, hs₂⟩ := hsort less l₂ (hweak.of_perm hperm)
  refine List.Perm.eq_of_pairwise ?_ hs₁ hs₂ (hp₁.trans (hperm.trans hp₂.symm))
  intro x y hx hy hyx hxy
  exact htotal x (hp₁.mem_iff.mp hx) y (hperm.mem_iff.mpr (hp₂.mem_iff.mp hy)) hxy hyx

/-- In a sorted list the first element with a property comes before all others that have it. -/
theorem rel_of_find? {α : Type} {R : α → α → Prop} {p : α → Bool} {l : List α} {a : α}
    (hsorted : l.Pairwise R) (h : l.find? p = some a) : ∀ b ∈ l, p b = true → b = a ∨ R a b := by
  induction l with
  | nil => cases h
  | cons first l ih =>
    obtain ⟨hfirst, hrest⟩ := List.pairwise_cons.1 hsorted
    intro b hmem hb
    rw [List.find?_cons] at h
    split at h
    · cases h
      rcases List.mem_cons.1 hmem with rfl | hmem
      · exact .inl rfl
      · exact .inr (hfirst b hmem)
    · rename_i hnot
      rcases List.mem_cons.1 hmem with rfl | hmem
      · exact absurd hb (hnot ▸ Bool.false_ne_true)
      · exact ih hrest h b hmem hb

/-- The loop of `sort.Search` between `i` and `j`. -/
def searchLoop (f : Nat → Bool) (i j : Nat) : Nat :=
  if _h : i < j then
    let m := (i + j) / 2
    if f m = false then searchLoop f (m + 1) j else searchLoop f i m
  else i
termination_by j - i

/-- `sort.Search`: the first index below `n` with `f`, if `f` is monotone. -/
def search (n : Nat) (f : Nat → Bool) : Nat := searchLoop f 0 n

/-- Below `i` nothing has the property and from `j` on everything: the loop finds the first that has. -/
theorem searchLoop_spec {f : Nat → Bool} {n i j : Nat} (hmono : ∀ a b, a ≤ b → b < n → f a = true → f b = true)
    (hij : i ≤ j) (hj : j ≤ n) (hlow : ∀ k < i, f k = false) (hhigh : ∀ k, j ≤ k → k < n → f k = true) :
    (∀ k < searchLoop f i j, f k = false) ∧ ∀ k, searchLoop f i j ≤ k → k < n → f k = true := by
  fun_induction searchLoop f i j with
  | case1 i j hlt m hm ih =>
    refine ih (by omega) hj (fun k hk => ?_) hhigh
    -- had `k` the property, so would the middle
    by_contra hne
    exact absurd (hmono k m (by omega) (by omega) (Bool.eq_true_of_not_eq_false hne)) (by simp [hm])
  | case2 i j hlt m hm ih =>
    refine ih (by omega) (by omega) hlow fun k hk hkn => ?_
    exact hmono m k hk hkn (Bool.eq_true_of_not_eq_false hm)
  | case3 i j hlt => exact ⟨hlow, fun k hk hkn => hhigh k (by omega) hkn⟩

/-- **`sort.Search` finds the first index with the property**, if all behind it have it too. -/
theorem search_spec {n : Nat} {f : Nat → Bool} (hmono : ∀ a b, a ≤ b → b < n → f a = true → f b = true) :
    (∀ k < search n f, f k = false) ∧ ∀ k, search n f ≤ k → k < n → f k = true :=
  searchLoop_spec hmono (Nat.zero_le n) le_rfl (fun k hk => absurd hk (Nat.not_lt_zero k))
    fun _ hk hkn => absurd hkn (Nat.not_lt.2 hk)

/-- `sort.SliceStable`, by insertion; a sorted and stable order is unique, so that Go's merging beyond twenty
elements gives the same. -/
def sortStable {α : Type} (less : α → α → Bool) (l : List α) : List α :=
  l.insertionSort fun a b => less b a = false

theorem perm_sortStable {α : Type} (less : α → α → Bool) (l : List α) : (sortStable less l).Perm l :=
  List.perm_insertionSort _ l

/-- What `sort.Slice` does on short slices is the same: insertion, which keeps the order of equals. -/
theorem sortStable_sortSlice {α : Type} : SortSlice (sortStable (α := α)) := by
  intro less l hweak
  refine ⟨perm_sortStable less l, ?_⟩
  -- on the elements of `l` the relation is a total preorder
  let r : { x // x ∈ l } → { x // x ∈ l } → Prop := fun x y => less y.1 x.1 = false
  have htotal : Std.Total r := by
    refine ⟨fun x y => ?_⟩
    by_contra hnot
    simp only [r, not_or, Bool.not_eq_false] at hnot
    have hxx := hweak.trans _ x.2 _ y.2 _ x.2 hnot.2 hnot.1
    rw [hweak.irrefl _ x.2] at hxx
    cases hxx
  have htrans : IsTrans _ r :=
    ⟨fun x y z hxy hyz => hweak.incomparable_trans _ z.2 _ y.2 _ x.2 hyz hxy⟩
  have hsorted := List.pairwise_insertionSort r l.attach
  have hmap := List.map_insertionSort r (fun x y : α => less y x = false) Subtype.val l.attach
    fun _ _ _ _ => Iff.rfl
  rw [List.attach_map_subtype_val] at hmap
  rw [sortStable, ← hmap, List.pairwise_map]
  exact hsorted

/-- Only on the elements of the list has the comparison to be one of keys. -/
theorem sorted_sortStable {α κ : Type} [LinearOrder κ] {less : α → α → Bool} {l : List α} (key : α → κ)
    (h : ∀ a ∈ l, ∀ b ∈ l, less a b = true ↔ key a < key b) :
    (sortStable less l).Pairwise fun a b => key a ≤ key b := by
  obtain ⟨hperm, hsorted⟩ := sortStable_sortSlice less l (.of_key key h)
  refine hsorted.imp_of_mem fun {a b} ha hb hba => ?_
  rwa [← not_lt, ← h b (hperm.mem_iff.mp hb) a (hperm.mem_iff.mp ha), Bool.not_eq_true]

/-- A sort by comparison: whatever the comparison, it only reorders. -/
structure Sorter where
  sort : {α : Type} → (α → α → Bool) → List α → List α
  perm : ∀ {α : Type} (less : α → α → Bool) (l : List α), (sort less l).Perm l
  slice : ∀ {α : Type}, SortSlice (sort (α := α))

namespace Sorter

variable (S : Sorter) {α : Type} {less : α → α → Bool} {l : List α}

theorem mem_sort {a : α} : a ∈ S.sort less l ↔ a ∈ l := (S.perm less l).mem_iff

theorem sorted (h : StrictWeakOn less l) : (S.sort less l).Pairwise fun a b => less b a = false :=
  (S.slice less l h).2

/-- There is one. -/
def insertion : Sorter where
  sort := sortStable
  perm := perm_sortStable
  slice := sortStable_sortSlice

end Sorter

end TorrServer.Lib
