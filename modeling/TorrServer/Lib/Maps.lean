/-
# Lib.Maps — finite maps with string keys, as lists of entries.

A map is the list of its entries, sorted by name, so that two maps are equal exactly if they have the same
entries. `insertEntry` and `eraseEntry` are Go's `m[k] = v` and `delete(m, k)`; `collect` is what inserting the
entries of a list one after the other makes.
-/
import Mathlib.Data.String.Basic
import Mathlib.Order.Basic

namespace TorrServer.Lib

open List

variable {α β : Type}

variable {k : String} {v : α} {m : List (String × α)}

/-- `m[k] = v`. -/
def insertEntry (k : String) (v : α) : List (String × α) → List (String × α)
  | [] => [(k, v)]
  | (k', v') :: rest =>
    if k < k' then (k, v) :: (k', v') :: rest
    else if k = k' then (k, v) :: rest
    else (k', v') :: insertEntry k v rest

/-- `delete(m, k)`. -/
def eraseEntry (k : String) (m : List (String × α)) : List (String × α) := m.filter fun e => e.1 ≠ k

/-- The map of a list of entries: the last entry of a name counts. -/
def collect (entries : List (String × α)) : List (String × α) :=
  entries.foldl (fun m e => insertEntry e.1 e.2 m) []

/-- The names come in order, each once. -/
def SortedNames (m : List (String × α)) : Prop := m.Pairwise fun a b => a.1 < b.1

/-- The value at a name. -/
def findEntry (k : String) : List (String × α) → Option α
  | [] => none
  | (k', v) :: rest => if k = k' then some v else findEntry k rest

/-- The values of a map, changed. -/
def mapValues (f : α → β) (m : List (String × α)) : List (String × β) := m.map fun e => (e.1, f e.2)

theorem mapValues_insertEntry (f : α → β) (k : String) (v : α) (m : List (String × α)) :
    mapValues f (insertEntry k v m) = insertEntry k (f v) (mapValues f m) := by
  induction m with
  | nil => rfl
  | cons e rest ih =>
    simp only [insertEntry, mapValues, map_cons] at ih ⊢
    split_ifs
    · rfl
    · rfl
    · rw [map_cons, ih]

theorem mapValues_collect (f : α → β) (entries : List (String × α)) :
    mapValues f (collect entries) = collect (mapValues f entries) := by
  have hfold : ∀ m : List (String × α),
      mapValues f (entries.foldl (fun m e => insertEntry e.1 e.2 m) m)
        = (mapValues f entries).foldl (fun m e => insertEntry e.1 e.2 m) (mapValues f m) := by
    induction entries with
    | nil => intro m; rfl
    | cons e rest ih =>
      intro m
      rw [foldl_cons, ih, mapValues_insertEntry]
      rfl
  exact hfold []

theorem mem_insertEntry {e : String × α} (h : e ∈ insertEntry k v m) : e = (k, v) ∨ e ∈ m := by
  induction m with
  | nil => exact .inl (mem_singleton.1 h)
  | cons e' rest ih =>
    rw [insertEntry] at h
    split_ifs at h
    · rcases mem_cons.1 h with heq | hrest
      · exact .inl heq
      · exact .inr hrest
    · rcases mem_cons.1 h with heq | hrest
      · exact .inl heq
      · exact .inr (mem_cons_of_mem _ hrest)
    · rcases mem_cons.1 h with heq | hrest
      · exact .inr (mem_cons.2 (.inl heq))
      · rcases ih hrest with heq | hmem
        · exact .inl heq
        · exact .inr (mem_cons_of_mem _ hmem)

theorem SortedNames.insertEntry (h : SortedNames m) (k : String) (v : α) : SortedNames (insertEntry k v m) := by
  induction m with
  | nil => exact pairwise_singleton _ _
  | cons e rest ih =>
    obtain ⟨hfirst, hrest⟩ := pairwise_cons.1 h
    rw [Lib.insertEntry]
    split_ifs with hlt heq
    · refine pairwise_cons.2 ⟨?_, h⟩
      intro e' he'
      rcases mem_cons.1 he' with rfl | hmem
      · exact hlt
      · exact lt_trans hlt (hfirst e' hmem)
    · refine pairwise_cons.2 ⟨?_, hrest⟩
      intro e' he'
      rw [heq]
      exact hfirst e' he'
    · refine pairwise_cons.2 ⟨?_, ih hrest⟩
      intro e' he'
      rcases mem_insertEntry he' with rfl | hmem
      · exact lt_of_le_of_ne (not_lt.1 hlt) (Ne.symm heq)
      · exact hfirst e' hmem

theorem sortedNames_collect (entries : List (String × α)) : SortedNames (collect entries) := by
  have hfold : ∀ m : List (String × α), SortedNames m →
      SortedNames (entries.foldl (fun m e => insertEntry e.1 e.2 m) m) := by
    induction entries with
    | nil => intro m hm; exact hm
    | cons e rest ih => intro m hm; exact ih _ (hm.insertEntry e.1 e.2)
  exact hfold [] List.Pairwise.nil

/-- A name behind all others goes to the end. -/
theorem insertEntry_of_gt (h : ∀ e ∈ m, e.1 < k) : insertEntry k v m = m ++ [(k, v)] := by
  induction m with
  | nil => rfl
  | cons e rest ih =>
    have hlt := h e mem_cons_self
    rw [insertEntry, if_neg (not_lt.2 (le_of_lt hlt)), if_neg (ne_of_gt hlt),
      ih fun e' he' => h e' (mem_cons_of_mem _ he')]
    rfl

theorem collect_of_sorted (h : SortedNames m) : collect m = m := by
  have hfold : ∀ (m done : List (String × α)), SortedNames (done ++ m) →
      m.foldl (fun m e => insertEntry e.1 e.2 m) done = done ++ m := by
    intro m
    induction m with
    | nil => intro done _; exact (append_nil done).symm
    | cons e rest ih =>
      intro done hsorted
      have hlast : ∀ e' ∈ done, e'.1 < e.1 := fun e' he' =>
        (pairwise_append.1 hsorted).2.2 e' he' e mem_cons_self
      rw [foldl_cons, insertEntry_of_gt hlast, ih, append_assoc]
      · rfl
      · rw [append_assoc]
        exact hsorted
  exact hfold m [] h

theorem findEntry_insertEntry (n k : String) (v : α) (m : List (String × α)) :
    findEntry n (insertEntry k v m) = if n = k then some v else findEntry n m := by
  induction m with
  | nil => rfl
  | cons e rest ih =>
    rw [insertEntry]
    by_cases hlt : k < e.1
    · rw [if_pos hlt]
      rfl
    · rw [if_neg hlt]
      by_cases heq : k = e.1
      · rw [if_pos heq, findEntry, findEntry, heq]
        split_ifs <;> rfl
      · rw [if_neg heq, findEntry, findEntry, ih]
        by_cases hn : n = k
        · rw [if_pos hn, if_neg (hn ▸ heq), if_pos hn]
        · rw [if_neg hn, if_neg hn]

theorem findEntry_eraseEntry (n k : String) (m : List (String × α)) :
    findEntry n (eraseEntry k m) = if n = k then none else findEntry n m := by
  induction m with
  | nil => exact (ite_self none).symm
  | cons e rest ih =>
    rw [eraseEntry] at ih ⊢
    rw [filter_cons]
    split_ifs at ih ⊢ with hkeep hn hn'
    · rw [findEntry, if_neg (by subst hn; simpa using Ne.symm (of_decide_eq_true hkeep)), ih]
    · rw [findEntry, ih, findEntry]
    · exact ih
    · have hk : e.1 = k := by simpa using hkeep
      rw [ih, findEntry, if_neg (hk ▸ hn')]

theorem findEntry_mapValues (f : α → β) (n : String) (m : List (String × α)) :
    findEntry n (mapValues f m) = (findEntry n m).map f := by
  induction m with
  | nil => rfl
  | cons e rest ih =>
    rw [mapValues] at ih ⊢
    rw [map_cons, findEntry, findEntry, ih]
    split_ifs <;> rfl

theorem SortedNames.mapValues (h : SortedNames m) (f : α → β) : SortedNames (mapValues f m) := by
  rw [SortedNames, Lib.mapValues, pairwise_map]
  exact h

theorem SortedNames.eraseEntry (h : SortedNames m) (k : String) : SortedNames (eraseEntry k m) :=
  List.Pairwise.filter _ h

theorem mem_of_findEntry (h : findEntry k m = some v) : (k, v) ∈ m := by
  induction m with
  | nil => cases h
  | cons e rest ih =>
    rw [findEntry] at h
    split_ifs at h with heq
    · obtain rfl := Option.some.inj h
      rw [heq]
      exact mem_cons_self
    · exact mem_cons_of_mem _ (ih h)

theorem findEntry_of_mem (hsorted : SortedNames m) (h : (k, v) ∈ m) : findEntry k m = some v := by
  induction m with
  | nil => cases h
  | cons e rest ih =>
    obtain ⟨hfirst, hrest⟩ := pairwise_cons.1 hsorted
    rcases mem_cons.1 h with rfl | hmem
    · exact if_pos rfl
    · -- the name comes behind the first one, so it is another
      have hlt : e.1 < k := hfirst _ hmem
      rw [findEntry, if_neg (ne_of_gt hlt), ih hrest hmem]

theorem length_eraseEntry_lt (h : (k, v) ∈ m) : (eraseEntry k m).length < m.length := by
  refine length_filter_lt_length_iff_exists.2 ⟨(k, v), h, ?_⟩
  simp

end TorrServer.Lib
