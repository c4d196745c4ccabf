/-
# Lib.Json — JSON texts as trees, and their values.

A tree keeps what a text says: the entries of an object in their order, and names that occur twice. Its *value*
(`Json.value`) does not: an object is a finite map, of two entries with one name the later counts. A map is the
list of its entries, sorted by name. `Json.subst` replaces the numbers.
-/
import TorrServer.Lib.Maps

namespace TorrServer.Lib

open List

/-- A JSON tree with numbers in `N`. -/
inductive Json (N : Type)
  | null
  | bool (b : Bool)
  | number (n : N)
  | string (s : String)
  | array (elems : List (Json N))
  | object (entries : List (String × Json N))

/-! ## Trees -/

namespace Json

variable {N M : Type}

/-- Induction over trees: what holds of the parts of an array or an object holds of it. -/
theorem ind {P : Json N → Prop} (null : P .null) (bool : ∀ b, P (.bool b)) (number : ∀ n, P (.number n))
    (string : ∀ s, P (.string s)) (array : ∀ elems, (∀ j ∈ elems, P j) → P (.array elems))
    (object : ∀ entries, (∀ e ∈ entries, P e.2) → P (.object entries)) : ∀ j, P j
  | .null => null
  | .bool b => bool b
  | .number n => number n
  | .string s => string s
  | .array elems => array elems fun j _ => ind null bool number string array object j
  | .object entries => object entries fun e _ => ind null bool number string array object e.2
termination_by j => sizeOf j
decreasing_by
  · rename_i hj
    have := sizeOf_lt_of_mem hj
    simp only [Json.array.sizeOf_spec]
    omega
  · rename_i he
    have hentry := sizeOf_lt_of_mem he
    have hpair : sizeOf e = 1 + sizeOf e.1 + sizeOf e.2 := Prod.mk.sizeOf_spec e.1 e.2
    simp only [Json.object.sizeOf_spec]
    omega

mutual

/-- The tree with its numbers replaced. -/
def subst (g : N → Json M) : Json N → Json M
  | .null => .null
  | .bool b => .bool b
  | .number n => g n
  | .string s => .string s
  | .array elems => .array (substElems g elems)
  | .object entries => .object (substEntries g entries)

/-- Over the elements of an array. -/
def substElems (g : N → Json M) : List (Json N) → List (Json M)
  | [] => []
  | j :: rest => subst g j :: substElems g rest

/-- Over the entries of an object. -/
def substEntries (g : N → Json M) : List (String × Json N) → List (String × Json M)
  | [] => []
  | (k, j) :: rest => (k, subst g j) :: substEntries g rest

end

mutual

/-- The value of a tree: its objects are maps. -/
def value : Json N → Json N
  | .null => .null
  | .bool b => .bool b
  | .number n => .number n
  | .string s => .string s
  | .array elems => .array (valueElems elems)
  | .object entries => .object (collect (valueEntries entries))

/-- Over the elements of an array. -/
def valueElems : List (Json N) → List (Json N)
  | [] => []
  | j :: rest => value j :: valueElems rest

/-- Over the entries of an object. -/
def valueEntries : List (String × Json N) → List (String × Json N)
  | [] => []
  | (k, j) :: rest => (k, value j) :: valueEntries rest

end

mutual

/-- The numbers in a tree. -/
def numbers : Json N → List N
  | .null => []
  | .bool _ => []
  | .number n => [n]
  | .string _ => []
  | .array elems => numbersElems elems
  | .object entries => numbersEntries entries

/-- Over the elements of an array. -/
def numbersElems : List (Json N) → List N
  | [] => []
  | j :: rest => numbers j ++ numbersElems rest

/-- Over the entries of an object. -/
def numbersEntries : List (String × Json N) → List N
  | [] => []
  | (_, j) :: rest => numbers j ++ numbersEntries rest

end

theorem substElems_eq (g : N → Json M) (elems : List (Json N)) : substElems g elems = elems.map (subst g) := by
  induction elems with
  | nil => rfl
  | cons j rest ih => rw [substElems, ih, map_cons]

theorem substEntries_eq (g : N → Json M) (entries : List (String × Json N)) :
    substEntries g entries = mapValues (subst g) entries := by
  induction entries with
  | nil => rfl
  | cons e rest ih =>
    rw [substEntries, ih]
    rfl

theorem valueElems_eq (elems : List (Json N)) : valueElems elems = elems.map value := by
  induction elems with
  | nil => rfl
  | cons j rest ih => rw [valueElems, ih, map_cons]

theorem valueEntries_eq (entries : List (String × Json N)) :
    valueEntries entries = mapValues value entries := by
  induction entries with
  | nil => rfl
  | cons e rest ih =>
    rw [valueEntries, ih]
    rfl

theorem mem_numbersElems {elems : List (Json N)} {n : N} :
    n ∈ numbersElems elems ↔ ∃ j ∈ elems, n ∈ j.numbers := by
  induction elems with
  | nil => simp [numbersElems]
  | cons j rest ih => simp [numbersElems, ih]

theorem mem_numbersEntries {entries : List (String × Json N)} {n : N} :
    n ∈ numbersEntries entries ↔ ∃ e ∈ entries, n ∈ e.2.numbers := by
  induction entries with
  | nil => simp [numbersEntries]
  | cons e rest ih => simp [numbersEntries, ih]

theorem subst_subst {K : Type} (g : N → Json M) (h : M → Json K) (j : Json N) :
    (j.subst g).subst h = j.subst fun n => (g n).subst h := by
  induction j using ind with
  | null => rfl
  | bool b => rfl
  | number n => rfl
  | string s => rfl
  | array elems ih =>
    rw [subst, subst, subst, substElems_eq, substElems_eq, substElems_eq, map_map]
    congr 1
    apply map_congr_left
    intro j hj
    exact ih j hj
  | object entries ih =>
    rw [subst, subst, subst, substEntries_eq, substEntries_eq, substEntries_eq, mapValues, mapValues, mapValues,
      map_map]
    congr 1
    apply map_congr_left
    intro e he
    exact congrArg (Prod.mk e.1) (ih e he)

/-- Numbers may be replaced before or after the value is taken. -/
theorem value_subst {g : N → Json M} (hg : ∀ n, (g n).value = g n) (j : Json N) :
    (j.subst g).value = j.value.subst g := by
  induction j using ind with
  | null => rfl
  | bool b => rfl
  | number n => exact hg n
  | string s => rfl
  | array elems ih =>
    rw [subst, value, value, subst, substElems_eq, valueElems_eq, valueElems_eq, substElems_eq,
      map_map, map_map]
    congr 1
    apply map_congr_left
    intro j hj
    exact ih j hj
  | object entries ih =>
    rw [subst, value, value, subst, substEntries_eq, valueEntries_eq, valueEntries_eq, substEntries_eq,
      mapValues_collect]
    congr 2
    rw [mapValues, mapValues, mapValues, mapValues, map_map, map_map]
    apply map_congr_left
    intro e he
    exact congrArg (Prod.mk e.1) (ih e he)

/-- What is in a map was among the entries. -/
theorem mem_collect {α : Type} {entries : List (String × α)} {e : String × α} (h : e ∈ collect entries) :
    e ∈ entries := by
  have hfold : ∀ m : List (String × α),
      e ∈ entries.foldl (fun m e => insertEntry e.1 e.2 m) m → e ∈ m ∨ e ∈ entries := by
    clear h
    induction entries with
    | nil => intro m he; exact .inl he
    | cons e' rest ih =>
      intro m he
      rcases ih _ he with hm | hrest
      · rcases mem_insertEntry hm with rfl | hm
        · exact .inr mem_cons_self
        · exact .inl hm
      · exact .inr (mem_cons_of_mem _ hrest)
  rcases hfold [] h with hnil | hentries
  · cases hnil
  · exact hentries

theorem value_value (j : Json N) : j.value.value = j.value := by
  induction j using ind with
  | null => rfl
  | bool b => rfl
  | number n => rfl
  | string s => rfl
  | array elems ih =>
    rw [value, value, valueElems_eq, valueElems_eq, map_map]
    congr 1
    apply map_congr_left
    intro j hj
    exact ih j hj
  | object entries ih =>
    have hvalues : mapValues value (collect (mapValues value entries)) = collect (mapValues value entries) := by
      rw [mapValues_collect]
      congr 1
      rw [mapValues, mapValues, map_map]
      apply map_congr_left
      intro e he
      exact congrArg (Prod.mk e.1) (ih e he)
    rw [value, value, valueEntries_eq, valueEntries_eq, hvalues, collect_of_sorted (sortedNames_collect _)]

/-- The value of an object is a map of values. -/
theorem sortedNames_of_value {j : Json N} {m : List (String × Json N)} (h : j.value = .object m) :
    SortedNames m ∧ ∀ e ∈ m, e.2.value = e.2 := by
  cases j with
  | object entries =>
    rw [value] at h
    injection h with h
    subst h
    refine ⟨sortedNames_collect _, ?_⟩
    intro e he
    have hmem := mem_collect he
    rw [valueEntries_eq] at hmem
    obtain ⟨e', -, rfl⟩ := mem_map.1 hmem
    exact value_value e'.2
  | null => cases h
  | bool b => cases h
  | number n => cases h
  | string s => cases h
  | array elems => cases h

/-- A map of values is the value of its object. -/
theorem value_of_sortedNames {m : List (String × Json N)} (hsorted : SortedNames m)
    (hvalues : ∀ e ∈ m, e.2.value = e.2) : (Json.object m).value = .object m := by
  have hsame : mapValues value m = m := by
    rw [mapValues]
    nth_rewrite 2 [← map_id m]
    apply map_congr_left
    intro e he
    exact congrArg (Prod.mk e.1) (hvalues e he)
  rw [value, valueEntries_eq, hsame, collect_of_sorted hsorted]

theorem map_eq_self_iff {α : Type} {f : α → α} {l : List α} : l.map f = l ↔ ∀ a ∈ l, f a = a := by
  nth_rewrite 2 [← map_id l]
  exact map_inj_left

/-- The tree stays exactly if each of its numbers does. -/
theorem subst_eq_self_iff {g : N → Json N} (j : Json N) : j.subst g = j ↔ ∀ n ∈ j.numbers, g n = .number n := by
  induction j using ind with
  | null => simp [subst, numbers]
  | bool b => simp [subst, numbers]
  | number n => simp [subst, numbers]
  | string s => simp [subst, numbers]
  | array elems ih =>
    rw [subst, substElems_eq, numbers, Json.array.injEq]
    constructor
    · intro h n hn
      obtain ⟨j, hj, hn⟩ := mem_numbersElems.1 hn
      exact (ih j hj).1 (map_eq_self_iff.1 h j hj) n hn
    · intro h
      apply map_eq_self_iff.2
      intro j hj
      exact (ih j hj).2 fun n hn => h n (mem_numbersElems.2 ⟨j, hj, hn⟩)
  | object entries ih =>
    rw [subst, substEntries_eq, numbers, Json.object.injEq]
    constructor
    · intro h n hn
      obtain ⟨e, he, hn⟩ := mem_numbersEntries.1 hn
      exact (ih e he).1 (congrArg Prod.snd (map_eq_self_iff.1 h e he)) n hn
    · intro h
      apply map_eq_self_iff.2
      intro e he
      exact congrArg (Prod.mk e.1) ((ih e he).2 fun n hn => h n (mem_numbersEntries.2 ⟨e, he, hn⟩))

end Json

end TorrServer.Lib
