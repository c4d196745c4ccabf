/-
# Gstreamer.Eviction — the map of tasks, and which of them go when there are too many.

`Service` keeps at most `MaxTasks` tasks. `evictTasksForLimitLocked` takes tasks out until the limit is kept:
disposed ones first, then the one that has been idle for longest, never the one it has to protect.

The order of the map, and what the search reads of tasks in use, are the environment's choice (`View`).
-/
import TorrServer.Lib.Maps
import Mathlib.Tactic.SplitIfs

namespace TorrServer.Gstreamer

open Lib List

/-! ## The map of tasks -/

/-- `map[string]*Task`; no task in it is `nil`. -/
structure TaskMap where
  entries : List (String × Nat)
  sorted : SortedNames entries

variable {m tasks : TaskMap}

namespace TaskMap

/-- No tasks. -/
def empty : TaskMap := ⟨[], List.Pairwise.nil⟩

/-- `tasks[id]`. -/
def get (m : TaskMap) (id : String) : Option Nat := findEntry id m.entries

/-- `tasks[id] = task`. -/
def set (m : TaskMap) (id : String) (task : Nat) : TaskMap :=
  ⟨insertEntry id task m.entries, m.sorted.insertEntry id task⟩

/-- `delete(tasks, id)`. -/
def delete (m : TaskMap) (id : String) : TaskMap := ⟨eraseEntry id m.entries, m.sorted.eraseEntry id⟩

/-- `len(tasks)`. -/
def len (m : TaskMap) : Nat := m.entries.length

theorem get_empty (id : String) : empty.get id = none := rfl

theorem get_set (m : TaskMap) (id : String) (task : Nat) (n : String) :
    (m.set id task).get n = if n = id then some task else m.get n :=
  findEntry_insertEntry n id task m.entries

theorem get_delete (m : TaskMap) (id n : String) : (m.delete id).get n = if n = id then none else m.get n :=
  findEntry_eraseEntry n id m.entries

theorem mem_entries_iff {id : String} {task : Nat} : (id, task) ∈ m.entries ↔ m.get id = some task :=
  ⟨findEntry_of_mem m.sorted, mem_of_findEntry⟩

theorem len_delete_lt {id : String} {task : Nat} (h : m.get id = some task) : (m.delete id).len < m.len :=
  length_eraseEntry_lt (mem_entries_iff.2 h)

theorem len_delete_le (m : TaskMap) (id : String) : (m.delete id).len ≤ m.len :=
  length_filter_le _ _

theorem entries_eq_nil (h : ∀ id, m.get id = none) : m.entries = [] := by
  rw [eq_nil_iff_forall_not_mem]
  intro e he
  have hget := mem_entries_iff.1 (show (e.1, e.2) ∈ m.entries from he)
  rw [h] at hget
  cases hget

/-- Of two tasks at least one is stored under another id than `id`. -/
theorem exists_other (h : 2 ≤ m.len) (id : String) : ∃ e ∈ m.entries, e.1 ≠ id := by
  obtain ⟨entries, sorted⟩ := m
  match entries, sorted, h with
  | first :: second :: rest, sorted, _ =>
    have hlt : first.1 < second.1 := (pairwise_cons.1 sorted).1 second mem_cons_self
    by_cases hfirst : first.1 = id
    · refine ⟨second, mem_cons_of_mem _ mem_cons_self, ?_⟩
      rw [← hfirst]
      exact ne_of_gt hlt
    · exact ⟨first, mem_cons_self, hfirst⟩

end TaskMap

/-! ## Eviction -/

/-- How a search for the oldest task meets the map: the order of the `range`, and what it reads. -/
structure View where
  order : List (String × Nat) → List (String × Nat) := id
  perm : ∀ m, (order m).Perm m := by exact fun m => List.Perm.refl m
  disposed : Nat → Bool := fun _ => false
  lastActive : Nat → Int := fun _ => 0

/-- The variables of `oldestEvictableTask`. -/
structure Oldest where
  oldestID : String := ""
  oldestTask : Option Nat := none
  oldestActive : Int := 0
  oldestDisposed : Bool := false

/-- One round of the loop of `oldestEvictableTask`. -/
def Oldest.see (view : View) (protectedID : String) (o : Oldest) (e : String × Nat) : Oldest :=
  let disposed := view.disposed e.2
  let lastActive := view.lastActive e.2
  if e.1 = protectedID then o
  else if o.oldestID = "" ∨ (disposed ∧ ¬ o.oldestDisposed) ∨
      (disposed = o.oldestDisposed ∧ lastActive < o.oldestActive) then
    { oldestID := e.1, oldestTask := some e.2, oldestActive := lastActive, oldestDisposed := disposed }
  else o

/-- The task that was accessed first among those that may go. -/
def oldestEvictableTask (view : View) (tasks : TaskMap) (protectedID : String) : Oldest :=
  (view.order tasks.entries).foldl (Oldest.see view protectedID) {}

/-- The loop of `evictTasksForLimitLocked`; `tasks.len` rounds are enough. -/
def evictLoop (limit : Int) (protectedID : String) (views : Nat → View) :
    Nat → TaskMap → TaskMap × List Nat
  | 0, tasks => (tasks, [])
  | rounds + 1, tasks =>
    if limit < tasks.len then
      let o := oldestEvictableTask (views rounds) tasks protectedID
      if o.oldestID = "" then (tasks, [])
      else
        let out := evictLoop limit protectedID views rounds (tasks.delete o.oldestID)
        (out.1, o.oldestTask.toList ++ out.2)
    else (tasks, [])

/-- `Config.normalized`, its `MaxTasks`. -/
def normalizedMaxTasks (maxTasks : Int) : Int := if maxTasks < 0 then 0 else maxTasks

/-- `evictTasksForLimitLocked`: the tasks that stay, and the evicted ones. -/
def evictTasksForLimitLocked (maxTasks : Int) (tasks : TaskMap) (protectedID : String)
    (views : Nat → View) : TaskMap × List Nat :=
  let limit := normalizedMaxTasks maxTasks
  if limit ≤ 0 ∨ (tasks.len : Int) ≤ limit then (tasks, [])
  else evictLoop limit protectedID views tasks.len tasks

/-- An eviction takes out tasks that are not stored under `protectedID`, and hands them out. -/
structure Evicts (protectedID : String) (tasks : TaskMap) (out : TaskMap × List Nat) : Prop where
  stays : ∀ id t, out.1.get id = some t → tasks.get id = some t
  goes : ∀ id t, tasks.get id = some t → out.1.get id = some t ∨ (id ≠ protectedID ∧ t ∈ out.2)
  evicted : ∀ t ∈ out.2, ∃ id, id ≠ protectedID ∧ tasks.get id = some t
  len_le : out.1.len ≤ tasks.len

theorem Evicts.refl (protectedID : String) (tasks : TaskMap) : Evicts protectedID tasks (tasks, []) where
  stays := fun _ _ h => h
  goes := fun _ _ h => .inl h
  evicted := fun _ h => nomatch h
  len_le := Nat.le_refl _

theorem Evicts.get_protected {protectedID : String} {out : TaskMap × List Nat}
    (h : Evicts protectedID tasks out) {t : Nat} (ht : tasks.get protectedID = some t) :
    out.1.get protectedID = some t := by
  rcases h.goes protectedID t ht with hstays | ⟨hne, -⟩
  · exact hstays
  · exact absurd rfl hne

theorem Evicts.cons {protectedID id : String} {t : Nat} {tasks : TaskMap} {out : TaskMap × List Nat}
    (hid : id ≠ protectedID) (ht : tasks.get id = some t) (h : Evicts protectedID (tasks.delete id) out) :
    Evicts protectedID tasks (out.1, t :: out.2) := by
  have hdeleted : ∀ n u, (tasks.delete id).get n = some u → tasks.get n = some u := by
    intro n u hu
    rw [TaskMap.get_delete] at hu
    split_ifs at hu
    exact hu
  refine ⟨fun n u hu => hdeleted n u (h.stays n u hu), ?_, ?_, ?_⟩
  · intro n u hu
    by_cases hn : n = id
    · subst hn
      cases hu.symm.trans ht
      exact .inr ⟨hid, mem_cons_self⟩
    · have hget : (tasks.delete id).get n = some u := by rw [TaskMap.get_delete, if_neg hn, hu]
      rcases h.goes n u hget with hstays | ⟨hne, hmem⟩
      · exact .inl hstays
      · exact .inr ⟨hne, mem_cons_of_mem _ hmem⟩
  · intro u hu
    rcases mem_cons.1 hu with rfl | hmem
    · exact ⟨id, hid, ht⟩
    · obtain ⟨n, hne, hget⟩ := h.evicted u hmem
      exact ⟨n, hne, hdeleted n u hget⟩
  · exact le_trans h.len_le (TaskMap.len_delete_le tasks id)

section Search

variable (view : View) (protectedID : String)

theorem see_eq (o : Oldest) (e : String × Nat) :
    o.see view protectedID e = o ∨
      (e.1 ≠ protectedID ∧ (o.see view protectedID e).oldestID = e.1 ∧
        (o.see view protectedID e).oldestTask = some e.2) := by
  simp only [Oldest.see]
  by_cases hprotected : e.1 = protectedID
  · rw [if_pos hprotected]
    exact .inl rfl
  · rw [if_neg hprotected]
    split_ifs
    · exact .inr ⟨hprotected, rfl, rfl⟩
    · exact .inl rfl

/-- The search ends with what it began with, or with an entry that is not protected. -/
theorem foldl_see (l : List (String × Nat)) (o : Oldest) :
    l.foldl (Oldest.see view protectedID) o = o ∨
      ∃ e ∈ l, e.1 ≠ protectedID ∧ (l.foldl (Oldest.see view protectedID) o).oldestID = e.1 ∧
        (l.foldl (Oldest.see view protectedID) o).oldestTask = some e.2 := by
  induction l generalizing o with
  | nil => exact .inl rfl
  | cons e l ih =>
    rw [foldl_cons]
    rcases ih (o.see view protectedID e) with hsame | ⟨e', he', hrest⟩
    · rw [hsame]
      rcases see_eq view protectedID o e with hseen | hseen
      · exact .inl hseen
      · exact .inr ⟨e, mem_cons_self, hseen⟩
    · exact .inr ⟨e', mem_cons_of_mem _ he', hrest⟩

/-- Once the search has a task it keeps having one. -/
theorem see_found {o : Oldest} {e : String × Nat} (he : e.1 ≠ "")
    (h : o.oldestID ≠ "" ∨ e.1 ≠ protectedID) : (o.see view protectedID e).oldestID ≠ "" := by
  simp only [Oldest.see]
  by_cases hprotected : e.1 = protectedID
  · rw [if_pos hprotected]
    exact h.resolve_right (not_not.2 hprotected)
  · rw [if_neg hprotected]
    split_ifs with hbetter
    · exact he
    · exact fun hnone => hbetter (.inl hnone)

theorem foldl_see_found {l : List (String × Nat)} {o : Oldest} (hids : ∀ e ∈ l, e.1 ≠ "")
    (h : o.oldestID ≠ "" ∨ ∃ e ∈ l, e.1 ≠ protectedID) :
    (l.foldl (Oldest.see view protectedID) o).oldestID ≠ "" := by
  induction l generalizing o with
  | nil =>
    rcases h with hfound | ⟨e, he, -⟩
    · exact hfound
    · cases he
  | cons e l ih =>
    have he := hids e mem_cons_self
    have hrest : ∀ e ∈ l, e.1 ≠ "" := fun e' he' => hids e' (mem_cons_of_mem _ he')
    rw [foldl_cons]
    apply ih hrest
    rcases h with hfound | ⟨e', he', hne⟩
    · exact .inl (see_found view protectedID he (.inl hfound))
    · rcases mem_cons.1 he' with rfl | hmem
      · exact .inl (see_found view protectedID he (.inr hne))
      · exact .inr ⟨e', hmem, hne⟩

variable {view protectedID}

/-- What the search returns, if anything, is a stored task that is not protected. -/
theorem oldestEvictableTask_stored (h : (oldestEvictableTask view tasks protectedID).oldestID ≠ "") :
    ∃ t, (oldestEvictableTask view tasks protectedID).oldestTask = some t ∧
      (oldestEvictableTask view tasks protectedID).oldestID ≠ protectedID ∧
      tasks.get (oldestEvictableTask view tasks protectedID).oldestID = some t := by
  rcases foldl_see view protectedID (view.order tasks.entries) {} with hnone | ⟨e, he, hne, hid, htask⟩
  · rw [oldestEvictableTask, hnone] at h
    exact absurd rfl h
  · refine ⟨e.2, htask, ?_, ?_⟩
    · rw [oldestEvictableTask, hid]
      exact hne
    · rw [oldestEvictableTask, hid]
      exact TaskMap.mem_entries_iff.1 ((view.perm _).mem_iff.1 he)

/-- With two tasks or more the search returns one. -/
theorem oldestEvictableTask_found (hids : ∀ e ∈ tasks.entries, e.1 ≠ "") (hlen : 2 ≤ tasks.len) :
    (oldestEvictableTask view tasks protectedID).oldestID ≠ "" := by
  obtain ⟨e, he, hne⟩ := TaskMap.exists_other hlen protectedID
  apply foldl_see_found
  · intro e' he'
    exact hids e' ((view.perm _).mem_iff.1 he')
  · exact .inr ⟨e, (view.perm _).mem_iff.2 he, hne⟩

end Search

theorem evictLoop_evicts (limit : Int) (protectedID : String) (views : Nat → View) (rounds : Nat)
    (tasks : TaskMap) : Evicts protectedID tasks (evictLoop limit protectedID views rounds tasks) := by
  induction rounds generalizing tasks with
  | zero => exact Evicts.refl protectedID tasks
  | succ rounds ih =>
    rw [evictLoop]
    by_cases hlimit : limit < (tasks.len : Int)
    · rw [if_pos hlimit]
      by_cases hnone : (oldestEvictableTask (views rounds) tasks protectedID).oldestID = ""
      · simp only [if_pos hnone]
        exact Evicts.refl protectedID tasks
      · simp only [if_neg hnone]
        obtain ⟨t, htask, hne, hget⟩ := oldestEvictableTask_stored hnone
        rw [htask]
        exact Evicts.cons hne hget (ih _)
    · rw [if_neg hlimit]
      exact Evicts.refl protectedID tasks

theorem evictLoop_len {limit : Int} (hlimit : 0 < limit) (protectedID : String) (views : Nat → View)
    {rounds : Nat} (hids : ∀ e ∈ tasks.entries, e.1 ≠ "") (hrounds : tasks.len ≤ rounds) :
    ((evictLoop limit protectedID views rounds tasks).1.len : Int) ≤ limit := by
  induction rounds generalizing tasks with
  | zero =>
    show ((tasks.len : Nat) : Int) ≤ limit
    omega
  | succ rounds ih =>
    rw [evictLoop]
    by_cases hover : limit < (tasks.len : Int)
    · -- over a limit of one or more there are two tasks, so that one of them can go
      have hfound : (oldestEvictableTask (views rounds) tasks protectedID).oldestID ≠ "" :=
        oldestEvictableTask_found hids (by omega)
      obtain ⟨t, -, -, hget⟩ := oldestEvictableTask_stored hfound
      have hlt := TaskMap.len_delete_lt hget
      rw [if_pos hover]
      simp only [if_neg hfound]
      apply ih
      · intro e he
        exact hids e (mem_of_mem_filter he)
      · omega
    · rw [if_neg hover]
      exact not_lt.1 hover

theorem evict_evicts (maxTasks : Int) (tasks : TaskMap) (protectedID : String) (views : Nat → View) :
    Evicts protectedID tasks (evictTasksForLimitLocked maxTasks tasks protectedID views) := by
  rw [evictTasksForLimitLocked]
  split_ifs
  · exact Evicts.refl protectedID tasks
  · exact evictLoop_evicts _ _ _ _ _

/-- After an eviction the limit, if there is one, is kept. -/
theorem evict_len {maxTasks : Int} (hmax : 0 < maxTasks) (hids : ∀ e ∈ tasks.entries, e.1 ≠ "")
    (protectedID : String) (views : Nat → View) :
    ((evictTasksForLimitLocked maxTasks tasks protectedID views).1.len : Int) ≤ maxTasks := by
  have hnormal : normalizedMaxTasks maxTasks = maxTasks := if_neg (by omega)
  rw [evictTasksForLimitLocked, hnormal]
  split_ifs with hfits
  · show (tasks.len : Int) ≤ maxTasks
    omega
  · exact evictLoop_len hmax protectedID views hids (Nat.le_refl _)

end TorrServer.Gstreamer
