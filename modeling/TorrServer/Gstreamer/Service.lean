/-
# Gstreamer.Service — the tasks of the streaming service, and who has to dispose them.

`Service` keeps one task per torrent hash. `getOrAdd` looks a task up under the read lock, makes a new one
without any lock, and stores it under the write lock; it then disposes, without the lock, whatever the new one
has replaced or pushed out. `TryRemove`, `tryRemoveExpectedInactive`, `updateConfig` and `Dispose` detach tasks
under the lock and dispose them after it.

A step is one locked section, one access to the flag `disposed`, or the disposal of one task. A task is its
number in `created`, the list of all tasks that `NewTask` has returned.

Between the two locks a task is in nobody's map: the call that made or detached it has to dispose it (`Owned`).
An `outline` of assertions carries the limit and what `Dispose` leaves behind.
-/
import TorrServer.Gstreamer.Eviction
import TorrServer.Lib.Threads

namespace TorrServer.Gstreamer

open Lib List

variable {t : Nat}

/-! ## The model -/

/-- What `NewTask` fixes in a task. -/
structure TaskInfo where
  id : String
  fileID : String
  audio : Int
  deriving DecidableEq, Repr

/-- `Service`, with the tasks that `NewTask` has returned and the flag `disposed` of each. -/
structure Service where
  maxTasks : Int
  tasks : TaskMap := .empty
  disposed : Bool := false
  created : List TaskInfo := []
  taskDisposed : Nat → Bool := fun _ => false

namespace Service

/-- The calls.  A task that a call names is a number. -/
inductive Call
  | getOrAdd (hash fileID : String) (audio : Int)
  | tryRemove (id : String)
  | tryRemoveExpectedInactive (id : String) (expected : Option Nat)
  | updateConfig (maxTasks : Int)
  | dispose
  deriving DecidableEq, Repr

/-- What a call returns. `closed` is for the `Dispose` call that has closed the service. -/
inductive Answer
  | task (t : Nat)
  | errServiceClosed
  | failed
  | removed (ok : Bool)
  | updated
  | closed
  | alreadyClosed
  deriving DecidableEq, Repr

/-- The access a call makes next. At `disposing` it holds no lock, and still has to dispose these tasks. -/
inductive Pc
  | start (c : Call)
  | lookup (info : TaskInfo)
  | probe (info : TaskInfo)
  | newTask (info : TaskInfo)
  | insert (info : TaskInfo) (t : Nat)
  | applyConfig (maxTasks : Int)
  | swap
  | disposing (tasks : List Nat) (answer : Answer)
  deriving DecidableEq, Repr

/-- Whether `Probe` and `NewTask` succeed and `LastActive` is before the cutoff (`ok`), and how the map is
met. -/
structure Env where
  ok : Bool := true
  views : Nat → View := fun _ => {}

/-- `NewService`. -/
def new (maxTasks : Int) : Service := { maxTasks := normalizedMaxTasks maxTasks }

/-- `tasks[id]`, if it has this `FileID` and `Audio` and is not disposed. -/
def matching (s : Service) (info : TaskInfo) : Option Nat :=
  (s.tasks.get info.id).filter fun t =>
    (s.created[t]?).any (fun i => i.fileID = info.fileID ∧ i.audio = info.audio) ∧ ¬ s.taskDisposed t

/-- `delete(tasks, id)` under the lock, and the disposal of the task after it. -/
def detach (s : Service) (id : String) (t : Nat) : Service × Next Pc Answer :=
  ({ s with tasks := s.tasks.delete id }, .goOn (.disposing [t] (.removed true)))

/-- The locked section of `getOrAdd` that stores the new task. -/
def insertNew (s : Service) (env : Env) (info : TaskInfo) (t : Nat) : Service × Next Pc Answer :=
  let replaced := s.tasks.get info.id
  let out := evictTasksForLimitLocked s.maxTasks (s.tasks.set info.id t) info.id env.views
  ({ s with tasks := out.1 }, .goOn (.disposing (replaced.toList ++ out.2) (.task t)))

/-- The next access of a call. -/
def resume (s : Service) (env : Env) : Pc → Service × Next Pc Answer
  | .start (.getOrAdd hash fileID audio) =>
    if s.disposed then (s, .ret .errServiceClosed) else (s, .goOn (.lookup ⟨hash, fileID, audio⟩))
  | .start (.tryRemove id) =>
    -- `detachTask(id, nil)`
    if id = "" then (s, .ret (.removed false))
    else
      match s.tasks.get id with
      | none => (s, .ret (.removed false))
      | some t => s.detach id t
  | .start (.tryRemoveExpectedInactive id expected) =>
    if id = "" then (s, .ret (.removed false))
    else
      match expected with
      | none => (s, .ret (.removed false))
      | some t =>
        if s.tasks.get id ≠ some t ∨ ¬ env.ok then (s, .ret (.removed false)) else s.detach id t
  | .start (.updateConfig maxTasks) =>
    if s.disposed then (s, .ret .updated) else (s, .goOn (.applyConfig (normalizedMaxTasks maxTasks)))
  | .start .dispose =>
    if s.disposed then (s, .ret .alreadyClosed) else ({ s with disposed := true }, .goOn .swap)
  | .lookup info =>
    match s.matching info with
    | some t => (s, .ret (.task t))
    | none => (s, .goOn (.probe info))
  | .probe info =>
    if info.id = "" ∨ info.fileID = "" then (s, .ret .failed)
    else if s.disposed then (s, .ret .errServiceClosed)
    else if env.ok then (s, .goOn (.newTask info))
    else (s, .ret .failed)
  | .newTask info =>
    if env.ok then
      ({ s with created := s.created ++ [info] }, .goOn (.insert info s.created.length))
    else (s, .ret .failed)
  | .insert info t =>
    if s.disposed then (s, .goOn (.disposing [t] .errServiceClosed))
    else
      match s.matching info with
      | some existing => (s, .goOn (.disposing [t] (.task existing)))
      | none => s.insertNew env info t
  | .applyConfig maxTasks =>
    let out := evictTasksForLimitLocked maxTasks s.tasks "" env.views
    ({ s with maxTasks := maxTasks, tasks := out.1 }, .goOn (.disposing out.2 .updated))
  | .swap =>
    let tasks := ((env.views 0).order s.tasks.entries).map Prod.snd
    ({ s with tasks := .empty }, .goOn (.disposing tasks .closed))
  | .disposing [] answer => (s, .ret answer)
  | .disposing (t :: rest) answer =>
    ({ s with taskDisposed := fun u => if u = t then true else s.taskDisposed u },
      .goOn (.disposing rest answer))

/-- The service with any number of calls in flight, from `NewService` on. -/
abbrev System := Threads Service Pc Answer

/-- A call starts, or a thread goes on. -/
abbrev Act := Threads.Act Call Env

/-- A new service, with no call under way. -/
def init (maxTasks : Int) : System := { shared := new maxTasks }

/-- One act of one thread. -/
def step : System → Act → Option System := Threads.step Pc.start resume

/-! ## Assertions at the program counters -/

/-- The tasks that a call has to store or to dispose. -/
def Pc.held : Pc → List Nat
  | .insert _ t => [t]
  | .disposing tasks _ => tasks
  | _ => []

/-- The task that a call is about to store. -/
def Pc.inserting : Pc → Option Nat
  | .insert _ t => some t
  | _ => none

/-- Every stored task was made by `NewTask` under the id it is stored at, and the limit is kept. -/
structure Sound (s : Service) : Prop where
  stored : ∀ id t, s.tasks.get id = some t → id ≠ "" ∧ ∃ info, s.created[t]? = some info ∧ info.id = id
  limit : 0 < s.maxTasks → (s.tasks.len : Int) ≤ s.maxTasks

/-- No task is stored, and no task can be. -/
def Closed (s : Service) : Prop := s.disposed = true ∧ ∀ id, s.tasks.get id = none

/-- What an answer says about the service from then on. -/
def Lasting (s : Service) (a : Answer) : Prop := a = .closed → s.Closed

/-- What a call knows of the service at each place. -/
def At (s : Service) : Pc → Prop
  | .newTask info => info.id ≠ ""
  | .insert info t => info.id ≠ "" ∧ s.created[t]? = some info ∧ s.tasks.get info.id ≠ some t
  | .swap => s.disposed = true
  | .disposing _ answer => s.Lasting answer
  | _ => True

/-- Two calls do not store one task. -/
def Apart (pc pc' : Pc) : Prop := ∀ t, pc.inserting = some t → pc'.inserting ≠ some t

/-! ## What a step can do -/

/-- A place where a call neither holds a task nor is closing the service. -/
def Pc.Free (pc : Pc) : Prop := pc.held = [] ∧ pc ≠ .swap

/-- The outcomes of a step, by what they change. -/
inductive Outcome (s : Service) (env : Env) : Pc → Service × Next Pc Answer → Prop
  | returns {pc : Pc} {a : Answer} (free : pc.Free) (hopen : a ≠ .closed) : Outcome s env pc (s, .ret a)
  | looks {pc pc' : Pc} (free : pc.Free) (free' : pc'.Free) (known : s.At pc') :
      Outcome s env pc (s, .goOn pc')
  | closes (hopen : s.disposed = false) :
    Outcome s env (.start .dispose) ({ s with disposed := true }, .goOn .swap)
  | creates (info : TaskInfo) :
      Outcome s env (.newTask info)
        ({ s with created := s.created ++ [info] }, .goOn (.insert info s.created.length))
  | abandons (info : TaskInfo) (t : Nat) {a : Answer} (hopen : a ≠ .closed) :
      Outcome s env (.insert info t) (s, .goOn (.disposing [t] a))
  | inserts (info : TaskInfo) (t : Nat) (hopen : s.disposed = false) :
      Outcome s env (.insert info t) (s.insertNew env info t)
  | detaches {pc : Pc} {id : String} {t : Nat} (free : pc.Free) (stored : s.tasks.get id = some t) :
      Outcome s env pc (s.detach id t)
  | reconfigures (maxTasks : Int) :
      Outcome s env (.applyConfig maxTasks) (s.resume env (.applyConfig maxTasks))
  | swaps : Outcome s env .swap (s.resume env .swap)
  | finishes (a : Answer) : Outcome s env (.disposing [] a) (s, .ret a)
  | disposes (t : Nat) (rest : List Nat) (a : Answer) :
      Outcome s env (.disposing (t :: rest) a)
        ({ s with taskDisposed := fun u => if u = t then true else s.taskDisposed u },
          .goOn (.disposing rest a))

theorem Pc.free_start (c : Call) : (Pc.start c).Free := ⟨rfl, fun h => nomatch h⟩

theorem outcome_start (s : Service) (env : Env) (c : Call) :
    Outcome s env (.start c) (s.resume env (.start c)) := by
  cases c with
  | getOrAdd hash fileID audio =>
    simp only [resume]
    split_ifs
    · exact .returns (Pc.free_start _) (by decide)
    · exact .looks (Pc.free_start _) ⟨rfl, fun h => nomatch h⟩ trivial
  | tryRemove id =>
    simp only [resume]
    split_ifs
    · exact .returns (Pc.free_start _) (by decide)
    · split
      · exact .returns (Pc.free_start _) (by decide)
      · rename_i t hget
        exact .detaches (Pc.free_start _) hget
  | tryRemoveExpectedInactive id expected =>
    simp only [resume]
    split_ifs
    · exact .returns (Pc.free_start _) (by decide)
    · cases expected with
      | none => exact .returns (Pc.free_start _) (by decide)
      | some t =>
        simp only
        split_ifs with hother
        · exact .returns (Pc.free_start _) (by decide)
        · exact .detaches (Pc.free_start _) (not_not.1 (not_or.1 hother).1)
  | updateConfig maxTasks =>
    simp only [resume]
    split_ifs
    · exact .returns (Pc.free_start _) (by decide)
    · exact .looks (Pc.free_start _) ⟨rfl, fun h => nomatch h⟩ trivial
  | dispose =>
    simp only [resume]
    split_ifs with hclosed
    · exact .returns (Pc.free_start _) (by decide)
    · exact .closes (Bool.not_eq_true _ ▸ hclosed)

/-- Every step has one of these outcomes. -/
theorem outcome (s : Service) (env : Env) (pc : Pc) : Outcome s env pc (s.resume env pc) := by
  cases pc with
  | start c => exact outcome_start s env c
  | lookup info =>
    simp only [resume]
    split
    · exact .returns ⟨rfl, fun h => nomatch h⟩ (fun h => nomatch h)
    · exact .looks ⟨rfl, fun h => nomatch h⟩ ⟨rfl, fun h => nomatch h⟩ trivial
  | probe info =>
    simp only [resume]
    split_ifs with hempty
    · exact .returns ⟨rfl, fun h => nomatch h⟩ (by decide)
    · exact .returns ⟨rfl, fun h => nomatch h⟩ (by decide)
    · exact .looks ⟨rfl, fun h => nomatch h⟩ ⟨rfl, fun h => nomatch h⟩ (not_or.1 hempty).1
    · exact .returns ⟨rfl, fun h => nomatch h⟩ (by decide)
  | newTask info =>
    simp only [resume]
    split_ifs
    · exact .creates info
    · exact .returns ⟨rfl, fun h => nomatch h⟩ (by decide)
  | insert info t =>
    simp only [resume]
    split_ifs with hclosed
    · exact .abandons info t (by decide)
    · split
      · exact .abandons info t (fun h => nomatch h)
      · exact .inserts info t (Bool.not_eq_true _ ▸ hclosed)
  | applyConfig maxTasks => exact .reconfigures maxTasks
  | swap => exact .swaps
  | disposing tasks answer =>
    cases tasks with
    | nil => exact .finishes answer
    | cons t rest => exact .disposes t rest answer

/-! ## What every step leaves alone -/

/-- Nothing is forgotten, and only `insert` stores a task, and not once the service is closed. -/
structure Frame (s : Service) (pc : Pc) (s' : Service) : Prop where
  created : ∀ (t : Nat) info, s.created[t]? = some info → s'.created[t]? = some info
  disposed : s.disposed = true → s'.disposed = true
  tasks : ∀ id t, s'.tasks.get id = some t → s.tasks.get id = some t ∨
    (s.disposed = false ∧ ∃ info, pc = .insert info t ∧ info.id = id)

theorem Frame.refl (s : Service) (pc : Pc) : Frame s pc s where
  created := fun _ _ h => h
  disposed := fun h => h
  tasks := fun _ _ h => .inl h

variable {s s' : Service} {env : Env} {pc other pc' : Pc} {out : Service × Next Pc Answer}

theorem Outcome.frame (h : Outcome s env pc out) : Frame s pc out.1 := by
  cases h with
  | returns => exact Frame.refl s pc
  | looks => exact Frame.refl s pc
  | abandons => exact Frame.refl s _
  | finishes => exact Frame.refl s _
  | closes => exact ⟨fun _ _ h => h, fun _ => rfl, fun _ _ h => .inl h⟩
  | disposes => exact ⟨fun _ _ h => h, fun h => h, fun _ _ h => .inl h⟩
  | creates info =>
    refine ⟨?_, fun h => h, fun _ _ h => .inl h⟩
    intro t i ht
    show (s.created ++ [info])[t]? = some i
    rw [List.getElem?_append_left (List.getElem?_eq_some_iff.1 ht).1, ht]
  | inserts info t hopen =>
    refine ⟨fun _ _ h => h, fun h => h, ?_⟩
    intro id u hu
    -- what the eviction leaves was stored before, or is the new task
    have hset := (evict_evicts s.maxTasks (s.tasks.set info.id t) info.id env.views).stays id u hu
    rw [TaskMap.get_set] at hset
    split_ifs at hset with hid
    · obtain rfl := Option.some.inj hset
      exact .inr ⟨hopen, info, rfl, hid.symm⟩
    · exact .inl hset
  | detaches hfree hget =>
    rename_i id t
    refine ⟨fun _ _ h => h, fun h => h, ?_⟩
    intro n u hu
    have hdelete : (s.tasks.delete id).get n = some u := hu
    rw [TaskMap.get_delete] at hdelete
    split_ifs at hdelete
    exact .inl hdelete
  | reconfigures maxTasks =>
    exact ⟨fun _ _ h => h, fun h => h, fun id t h => .inl ((evict_evicts _ _ _ _).stays id t h)⟩
  | swaps =>
    refine ⟨fun _ _ h => h, fun h => h, ?_⟩
    intro id t ht
    cases (TaskMap.get_empty id).symm.trans ht

theorem Frame.closed (h : Frame s pc s') (hclosed : s.Closed) : s'.Closed := by
  refine ⟨h.disposed hclosed.1, ?_⟩
  intro id
  rw [Option.eq_none_iff_forall_ne_some]
  intro t ht
  rcases h.tasks id t ht with hbefore | ⟨hopen, -⟩
  · rw [hclosed.2 id] at hbefore
    cases hbefore
  · rw [hclosed.1] at hopen
    cases hopen

/-! ## The outline -/

/-- A step of one call leaves what another knows. -/
theorem Frame.at (h : Frame s pc s') (hother : s.At other) (hapart : Apart pc other) : s'.At other := by
  cases other with
  | start | lookup | probe | applyConfig => trivial
  | newTask info => exact hother
  | insert info t =>
    obtain ⟨hid, hcreated, hnot⟩ := hother
    refine ⟨hid, h.created t info hcreated, ?_⟩
    intro hget
    rcases h.tasks info.id t hget with hbefore | ⟨-, info', rfl, -⟩
    · exact hnot hbefore
    · exact hapart t rfl rfl
  | swap => exact h.disposed hother
  | disposing tasks answer => exact fun hanswer => h.closed (hother hanswer)

theorem Sound.ids (h : s.Sound) : ∀ e ∈ s.tasks.entries, e.1 ≠ "" :=
  fun e he => (h.stored e.1 e.2 (TaskMap.mem_entries_iff.1 he)).1

/-- The ids of the stored tasks stay those of `NewTask`. -/
theorem Frame.stored (h : Frame s pc s') (hs : s.Sound) (hpc : s.At pc) {id : String}
    (ht : s'.tasks.get id = some t) :
    id ≠ "" ∧ ∃ info, s'.created[t]? = some info ∧ info.id = id := by
  rcases h.tasks id t ht with hbefore | ⟨-, info, rfl, rfl⟩
  · obtain ⟨hid, info, hcreated, hinfo⟩ := hs.stored id t hbefore
    exact ⟨hid, info, h.created t info hcreated, hinfo⟩
  · exact ⟨hpc.1, info, h.created t info hpc.2.1, rfl⟩

theorem Outcome.limit (h : Outcome s env pc out) (hs : s.Sound) (hpc : s.At pc) :
    0 < out.1.maxTasks → (out.1.tasks.len : Int) ≤ out.1.maxTasks := by
  cases h with
  | returns | looks | abandons | finishes | closes | disposes | creates => exact hs.limit
  | inserts info t hopen =>
    intro hmax
    refine evict_len hmax ?_ info.id env.views
    intro e he
    rcases mem_insertEntry he with rfl | hbefore
    · exact hpc.1
    · exact hs.ids e hbefore
  | detaches hfree hget =>
    intro hmax
    have hbefore := hs.limit hmax
    have hle := TaskMap.len_delete_lt hget
    show ((s.tasks.delete _).len : Int) ≤ s.maxTasks
    omega
  | reconfigures maxTasks =>
    intro hmax
    exact evict_len hmax hs.ids "" env.views
  | swaps =>
    intro hmax
    exact le_of_lt hmax

theorem Outcome.sound (h : Outcome s env pc out) (hs : s.Sound) (hpc : s.At pc) : out.1.Sound where
  stored := fun _ _ ht => h.frame.stored hs hpc ht
  limit := h.limit hs hpc

theorem Sound.fresh (h : s.Sound) (id : String) : s.tasks.get id ≠ some s.created.length := by
  intro hget
  obtain ⟨-, info, hcreated, -⟩ := h.stored id _ hget
  rw [getElem?_eq_none (Nat.le_refl _)] at hcreated
  cases hcreated

/-- A call that goes on knows what its next place asserts. -/
theorem Outcome.goesOn (h : Outcome s env pc out) (hs : s.Sound) (hpc : s.At pc) (hgo : out.2 = .goOn pc') :
    out.1.At pc' := by
  cases h with
  | returns | finishes => cases hgo
  | looks _ _ hknown => cases hgo; exact hknown
  | closes => cases hgo; exact rfl
  | creates info =>
    cases hgo
    refine ⟨hpc, ?_, hs.fresh info.id⟩
    exact getElem?_concat_length
  | abandons info t hopen => cases hgo; exact fun hanswer => absurd hanswer hopen
  | inserts | detaches | reconfigures => cases hgo; exact fun hanswer => nomatch hanswer
  | swaps => cases hgo; exact fun _ => ⟨hpc, TaskMap.get_empty⟩
  | disposes t rest a => cases hgo; exact hpc

theorem Outcome.apart (h : Outcome s env pc out) (hother : s.At other) (hgo : out.2 = .goOn pc') :
    Apart pc' other := by
  intro t ht
  cases h with
  | returns | finishes => cases hgo
  | looks _ hfree' _ =>
    cases hgo
    cases pc' with
    | insert info u => cases hfree'.1
    | _ => cases ht
  | closes | abandons | inserts | detaches | reconfigures | swaps | disposes => cases hgo; cases ht
  | creates info =>
    cases hgo
    obtain rfl := Option.some.inj ht
    -- the number is new, and what another call is about to store was made before
    intro hsame
    cases other with
    | insert info' u =>
      obtain rfl := Option.some.inj hsame
      have hcreated := hother.2.1
      rw [getElem?_eq_none (Nat.le_refl _)] at hcreated
      cases hcreated
    | _ => cases hsame

theorem Outcome.returned {a : Answer} (h : Outcome s env pc out) (hpc : s.At pc) (hret : out.2 = .ret a) :
    out.1.Lasting a := by
  cases h with
  | returns _ hopen => cases hret; exact fun hanswer => absurd hanswer hopen
  | finishes a => cases hret; exact hpc
  | looks | closes | creates | abandons | inserts | detaches | reconfigures | swaps | disposes => cases hret

/-- The assertions hold at every place, whatever the other calls do in between. -/
theorem outline : Threads.Outline Pc.start resume Sound At Apart Lasting where
  enters := fun _ _ => trivial
  enters_apart := fun _ _ _ h => nomatch h
  symm := fun _ _ h t ht ht' => h t ht' ht
  keeps := fun s env pc hs hpc => (outcome s env pc).sound hs hpc
  goesOn := fun s env pc _ hs hpc hgo => (outcome s env pc).goesOn hs hpc hgo
  returns := fun s env pc _ _ hpc hret => (outcome s env pc).returned hpc hret
  lasts := fun s env pc _ _ _ hlasting hanswer => (outcome s env pc).frame.closed (hlasting hanswer)
  undisturbed := fun s env pc _ _ _ hother hapart => (outcome s env pc).frame.at hother hapart
  apart := fun s env pc _ _ _ _ hother _ hgo => (outcome s env pc).apart hother hgo

/-! ## Who has to dispose a task -/

/-- The task, if it was made, is the one stored under its id, or disposed. -/
def Settled (t : Nat) (s : Service) : Prop :=
  ∀ info, s.created[t]? = some info → s.tasks.get info.id = some t ∨ s.taskDisposed t = true

/-- A step that only takes tasks out of the map, and holds what it has taken, drops none. -/
theorem Settled.of_taken {held : List Nat} (hsettled : Settled t s) (hcreated : s'.created = s.created)
    (hdisposed : s'.taskDisposed = s.taskDisposed)
    (htaken : ∀ id, s.tasks.get id = some t → s'.tasks.get id = some t ∨ t ∈ held) :
    Settled t s' ∨ t ∈ held := by
  by_cases hheld : t ∈ held
  · exact .inr hheld
  · left
    intro info hinfo
    rw [hcreated] at hinfo
    rw [hdisposed]
    rcases hsettled info hinfo with hget | hdone
    · exact .inl ((htaken info.id hget).resolve_right hheld)
    · exact .inr hdone

variable {info : TaskInfo}

/-- The new task is stored, the replaced one and the evicted ones are held. -/
theorem insertNew_owned {u : Nat} (hcreated : s.created[u]? = some info) (h : Settled t s ∨ t ∈ [u]) :
    Settled t (s.insertNew env info u).1 ∨
      t ∈ (s.tasks.get info.id).toList ++
        (evictTasksForLimitLocked s.maxTasks (s.tasks.set info.id u) info.id env.views).2 := by
  have hevicts := evict_evicts s.maxTasks (s.tasks.set info.id u) info.id env.views
  by_cases htu : t = u
  · subst htu
    left
    intro info' hinfo'
    cases hcreated.symm.trans hinfo'
    refine .inl (hevicts.get_protected ?_)
    rw [TaskMap.get_set, if_pos rfl]
  · have hsettled : Settled t s := h.resolve_right (fun hmem => htu (mem_singleton.1 hmem))
    refine hsettled.of_taken rfl rfl ?_
    intro id hget
    by_cases hid : id = info.id
    · -- the task that was stored under this id is replaced
      subst hid
      rw [hget]
      exact .inr (mem_append_left _ mem_cons_self)
    · have hset : (s.tasks.set info.id u).get id = some t := by rw [TaskMap.get_set, if_neg hid, hget]
      rcases hevicts.goes id t hset with hstays | ⟨-, hmem⟩
      · exact .inl hstays
      · exact .inr (mem_append_right _ hmem)

/-- No step drops a task: it stays settled, or in the hands of a call. -/
theorem Outcome.owned (h : Outcome s env pc out) (hpc : s.At pc) (howned : Settled t s ∨ t ∈ pc.held) :
    Settled t out.1 ∨ ∃ pc', out.2 = .goOn pc' ∧ t ∈ pc'.held := by
  -- a call that goes on with the tasks `held`
  have hgoOn : ∀ {s' : Service} {pc' : Pc}, Settled t s' ∨ t ∈ pc'.held →
      Settled t s' ∨ ∃ pc'', (Next.goOn pc' : Next Pc Answer) = .goOn pc'' ∧ t ∈ pc''.held :=
    fun h => h.imp id fun hheld => ⟨_, rfl, hheld⟩
  have hfreed : pc.held = [] → Settled t s := by
    intro hnone
    rw [hnone] at howned
    exact howned.resolve_right (fun hmem => nomatch hmem)
  cases h with
  | returns hfree => exact .inl (hfreed hfree.1)
  | looks hfree => exact .inl (hfreed hfree.1)
  | finishes => exact .inl (hfreed rfl)
  | closes => exact .inl (hfreed rfl)
  | abandons info u => exact hgoOn howned
  | inserts info u => exact hgoOn (insertNew_owned hpc.2.1 howned)
  | creates info =>
    by_cases ht : t = s.created.length
    · exact .inr ⟨_, rfl, mem_singleton.2 ht⟩
    · left
      intro info' hinfo'
      refine hfreed rfl info' ?_
      have hconcat : (s.created ++ [info])[t]? = some info' := hinfo'
      rw [getElem?_append] at hconcat
      split_ifs at hconcat with hlt
      · exact hconcat
      · rw [getElem?_singleton, if_neg (by omega)] at hconcat
        cases hconcat
  | detaches hfree hget =>
    rename_i id u
    refine hgoOn ((hfreed hfree.1).of_taken rfl rfl ?_)
    intro n hn
    by_cases hid : n = id
    · subst hid
      cases hget.symm.trans hn
      exact .inr mem_cons_self
    · left
      show (s.tasks.delete id).get n = some t
      rw [TaskMap.get_delete, if_neg hid, hn]
  | reconfigures maxTasks =>
    refine hgoOn ((hfreed rfl).of_taken rfl rfl ?_)
    intro id hget
    exact ((evict_evicts maxTasks s.tasks "" env.views).goes id t hget).imp_right And.right
  | swaps =>
    refine hgoOn ((hfreed rfl).of_taken rfl rfl ?_)
    intro id hget
    have hmem : (id, t) ∈ (env.views 0).order s.tasks.entries :=
      ((env.views 0).perm _).mem_iff.2 (TaskMap.mem_entries_iff.2 hget)
    exact .inr (mem_map.2 ⟨(id, t), hmem, rfl⟩)
  | disposes u rest a =>
    by_cases htu : t = u
    · exact .inl fun info _ => .inr (if_pos htu)
    · refine hgoOn (howned.imp ?_ fun hmem => (mem_cons.1 hmem).resolve_left htu)
      intro hsettled info hinfo
      refine (hsettled info hinfo).imp id fun hdone => ?_
      show (if t = u then true else s.taskDisposed t) = true
      rw [if_neg htu, hdone]

/-- A service whose flag is set is closed, or a `Dispose` call is about to close it. -/
theorem Outcome.closing (h : Outcome s env pc out) (hpc : s.At pc)
    (hclosing : (s.disposed = true → s.Closed) ∨ pc = .swap) :
    (out.1.disposed = true → out.1.Closed) ∨ ∃ pc', out.2 = .goOn pc' ∧ pc' = .swap := by
  have hframe := h.frame
  have hkept : pc ≠ .swap → out.1.disposed = s.disposed → out.1.disposed = true → out.1.Closed := by
    intro hne hsame hclosed
    rw [hsame] at hclosed
    exact hframe.closed (hclosing.resolve_right hne hclosed)
  cases h with
  | closes => exact .inr ⟨.swap, rfl, rfl⟩
  | swaps => exact .inl fun _ => ⟨hpc, TaskMap.get_empty⟩
  | returns hfree => exact .inl (hkept hfree.2 rfl)
  | looks hfree => exact .inl (hkept hfree.2 rfl)
  | detaches hfree => exact .inl (hkept hfree.2 rfl)
  | creates | abandons | inserts | reconfigures | finishes | disposes =>
    exact .inl (hkept (fun h => nomatch h) rfl)

/-! ## Runs -/

theorem sound_new (maxTasks : Int) : (new maxTasks).Sound where
  stored := fun id t h => by cases (TaskMap.get_empty id).symm.trans h
  limit := fun h => le_of_lt h

section Runs

variable {maxTasks : Int} {acts : List Act} {T : System}

theorem run_meets (hrun : run step (init maxTasks) acts = some T) : Threads.Meets Sound At Apart Lasting T :=
  outline.run (.init (sound_new maxTasks)) hrun

/-- After every run a task is settled, or a call in flight has to store or to dispose it. -/
theorem run_owned (hrun : run step (init maxTasks) acts = some T) (t : Nat) :
    Threads.Due (Settled t) (fun pc => t ∈ pc.held) T := by
  refine Threads.Due.run outline ?_ (.init (sound_new maxTasks)) (.inl ?_) hrun
  · intro s env pc _ hpc howned
    exact (outcome s env pc).owned hpc howned
  · intro info hinfo
    cases hinfo

theorem run_closing (hrun : run step (init maxTasks) acts = some T) :
    Threads.Due (fun s => s.disposed = true → s.Closed) (fun pc => pc = .swap) T := by
  refine Threads.Due.run outline ?_ (.init (sound_new maxTasks)) (.inl ?_) hrun
  · intro s env pc _ hpc hclosing
    exact (outcome s env pc).closing hpc hclosing
  · intro hclosed
    cases hclosed

end Runs

/-- The next step of `tid` stores the task `t`. -/
def Inserts (T : System) (tid : Nat) (info : TaskInfo) (t : Nat) : Prop :=
  T.pcs tid = some (.insert info t) ∧ T.shared.disposed = false ∧ T.shared.matching info = none

/-- A task that is being stored is not among those that this pushes out or replaces. -/
theorem insertNew_spares (env : Env) (hs : s.Sound) (hpc : s.At (.insert info t)) :
    (s.insertNew env info t).1.tasks.get info.id = some t ∧
      t ∉ (s.tasks.get info.id).toList ++
        (evictTasksForLimitLocked s.maxTasks (s.tasks.set info.id t) info.id env.views).2 := by
  have hevicts := evict_evicts s.maxTasks (s.tasks.set info.id t) info.id env.views
  refine ⟨hevicts.get_protected (by rw [TaskMap.get_set, if_pos rfl]), ?_⟩
  intro hmem
  rcases mem_append.1 hmem with hreplaced | hevicted
  · exact hpc.2.2 (Option.mem_toList.1 hreplaced)
  · obtain ⟨id, hne, hget⟩ := hevicts.evicted t hevicted
    rw [TaskMap.get_set, if_neg hne] at hget
    -- a task is stored under its own id only
    obtain ⟨-, info', hcreated, hid⟩ := hs.stored id t hget
    cases hpc.2.1.symm.trans hcreated
    exact hne hid.symm

theorem step_inserts {T T' : System} {tid : Nat} (hT : Threads.Meets Sound At Apart Lasting T)
    (hinserts : Inserts T tid info t) (hstep : step T (.resume tid env) = some T') :
    T'.shared.tasks.get info.id = some t ∧ ∀ pc, T'.pcs tid = some pc → t ∉ pc.held := by
  obtain ⟨hpc, hopen, hnone⟩ := hinserts
  have hresume : T.shared.resume env (.insert info t) = T.shared.insertNew env info t := by
    simp only [resume, hopen, hnone, Bool.false_eq_true, if_false]
  have hsettle : T' = T.settle tid (T.shared.insertNew env info t) := by
    rw [step, Threads.step, hpc, Option.map_some, hresume] at hstep
    exact (Option.some.inj hstep).symm
  obtain ⟨hstored, hspared⟩ := insertNew_spares env hT.shared (hT.pcs tid _ hpc)
  subst hsettle
  refine ⟨hstored, ?_⟩
  intro pc hnext
  rcases Threads.pcs_settle hnext with ⟨-, hgo⟩ | ⟨hne, -⟩
  · cases hgo
    exact hspared
  · exact absurd rfl hne

/-- **The tasks of the service.** The limit is kept; storing a task spares it; when all calls have returned,
every task is stored under its id or disposed; and after the `Dispose` call that closes the service no task is
stored. -/
theorem tasks_accounted_for {maxTasks : Int} {acts : List Act} {T : System}
    (hrun : run step (init maxTasks) acts = some T) :
    (0 < T.shared.maxTasks → (T.shared.tasks.len : Int) ≤ T.shared.maxTasks) ∧
    (∀ tid info t env T', Inserts T tid info t → step T (.resume tid env) = some T' →
      T'.shared.tasks.get info.id = some t ∧ ∀ pc, T'.pcs tid = some pc → t ∉ pc.held) ∧
    (T.Quiet → ∀ (t : Nat) info, T.shared.created[t]? = some info →
      T.shared.tasks.get info.id = some t ∨ T.shared.taskDisposed t = true) ∧
    (.closed ∈ T.answers → ∀ acts' T', run step T acts' = some T' → T'.shared.tasks.entries = []) ∧
    (T.Quiet → T.shared.disposed = true → T.shared.tasks.entries = []) := by
  have hT := run_meets hrun
  refine ⟨hT.shared.limit, ?_, ?_, ?_, ?_⟩
  · intro tid info t env T' hinserts hstep
    exact step_inserts hT hinserts hstep
  · intro hquiet t info hcreated
    exact (run_owned hrun t).done hquiet info hcreated
  · intro hanswer acts' T' hrun'
    -- the answer stays given, and with it what it promises
    have hT' := outline.run hT hrun'
    have hstill : .closed ∈ T'.answers := Threads.answers_run hrun' hanswer
    exact TaskMap.entries_eq_nil (hT'.answers .closed hstill rfl).2
  · intro hquiet hclosed
    exact TaskMap.entries_eq_nil ((run_closing hrun).done hquiet hclosed).2

/-- A thread takes `n` steps of its call. -/
def steps (tid n : Nat) : List Act := List.replicate n (.resume tid {})

/-- With room for one task: a second one pushes the first out, then the service is closed. -/
def evictThenClose : List Act :=
  .call 0 (.getOrAdd "a" "1" 0) :: steps 0 6 ++ .call 1 (.getOrAdd "b" "1" 0) :: steps 1 7 ++
    .call 0 .dispose :: steps 0 4

theorem tasks_accounted_for_evictThenClose :
    (∃ T T', run step (init 1) (evictThenClose.take 12) = some T ∧
      Inserts T 1 ⟨"b", "1", 0⟩ 1 ∧ step T (.resume 1 {}) = some T' ∧
      T'.shared.tasks.get "b" = some 1 ∧ ∀ pc, T'.pcs 1 = some pc → 1 ∉ pc.held) ∧
    ∃ T, run step (init 1) evictThenClose = some T ∧
      T.answers = [.task 0, .task 1, .closed] ∧ T.Quiet ∧
      (T.shared.tasks.len : Int) ≤ T.shared.maxTasks ∧
      (T.shared.tasks.get "b" = some 1 ∨ T.shared.taskDisposed 1 = true) ∧
      T.shared.tasks.entries = [] := by
  refine ⟨?_, ?_⟩
  · have hview : (run step (init 1) (evictThenClose.take 12)).map
        (fun T => (T.pcs 1, T.shared.disposed, T.shared.matching ⟨"b", "1", 0⟩)) =
        some (some (.insert ⟨"b", "1", 0⟩ 1), false, none) := by decide +kernel
    obtain ⟨T, hrun, hview⟩ := Option.map_eq_some_iff.1 hview
    simp only [Prod.mk.injEq] at hview
    have hinserts : Inserts T 1 ⟨"b", "1", 0⟩ 1 := hview
    have hstep : ∃ T', step T (.resume 1 {}) = some T' := by
      rw [step, Threads.step, hinserts.1]
      exact ⟨_, rfl⟩
    obtain ⟨T', hstep⟩ := hstep
    exact ⟨T, T', hrun, hinserts, hstep, (tasks_accounted_for hrun).2.1 1 _ 1 {} T' hinserts hstep⟩
  · have hview : (run step (init 1) evictThenClose).map
        (fun T => (T.answers, T.pcs 0, T.pcs 1, T.shared.maxTasks, T.shared.created[1]?)) =
        some ([.task 0, .task 1, .closed], none, none, 1, some ⟨"b", "1", 0⟩) := by decide +kernel
    obtain ⟨T, hrun, hview⟩ := Option.map_eq_some_iff.1 hview
    simp only [Prod.mk.injEq] at hview
    obtain ⟨hanswers, hfirst, hsecond, hmax, hcreated⟩ := hview
    have hquiet : T.Quiet := by
      intro tid
      by_cases hzero : tid = 0
      · rw [hzero, hfirst]
      · by_cases hone : tid = 1
        · rw [hone, hsecond]
        · refine Threads.pcs_run hrun ?_
          intro a ha
          have htids : a.tid ∈ evictThenClose.map Threads.Act.tid := mem_map_of_mem ha
          have hlist : ∀ n ∈ evictThenClose.map Threads.Act.tid, n = 0 ∨ n = 1 := by decide +kernel
          rcases hlist _ htids with h | h <;> omega
    obtain ⟨hlimit, -, hsettled, hclosed, -⟩ := tasks_accounted_for hrun
    refine ⟨T, hrun, hanswers, hquiet, hlimit (by rw [hmax]; decide), hsettled hquiet 1 _ hcreated, ?_⟩
    exact hclosed (by rw [hanswers]; decide) [] T rfl

/-- Two calls of `Dispose`: the second returns before the first has emptied the map. -/
theorem dispose_returns_early :
    (run step (init 0) (.call 0 (.getOrAdd "a" "1" 0) :: steps 0 6 ++
        [.call 0 .dispose, .resume 0 {}, .call 1 .dispose, .resume 1 {}])).map
      (fun T => (T.answers, T.shared.tasks.entries)) =
    some ([.task 0, .alreadyClosed], [("a", 0)]) := by
  decide +kernel

end Service

end TorrServer.Gstreamer
