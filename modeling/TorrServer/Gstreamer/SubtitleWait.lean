/-
# Gstreamer.SubtitleWait — waiting for the subtitles of a segment.

`WaitSubtitleVTT` renders the store of a track and, if the segment is not complete, sleeps on the channel
`updated` that it took under the same lock. Every change of a store closes this channel, and `setSubtitleStores`
closes the channels of the stores it takes away. The calls interleave at every lock and at the atomic flag
`disposed`.

Nobody sleeps on a segment that is complete (`asleep_incomplete`). A store that is taken away is another matter:
the waiter looks the store up under one lock and renders it under another, and if the store is replaced and
notified in between, nobody is left to wake it before its timeout (`covered_iff_not_late`).

The lock `t.mu` around the calls that replace stores is left out, as nothing here rests on it; after `Dispose`
such a call finds no runner (`released`).
-/
import TorrServer.Gstreamer.Subtitles
import TorrServer.Lib.Threads
import Mathlib.Logic.Function.Basic

namespace TorrServer.Gstreamer.SubtitleWait

open Lib (Bytes Along Each Threads Next)
open Lib.Threads (Act Due Meets)

/-! ## The stores of a task -/

/-- A `subtitleStore` with its channel. The channels of a store are numbered in the order in which they are
made: those before `updated` are closed, and this one is open. -/
structure Cell where
  store : SubtitleStore := {}
  updated : Nat := 0

namespace Cell

/-- Closes the channel that the waiting calls watch and makes a new one. -/
def notifyLocked (c : Cell) : Cell := { c with updated := c.updated + 1 }

/-- Where the video is read to, also backwards. -/
def setVideoReadTo (c : Cell) (value : Nat) : Cell :=
  if c.store.videoReadTo ≠ value then
    notifyLocked { c with store := { c.store with videoReadTo := value } }
  else c

/-- Where the video is read to, only forwards. -/
def advanceVideoReadTo (c : Cell) (value : Nat) : Cell :=
  if value = 0 then c
  else if c.store.videoReadTo < value then
    notifyLocked { c with store := { c.store with videoReadTo := value } }
  else c

/-- `appendVTT` for a chunk that is not blank: whatever cues it finds, it notifies. -/
def appendVTT (c : Cell) (cues seen : List SubtitleCue) (pending : Bytes) : Cell :=
  notifyLocked { c with store := { c.store with cues := cues, seen := seen, pending := pending } }

end Cell

/-- A change of a store, made under its lock. -/
inductive Update
  | setVideoReadTo (value : Nat)
  | advanceVideoReadTo (value : Nat)
  | appendVTT (cues seen : List SubtitleCue) (pending : Bytes)

/-- What an update does to a store. -/
def Update.apply (c : Cell) : Update → Cell
  | .setVideoReadTo value => c.setVideoReadTo value
  | .advanceVideoReadTo value => c.advanceVideoReadTo value
  | .appendVTT cues seen pending => c.appendVTT cues seen pending

/-- What a task shares: the stores made so far, the map `subtitleStores` from tracks to stores, `disposed`, and
whether the runner is gone. -/
structure Shared where
  cells : Nat → Cell := fun _ => {}
  made : Nat := 0
  subtitleStores : List (Int × Nat) := []
  disposed : Bool := false
  released : Bool := false

namespace Shared

/-- `subtitleStore`. -/
def subtitleStore (s : Shared) (index : Int) : Option Nat := s.subtitleStores.lookup index

/-- One store changes. -/
def modify (s : Shared) (store : Nat) (f : Cell → Cell) : Shared :=
  { s with cells := Function.update s.cells store (f (s.cells store)) }

/-- The locked part of `setSubtitleStores`, with a new store for each of the tracks. -/
def swap (s : Shared) (tracks : List Int) : Shared :=
  { s with
    cells := fun store => if s.made ≤ store then {} else s.cells store
    made := s.made + tracks.length
    subtitleStores := tracks.zipIdx s.made }

/-- The stores that a swap takes away. -/
def previous (s : Shared) : List Nat := s.subtitleStores.map Prod.snd

end Shared

/-! ## The calls -/

/-- The subtitles that are asked for. -/
structure Query where
  trackIndex : Int
  segmentIndex : Int
  deriving DecidableEq, Repr

/-- The calls that meet at the stores. -/
inductive Call
  | waitSubtitleVTT (q : Query) (timeout : Int)
  | update (store : Nat) (u : Update)
  | setSubtitleStores (tracks : List Int)
  | dispose

/-- Where a call stands. A waiter loads `disposed`, looks the store up, renders it and selects; `last` marks the
snapshot whose result is returned in any case. -/
inductive Pc
  | load (q : Query) (last : Bool)
  | lookup (q : Query) (last : Bool)
  | render (q : Query) (last : Bool) (store : Nat)
  | select (q : Query) (store updated : Nat)
  | update (store : Nat) (u : Update)
  | swap (tracks : List Int)
  | notify (stores : List Nat)
  | compareAndSwap
  | release

/-- What `WaitSubtitleVTT` returns, with `last` as above; the other calls return nothing. -/
inductive Answer
  | vtt (q : Query) (value : Bytes) (last : Bool)
  | contextErr
  | done

/-- The case of the `select` that is chosen if it is ready. -/
inductive Case
  | contextDone
  | timer
  | updated

/-- What the code does not decide: the case of a `select`, and the next key of a loop over a map. -/
structure Env where
  chosen : Case := .updated
  key : Nat := 0

/-- Where a call starts. -/
def enter : Call → Pc
  | .waitSubtitleVTT q timeout => .load q (timeout ≤ 0)
  | .update store u => .update store u
  | .setSubtitleStores tracks => .swap tracks
  | .dispose => .compareAndSwap

/-- A track without cues. -/
def emptyVTT (startNS : Nat) : Bytes := writeVTTHeader startNS

-- `subtitleRange` of the task, with cues or without
variable (range : Int → Nat × Nat)

/-- The rendering of a store for a query. -/
def rendering (q : Query) (store : SubtitleStore) : Bytes × Bool :=
  store.renderVTT (range q.segmentIndex).1 (range q.segmentIndex).2

/-- One atomic step of a call. -/
def resume (s : Shared) (env : Env) : Pc → Shared × Next Pc Answer
  | .load q last =>
    if s.disposed then (s, .ret (.vtt q (emptyVTT (range q.segmentIndex).1) last))
    else (s, .goOn (.lookup q last))
  | .lookup q last =>
    match s.subtitleStore q.trackIndex with
    | none => (s, .ret (.vtt q (emptyVTT (range q.segmentIndex).1) last))
    | some store => (s, .goOn (.render q last store))
  | .render q last store =>
    let (value, ready) := rendering range q (s.cells store).store
    if last || ready then (s, .ret (.vtt q value last))
    else (s, .goOn (.select q store (s.cells store).updated))
  | .select q store updated =>
    match env.chosen with
    | .contextDone => (s, .ret .contextErr)
    | .timer => (s, .goOn (.load q true))
    | .updated =>
      (s, .goOn (if updated < (s.cells store).updated then .load q false else .select q store updated))
  | .update store u => (s.modify store u.apply, .ret .done)
  | .swap tracks =>
    if s.released then (s, .ret .done)
    else (s.swap tracks, .goOn (.notify s.previous))
  | .notify stores =>
    match stores[env.key % stores.length]? with
    | none => (s, .ret .done)
    | some store =>
      (s.modify store Cell.notifyLocked, .goOn (.notify (stores.eraseIdx (env.key % stores.length))))
  | .compareAndSwap =>
    if s.disposed then (s, .ret .done)
    else ({ s with disposed := true }, .goOn .release)
  | .release => ({ s.swap [] with released := true }, .goOn (.notify s.previous))

/-- The stores and the calls under way. -/
abbrev System := Threads Shared Pc Answer

/-- A call starts, or a thread goes on. -/
abbrev Label := Act Call Env

/-- One act of one thread. -/
def step : System → Label → Option System := Threads.step enter (resume range)

/-! ## What a step does to the stores -/

section Steps

variable {range} {s : Shared} {env : Env} {pc : Pc} {q : Query} {store updated : Nat}

/-- A change of a store closes its channel, or leaves the store as it is. -/
theorem Update.apply_cases (u : Update) (c : Cell) : u.apply c = c ∨ (u.apply c).updated = c.updated + 1 := by
  cases u with
  | setVideoReadTo value =>
    simp only [Update.apply, Cell.setVideoReadTo]
    split
    · exact .inr rfl
    · exact .inl rfl
  | advanceVideoReadTo value =>
    simp only [Update.apply, Cell.advanceVideoReadTo]
    split
    · exact .inl rfl
    · split
      · exact .inr rfl
      · exact .inl rfl
  | appendVTT cues seen pending => exact .inr rfl

/-- A store that is there stays as it is, or a channel of it gets closed. -/
def Keeps (s s' : Shared) : Prop :=
  s.made ≤ s'.made ∧ ∀ store < s.made,
    s'.cells store = s.cells store ∨ (s.cells store).updated < (s'.cells store).updated

theorem Keeps.refl (s : Shared) : Keeps s s := ⟨Nat.le_refl _, fun _ _ => .inl rfl⟩

theorem keeps_modify (s : Shared) (store : Nat) {f : Cell → Cell}
    (hf : ∀ c, f c = c ∨ (f c).updated = c.updated + 1) : Keeps s (s.modify store f) := by
  refine ⟨Nat.le_refl _, fun other _ => ?_⟩
  show Function.update s.cells store _ other = _ ∨ _ < (Function.update s.cells store _ other).updated
  by_cases h : other = store
  · subst h
    rw [Function.update_self]
    refine (hf (s.cells other)).imp id fun h => ?_
    omega
  · rw [Function.update_of_ne h]
    exact .inl rfl

theorem keeps_swap (s : Shared) (tracks : List Int) : Keeps s (s.swap tracks) := by
  refine ⟨Nat.le_add_right _ _, fun store hstore => .inl ?_⟩
  show (if s.made ≤ store then ({} : Cell) else s.cells store) = s.cells store
  rw [if_neg (Nat.not_le.2 hstore)]

/-- What a step can do to the stores: nothing, change one of them, replace them, or mark the task as
disposed. -/
inductive Effect (s : Shared) : Shared × Next Pc Answer → Prop
  | same (next : Next Pc Answer) : Effect s (s, next)
  | modify (store : Nat) {f : Cell → Cell} (next : Next Pc Answer)
      (hf : ∀ c, f c = c ∨ (f c).updated = c.updated + 1) : Effect s (s.modify store f, next)
  | swap (tracks : List Int) : Effect s (s.swap tracks, .goOn (.notify s.previous))
  | dispose : Effect s ({ s with disposed := true }, .goOn .release)
  | release : Effect s ({ s.swap [] with released := true }, .goOn (.notify s.previous))

theorem effect_resume (s : Shared) (env : Env) (pc : Pc) : Effect s (resume range s env pc) := by
  unfold resume
  split
  · split <;> exact .same _
  · split <;> exact .same _
  · dsimp only
    split <;> exact .same _
  · split <;> exact .same _
  · exact .modify _ _ (Update.apply_cases _)
  · split
    · exact .same _
    · exact .swap _
  · split
    · exact .same _
    · exact .modify _ _ fun _ => .inr rfl
  · split
    · exact .same _
    · exact .dispose
  · exact .release

theorem Effect.keeps {out : Shared × Next Pc Answer} (h : Effect s out) : Keeps s out.1 := by
  cases h with
  | same => exact Keeps.refl s
  | modify store next hf => exact keeps_modify s store hf
  | swap tracks => exact keeps_swap s tracks
  | dispose => exact Keeps.refl s
  | release => exact keeps_swap s []

/-! ## The assertions -/

/-- The map leads to stores that were made. -/
def Sound (s : Shared) : Prop := ∀ store ∈ s.previous, store < s.made

variable (range) in
/-- At a `select` the store has not changed, or the channel is closed. -/
def At (s : Shared) : Pc → Prop
  | .render _ _ store => store < s.made
  | .select q store updated => store < s.made ∧ updated ≤ (s.cells store).updated ∧
      (updated = (s.cells store).updated → (rendering range q (s.cells store).store).2 = false)
  | _ => True

theorem mem_previous {index : Int} (h : s.subtitleStore index = some store) : store ∈ s.previous := by
  obtain ⟨before, after, hsplit, -⟩ := List.lookup_eq_some_iff.1 h
  show store ∈ s.subtitleStores.map Prod.snd
  rw [hsplit]
  simp

theorem sound_swap (s : Shared) (tracks : List Int) : Sound (s.swap tracks) := by
  intro store hmem
  obtain ⟨pair, hpair, rfl⟩ := List.mem_map.1 hmem
  exact (List.mem_zipIdx hpair).2.1

theorem Effect.sound {out : Shared × Next Pc Answer} (h : Effect s out) (hs : Sound s) : Sound out.1 := by
  cases h with
  | same => exact hs
  | modify => exact hs
  | swap tracks => exact sound_swap s tracks
  | dispose => exact hs
  | release => exact sound_swap s []

/-- What is asserted of a call lasts while the stores are kept. -/
theorem At.keeps {s' : Shared} (hat : At range s pc) (hkeeps : Keeps s s') : At range s' pc := by
  cases pc with
  | render q last store => exact Nat.lt_of_lt_of_le hat hkeeps.1
  | select q store updated =>
    obtain ⟨hmade, hle, hready⟩ := hat
    refine ⟨Nat.lt_of_lt_of_le hmade hkeeps.1, ?_⟩
    rcases hkeeps.2 store hmade with heq | hlt
    · rw [heq]
      exact ⟨hle, hready⟩
    · exact ⟨by omega, fun h => by omega⟩
  | load | lookup | update | swap | notify | compareAndSwap | release => trivial

theorem at_resume {pc' : Pc} (hs : Sound s) (hat : At range s pc)
    (hgo : (resume range s env pc).2 = .goOn pc') :
    At range (resume range s env pc).1 pc' := by
  unfold resume at hgo ⊢
  split at hgo
  · split at hgo <;> cases hgo
    trivial
  · split at hgo <;> cases hgo
    rename_i store hstore
    exact hs store (mem_previous hstore)
  · dsimp only at hgo ⊢
    split at hgo <;> cases hgo
    rename_i hready
    rw [if_neg hready]
    refine ⟨hat, Nat.le_refl _, fun _ => ?_⟩
    simp only [Bool.or_eq_true, not_or, Bool.not_eq_true] at hready
    exact hready.2
  · split at hgo <;> cases hgo
    · trivial
    · -- a waiter whose channel is open stays where it is
      dsimp only
      split
      · trivial
      · exact hat
  · cases hgo
  · split at hgo <;> cases hgo
    trivial
  · split at hgo <;> cases hgo
    trivial
  · split at hgo <;> cases hgo
    trivial
  · cases hgo
    trivial

variable (range) in
theorem outline : Threads.Outline enter (resume range) Sound (At range) (fun _ _ => True)
    (fun _ _ => True) where
  enters := fun _ c => by cases c <;> trivial
  enters_apart := fun _ _ => trivial
  symm := fun _ _ _ => trivial
  keeps := fun s env pc hs _ => (effect_resume s env pc).sound hs
  goesOn := fun _ _ _ _ hs hat hgo => at_resume hs hat hgo
  returns := fun _ _ _ _ _ _ _ => trivial
  lasts := fun _ _ _ _ _ _ _ => trivial
  undisturbed := fun s env pc _ _ _ hother _ => hother.keeps (effect_resume s env pc).keeps
  apart := fun _ _ _ _ _ _ _ _ _ _ => trivial

end Steps

/-! ## Nobody sleeps on a complete segment -/

/-- A task before any call on it. -/
def new : System := { shared := {} }

/-- The assertions hold of the shared state and of all calls. -/
abbrev Asserted : System → Prop := Meets Sound (At range) (fun _ _ => True) (fun _ _ => True)

theorem asserted_new : Asserted range new :=
  Meets.init fun _ h => (nomatch h)

variable {range}

/-- The waiter `tid` sleeps on a channel that is open. -/
def Asleep (T : System) (tid : Nat) (q : Query) (store : Nat) : Prop :=
  T.pcs tid = some (.select q store (T.shared.cells store).updated)

/-- **No lost update.** However the calls interleave, a waiter that sleeps on an open channel would find its
segment incomplete if it rendered the store now. -/
theorem asleep_incomplete {acts : List Label} {T : System} (hrun : Lib.run (step range) new acts = some T)
    {tid store : Nat} {q : Query} (hasleep : Asleep T tid q store) :
    (rendering range q (T.shared.cells store).store).2 = false := by
  have hmeets := (outline range).run (asserted_new range) hrun
  exact (hmeets.pcs tid _ hasleep).2.2 rfl

/-- A file of one minute in segments of six seconds. -/
def minute : Int → Nat × Nat := Task.subtitleRange
  { segmentSeconds := 6, durationNS := 60000000000, audioTracks := [],
    segmentSeconds_pos := Int.succ_ofNat_pos 5 }

/-- Track 2 gets a store, and thread 1 waits for the first segment. -/
def fallAsleep : List Label :=
  [.call 0 (.setSubtitleStores [2]), .resume 0 {}, .resume 0 {}, .call 1 (.waitSubtitleVTT ⟨2, 0⟩ 5),
    .resume 1 {}, .resume 1 {}, .resume 1 {}]

theorem asleep_incomplete_fallAsleep :
    ∃ T, Lib.run (step minute) new fallAsleep = some T ∧ Asleep T 1 ⟨2, 0⟩ 0 ∧
      (rendering minute ⟨2, 0⟩ (T.shared.cells 0).store).2 = false := by
  obtain ⟨T, hrun⟩ : ∃ T, Lib.run (step minute) new fallAsleep = some T := ⟨_, rfl⟩
  have hasleep : Asleep T 1 ⟨2, 0⟩ 0 := by
    rw [← Option.some.inj hrun]
    rfl
  exact ⟨T, hrun, hasleep, asleep_incomplete hrun hasleep⟩

/-! ## Who wakes the waiters of a store that is taken away -/

/-- The call still has to notify the store. -/
def Notifies (store : Nat) : Pc → Prop
  | .notify stores => store ∈ stores
  | _ => False

/-- The channel is closed, the store is the one of its track, or some call still has to notify it. -/
def Covered (q : Query) (store updated : Nat) : System → Prop :=
  Due (fun s => updated < (s.cells store).updated ∨ s.subtitleStore q.trackIndex = some store) (Notifies store)

/-- All waiters that sleep are covered. -/
def AllCovered (T : System) : Prop :=
  ∀ tid q store updated, T.pcs tid = some (.select q store updated) → Covered q store updated T

variable (range) in
/-- The step is that of a waiter which goes to sleep on a store that was replaced and notified since it looked
it up (`not_covered_iff`). -/
def Late (T : System) : Label → Prop
  | .call _ _ => False
  | .resume tid _ => ∃ q store, T.pcs tid = some (.render q false store) ∧
      (rendering range q (T.shared.cells store).store).2 = false ∧
      ¬ Covered q store (T.shared.cells store).updated T

section Cover

variable {s : Shared} {env : Env} {pc : Pc} {q : Query} {store updated : Nat}

/-- What is left to notify after one of them. -/
theorem mem_eraseIdx_or {l : List Nat} {i store' : Nat} (hget : l[i]? = some store') (h : store ∈ l) :
    store = store' ∨ store ∈ l.eraseIdx i := by
  by_cases heq : store = store'
  · exact .inl heq
  · right
    obtain ⟨j, hj⟩ := List.getElem?_of_mem h
    refine List.mem_eraseIdx_iff_getElem?.2 ⟨j, ?_, hj⟩
    rintro rfl
    exact heq (Option.some.inj (hj.symm.trans hget))

/-- A step other than a swap leaves the map as it is, and a swap has to notify what it takes away. -/
theorem Effect.subtitleStore {out : Shared × Next Pc Answer} (heffect : Effect s out) {index : Int}
    (h : s.subtitleStore index = some store) :
    out.1.subtitleStore index = some store ∨ ∃ pc', out.2 = .goOn pc' ∧ Notifies store pc' := by
  cases heffect with
  | same => exact .inl h
  | modify => exact .inl h
  | swap tracks => exact .inr ⟨_, rfl, mem_previous h⟩
  | dispose => exact .inl h
  | release => exact .inr ⟨_, rfl, mem_previous h⟩

/-- A call that has to notify a store does it, or has to do it still. -/
theorem notifies_resume (hle : updated ≤ (s.cells store).updated) (h : Notifies store pc) :
    updated < ((resume range s env pc).1.cells store).updated ∨
      ∃ pc', (resume range s env pc).2 = .goOn pc' ∧ Notifies store pc' := by
  cases pc with
  | notify stores =>
    have hmem : store ∈ stores := h
    have hlt := Nat.mod_lt env.key (List.length_pos_of_mem hmem)
    have hget := List.getElem?_eq_getElem hlt
    simp only [resume, hget]
    rcases mem_eraseIdx_or hget hmem with heq | hrest
    · left
      show updated < (Function.update s.cells _ _ store).updated
      rw [← heq, Function.update_self]
      exact Nat.lt_succ_of_le hle
    · exact .inr ⟨_, rfl, hrest⟩
  | load | lookup | render | select | update | swap | compareAndSwap | release => cases h

/-- The store was made, and so was the channel with this number. -/
def Made (store updated : Nat) (s : Shared) : Prop := store < s.made ∧ updated ≤ (s.cells store).updated

theorem Made.keeps {s' : Shared} (h : Made store updated s) (hkeeps : Keeps s s') : Made store updated s' := by
  refine ⟨Nat.lt_of_lt_of_le h.1 hkeeps.1, ?_⟩
  rcases hkeeps.2 store h.1 with heq | hlt
  · rw [heq]
    exact h.2
  · exact Nat.le_of_lt (Nat.lt_of_le_of_lt h.2 hlt)

theorem meets_made {T : System} (h : Made store updated T.shared) :
    Meets (Made store updated) (fun _ _ => True) (fun _ _ => True) (fun _ _ => True) T :=
  ⟨h, fun _ _ _ => trivial, fun _ _ _ _ _ _ _ => trivial, fun _ _ => trivial⟩

variable (range) in
theorem outline_made (store updated : Nat) : Threads.Outline enter (resume range) (Made store updated)
    (fun _ _ => True) (fun _ _ => True) (fun _ _ => True) where
  enters := fun _ _ => trivial
  enters_apart := fun _ _ => trivial
  symm := fun _ _ _ => trivial
  keeps := fun s env pc hs _ => hs.keeps (effect_resume s env pc).keeps
  goesOn := fun _ _ _ _ _ _ _ => trivial
  returns := fun _ _ _ _ _ _ _ => trivial
  lasts := fun _ _ _ _ _ _ _ => trivial
  undisturbed := fun _ _ _ _ _ _ _ _ => trivial
  apart := fun _ _ _ _ _ _ _ _ _ _ => trivial

/-- No step of any call uncovers a waiter. -/
theorem due_resume (hs : Made store updated s) (hdue : (updated < (s.cells store).updated ∨
      s.subtitleStore q.trackIndex = some store) ∨ Notifies store pc) :
    (updated < ((resume range s env pc).1.cells store).updated ∨
        (resume range s env pc).1.subtitleStore q.trackIndex = some store) ∨
      ∃ pc', (resume range s env pc).2 = .goOn pc' ∧ Notifies store pc' := by
  rcases hdue with (hclosed | hcurrent) | hnotifies
  · left; left
    rcases (effect_resume s env pc).keeps.2 store hs.1 with heq | hlt
    · rw [heq]
      exact hclosed
    · exact Nat.lt_trans hclosed hlt
  · exact ((effect_resume s env pc).subtitleStore hcurrent).imp .inr id
  · exact (notifies_resume hs.2 hnotifies).imp .inl id

theorem Covered.step {T T' : System} {a : Label} (hmade : Made store updated T.shared)
    (hstep : step range T a = some T') (h : Covered q store updated T) : Covered q store updated T' :=
  Due.step (fun _ _ _ hs _ => due_resume hs) (meets_made hmade) hstep h

/-- **What late means**: since the waiter looked the store up, the store was replaced, and it was notified by
all who had to. -/
theorem not_covered_iff {T₁ T : System} {acts : List Label} (hT₁ : Asserted range T₁)
    (hlookup : T₁.shared.subtitleStore q.trackIndex = some store)
    (hrun : Lib.run (step range) T₁ acts = some T) :
    ¬ Covered q store (T.shared.cells store).updated T ↔
      T.shared.subtitleStore q.trackIndex ≠ some store ∧
        (T₁.shared.cells store).updated < (T.shared.cells store).updated ∧
        ∀ tid pc, T.pcs tid = some pc → ¬ Notifies store pc := by
  constructor
  · intro h
    have hmade : Made store (T₁.shared.cells store).updated T₁.shared :=
      ⟨hT₁.shared store (mem_previous hlookup), Nat.le_refl _⟩
    have hcovered : Covered q store (T₁.shared.cells store).updated T :=
      Due.run (outline_made range _ _) (fun _ _ _ hs _ => due_resume hs) (meets_made hmade)
        (.inl (.inr hlookup)) hrun
    refine ⟨fun hcurrent => h (.inl (.inr hcurrent)), ?_, fun tid pc hpc hnotifies =>
      h (.inr ⟨tid, pc, hpc, hnotifies⟩)⟩
    rcases hcovered with (hlt | hcurrent) | hnotifies
    · exact hlt
    · exact absurd (.inl (.inr hcurrent)) h
    · exact absurd (.inr hnotifies) h
  · rintro ⟨hother, -, hnone⟩ ((hlt | hcurrent) | ⟨tid, pc, hpc, hnotifies⟩)
    · exact Nat.lt_irrefl _ hlt
    · exact hother hcurrent
    · exact hnone tid pc hpc hnotifies

/-- Only a waiter that renders an incomplete segment goes to sleep. -/
theorem select_of_resume (hgo : (resume range s env pc).2 = .goOn (.select q store updated)) :
    pc = .select q store updated ∨ pc = .render q false store ∧ updated = (s.cells store).updated ∧
      (rendering range q (s.cells store).store).2 = false := by
  unfold resume at hgo
  split at hgo
  · split at hgo <;> cases hgo
  · split at hgo <;> cases hgo
  · rename_i last _
    dsimp only at hgo
    split at hgo <;> cases hgo
    rename_i hready
    simp only [Bool.or_eq_true, not_or, Bool.not_eq_true] at hready
    exact .inr ⟨by rw [hready.1], rfl, hready.2⟩
  · split at hgo
    · cases hgo
    · cases hgo
    · have hgo := Next.goOn.inj hgo
      split at hgo
      · cases hgo
      · exact .inl hgo
  · cases hgo
  · split at hgo <;> cases hgo
  · split at hgo <;> cases hgo
  · split at hgo <;> cases hgo
  · cases hgo

/-- A waiter that goes to sleep changes nothing for whom it is covered by. -/
theorem covered_settle {T : System} {tid : Nat} (hpc : T.pcs tid = some (.render q false store))
    {next : Next Pc Answer} (hnext : ∀ pc', next = .goOn pc' → ¬ Notifies store pc') :
    Covered q store updated (T.settle tid (T.shared, next)) ↔ Covered q store updated T := by
  refine or_congr_right ⟨?_, ?_⟩
  · rintro ⟨t, pc, hother, hnotifies⟩
    rcases Threads.pcs_settle hother with ⟨-, hgo⟩ | ⟨-, hold⟩
    · exact absurd hnotifies (hnext pc hgo)
    · exact ⟨t, pc, hold, hnotifies⟩
  · rintro ⟨t, pc, hother, hnotifies⟩
    refine ⟨t, pc, (Threads.pcs_settle_of_ne _ ?_).trans hother, hnotifies⟩
    rintro rfl
    cases hpc.symm.trans hother
    exact hnotifies

theorem resume_render (hready : (rendering range q (s.cells store).store).2 = false) :
    resume range s env (.render q false store) = (s, .goOn (.select q store (s.cells store).updated)) := by
  simp only [resume, hready, Bool.or_self, Bool.false_eq_true, if_false]

/-- Waiters stay covered in exactly the steps that are not late. -/
theorem allCovered_step {T T' : System} {a : Label}
    (hT : Asserted range T) (hcovered : AllCovered T)
    (hstep : step range T a = some T') : AllCovered T' ↔ ¬ Late range T a := by
  constructor
  · intro hall hlate
    cases a with
    | call tid c => exact hlate
    | resume tid env =>
      obtain ⟨q, store, hpc, hready, huncovered⟩ := hlate
      obtain ⟨pc, hpc', rfl⟩ := Option.map_eq_some_iff.1 hstep
      cases hpc.symm.trans hpc'
      rw [resume_render hready] at hall
      refine huncovered ((covered_settle hpc ?_).1 (hall tid q store _ (if_pos rfl)))
      rintro pc' heq hnotifies
      cases heq
      exact hnotifies
  · intro hlate tid q store updated hpc
    -- a waiter that slept before stays covered; a new one is covered as the step was not late
    by_cases hold : ∃ t, T.pcs t = some (.select q store updated)
    · obtain ⟨t, ht⟩ := hold
      obtain ⟨hmade, hle, -⟩ := hT.pcs t _ ht
      exact (hcovered t q store updated ht).step ⟨hmade, hle⟩ hstep
    · have hnew : ∀ t, T.pcs t ≠ some (.select q store updated) := fun t ht => hold ⟨t, ht⟩
      cases a with
      | call t c =>
        simp only [step, Threads.step] at hstep
        split at hstep
        · cases hstep
          rcases Threads.pcs_settle hpc with ⟨-, hgo⟩ | ⟨-, hbefore⟩
          · cases c <;> cases hgo
          · exact absurd hbefore (hnew tid)
        · cases hstep
      | resume t env =>
        obtain ⟨pc, hpc', rfl⟩ := Option.map_eq_some_iff.1 hstep
        rcases Threads.pcs_settle hpc with ⟨-, hgo⟩ | ⟨-, hbefore⟩
        · rcases select_of_resume hgo with rfl | ⟨rfl, rfl, hready⟩
          · exact absurd hpc' (hnew t)
          · rw [resume_render hready]
            refine (covered_settle hpc' ?_).2 ?_
            · rintro pc' heq hnotifies
              cases heq
              exact hnotifies
            · by_contra huncovered
              exact hlate ⟨q, store, hpc', hready, huncovered⟩
        · exact absurd hbefore (hnew tid)

end Cover

/-- **The exact race.** Along a run every sleeping waiter has an open channel only of a store that is still the
one of its track or that some call still has to notify, exactly if no waiter goes to sleep on a store that was
replaced and notified between its two locks. -/
theorem covered_iff_not_late {acts : List Label} {T : System} (hrun : Lib.run (step range) new acts = some T) :
    Along (step range) AllCovered new acts ↔ Each (step range) (fun T a => ¬ Late range T a) new acts := by
  refine Lib.along_iff_each (fun _ _ _ hT hstep => (outline range).step hT hstep)
    (fun _ _ _ hT hcovered hstep => allCovered_step hT hcovered hstep) (asserted_new range) ?_ hrun
  exact fun _ _ _ _ h => (nomatch h)

/-- Thread 1 looks up the store of track 2; thread 0 then takes it away and notifies it; thread 1 renders it. -/
def lostWakeUp : List Label :=
  [.call 0 (.setSubtitleStores [2]), .resume 0 {}, .resume 0 {}, .call 1 (.waitSubtitleVTT ⟨2, 0⟩ 5),
    .resume 1 {}, .resume 1 {}, .call 0 (.setSubtitleStores []), .resume 0 {}, .resume 0 {},
    .resume 0 {}, .resume 1 {}]

theorem lostWakeUp_late :
    ∃ T, Lib.run (step minute) new lostWakeUp = some T ∧ Asleep T 1 ⟨2, 0⟩ 0 ∧ (∀ tid ≠ 1, T.pcs tid = none) ∧
      T.shared.subtitleStores = [] ∧
      ¬ Each (step minute) (fun T a => ¬ Late minute T a) new lostWakeUp := by
  obtain ⟨T, hrun⟩ : ∃ T, Lib.run (step minute) new lostWakeUp = some T := ⟨_, rfl⟩
  have hT := Option.some.inj hrun
  have hasleep : Asleep T 1 ⟨2, 0⟩ 0 := by
    rw [← hT]
    rfl
  have hidle : ∀ tid ≠ 1, T.pcs tid = none := by
    intro tid htid
    rw [← hT]
    by_cases h : tid = 0
    · rw [h]
      rfl
    · simp [Threads.settle, htid, h, new]
  have hnone : T.shared.subtitleStores = [] := by
    rw [← hT]
    rfl
  refine ⟨T, hrun, hasleep, hidle, hnone, fun hnot => ?_⟩
  -- nobody covers the waiter any more
  rcases ((covered_iff_not_late hrun).2 hnot).last hrun 1 _ _ _ hasleep with (hlt | hcurrent)
    | ⟨tid, pc, hpc, hnotifies⟩
  · exact Nat.lt_irrefl _ hlt
  · rw [Shared.subtitleStore, hnone] at hcurrent
    cases hcurrent
  · by_cases htid : tid = 1
    · subst htid
      cases hpc.symm.trans hasleep
      exact hnotifies
    · rw [hidle tid htid] at hpc
      cases hpc

end TorrServer.Gstreamer.SubtitleWait
