/-
# Settings.Viewed — viewed marks across storage switches and restarts.

Per torrent hash there is one entry under `Viewed`, a JSON map from file index to timecode. `SetViewed` and
`RemViewed` read the entry through the read cache, change the map and write it back. `SwitchViewedStorage`
copies all entries to the other store, clears the one they came from and sets the preference, but the router and
the read cache of the running process still point at the cleared store; a restart migrates what is left there
and routes to the preferred store. Nothing is lost if no mark is set or removed in between
(`marks_after_restart`).

The preference is taken as persisted, as the hashes are taken as non-empty and the timecodes as numbers JSON can
print.
-/
import TorrServer.Settings.Migrate
import TorrServer.Lib.Runs
import TorrServer.Lib.Sort
import Mathlib.Data.List.AList

namespace TorrServer.Settings

open Lib (Bytes)

/-! ## Marks -/

/-- A `map[int]float64`. -/
abbrev Marks (T : Type) := AList fun _ : Int => T

/-- The JSON texts of marks: `json.Marshal`, `json.Unmarshal` into a `map[int]float64` and a `map[int]struct{}`,
each with what it filled in and whether it succeeded; and the zero timecode. -/
structure ViewedTexts (J T : Type) extends Texts J where
  marshal : Marks T → Bytes
  unmarshal : Bytes → Marks T × Bool
  unmarshalOld : Bytes → List Int × Bool
  zero : T

/-- Assumed: the empty text reads as nothing, printed marks are JSON, and a text of the same value reads as the
same marks. -/
structure ViewedTexts.Faithful {J T : Type} (E : ViewedTexts J T) : Prop extends
    E.toTexts.Faithful where
  unmarshal_nil : E.unmarshal [] = (∅, false)
  unmarshalOld_nil : (E.unmarshalOld []).2 = false
  marshal_json : ∀ m, SameJson E.toTexts (E.marshal m) (E.marshal m)
  unmarshal_marshal : ∀ m b, SameJson E.toTexts b (E.marshal m) →
    (E.unmarshal b).2 = true ∧ ∀ i, (E.unmarshal b).1.lookup i = m.lookup i

/-- `readIndexes`; `nil` is the empty text. -/
def readIndexes {J T : Type} (E : ViewedTexts J T) (buf : Option Bytes) : Marks T :=
  let m := E.unmarshal (buf.getD [])
  if m.2 then m.1
  else
    let old := E.unmarshalOld (buf.getD [])
    if old.2 then old.1.foldl (fun m k => m.insert k E.zero) m.1 else m.1

/-! ## The process and the two stores -/

/-- The entries of a store under `Viewed`, as `Set` stored them. -/
abbrev Entries (H : Type) := AList fun _ : H => Bytes

/-- The two stores, the preference, the route and the read cache of the process, whether it has just started,
and the plain map of the same calls. -/
structure ViewedState (H T : Type) where
  json : Entries H
  bbolt : Entries H
  preferred : Backend
  routed : Option Backend
  cache : H → Option (Option Bytes)
  justStarted : Bool
  plain : H → Int → Option T

/-- The calls.  `track` is the setting `TrackTimecode` at the time of the call. -/
inductive ViewedAct (H T : Type)
  | set (hash : H) (index : Int) (timecode : T) (track : Bool)
  | rem (hash : H) (index : Int)
  | switch (useJson : Bool)
  | restart

namespace ViewedState

variable {H J T : Type} (s : ViewedState H T) (k : Backend) (e : Entries H)

/-- Empty stores and no process; without settings the preference is BBolt. -/
def init : ViewedState H T :=
  { json := ∅, bbolt := ∅, preferred := .bbolt, routed := none, cache := fun _ => none
    justStarted := false, plain := fun _ _ => none }

/-- The entries of a store. -/
def entries : Backend → Entries H
  | .json => s.json
  | .bbolt => s.bbolt

/-- Replace the entries of a store. -/
def setEntries : ViewedState H T :=
  match k with
  | .json => { s with json := e }
  | .bbolt => { s with bbolt := e }

@[simp] theorem entries_setEntries_self :
    (s.setEntries k e).entries k = e := by
  cases k <;> rfl

@[simp] theorem setEntries_preferred :
    (s.setEntries k e).preferred = s.preferred := by
  cases k <;> rfl

@[simp] theorem setEntries_cache :
    (s.setEntries k e).cache = s.cache := by
  cases k <;> rfl

@[simp] theorem setEntries_plain :
    (s.setEntries k e).plain = s.plain := by
  cases k <;> rfl

variable [DecidableEq H] (E : ViewedTexts J T) (s : ViewedState H T)

/-- What `tdb.Get` answers in a process that uses store `k`. -/
def cachedGet (k : Backend) (h : H) : Option Bytes :=
  (s.cache h).getD (((s.entries k).lookup h).map (E.stored k))

/-- Put an entry into the read cache, or take it out. -/
def setCache (h : H) (e : Option (Option Bytes)) : ViewedState H T :=
  { s with cache := fun g => if g = h then e else s.cache g }

/-- `tdb.Set`. -/
def tdbSet (k : Backend) (h : H) (v : Bytes) : ViewedState H T :=
  (s.setCache h (some (some v))).setEntries k ((s.entries k).insert h v)

/-- `tdb.Rem`. -/
def tdbRem (k : Backend) (h : H) : ViewedState H T :=
  (s.setCache h none).setEntries k ((s.entries k).erase h)

/-- `SetViewed`; `Get` leaves its answer in the cache, where `Set` then puts the new text. -/
def setViewed (k : Backend) (h : H) (i : Int) (timecode : T) (track : Bool) : ViewedState H T :=
  let val := if track then timecode else E.zero
  let m := readIndexes E (s.cachedGet E k h)
  s.tdbSet k h (E.marshal (m.insert i val))

/-- `RemViewed`; the index `-1` stands for the whole torrent. -/
def remViewed (k : Backend) (h : H) (i : Int) : ViewedState H T :=
  let m := readIndexes E (s.cachedGet E k h)
  if i ≠ -1 then s.tdbSet k h (E.marshal (m.erase i)) else s.tdbRem k h

/-- `ListViewed` of one hash, in a process that uses store `k`. -/
def listViewed (k : Backend) (h : H) : List (Int × T) :=
  let buf := s.cachedGet E k h
  if (buf.getD []).length = 0 then []
  else (readIndexes E buf).entries.map fun e => (e.1, e.2)

/-- The plain map under the same calls. -/
def plainSet (plain : H → Int → Option T) (h : H) (i : Int) (v : Option T) : H → Int → Option T :=
  fun g j => if g = h ∧ j = i then v else plain g j

/-- The plain map without a hash. -/
def plainRem (plain : H → Int → Option T) (h : H) : H → Int → Option T :=
  fun g j => if g = h then none else plain g j

section

variable [DecidableEq J] (s : ViewedState H T)

/-- One round of `MigrateAll`: the target, the number of migrated entries and whether there was an error. -/
def migrateOne (src dst : Backend) (source : Entries H) (acc : Entries H × Nat × Bool) (name : H) :
    Entries H × Nat × Bool :=
  let r := migrateSingle E.toTexts src dst (source.lookup name) (acc.1.lookup name)
  (match r.1 with
    | some v => acc.1.insert name v
    | none => acc.1, acc.2.1 + (if r.2.1 then 1 else 0), acc.2.2 || r.2.2)

/-- Every entry in turn: the target, how many were migrated, and whether one failed. -/
def migrateAll (src dst : Backend) (source target : Entries H) : Entries H × Nat × Bool :=
  source.keys.foldl (migrateOne E src dst source) (target, 0, false)

/-- `safeMigrateAll` into store `dst`, with `clearSource`. -/
def safeMigrateAll (dst : Backend) : ViewedState H T :=
  let source := s.entries dst.other
  let r := migrateAll E dst.other dst source (s.entries dst)
  let s := s.setEntries dst r.1
  if r.2.1 > 0 ∧ r.2.1 ≥ source.keys.length then s.setEntries dst.other ∅ else s

/-- `SwitchViewedStorage`; `none` if the migration reports an error. -/
def switchViewedStorage (useJson : Bool) : Option (ViewedState H T) :=
  let dst := Backend.ofFlag useJson
  let r := migrateAll E dst.other dst (s.entries dst.other) (s.entries dst)
  if r.2.2 then none
  else some { (s.setEntries dst r.1).setEntries dst.other ∅ with preferred := dst }

/-- The viewed half of `InitSets`. -/
def initSets : ViewedState H T :=
  { s.safeMigrateAll E s.preferred with routed := some s.preferred, cache := fun _ => none }

/-- One call; before the first start there is no process to call. -/
def step : ViewedAct H T → Option (ViewedState H T)
  | .set h i timecode track =>
    s.routed.map fun k =>
      { s.setViewed E k h i timecode track with
        justStarted := false
        plain := plainSet s.plain h i (some (if track then timecode else E.zero)) }
  | .rem h i =>
    s.routed.map fun k =>
      { s.remViewed E k h i with
        justStarted := false
        plain := if i ≠ -1 then plainSet s.plain h i none else plainRem s.plain h }
  | .switch useJson =>
    s.routed.bind fun _ =>
      (s.switchViewedStorage E useJson).map fun s => { s with justStarted := false }
  | .restart => some { s.initSets E with justStarted := true }

end

/-! ## What an entry says -/

/-- The stored text reads as the marks `p`; no text reads as no marks. -/
def Reads (p : Int → Option T) : Option Bytes → Prop
  | none => ∀ i, p i = none
  | some v => ∃ m : Marks T, SameJson E.toTexts v (E.marshal m) ∧ ∀ i, m.lookup i = p i

variable {E}

theorem reads_marshal (hE : E.Faithful) {p : Int → Option T} {m : Marks T}
    (h : ∀ i, m.lookup i = p i) : Reads E p (some (E.marshal m)) :=
  ⟨m, hE.marshal_json m, h⟩

theorem Reads.stored (hE : E.Faithful) {p : Int → Option T} {e : Option Bytes} (h : Reads E p e)
    (k : Backend) : Reads E p (e.map (E.stored k)) := by
  cases e with
  | none => exact h
  | some v =>
    obtain ⟨m, hv, hm⟩ := h
    exact ⟨m, (sameJson_stored hE.toFaithful k hv.refl_left).trans hv, hm⟩

/-- `readIndexes` gives back the marks a text reads as. -/
theorem Reads.lookup (hE : E.Faithful) {p : Int → Option T} {e : Option Bytes} (h : Reads E p e)
    (i : Int) : (readIndexes E e).lookup i = p i := by
  cases e with
  | none =>
    have hi : p i = none := h i
    simp [readIndexes, hE.unmarshal_nil, hE.unmarshalOld_nil, hi]
  | some v =>
    obtain ⟨m, hv, hm⟩ := h
    obtain ⟨hok, hread⟩ := hE.unmarshal_marshal m v hv
    simp [readIndexes, hok, hread, hm]

/-! ## Migration -/

section

variable [DecidableEq J]

/-- One round of `MigrateAll` changes the entry it is about. -/
theorem lookup_migrateOne (src dst : Backend) (source : Entries H) (acc : Entries H × Nat × Bool)
    (name h : H) :
    (migrateOne E src dst source acc name).1.lookup h =
      if h = name then
        (migrateSingle E.toTexts src dst (source.lookup h) (acc.1.lookup h)).1
      else acc.1.lookup h := by
  by_cases hh : h = name
  · subst hh
    rw [if_pos rfl]
    unfold migrateOne
    dsimp only
    split
    · rename_i v hv
      rw [AList.lookup_insert, hv]
    · rename_i hv
      -- a round never takes an entry away, so there was none
      rw [hv]
      revert hv
      cases source.lookup h with
      | none => simp
      | some v =>
        cases acc.1.lookup h with
        | none => simp
        | some w =>
          by_cases heq : isByteArraysEqualJson E.toTexts (E.stored src v) (E.stored dst w)
              = some true
          · simp [migrateSingle_of_equal heq]
          · simp [migrateSingle_of_not_equal heq]
  · rw [if_neg hh]
    unfold migrateOne
    dsimp only
    split
    · exact AList.lookup_insert_ne hh
    · rfl

/-- **`MigrateAll`, entry by entry**: each becomes what its own migration makes of it. -/
theorem lookup_migrateAll (src dst : Backend) (source target : Entries H) (h : H) :
    (migrateAll E src dst source target).1.lookup h =
      (migrateSingle E.toTexts src dst (source.lookup h) (target.lookup h)).1 := by
  -- the names are distinct, so the round for `h` finds the target's own entry
  have hfold : ∀ (names : List H) (acc : Entries H × Nat × Bool), names.Nodup →
      (names.foldl (migrateOne E src dst source) acc).1.lookup h =
        if h ∈ names then (migrateSingle E.toTexts src dst (source.lookup h) (acc.1.lookup h)).1
        else acc.1.lookup h := by
    intro names
    induction names with
    | nil => intro acc _; rfl
    | cons name names ih =>
      intro acc hnodup
      obtain ⟨hname, hnames⟩ := List.nodup_cons.mp hnodup
      rw [List.foldl_cons, ih _ hnames, lookup_migrateOne]
      by_cases hh : h = name
      · subst hh
        simp [hname]
      · simp [hh]
  unfold migrateAll
  rw [hfold _ _ source.keys_nodup]
  split
  · rfl
  · rename_i hmem
    rw [AList.lookup_eq_none.mpr hmem, migrateSingle_none]

theorem migrateAll_empty (src dst : Backend) (target : Entries H) :
    migrateAll E src dst ∅ target = (target, 0, false) := rfl

/-- Nothing is left to migrate at a start when the other store is empty. -/
theorem safeMigrateAll_of_empty (s : ViewedState H T) {dst : Backend}
    (h : s.entries dst.other = ∅) : s.safeMigrateAll E dst = s := by
  unfold safeMigrateAll
  dsimp only
  rw [h, migrateAll_empty, if_neg (by simp)]
  cases dst <;> rfl

end

/-! ## The invariant -/

/-- No mark is set or removed between a switch to the other store and the next restart. -/
def Settled (s : ViewedState H T) : ViewedAct H T → Prop
  | .set .. | .rem .. => s.routed = some s.preferred
  | .switch _ | .restart => True

/-- Right after a restart `ListViewed` lists the marks of the plain map, each once. -/
def ListsPlain (E : ViewedTexts J T) (s : ViewedState H T) : Prop :=
  s.justStarted = true → ∃ k, s.routed = some k ∧ ∀ h,
    (s.listViewed E k h).Nodup ∧
    ∀ i timecode, (i, timecode) ∈ s.listViewed E k h ↔ s.plain h i = some timecode

/-- The preferred store has every mark, the other one none, and what is cached is right. -/
structure Inv (E : ViewedTexts J T) (s : ViewedState H T) : Prop where
  other : s.entries s.preferred.other = ∅
  stored : ∀ h, Reads E (s.plain h) ((s.entries s.preferred).lookup h)
  cached : ∀ h e, s.cache h = some e → Reads E (s.plain h) e
  started : s.justStarted = true → s.routed = some s.preferred

theorem Inv.init : Inv E (init : ViewedState H T) where
  other := rfl
  stored := fun _ _ => rfl
  cached := fun _ _ h => by cases h
  started := fun h => by cases h

/-- In a process that uses the preferred store, `tdb.Get` reads as the marks of the plain map. -/
theorem Inv.reads_cachedGet (hE : E.Faithful) {s : ViewedState H T} (hI : Inv E s) (h : H) :
    Reads E (s.plain h) (s.cachedGet E s.preferred h) := by
  unfold cachedGet
  cases hc : s.cache h with
  | none => exact (hI.stored h).stored hE s.preferred
  | some e => exact hI.cached h e hc

theorem Inv.write {s : ViewedState H T} (hI : Inv E s) {h : H} {c : Option (Option Bytes)}
    {e : Entries H} {plain : H → Int → Option T}
    (hplain : ∀ g, g ≠ h → plain g = s.plain g)
    (hlookup : ∀ g, g ≠ h → e.lookup g = (s.entries s.preferred).lookup g)
    (hstored : Reads E (plain h) (e.lookup h))
    (hcached : ∀ d, c = some d → Reads E (plain h) d) :
    Inv E { (s.setCache h c).setEntries s.preferred e with
      justStarted := false, plain := plain } where
  other := by
    have hother := hI.other
    cases hp : s.preferred <;> simpa [hp, Backend.other, entries, setEntries, setCache] using hother
  stored := by
    intro g
    have hentries : ViewedState.entries { (s.setCache h c).setEntries s.preferred e with
        justStarted := false, plain := plain } s.preferred = e := by
      cases s.preferred <;> rfl
    show Reads E (plain g) _
    rw [setEntries_preferred]
    show Reads E (plain g) (AList.lookup g (ViewedState.entries _ s.preferred))
    rw [hentries]
    by_cases hg : g = h
    · subst hg; exact hstored
    · rw [hplain g hg, hlookup g hg]
      exact hI.stored g
  cached := by
    intro g d hd
    show Reads E (plain g) d
    rw [setEntries_cache] at hd
    simp only [setCache] at hd
    split at hd
    · rename_i hg
      subst hg
      exact hcached d hd
    · rename_i hg
      rw [hplain g hg]
      exact hI.cached g d hd
  started := fun hj => by cases hj

theorem Inv.tdbSet {s : ViewedState H T} (hI : Inv E s) {h : H} {v : Bytes}
    {plain : H → Int → Option T} (hplain : ∀ g, g ≠ h → plain g = s.plain g)
    (hv : Reads E (plain h) (some v)) :
    Inv E { s.tdbSet s.preferred h v with justStarted := false, plain := plain } := by
  refine hI.write hplain (fun g hg => AList.lookup_insert_ne hg) ?_ ?_
  · rw [AList.lookup_insert]
    exact hv
  · rintro d ⟨⟩
    exact hv

theorem Inv.tdbRem {s : ViewedState H T} (hI : Inv E s) {h : H} {plain : H → Int → Option T}
    (hplain : ∀ g, g ≠ h → plain g = s.plain g) (hh : ∀ i, plain h i = none) :
    Inv E { s.tdbRem s.preferred h with justStarted := false, plain := plain } := by
  refine hI.write hplain (fun g hg => AList.lookup_erase_ne hg) ?_ ?_
  · rw [AList.lookup_erase]
    exact hh
  · rintro d ⟨⟩

theorem Inv.setViewed (hE : E.Faithful) {s : ViewedState H T} (hI : Inv E s) (h : H) (i : Int)
    (timecode : T) (track : Bool) :
    Inv E { s.setViewed E s.preferred h i timecode track with
      justStarted := false
      plain := plainSet s.plain h i (some (if track then timecode else E.zero)) } := by
  refine hI.tdbSet (fun g hg => ?_) (reads_marshal hE fun j => ?_)
  · funext j
    simp [plainSet, hg]
  · have hread := (hI.reads_cachedGet hE h).lookup hE j
    by_cases hj : j = i
    · subst hj
      simp [plainSet]
    · simp [plainSet, hj, AList.lookup_insert_ne hj, hread]

theorem Inv.remViewed (hE : E.Faithful) {s : ViewedState H T} (hI : Inv E s) (h : H) (i : Int) :
    Inv E { s.remViewed E s.preferred h i with
      justStarted := false
      plain := if i ≠ -1 then plainSet s.plain h i none else plainRem s.plain h } := by
  by_cases hi : i ≠ -1
  · simp only [ViewedState.remViewed, if_pos hi]
    refine hI.tdbSet (fun g hg => ?_) (reads_marshal hE fun j => ?_)
    · funext j
      simp [plainSet, hg]
    · have hread := (hI.reads_cachedGet hE h).lookup hE j
      by_cases hj : j = i
      · subst hj
        simp [plainSet]
      · simp [plainSet, hj, AList.lookup_erase_ne hj, hread]
  · simp only [ViewedState.remViewed, if_neg hi]
    refine hI.tdbRem (fun g hg => ?_) fun j => ?_
    · funext j
      simp [plainRem, hg]
    · simp [plainRem]

/-- Listing what reads as the marks `p`. -/
theorem mem_listViewed_iff (hE : E.Faithful) {s : ViewedState H T} {k : Backend} {h : H}
    {p : Int → Option T} (hp : Reads E p (s.cachedGet E k h)) (i : Int) (timecode : T) :
    (i, timecode) ∈ s.listViewed E k h ↔ p i = some timecode := by
  have hlookup := hp.lookup hE i
  unfold listViewed
  dsimp only
  split
  · rename_i hlen
    -- an empty text is no JSON, so there is no entry
    cases hg : s.cachedGet E k h with
    | none =>
      rw [hg] at hp
      have hi : p i = none := hp i
      simp [hi]
    | some v =>
      rw [hg] at hp hlen
      obtain ⟨m, hv, -⟩ := hp
      exact absurd (List.eq_nil_of_length_eq_zero hlen) (hv.ne_nil hE.toFaithful)
  · rw [← hlookup, List.mem_map]
    constructor
    · rintro ⟨⟨j, v⟩, hmem, heq⟩
      cases heq
      exact AList.mem_lookup_iff.mpr hmem
    · intro hmem
      exact ⟨⟨i, timecode⟩, AList.mem_lookup_iff.mp hmem, rfl⟩

theorem listViewed_nodup (s : ViewedState H T) (k : Backend) (h : H) : (s.listViewed E k h).Nodup := by
  unfold listViewed
  dsimp only
  split
  · exact List.nodup_nil
  · refine List.Nodup.map ?_ (readIndexes E _).nodupKeys.nodup
    rintro ⟨i, v⟩ ⟨j, w⟩ heq
    cases heq
    rfl

theorem Inv.listsPlain (hE : E.Faithful) {s : ViewedState H T} (hI : Inv E s) : ListsPlain E s := by
  intro hj
  refine ⟨s.preferred, hI.started hj, fun h => ⟨s.listViewed_nodup _ h, ?_⟩⟩
  exact mem_listViewed_iff hE (hI.reads_cachedGet hE h)

variable [DecidableEq J]

/-- `SwitchViewedStorage` into the other store, which takes a copy of everything, or into the preferred one,
which takes nothing. -/
theorem Inv.switch (hE : E.Faithful) {s s' : ViewedState H T} (hI : Inv E s) {useJson : Bool}
    (hs : s.switchViewedStorage E useJson = some s') :
    Inv E { s' with justStarted := false } := by
  unfold switchViewedStorage at hs
  generalize Backend.ofFlag useJson = dst at hs
  dsimp only at hs
  split at hs
  · cases hs
  · cases hs
    refine ⟨by cases dst <;> rfl, fun h => ?_, fun h e he => ?_, fun hj => by cases hj⟩
    · have hentries : ∀ t : Entries H, ViewedState.entries
          { (s.setEntries dst t).setEntries dst.other ∅ with
            preferred := dst, justStarted := false } dst = t := by
        cases dst <;> exact fun _ => rfl
      show Reads E (ViewedState.plain _ h) (AList.lookup h (ViewedState.entries _ dst))
      rw [hentries, lookup_migrateAll]
      simp only [setEntries_plain]
      have hstored := hI.stored h
      have hother := hI.other
      by_cases hdst : dst = s.preferred
      · rw [hdst, hother, AList.lookup_empty, migrateSingle_none]
        exact hstored
      · obtain rfl : dst = s.preferred.other := Backend.eq_other_of_ne hdst
        rw [hother, Backend.other_other, AList.lookup_empty]
        cases hv : (s.entries s.preferred).lookup h with
        | none =>
          rw [hv] at hstored
          exact hstored
        | some v =>
          rw [hv] at hstored
          rw [migrateSingle_target_none]
          exact hstored.stored hE s.preferred
    · simp only [setEntries_plain, setEntries_cache] at he ⊢
      exact hI.cached h e he

/-- A start: the other store is empty, so nothing is migrated. -/
theorem Inv.initSets {s : ViewedState H T} (hI : Inv E s) :
    Inv E { s.initSets E with justStarted := true } := by
  unfold ViewedState.initSets
  rw [safeMigrateAll_of_empty s hI.other]
  exact ⟨hI.other, hI.stored, fun h e he => (by cases he), fun _ => rfl⟩

theorem Inv.step (hE : E.Faithful) {s s' : ViewedState H T} {a : ViewedAct H T} (hI : Inv E s)
    (hok : Settled s a) (hs : s.step E a = some s') : Inv E s' := by
  cases a with
  | set h i timecode track =>
    obtain ⟨k, hk, rfl⟩ := Option.map_eq_some_iff.mp hs
    obtain rfl : k = s.preferred := Option.some_inj.mp (hk.symm.trans hok)
    exact hI.setViewed hE h i timecode track
  | rem h i =>
    obtain ⟨k, hk, rfl⟩ := Option.map_eq_some_iff.mp hs
    obtain rfl : k = s.preferred := Option.some_inj.mp (hk.symm.trans hok)
    exact hI.remViewed hE h i
  | switch useJson =>
    obtain ⟨k, -, hs⟩ := Option.bind_eq_some_iff.mp hs
    obtain ⟨t, ht, rfl⟩ := Option.map_eq_some_iff.mp hs
    exact hI.switch hE ht
  | restart =>
    cases hs
    exact hI.initSets

/-- **Marks survive switches and restarts.** If no mark changes between a switch to the other store and the next
restart, `ListViewed` right after a restart lists exactly the marks of the plain map. -/
theorem marks_after_restart (hE : E.Faithful) (calls : List (ViewedAct H T))
    (hok : Lib.Each (step E) Settled init calls) :
    Lib.Along (step E) (ListsPlain E) init calls := by
  have hinv : Lib.Along (step E) (Inv E) init calls :=
    hok.along (fun s a s' hI hok hs => hI.step hE hok hs) Inv.init
  exact hinv.mono fun s hI => hI.listsPlain hE

/-! ## Two histories -/

/-- A value in the JSON of a map from indices: a timecode, 0 or 1, or the empty object. -/
def valueText : Option Bool → Bytes
  | none => [123, 125]
  | some timecode => [if timecode then 49 else 48]

/-- Reading such a value. -/
def readValue : Bytes → Option (Option Bool)
  | [123, 125] => some none
  | [48] => some (some false)
  | [49] => some (some true)
  | _ => none

/-- One entry: the index in quotes, a colon and the value. -/
def entryText (e : Sigma fun _ : Int => Option Bool) : Bytes :=
  [34].intercalate [[], Lib.formatInt e.1, 58 :: valueText e.2]

/-- Reading an index. -/
def readIndex : Bytes → Int
  | 45 :: ds => -(Lib.decVal ds : Int)
  | ds => Lib.decVal ds

/-- Reading an entry. -/
def readEntry (b : Bytes) : Option (Sigma fun _ : Int => Option Bool) :=
  match b.splitOn 34 with
  | [[], index, 58 :: value] => (readValue value).map (⟨readIndex index, ·⟩)
  | _ => none

/-- The entries with other values. -/
def withValues {V W : Type} (f : V → W) (es : List (Sigma fun _ : Int => V)) : List (Sigma fun _ : Int => W) :=
  es.map (Sigma.map id fun _ => f)

/-- `encoding/json` orders the entries of a map by their keys as texts. -/
def inOrder (es : List (Sigma fun _ : Int => Option Bool)) : List (Sigma fun _ : Int => Option Bool) :=
  Lib.sortStable (fun d e => decide (Lib.formatInt d.1 < Lib.formatInt e.1)) es

/-- The JSON of a map, such as `{"1":0,"10":1}`. -/
def mapText (es : List (Sigma fun _ : Int => Option Bool)) : Bytes :=
  123 :: ([44].intercalate ((inOrder es).map entryText) ++ [125])

/-- Reading the JSON of a map. -/
def readMap (b : Bytes) : Option (List (Sigma fun _ : Int => Option Bool)) :=
  if b.head? = some 123 ∧ b.getLast? = some 125 then
    let body := b.tail.dropLast
    if body = [] then some [] else (body.splitOn 44).mapM readEntry
  else none

theorem readIndex_formatInt (i : Int) : readIndex (Lib.formatInt i) = i := by
  cases i with
  | ofNat n =>
    have hdigits := Lib.formatNat_digits n
    rw [Lib.formatInt, readIndex]
    · rw [Lib.decVal_formatNat]
      rfl
    · intro ds hds
      rw [hds] at hdigits
      exact absurd (hdigits 45 List.mem_cons_self) (by decide)
  | negSucc n =>
    rw [Lib.formatInt, readIndex, Lib.decVal_formatNat]
    rfl

theorem readEntry_entryText (e : Sigma fun _ : Int => Option Bool) : readEntry (entryText e) = some e := by
  obtain ⟨i, v⟩ := e
  have hvalue : ∀ v, 34 ∉ 58 :: valueText v ∧ readValue (valueText v) = some v := by decide
  have hquote : ∀ piece ∈ [[], Lib.formatInt i, 58 :: valueText v], 34 ∉ piece := by
    intro piece hpiece
    simp only [List.mem_cons, List.not_mem_nil, or_false] at hpiece
    rcases hpiece with rfl | rfl | rfl
    · exact List.not_mem_nil
    · intro h
      rcases Lib.formatInt_bytes i 34 h with h | h <;> cases h
    · exact (hvalue v).1
  rw [readEntry, entryText, List.splitOn_intercalate 34 hquote (by simp)]
  show (readValue (valueText v)).map _ = _
  rw [readIndex_formatInt, (hvalue v).2]
  rfl

theorem mapM_readEntry (es : List (Sigma fun _ : Int => Option Bool)) :
    (es.map entryText).mapM readEntry = some es := by
  induction es with
  | nil => rfl
  | cons e es ih => simp [List.mapM_cons, readEntry_entryText, ih]

theorem comma_not_mem_entryText (e : Sigma fun _ : Int => Option Bool) : 44 ∉ entryText e := by
  have hvalue : ∀ v, 44 ∉ valueText v := by decide
  have hindex : 44 ∉ Lib.formatInt e.1 := fun h => by
    rcases Lib.formatInt_bytes _ 44 h with h | h
    · cases h
    · cases h
  simp [entryText, List.intercalate, hindex, hvalue]

theorem readMap_mapText (es : List (Sigma fun _ : Int => Option Bool)) :
    readMap (mapText es) = some (inOrder es) := by
  have hbody : (mapText es).tail.dropLast = [44].intercalate ((inOrder es).map entryText) := by simp [mapText]
  have hends : (mapText es).head? = some 123 ∧ (mapText es).getLast? = some 125 :=
    ⟨rfl, by rw [mapText, ← List.cons_append, List.getLast?_concat]⟩
  rw [readMap, if_pos hends]
  simp only [hbody]
  generalize inOrder es = es
  cases es with
  | nil => rfl
  | cons e rest =>
    have hpieces := List.splitOn_intercalate 44
      (List.forall_mem_map.2 fun d (_ : d ∈ e :: rest) => comma_not_mem_entryText d) (by simp)
    have hne : [44].intercalate ((e :: rest).map entryText) ≠ [] := by
      intro hnil
      rw [hnil] at hpieces
      exact absurd (List.cons.inj hpieces).1 (by simp [entryText, List.intercalate])
    rw [if_neg hne, hpieces]
    exact mapM_readEntry _

/-- `encoding/json` on maps with timecodes 0 and 1 (`false`, `true`). A value of the other kind is an error, and
its key is kept with the zero value. -/
def mapTexts : ViewedTexts (List (Sigma fun _ : Int => Option Bool)) Bool where
  parse := readMap
  stored := fun _ v => v
  marshal := fun m => mapText (withValues some m.entries)
  unmarshal := fun b =>
    match readMap b with
    | some es => ((withValues (·.getD false) es).toAList, es.all (·.2.isSome))
    | none => (∅, false)
  unmarshalOld := fun b =>
    match readMap b with
    | some es => (es.map Sigma.fst, es.all (·.2.isNone))
    | none => ([], false)
  zero := false

theorem perm_inOrder (es : List (Sigma fun _ : Int => Option Bool)) : (inOrder es).Perm es :=
  Lib.perm_sortStable _ es

theorem lookup_withValues {V W : Type} {f : V → W} {es : List (Sigma fun _ : Int => V)} (i : Int) :
    (withValues f es).toAList.lookup i = (es.dlookup i).map f := by
  rw [AList.lookup_to_alist]
  exact List.dlookup_map₂ i

/-- What is read from a printed map, whatever its values are printed as. -/
theorem lookup_inOrder {V : Type} (f : V → Option Bool) (m : Marks V) (i : Int) :
    (withValues (·.getD false) (inOrder (withValues f m.entries))).toAList.lookup i =
      (m.lookup i).map fun v => (f v).getD false := by
  have hkeys : (withValues f m.entries).NodupKeys := by
    rw [List.NodupKeys, List.keys, withValues, List.map_map]
    exact m.nodupKeys
  have hperm := perm_inOrder (withValues f m.entries)
  rw [lookup_withValues, List.perm_dlookup i ((List.perm_nodupKeys hperm).mpr hkeys) hperm]
  exact (congrArg _ (List.dlookup_map₂ i)).trans (Option.map_map ..)

theorem mapTexts_faithful : mapTexts.Faithful where
  parse_nil := rfl
  parse_stored := fun _ _ _ h => h
  unmarshal_nil := rfl
  unmarshalOld_nil := rfl
  marshal_json := fun m => ⟨_, readMap_mapText _, readMap_mapText _⟩
  unmarshal_marshal := by
    rintro m b ⟨es, hb, hm⟩
    cases (readMap_mapText _).symm.trans hm
    simp only [mapTexts, show readMap b = _ from hb]
    refine ⟨?_, fun i => ?_⟩
    · rw [(perm_inOrder _).all_eq]
      simp [withValues, Sigma.map]
    · exact (lookup_inOrder some m i).trans Option.map_id'

/-- A mark, then a switch to the JSON store and a restart, then another mark. -/
def switchThenRestart : List (ViewedAct Nat Bool) :=
  [.restart, .set 0 1 true true, .switch true, .restart, .set 0 10 true false, .restart]

theorem switchThenRestart_marks :
    mapTexts.Faithful ∧ Lib.Each (step mapTexts) Settled init switchThenRestart ∧
      ∃ s, Lib.run (step mapTexts) init switchThenRestart = some s ∧ ListsPlain mapTexts s ∧
        s.justStarted = true ∧ s.plain 0 1 = some true ∧ s.plain 0 10 = some false := by
  have hok : Lib.Each (step mapTexts) Settled init switchThenRestart := by
    refine (Lib.each_cons_some rfl).mpr ⟨trivial, ?_⟩
    refine (Lib.each_cons_some rfl).mpr ⟨rfl, ?_⟩
    refine (Lib.each_cons_some rfl).mpr ⟨trivial, ?_⟩
    refine (Lib.each_cons_some rfl).mpr ⟨trivial, ?_⟩
    refine (Lib.each_cons_some rfl).mpr ⟨rfl, ?_⟩
    exact (Lib.each_cons_some rfl).mpr ⟨trivial, trivial⟩
  have hlists := marks_after_restart mapTexts_faithful switchThenRestart hok
  refine ⟨mapTexts_faithful, hok, _, rfl, hlists.last rfl, ?_, ?_, ?_⟩ <;> decide

/-- **Failing history.** A mark, a restart, a switch to the JSON store, and another mark before the next
restart: the first mark is gone, because the second was added to the entry of the cleared store. -/
theorem setBetween_loses :
    mapTexts.Faithful ∧ ¬ Lib.Along (step mapTexts) (ListsPlain mapTexts) init
      ([.restart, .set 0 1 true true, .restart, .switch true, .set 0 10 true true, .restart] :
        List (ViewedAct Nat Bool)) := by
  refine ⟨mapTexts_faithful, fun hlists => ?_⟩
  obtain ⟨k, hk, h⟩ := hlists.last rfl rfl
  cases hk
  have hmem := ((h 0).2 1 true).mpr rfl
  revert hmem
  decide

end ViewedState

end TorrServer.Settings
