/-
# Settings.ViewedCalls — viewed marks under concurrent calls.

`SetViewed` and `RemViewed` read the entry of a torrent, change the marks in it and write it back, with no lock
around the two accesses. A call that writes the entry in between is undone by the one that read before it. The
calls are serial if the marks of the torrent are those a call has read when it writes them back
(`marks_serializable`).

The store is one correct store with atomic accesses; `RemViewed` of the whole torrent does not use what it
reads.
-/
import TorrServer.Settings.Viewed
import TorrServer.Lib.Serial
import Mathlib.Data.List.Permutation

namespace TorrServer.Settings

open Lib (Bytes TwoSection)

/-- The two calls; `track` is the setting `TrackTimecode` at the time of the call. -/
inductive ViewedCall (H T : Type)
  | set (hash : H) (index : Int) (timecode : T) (track : Bool)
  | rem (hash : H) (index : Int)
  deriving DecidableEq, Repr

/-- The torrent a call is about. -/
def ViewedCall.hash {H T : Type} : ViewedCall H T → H
  | .set hash _ _ _ => hash
  | .rem hash _ => hash

/-- The call concerns the mark of a file. -/
def ViewedCall.Concerns {H T : Type} (hash : H) (index : Int) : ViewedCall H T → Prop
  | .set h i _ _ => h = hash ∧ i = index
  | .rem h i => h = hash ∧ (i = index ∨ i = -1)

section

variable {H J T : Type} [DecidableEq H] (E : ViewedTexts J T) (marshal : Marks T → Option Bytes)

/-- `tdb.Set` of the printed marks; a timecode that JSON cannot print leaves the entry as it is. -/
def storeMarks (s : H → Option Bytes) (hash : H) (m : Marks T) : H → Option Bytes :=
  match marshal m with
  | some buf => Function.update s hash (some buf)
  | none => s

/-- The accesses of `SetViewed` and `RemViewed`: `tdb.Get`, then `tdb.Set` or `tdb.Rem`. -/
def viewedSections : TwoSection (H → Option Bytes) (ViewedCall H T) (Option Bytes) where
  read call s := s call.hash
  write
    | .set hash index timecode track, buf, s =>
      let val := if track then timecode else E.zero
      storeMarks marshal s hash ((readIndexes E buf).insert index val)
    | .rem hash index, buf, s =>
      if index ≠ -1 then storeMarks marshal s hash ((readIndexes E buf).erase index)
      else Function.update s hash none

/-- The marks of the torrent are those the call has read. -/
def SameMarks (s : H → Option Bytes) : ViewedCall H T → Option Bytes → Prop
  | .set hash _ _ _, buf => readIndexes E (s hash) = readIndexes E buf
  | .rem hash index, buf => index = -1 ∨ readIndexes E (s hash) = readIndexes E buf

/-- **The condition**, on the accesses that write: what was read is still stored. -/
def MarksUnchanged (c : TwoSection.Concurrent (H → Option Bytes) (ViewedCall H T) (Option Bytes)) :
    TwoSection.Act (ViewedCall H T) → Prop
  | .call _ => True
  | .finish i => ∀ call ∈ c.flight[i]?, SameMarks E c.shared call.1 call.2

variable {E marshal}

theorem marks_undisturbed {c : TwoSection.Concurrent (H → Option Bytes) (ViewedCall H T) (Option Bytes)}
    {a : TwoSection.Act (ViewedCall H T)} (hok : MarksUnchanged E c a) :
    (viewedSections E marshal).Undisturbed c a := by
  cases a with
  | call k => trivial
  | finish i =>
    intro k buf hflight
    have hsame := hok (k, buf) hflight
    cases k with
    | set hash index timecode track =>
      have hmarks : readIndexes E (c.shared hash) = readIndexes E buf := hsame
      simp only [TwoSection.exec, viewedSections, ViewedCall.hash, hmarks]
    | rem hash index =>
      rcases hsame with hall | hmarks
      · simp only [TwoSection.exec, viewedSections, hall]
        rfl
      · simp only [TwoSection.exec, viewedSections, ViewedCall.hash, hmarks]

/-! ## What becomes of a mark -/

theorem exec_lookup_of_not_concerns
    (hread : ∀ m buf, marshal m = some buf → ∀ i, (readIndexes E (some buf)).lookup i = m.lookup i)
    {s : H → Option Bytes} {k : ViewedCall H T} {hash : H} {index : Int} (hk : ¬ k.Concerns hash index) :
    (readIndexes E ((viewedSections E marshal).exec s k hash)).lookup index
      = (readIndexes E (s hash)).lookup index := by
  have hstore : ∀ (h : H) (m : Marks T), (h = hash → m.lookup index = (readIndexes E (s hash)).lookup index) →
      (readIndexes E (storeMarks marshal s h m hash)).lookup index
        = (readIndexes E (s hash)).lookup index := by
    intro h m hm
    cases hbuf : marshal m with
    | none => simp only [storeMarks, hbuf]
    | some buf =>
      simp only [storeMarks, hbuf]
      by_cases heq : h = hash
      · rw [heq, Function.update_self, hread m buf hbuf, hm heq]
      · rw [Function.update_of_ne (Ne.symm heq)]
  cases k with
  | set h i timecode track =>
    refine hstore h _ fun heq => ?_
    have hne : index ≠ i := fun hi => hk ⟨heq, hi.symm⟩
    rw [AList.lookup_insert_ne hne]
    exact congrArg (fun h => (readIndexes E (s h)).lookup index) heq
  | rem h i =>
    by_cases hall : i = -1
    · have hne : hash ≠ h := fun heq => hk ⟨heq.symm, .inr hall⟩
      simp only [TwoSection.exec, viewedSections, hall, ne_eq, not_true_eq_false, if_false]
      rw [Function.update_of_ne hne]
    · simp only [TwoSection.exec, viewedSections, ne_eq, hall, not_false_eq_true, if_true]
      refine hstore h _ fun heq => ?_
      have hne : index ≠ i := fun hi => hk ⟨heq, .inl hi.symm⟩
      rw [AList.lookup_erase_ne hne]
      exact congrArg (fun h => (readIndexes E (s h)).lookup index) heq

theorem foldl_exec_lookup_of_not_concerns
    (hread : ∀ m buf, marshal m = some buf → ∀ i, (readIndexes E (some buf)).lookup i = m.lookup i)
    {s : H → Option Bytes} {order : List (ViewedCall H T)} {hash : H} {index : Int}
    (horder : ∀ k ∈ order, ¬ k.Concerns hash index) :
    (readIndexes E (order.foldl (viewedSections E marshal).exec s hash)).lookup index
      = (readIndexes E (s hash)).lookup index := by
  induction order generalizing s with
  | nil => rfl
  | cons k order ih =>
    rw [List.foldl_cons, ih fun k' hk' => horder k' (List.mem_cons_of_mem _ hk')]
    exact exec_lookup_of_not_concerns hread (horder k (by simp))

theorem exec_set_lookup
    (hread : ∀ m buf, marshal m = some buf → ∀ i, (readIndexes E (some buf)).lookup i = m.lookup i)
    (hprint : ∀ m, marshal m ≠ none) (s : H → Option Bytes) (hash : H) (index : Int) (timecode : T)
    (track : Bool) :
    (readIndexes E ((viewedSections E marshal).exec s (.set hash index timecode track) hash)).lookup index
      = some (if track then timecode else E.zero) := by
  simp only [TwoSection.exec, viewedSections]
  generalize (if track then timecode else E.zero) = val
  generalize hm : (readIndexes E (s _)).insert index val = m
  obtain ⟨buf, hbuf⟩ := Option.ne_none_iff_exists'.mp (hprint m)
  simp only [storeMarks, hbuf]
  rw [Function.update_self, hread m buf hbuf, ← hm, AList.lookup_insert]

/-! ## Any interleaving -/

variable {c : TwoSection.Concurrent (H → Option Bytes) (ViewedCall H T) (Option Bytes)}
  {s : H → Option Bytes} {acts : List (TwoSection.Act (ViewedCall H T))}

/-- **The calls are serial**, in the order of their writes, if each writes back the marks that are stored; so a
mark stays until a call that concerns it. -/
theorem marks_serializable
    (hok : Lib.Each (viewedSections E marshal).step (MarksUnchanged E) (TwoSection.start s) acts)
    (hrun : Lib.run (viewedSections E marshal).step (TwoSection.start s) acts = some c)
    (hflight : c.flight = []) :
    c.done.Perm (TwoSection.calls acts) ∧ c.shared = c.done.foldl (viewedSections E marshal).exec s ∧
      ((∀ m buf, marshal m = some buf → ∀ i, (readIndexes E (some buf)).lookup i = m.lookup i) →
        (∀ m, marshal m ≠ none) → ∀ before hash index timecode track after,
          c.done = before ++ .set hash index timecode track :: after →
          (∀ k ∈ after, ¬ k.Concerns hash index) →
            (readIndexes E (c.shared hash)).lookup index
              = some (if track then timecode else E.zero)) := by
  have hquiet : Lib.Each (viewedSections E marshal).step (viewedSections E marshal).Undisturbed
      (TwoSection.start s) acts :=
    hok.imp (I := fun _ => True) (fun _ _ _ _ _ _ => trivial)
      (fun _ _ _ hok => marks_undisturbed hok) trivial
  obtain ⟨hperm, hshared⟩ := TwoSection.serializable hquiet hrun hflight
  refine ⟨hperm, hshared, ?_⟩
  intro hread hprint before hash index timecode track after hdone hafter
  rw [hshared, hdone, List.foldl_append, List.foldl_cons, foldl_exec_lookup_of_not_concerns hread hafter]
  exact exec_set_lookup hread hprint _ hash index timecode track

end

/-! ## Two requests for one torrent -/

namespace TwoRequests

/-- A file of one torrent is marked while a mark of another is set and the other's marks are removed. -/
def overlapping : List (TwoSection.Act (ViewedCall Nat Bool)) :=
  [.call (.set 0 1 true true), .call (.set 1 2 true true), .call (.rem 1 (-1)), .finish 1, .finish 0, .finish 0]

/-- Two files of one torrent are marked, with both reads first. -/
def atOnce : List (TwoSection.Act (ViewedCall Nat Bool)) :=
  [.call (.set 0 1 true true), .call (.set 0 2 true true), .finish 0, .finish 0]

/-- The sections over texts that can be run. -/
def sections : TwoSection (Nat → Option Bytes) (ViewedCall Nat Bool) (Option Bytes) :=
  viewedSections ViewedState.mapTexts fun m => some (ViewedState.mapTexts.marshal m)

end TwoRequests

/-- The mark is kept. -/
theorem overlapping_marks : ∃ c,
    Lib.run TwoRequests.sections.step (TwoSection.start fun _ => none) TwoRequests.overlapping = some c ∧
    c.shared = c.done.foldl TwoRequests.sections.exec (fun _ => none) ∧
    (readIndexes ViewedState.mapTexts (c.shared 0)).lookup 1 = some true ∧ c.shared 1 = none := by
  have hok : Lib.Each TwoRequests.sections.step (MarksUnchanged ViewedState.mapTexts)
      (TwoSection.start fun _ => none) TwoRequests.overlapping := by
    repeat' refine (Lib.each_cons_some rfl).mpr ⟨?_, ?_⟩
    iterate 3 trivial
    · rintro _ ⟨⟩
      rfl
    · rintro _ ⟨⟩
      rfl
    · rintro _ ⟨⟩
      exact .inl rfl
    · trivial
  obtain ⟨-, hshared, hmark⟩ := marks_serializable hok rfl rfl
  have hread : ∀ m buf, some (ViewedState.mapTexts.marshal m) = some buf →
      ∀ i, (readIndexes ViewedState.mapTexts (some buf)).lookup i = m.lookup i := by
    rintro m _ ⟨⟩ i
    have hreads := ViewedState.reads_marshal ViewedState.mapTexts_faithful fun i =>
      (rfl : m.lookup i = m.lookup i)
    exact hreads.lookup ViewedState.mapTexts_faithful i
  refine ⟨_, rfl, hshared, ?_, rfl⟩
  exact hmark hread (fun _ => Option.some_ne_none _) [_] 0 1 true true [_] rfl (by simp [ViewedCall.Concerns])

/-- At once, the first mark is lost, which no order of the two calls gives. -/
theorem setTwice_loses : ∃ c,
    Lib.run TwoRequests.sections.step (TwoSection.start fun _ => none) TwoRequests.atOnce = some c ∧
    c.flight = [] ∧ (readIndexes ViewedState.mapTexts (c.shared 0)).lookup 1 = none ∧
    ∀ order : List (ViewedCall Nat Bool), order.Perm (TwoSection.calls TwoRequests.atOnce) →
      (readIndexes ViewedState.mapTexts (order.foldl TwoRequests.sections.exec (fun _ => none) 0)).lookup 1
        = some true := by
  refine ⟨_, rfl, rfl, by decide +kernel, fun order horder => ?_⟩
  have hkept : ∀ order ∈ (TwoSection.calls TwoRequests.atOnce).permutations',
      (readIndexes ViewedState.mapTexts (order.foldl TwoRequests.sections.exec (fun _ => none) 0)).lookup 1
        = some true := by
    decide +kernel
  exact hkept order (List.mem_permutations'.mpr horder)

end TorrServer.Settings
