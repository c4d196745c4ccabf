/-
# Settings.SyncViewed — bringing the viewed marks of two stores together.

`SmartMigrate` with `sync_both` merges the entries of the two stores hash by hash and writes the merged entry to
both. An entry that only one store has is copied. Of two entries the merge keeps the file indices of both, but
it decodes them into a `map[int]struct{}` and prints such a map: the timecodes are not in it, and `readIndexes`
reads each index with the timecode 0.

What is assumed of `encoding/json` beyond `ViewedTexts` is that a map keeps the keys of values it cannot decode,
with the zero value, in both directions.
-/
import TorrServer.Settings.Viewed

namespace TorrServer.Settings

open List

open Lib (Bytes)
open ViewedState (Reads inOrder mapText mapTexts perm_inOrder readMap_mapText withValues)

/-! ## The texts -/

/-- The texts of marks together with `json.Marshal` of a `map[int]struct{}`. -/
structure MergeTexts (J T : Type) extends ViewedTexts J T where
  marshalOld : Marks Unit → Bytes

/-- Assumed: printed marks read as a `map[int]struct{}` with the same indices, though with an error; a printed
`map[int]struct{}` is JSON, reads as one, and as marks with the same indices and the zero timecode. -/
structure MergeTexts.Faithful {J T : Type} (E : MergeTexts J T) : Prop extends
    viewed : E.toViewedTexts.Faithful where
  unmarshalOld_marshal : ∀ m b, SameJson E.toTexts b (E.marshal m) → ∀ i, i ∈ (E.unmarshalOld b).1 ↔ i ∈ m
  marshalOld_json : ∀ m, SameJson E.toTexts (E.marshalOld m) (E.marshalOld m)
  unmarshalOld_marshalOld : ∀ m b, SameJson E.toTexts b (E.marshalOld m) →
    (E.unmarshalOld b).2 = true ∧ ∀ i, i ∈ (E.unmarshalOld b).1 ↔ i ∈ m
  unmarshal_marshalOld : ∀ m b, SameJson E.toTexts b (E.marshalOld m) →
    ∀ i, (E.unmarshal b).1.lookup i = if i ∈ m then some E.zero else none

/-! ## The merge -/

section

variable {H J T : Type} (E : MergeTexts J T)

/-- A loop that gives every key of a list the same value. -/
def insertAll {V : Type} (v : V) (keys : List Int) (m : Marks V) : Marks V :=
  keys.foldl (fun m k => m.insert k v) m

theorem lookup_insertAll {V : Type} (v : V) (keys : List Int) (m : Marks V) (i : Int) :
    (insertAll v keys m).lookup i = if i ∈ keys then some v else m.lookup i := by
  induction keys generalizing m with
  | nil => rfl
  | cons k keys ih =>
    show (insertAll v keys (m.insert k v)).lookup i = _
    rw [ih]
    by_cases hi : i = k
    · subst hi
      simp
    · simp [hi, AList.lookup_insert_ne hi]

theorem mem_insertAll {V : Type} (v : V) (keys : List Int) (m : Marks V) (i : Int) :
    i ∈ insertAll v keys m ↔ i ∈ keys ∨ i ∈ m := by
  rw [← AList.lookup_isSome, lookup_insertAll, ← AList.lookup_isSome]
  by_cases hi : i ∈ keys
  · simp [hi]
  · simp [hi]

/-- `mergeViewedDataSimple`; both `json.Unmarshal` errors are ignored. -/
def mergeViewedDataSimple (data1 data2 : Option Bytes) : Option Bytes :=
  match data1, data2 with
  | none, none => none
  | none, some data2 => some data2
  | some data1, none => some data1
  | some data1, some data2 =>
    let indices1 := (E.unmarshalOld data1).1
    let indices2 := (E.unmarshalOld data2).1
    let merged := insertAll () indices1 ∅
    let merged := insertAll () indices2 merged
    some (E.marshalOld merged)

/-- What `Get` of store `k` answers for what it has under a hash. -/
def storeGet (k : Backend) (entry : Option Bytes) : Option Bytes := entry.map (E.stored k)

variable [DecidableEq H]

/-- One round of the loop of `syncViewedSimple`, on the BBolt and the JSON store. -/
def syncOne (stores : Entries H × Entries H) (hash : H) : Entries H × Entries H :=
  let bboltData := storeGet E .bbolt (stores.1.lookup hash)
  let jsonData := storeGet E .json (stores.2.lookup hash)
  match mergeViewedDataSimple E bboltData jsonData with
  | some merged => (stores.1.insert hash merged, stores.2.insert hash merged)
  | none => stores

/-- The hashes of both stores, each once. -/
def allHashes (bbolt json : Entries H) : List H := (bbolt.keys ++ json.keys).dedup

/-- `syncViewedSimple`; `order` is the order in which the loop takes the hashes. -/
def syncViewedSimple (order : List H) (bbolt json : Entries H) : Entries H × Entries H :=
  order.foldl (syncOne E) (bbolt, json)

/-! ## Entry by entry -/

/-- The merge of what the stores have under a hash. -/
def mergedEntry (entries : Option Bytes × Option Bytes) : Option Bytes :=
  mergeViewedDataSimple E (storeGet E .bbolt entries.1) (storeGet E .json entries.2)

/-- What the stores have under a hash. -/
def entriesAt (stores : Entries H × Entries H) (h : H) : Option Bytes × Option Bytes :=
  (stores.1.lookup h, stores.2.lookup h)

variable {E}

theorem mergedEntry_eq_none {entries : Option Bytes × Option Bytes} (h : mergedEntry E entries = none) :
    entries = (none, none) := by
  obtain ⟨_ | v, _ | w⟩ := entries
  · rfl
  all_goals exact absurd h (Option.some_ne_none _)

/-- One round puts the merged entry of its hash into both stores. -/
theorem entriesAt_syncOne (stores : Entries H × Entries H) (hash h : H) :
    entriesAt (syncOne E stores hash) h =
      if h = hash then (mergedEntry E (entriesAt stores h), mergedEntry E (entriesAt stores h))
      else entriesAt stores h := by
  have hround : syncOne E stores hash =
      match mergedEntry E (entriesAt stores hash) with
      | some merged => (stores.1.insert hash merged, stores.2.insert hash merged)
      | none => stores := rfl
  rw [hround]
  by_cases hh : h = hash
  · subst hh
    rw [if_pos rfl]
    cases hmerged : mergedEntry E (entriesAt stores h) with
    | none => exact mergedEntry_eq_none hmerged
    | some merged => simp [entriesAt]
  · rw [if_neg hh]
    cases mergedEntry E (entriesAt stores hash) with
    | none => rfl
    | some merged => simp [entriesAt, AList.lookup_insert_ne hh]

/-- **`syncViewedSimple`, entry by entry**: both stores end with the merged entry under each hash. -/
theorem entriesAt_syncViewedSimple {bbolt json : Entries H} {order : List H}
    (horder : order.Perm (allHashes bbolt json)) (h : H) :
    entriesAt (syncViewedSimple E order bbolt json) h =
      (mergedEntry E (bbolt.lookup h, json.lookup h), mergedEntry E (bbolt.lookup h, json.lookup h)) := by
  -- each hash has one round, which finds the entries of the start
  have hrounds : ∀ (order : List H) (stores : Entries H × Entries H), order.Nodup →
      entriesAt (order.foldl (syncOne E) stores) h =
        if h ∈ order then (mergedEntry E (entriesAt stores h), mergedEntry E (entriesAt stores h))
        else entriesAt stores h := by
    intro order
    induction order with
    | nil => intro stores _; rfl
    | cons hash order ih =>
      intro stores hnodup
      obtain ⟨hhash, hrest⟩ := nodup_cons.1 hnodup
      rw [foldl_cons, ih _ hrest, entriesAt_syncOne]
      by_cases hh : h = hash
      · subst hh
        simp [hhash]
      · simp [hh]
  have hnodup : order.Nodup := horder.nodup_iff.2 (nodup_dedup _)
  show entriesAt (order.foldl (syncOne E) (bbolt, json)) h = _
  rw [hrounds order _ hnodup]
  by_cases hmem : h ∈ order
  · rw [if_pos hmem]
    rfl
  · rw [if_neg hmem]
    have hkeys : h ∉ bbolt.keys ++ json.keys := fun hk => hmem (horder.mem_iff.2 (mem_dedup.2 hk))
    have hbbolt : bbolt.lookup h = none :=
      AList.lookup_eq_none.2 fun hk => hkeys (mem_append_left _ hk)
    have hjson : json.lookup h = none :=
      AList.lookup_eq_none.2 fun hk => hkeys (mem_append_right _ hk)
    simp only [entriesAt, hbbolt, hjson]
    rfl

/-! ## Reading a merged entry -/

/-- A printed `map[int]struct{}` reads as marks with the timecode 0. -/
theorem lookup_readIndexes_marshalOld (hE : E.Faithful) {m : Marks Unit} {b : Bytes}
    (hb : SameJson E.toTexts b (E.marshalOld m)) (i : Int) :
    (readIndexes E.toViewedTexts (some b)).lookup i = if i ∈ m then some E.zero else none := by
  obtain ⟨hok, hkeys⟩ := hE.unmarshalOld_marshalOld m b hb
  have hread := hE.unmarshal_marshalOld m b hb i
  unfold readIndexes
  dsimp only [Option.getD_some]
  by_cases hmarks : (E.unmarshal b).2 = true
  · rw [if_pos hmarks]
    exact hread
  · rw [if_neg hmarks, if_pos hok]
    show (insertAll E.zero (E.unmarshalOld b).1 (E.unmarshal b).1).lookup i = _
    rw [lookup_insertAll, hread]
    by_cases hi : i ∈ m
    · rw [if_pos ((hkeys i).2 hi), if_pos hi]
    · rw [if_neg fun hk => hi ((hkeys i).1 hk)]

/-- The indices a text keeps as a `map[int]struct{}` are those of its marks. -/
theorem Reads.mem_unmarshalOld (hE : E.Faithful) {p : Int → Option T} {v : Bytes}
    (h : Reads E.toViewedTexts p (some v)) (i : Int) : i ∈ (E.unmarshalOld v).1 ↔ (p i).isSome := by
  obtain ⟨m, hv, hm⟩ := h
  rw [hE.unmarshalOld_marshal m v hv i, ← AList.lookup_isSome, hm i]

/-- Two entries merge into one in which each index of either has the timecode 0. -/
theorem lookup_mergedEntry_both (hE : E.Faithful) {p q : Int → Option T} {v w : Bytes}
    (hp : Reads E.toViewedTexts p (some v)) (hq : Reads E.toViewedTexts q (some w)) (k : Backend) (i : Int) :
    (readIndexes E.toViewedTexts (storeGet E k (mergedEntry E (some v, some w)))).lookup i =
      if (p i).isSome ∨ (q i).isSome then some E.zero else none := by
  have hp' : Reads E.toViewedTexts p (some (E.stored .bbolt v)) := hp.stored hE.viewed .bbolt
  have hq' : Reads E.toViewedTexts q (some (E.stored .json w)) := hq.stored hE.viewed .json
  let merged : Marks Unit := insertAll () (E.unmarshalOld (E.stored .json w)).1
    (insertAll () (E.unmarshalOld (E.stored .bbolt v)).1 ∅)
  have hmem : i ∈ merged ↔ (p i).isSome ∨ (q i).isSome := by
    unfold merged
    rw [mem_insertAll, mem_insertAll, Reads.mem_unmarshalOld hE hp', Reads.mem_unmarshalOld hE hq']
    have hempty : i ∉ (∅ : Marks Unit) := AList.notMem_empty i
    tauto
  have hstored : SameJson E.toTexts (E.stored k (E.marshalOld merged)) (E.marshalOld merged) :=
    sameJson_stored hE.viewed.toFaithful k (hE.marshalOld_json merged)
  show (readIndexes E.toViewedTexts (some (E.stored k (E.marshalOld merged)))).lookup i = _
  rw [lookup_readIndexes_marshalOld hE hstored]
  exact if_congr hmem rfl rfl

/-- An entry that one store has is copied. -/
theorem lookup_mergedEntry_one (hE : E.Faithful) {p q : Int → Option T} {v w : Option Bytes}
    (hp : Reads E.toViewedTexts p v) (hq : Reads E.toViewedTexts q w) (hone : v = none ∨ w = none)
    (k : Backend) (i : Int) :
    (readIndexes E.toViewedTexts (storeGet E k (mergedEntry E (v, w)))).lookup i = (p i).or (q i) := by
  rcases hone with rfl | rfl
  · rw [hp i, Option.none_or]
    cases w with
    | none => exact hq.lookup hE.viewed i
    | some w => exact ((hq.stored hE.viewed .json).stored hE.viewed k).lookup hE.viewed i
  · rw [hq i, Option.or_none]
    cases v with
    | none => exact hp.lookup hE.viewed i
    | some v => exact ((hp.stored hE.viewed .bbolt).stored hE.viewed k).lookup hE.viewed i

/-- The merge of one hash: the indices are those of either side, and when the timecodes are kept. -/
theorem mergedEntry_marks (hE : E.Faithful) {p q : Int → Option T} {v w : Option Bytes}
    (hp : Reads E.toViewedTexts p v) (hq : Reads E.toViewedTexts q w) (k : Backend) :
    let m := readIndexes E.toViewedTexts (storeGet E k (mergedEntry E (v, w)))
    (∀ i, i ∈ m ↔ (p i).isSome ∨ (q i).isSome) ∧
    ((∀ i t, m.lookup i = some t → p i = some t ∨ q i = some t) ↔
      v = none ∨ w = none ∨ ∀ i, (p i).isSome ∨ (q i).isSome → p i = some E.zero ∨ q i = some E.zero) := by
  intro m
  by_cases hone : v = none ∨ w = none
  · have hread : ∀ i, m.lookup i = (p i).or (q i) := lookup_mergedEntry_one hE hp hq hone k
    refine ⟨fun i => ?_, iff_of_true (fun i t ht => ?_) ?_⟩
    · rw [← AList.lookup_isSome, hread, Option.isSome_or, Bool.or_eq_true]
    · rw [hread] at ht
      rcases Option.or_eq_some_iff.1 ht with hleft | ⟨-, hright⟩
      · exact Or.inl hleft
      · exact Or.inr hright
    · rw [← or_assoc]
      exact Or.inl hone
  · obtain ⟨hv, hw⟩ := not_or.1 hone
    obtain ⟨v', rfl⟩ := Option.ne_none_iff_exists'.1 hv
    obtain ⟨w', rfl⟩ := Option.ne_none_iff_exists'.1 hw
    have hread : ∀ i, m.lookup i = if (p i).isSome ∨ (q i).isSome then some E.zero else none :=
      lookup_mergedEntry_both hE hp hq k
    refine ⟨fun i => ?_, fun hkept => Or.inr (Or.inr fun i hi => ?_), ?_⟩
    · rw [← AList.lookup_isSome, hread, Option.isSome_ite]
    · apply hkept i E.zero
      rw [hread, if_pos hi]
    · intro hcond i t ht
      have hzero := (hcond.resolve_left hv).resolve_left hw
      rw [hread, Option.ite_none_right_eq_some] at ht
      obtain ⟨hi, hzt⟩ := ht
      cases hzt
      exact hzero i hi

variable (E) in
/-- What `readIndexes` makes of what store `k` answers for a hash. -/
def marksAt (stores : Entries H × Entries H) (k : Backend) (h : H) : Marks T :=
  match k with
  | .bbolt => readIndexes E.toViewedTexts (storeGet E .bbolt (stores.1.lookup h))
  | .json => readIndexes E.toViewedTexts (storeGet E .json (stores.2.lookup h))

theorem marksAt_syncViewedSimple {bbolt json : Entries H} {order : List H}
    (horder : order.Perm (allHashes bbolt json)) (k : Backend) (h : H) :
    marksAt E (syncViewedSimple E order bbolt json) k h =
      readIndexes E.toViewedTexts (storeGet E k (mergedEntry E (bbolt.lookup h, json.lookup h))) := by
  obtain ⟨hbbolt, hjson⟩ := Prod.mk.inj (entriesAt_syncViewedSimple (E := E) horder h)
  cases k with
  | bbolt => exact congrArg (fun e => readIndexes E.toViewedTexts (storeGet E .bbolt e)) hbbolt
  | json => exact congrArg (fun e => readIndexes E.toViewedTexts (storeGet E .json e)) hjson

/-- **What a sync keeps.** With marks `p` in the BBolt and `q` in the JSON store, each store ends up with the
indices of either side. The timecodes are ones that some side held if and only if a store had no entry for the
hash or each index had the timecode 0 on some side. -/
theorem syncViewedSimple_marks (hE : E.Faithful) {bbolt json : Entries H} {p q : H → Int → Option T}
    (hbbolt : ∀ h, Reads E.toViewedTexts (p h) (bbolt.lookup h))
    (hjson : ∀ h, Reads E.toViewedTexts (q h) (json.lookup h)) {order : List H}
    (horder : order.Perm (allHashes bbolt json)) (k : Backend) (h : H) :
    let m := marksAt E (syncViewedSimple E order bbolt json) k h
    (∀ i, i ∈ m ↔ (p h i).isSome ∨ (q h i).isSome) ∧
    ((∀ i t, m.lookup i = some t → p h i = some t ∨ q h i = some t) ↔
      h ∉ bbolt ∨ h ∉ json ∨
        ∀ i, (p h i).isSome ∨ (q h i).isSome → p h i = some E.zero ∨ q h i = some E.zero) := by
  rw [marksAt_syncViewedSimple horder, ← AList.lookup_eq_none, ← AList.lookup_eq_none]
  exact mergedEntry_marks hE (hbbolt h) (hjson h) k

end

/-! ## Two syncs -/

/-- The JSON of maps, with `{}` for an index that has no timecode. -/
def mergeTexts : MergeTexts (List (Sigma fun _ : Int => Option Bool)) Bool :=
  { mapTexts with marshalOld := fun m => mapText (withValues (fun _ => none) m.entries) }

theorem mem_keys_inOrder {V : Type} (f : V → Option Bool) (m : Marks V) (i : Int) :
    i ∈ (inOrder (withValues f m.entries)).map Sigma.fst ↔ i ∈ m := by
  rw [((perm_inOrder _).map Sigma.fst).mem_iff, withValues, map_map]
  rfl

theorem mergeTexts_faithful : mergeTexts.Faithful where
  viewed := ViewedState.mapTexts_faithful
  unmarshalOld_marshal := by
    rintro m b ⟨j, hb, hm⟩ i
    cases (readMap_mapText _).symm.trans hm
    simp only [mergeTexts, mapTexts, show ViewedState.readMap b = _ from hb]
    exact mem_keys_inOrder some m i
  marshalOld_json := fun m => ⟨_, readMap_mapText _, readMap_mapText _⟩
  unmarshalOld_marshalOld := by
    rintro m b ⟨j, hb, hm⟩
    cases (readMap_mapText _).symm.trans hm
    simp only [mergeTexts, mapTexts, show ViewedState.readMap b = _ from hb]
    refine ⟨?_, mem_keys_inOrder (fun _ => none) m⟩
    rw [(perm_inOrder _).all_eq]
    simp [withValues, Sigma.map]
  unmarshal_marshalOld := by
    rintro m b ⟨j, hb, hm⟩ i
    cases (readMap_mapText _).symm.trans hm
    simp only [mergeTexts, mapTexts, show ViewedState.readMap b = _ from hb]
    rw [ViewedState.lookup_inOrder (fun _ => none) m i]
    by_cases hi : i ∈ m
    · obtain ⟨u, hu⟩ := Option.isSome_iff_exists.1 (AList.lookup_isSome.2 hi)
      rw [if_pos hi, hu]
      rfl
    · rw [if_neg hi, AList.lookup_eq_none.2 hi]
      rfl

/-- A store in which one torrent has one mark. -/
def oneMark (hash : Nat) (index : Int) (timecode : Bool) : Entries Nat :=
  (∅ : Entries Nat).insert hash (mergeTexts.marshal ((∅ : Marks Bool).insert index timecode))

/-- What such a store holds. -/
def oneMarkHeld (hash : Nat) (index : Int) (timecode : Bool) (h : Nat) (i : Int) : Option Bool :=
  if h = hash ∧ i = index then some timecode else none

theorem reads_oneMark (hash : Nat) (index : Int) (timecode : Bool) (h : Nat) :
    Reads mergeTexts.toViewedTexts (oneMarkHeld hash index timecode h)
    ((oneMark hash index timecode).lookup h) := by
  unfold oneMark oneMarkHeld
  by_cases hh : h = hash
  · subst hh
    rw [AList.lookup_insert]
    apply ViewedState.reads_marshal mergeTexts_faithful.viewed
    intro i
    by_cases hi : i = index
    · rw [hi, AList.lookup_insert, if_pos ⟨rfl, rfl⟩]
    · rw [AList.lookup_insert_ne hi, AList.lookup_empty, if_neg fun h => hi h.2]
  · rw [AList.lookup_insert_ne hh]
    intro i
    simp [hh]

/-- Different torrents in the two stores: the mark of each is in both stores, with its timecode. -/
theorem syncViewedSimple_marks_copied : let bbolt := oneMark 0 1 true
    let json := oneMark 5 2 true
    [5, 0].Perm (allHashes bbolt json) ∧ 0 ∉ json ∧
      let m := marksAt mergeTexts (syncViewedSimple mergeTexts [5, 0] bbolt json) .json 0
      m.lookup 1 = some true ∧
        ∀ i t, m.lookup i = some t → oneMarkHeld 0 1 true 0 i = some t ∨ oneMarkHeld 5 2 true 0 i = some t := by
  intro bbolt json
  have horder : [5, 0].Perm (allHashes bbolt json) := by decide
  have habsent : 0 ∉ json := by decide
  obtain ⟨-, hkept⟩ :=
    syncViewedSimple_marks mergeTexts_faithful (reads_oneMark 0 1 true) (reads_oneMark 5 2 true)
    horder .json 0
  exact ⟨horder, habsent, by decide, hkept.2 (Or.inr (Or.inl habsent))⟩

/-- **Failing input.** Both stores hold the same mark with the same timecode; after the sync neither does. -/
theorem syncViewedSimple_drops_timecode : let store := oneMark 0 1 true
    let synced := syncViewedSimple mergeTexts (allHashes store store) store store
    (∀ k, (marksAt mergeTexts (store, store) k 0).lookup 1 = some true) ∧
      ∀ k, (marksAt mergeTexts synced k 0).lookup 1 = some false := by
  intro store synced
  constructor
  · rintro (_ | _) <;> decide
  · rintro (_ | _) <;> decide

end TorrServer.Settings
