/-
# Settings.Torrents — the stored torrents under concurrent calls.

`AddTorrent` reads the whole list in one locked section and writes every entry of it back in another;
`RemTorrent` is one section. What another call does in between is overwritten by the old list: a torrent that
was removed comes back, and newer data is replaced by older. `torrents_serializable` says that this is the only
way the calls interfere.

JSON and the order of the list are parameters, with what is documented of them.
-/
import TorrServer.Lib.Serial
import TorrServer.Lib.Strconv
import Mathlib.Data.Finmap
import Mathlib.Data.List.Permutation

namespace TorrServer.Settings

open List

open Lib (Bytes TwoSection)

/-! ## The list -/

/-- The hash of a torrent, `json.Marshal` and `json.Unmarshal`, the names of `tdb.List`, and `sort.Slice` by
timestamp. `T` are the torrents whose strings are valid UTF-8: of others `json.Marshal` prints the wrong bytes
as an escape, and `json.Unmarshal` reads that as a character which prints differently. -/
structure TorrentTexts (H T : Type) where
  hash : T → H
  marshal : T → Option Bytes
  unmarshal : Bytes → Option T
  names : Finmap (fun _ : H => Bytes) → List H
  sort : List T → List T

/-- Assumed: a printed torrent reads as one of the same hash that prints the same, the names are those of the
entries, once each, and sorting only rearranges. -/
structure TorrentTexts.Faithful {H T : Type} (E : TorrentTexts H T) : Prop where
  unmarshal_marshal : ∀ t b, E.marshal t = some b → b ≠ [] ∧
    ∃ t', E.unmarshal b = some t' ∧ E.hash t' = E.hash t ∧ E.marshal t' = some b
  mem_names : ∀ s h, h ∈ E.names s ↔ h ∈ s
  nodup_names : ∀ s, (E.names s).Nodup
  sort_perm : ∀ l, (E.sort l).Perm l

/-- The entries under `Torrents`. -/
abbrev TorrentStore (H : Type) := Finmap fun _ : H => Bytes

/-- The two calls. -/
inductive TorrentCall (H T : Type)
  | add (torr : T)
  | rem (hash : H)
  deriving DecidableEq, Repr

section

variable {H T : Type} [DecidableEq H] (E : TorrentTexts H T)

/-- One entry of the list: none if it is missing, empty or no JSON of a torrent. -/
def readTorrent (s : TorrentStore H) (key : H) : Option T :=
  match s.lookup key with
  | some buf => if 0 < buf.length then E.unmarshal buf else none
  | none => none

/-- The torrents that can be read, in order. -/
def listTorrent (s : TorrentStore H) : List T := E.sort ((E.names s).filterMap (readTorrent E s))

/-- The list with the torrent in the place of the entry of its hash, or at the end. -/
def placeTorrent (torr : T) (list : List T) : List T :=
  match list.findIdx? fun db => E.hash db = E.hash torr with
  | some find => list.set find torr
  | none => list ++ [torr]

/-- One round of the loop that writes the list back. -/
def storeTorrent (s : TorrentStore H) (db : T) : TorrentStore H :=
  match E.marshal db with
  | some buf => s.insert (E.hash db) buf
  | none => s

/-- The sections of `AddTorrent` and `RemTorrent`; the latter has only the second. -/
def torrentSections : TwoSection (TorrentStore H) (TorrentCall H T) (List T) where
  read
    | .add _, s => listTorrent E s
    | .rem _, _ => []
  write
    | .add torr, list, s => (placeTorrent E torr list).foldl (storeTorrent E) s
    | .rem hash, _, s => s.erase hash

/-- The hash a call is about. -/
def TorrentCall.hash : TorrentCall H T → H
  | .add torr => E.hash torr
  | .rem hash => hash

/-- Each torrent an `AddTorrent` has read, but its own, is stored as it was read. -/
def StoredAsRead (s : TorrentStore H) : TorrentCall H T → List T → Prop
  | .add torr, list => ∀ db ∈ list, E.hash db ≠ E.hash torr → s.lookup (E.hash db) = E.marshal db
  | .rem _, _ => True

instance (s : TorrentStore H) : ∀ (k : TorrentCall H T) (list : List T),
    Decidable (StoredAsRead E s k list)
  | .add torr, list => inferInstanceAs (Decidable (∀ db ∈ list, E.hash db ≠ E.hash torr →
      s.lookup (E.hash db) = E.marshal db))
  | .rem _, _ => isTrue trivial

/-- **The condition**, on the second sections: what was read is still stored. -/
def Unchanged (c : TwoSection.Concurrent (TorrentStore H) (TorrentCall H T) (List T)) :
    TwoSection.Act (TorrentCall H T) → Prop
  | .call _ => True
  | .finish i => ∀ call ∈ c.flight[i]?, StoredAsRead E c.shared call.1 call.2

instance (c : TwoSection.Concurrent (TorrentStore H) (TorrentCall H T) (List T)) :
    ∀ a, Decidable (Unchanged E c a)
  | .call _ => isTrue trivial
  | .finish i => inferInstanceAs (Decidable (∀ call ∈ c.flight[i]?, StoredAsRead E c.shared call.1 call.2))

/-! ## What a list of a store looks like -/

/-- Every entry is what `AddTorrent` wrote for a torrent of that hash. -/
def Canonical (s : TorrentStore H) : Prop :=
  ∀ h b, s.lookup h = some b → ∃ t, E.marshal t = some b ∧ E.hash t = h

variable {E}

theorem readTorrent_eq (hE : E.Faithful) {s : TorrentStore H} (hs : Canonical E s) {h : H} {t : T}
    (ht : readTorrent E s h = some t) : E.hash t = h ∧ s.lookup h = E.marshal t := by
  rw [readTorrent] at ht
  split at ht
  · rename_i b hb
    obtain ⟨t₀, hmarshal, hhash⟩ := hs h b hb
    obtain ⟨hne, t', hunmarshal, hhash', hmarshal'⟩ := hE.unmarshal_marshal t₀ b hmarshal
    rw [if_pos (length_pos_of_ne_nil hne), hunmarshal] at ht
    cases ht
    exact ⟨hhash'.trans hhash, hb.trans hmarshal'.symm⟩
  · cases ht

/-- A listed torrent is stored under its hash. -/
theorem lookup_of_mem_listTorrent (hE : E.Faithful) {s : TorrentStore H} (hs : Canonical E s) {t : T}
    (ht : t ∈ listTorrent E s) : s.lookup (E.hash t) = E.marshal t := by
  obtain ⟨h, -, hread⟩ := mem_filterMap.mp ((hE.sort_perm _).mem_iff.mp ht)
  obtain ⟨hhash, hlookup⟩ := readTorrent_eq hE hs hread
  rw [hhash, hlookup]

theorem nodup_listTorrent (hE : E.Faithful) {s : TorrentStore H} (hs : Canonical E s) :
    ((listTorrent E s).map E.hash).Nodup := by
  rw [listTorrent, ((hE.sort_perm _).map E.hash).nodup_iff]
  have hsublist : (((E.names s).filterMap (readTorrent E s)).map E.hash).Sublist (E.names s) := by
    generalize E.names s = names
    induction names with
    | nil => exact List.Sublist.slnil
    | cons h names ih =>
      rw [filterMap_cons]
      split
      · exact ih.cons h
      · rename_i t ht
        rw [map_cons, (readTorrent_eq hE hs ht).1]
        exact ih.cons_cons h
  exact hsublist.nodup (hE.nodup_names s)

/-! ## Writing a list back -/

@[simp] theorem storeTorrent_lookup_of_ne {s : TorrentStore H} {db : T} {h : H} (hne : h ≠ E.hash db) :
    (storeTorrent E s db).lookup h = s.lookup h := by
  rw [storeTorrent]
  split
  · exact Finmap.lookup_insert_of_ne s hne
  · rfl

theorem storeTorrent_of_stored {s : TorrentStore H} {db : T} (h : s.lookup (E.hash db) = E.marshal db) :
    storeTorrent E s db = s := by
  rw [storeTorrent]
  split
  · rename_i buf hbuf
    refine Finmap.ext_lookup fun h' => ?_
    by_cases heq : h' = E.hash db
    · rw [heq, Finmap.lookup_insert, h, hbuf]
    · rw [Finmap.lookup_insert_of_ne s heq]
  · rfl

theorem storeTorrent_storeTorrent (s : TorrentStore H) (db : T) :
    storeTorrent E (storeTorrent E s db) db = storeTorrent E s db := by
  cases hmarshal : E.marshal db with
  | none => simp only [storeTorrent, hmarshal]
  | some buf => simp only [storeTorrent, hmarshal, Finmap.insert_insert]

/-- Of a list whose other torrents are stored as they are, only the torrent itself is written. -/
theorem foldl_storeTorrent {s : TorrentStore H} {list : List T} {torr : T}
    (hown : ∀ db ∈ list, E.hash db = E.hash torr → db = torr) (hmem : torr ∈ list)
    (hother : ∀ db ∈ list, E.hash db ≠ E.hash torr → s.lookup (E.hash db) = E.marshal db) :
    list.foldl (storeTorrent E) s = storeTorrent E s torr := by
  -- whichever torrents have been written, the others are still stored as they are
  have hrest : ∀ (list : List T), (∀ db ∈ list, E.hash db = E.hash torr → db = torr) →
      (∀ db ∈ list, E.hash db ≠ E.hash torr → s.lookup (E.hash db) = E.marshal db) →
      list.foldl (storeTorrent E) (storeTorrent E s torr) = storeTorrent E s torr := by
    intro list hown hother
    induction list with
    | nil => rfl
    | cons db list ih =>
      have hkeep : storeTorrent E (storeTorrent E s torr) db = storeTorrent E s torr := by
        by_cases heq : E.hash db = E.hash torr
        · rw [hown db (by simp) heq]
          exact storeTorrent_storeTorrent s torr
        · refine storeTorrent_of_stored ?_
          rw [storeTorrent_lookup_of_ne heq]
          exact hother db (by simp) heq
      rw [foldl_cons, hkeep]
      exact ih (fun db hdb => hown db (mem_cons_of_mem _ hdb))
        fun db hdb => hother db (mem_cons_of_mem _ hdb)
  induction list with
  | nil => cases hmem
  | cons db list ih =>
    have hown' := fun d hd => hown d (mem_cons_of_mem db hd)
    have hother' := fun d hd => hother d (mem_cons_of_mem db hd)
    rw [foldl_cons]
    by_cases heq : E.hash db = E.hash torr
    · rw [hown db (by simp) heq]
      exact hrest list hown' hother'
    · rw [storeTorrent_of_stored (hother db (by simp) heq)]
      refine ih hown' ?_ hother'
      rcases mem_cons.mp hmem with rfl | hmem
      · exact absurd rfl heq
      · exact hmem

/-- What `AddTorrent` writes: its own torrent, and torrents of the list it has read. -/
theorem placeTorrent_spec (torr : T) {list : List T} (hnodup : (list.map E.hash).Nodup) :
    torr ∈ placeTorrent E torr list ∧
      ∀ db ∈ placeTorrent E torr list,
        (E.hash db = E.hash torr → db = torr) ∧ (E.hash db ≠ E.hash torr → db ∈ list) := by
  rw [placeTorrent]
  split
  · rename_i i hfind
    obtain ⟨hi, hhash, -⟩ := findIdx?_eq_some_iff_getElem.mp hfind
    refine ⟨mem_set hi torr, fun db hdb => ?_⟩
    obtain ⟨j, hj, rfl⟩ := mem_iff_getElem.mp hdb
    rw [length_set] at hj
    rw [getElem_set]
    split
    · exact ⟨fun _ => rfl, fun hne => absurd rfl hne⟩
    · rename_i hij
      refine ⟨fun heq => absurd ?_ hij, fun _ => getElem_mem hj⟩
      -- two torrents of one hash in the list
      have hsame : list[i] = list[j] := by
        refine inj_on_of_nodup_map hnodup (getElem_mem hi) (getElem_mem hj) ?_
        rw [heq]
        exact of_decide_eq_true hhash
      exact (List.Nodup.getElem_inj_iff (hnodup.of_map E.hash)).mp hsame
  · rename_i hfind
    have hnone := findIdx?_eq_none_iff.mp hfind
    refine ⟨mem_append_right _ (by simp), fun db hdb => ?_⟩
    rcases mem_append.mp hdb with hdb | hdb
    · exact ⟨fun heq => absurd heq (by simpa using hnone db hdb), fun _ => hdb⟩
    · rw [mem_singleton.mp hdb]
      exact ⟨fun _ => rfl, fun hne => absurd rfl hne⟩

/-- **`AddTorrent` writes its own torrent only**, if the others are stored as they were read. -/
theorem write_add {s : TorrentStore H} {torr : T} {list : List T} (hnodup : (list.map E.hash).Nodup)
    (hother : ∀ db ∈ list, E.hash db ≠ E.hash torr → s.lookup (E.hash db) = E.marshal db) :
    (torrentSections E).write (.add torr) list s = storeTorrent E s torr := by
  obtain ⟨hmem, hspec⟩ := placeTorrent_spec torr hnodup
  exact foldl_storeTorrent (fun db hdb => (hspec db hdb).1) hmem
    fun db hdb hne => hother db ((hspec db hdb).2 hne) hne

/-- Alone it always does. -/
theorem exec_add (hE : E.Faithful) {s : TorrentStore H} (hs : Canonical E s) (torr : T) :
    (torrentSections E).exec s (.add torr) = storeTorrent E s torr :=
  write_add (nodup_listTorrent hE hs) fun _ hdb _ => lookup_of_mem_listTorrent hE hs hdb

/-! ## Any interleaving -/

theorem Canonical.store {s : TorrentStore H} (hs : Canonical E s) (torr : T) :
    Canonical E (storeTorrent E s torr) := by
  intro h b hb
  by_cases heq : h = E.hash torr
  · cases hmarshal : E.marshal torr with
    | none =>
      rw [storeTorrent, hmarshal] at hb
      exact hs h b hb
    | some buf =>
      rw [storeTorrent, hmarshal, heq, Finmap.lookup_insert] at hb
      cases hb
      exact ⟨torr, hmarshal, heq.symm⟩
  · rw [storeTorrent_lookup_of_ne heq] at hb
    exact hs h b hb

theorem Canonical.erase {s : TorrentStore H} (hs : Canonical E s) (h : H) : Canonical E (s.erase h) := by
  intro h' b hb
  by_cases heq : h' = h
  · rw [heq, Finmap.lookup_erase] at hb
    cases hb
  · rw [Finmap.lookup_erase_ne heq] at hb
    exact hs h' b hb

theorem Canonical.exec (hE : E.Faithful) {s : TorrentStore H} (hs : Canonical E s)
    (k : TorrentCall H T) : Canonical E ((torrentSections E).exec s k) := by
  cases k with
  | add torr =>
    rw [exec_add hE hs]
    exact hs.store torr
  | rem h => exact hs.erase h

/-- Another call leaves a torrent alone. -/
theorem exec_lookup_of_ne (hE : E.Faithful) {s : TorrentStore H} (hs : Canonical E s)
    {k : TorrentCall H T} {h : H} (hne : k.hash E ≠ h) :
    ((torrentSections E).exec s k).lookup h = s.lookup h := by
  cases k with
  | add torr =>
    rw [exec_add hE hs]
    exact storeTorrent_lookup_of_ne (Ne.symm hne)
  | rem h' => exact Finmap.lookup_erase_ne (Ne.symm hne)

theorem canonical_foldl (hE : E.Faithful) {s : TorrentStore H} (hs : Canonical E s)
    (order : List (TorrentCall H T)) : Canonical E (order.foldl (torrentSections E).exec s) := by
  induction order generalizing s with
  | nil => exact hs
  | cons k order ih => exact ih (hs.exec hE k)

theorem foldl_exec_lookup_of_ne (hE : E.Faithful) {s : TorrentStore H} (hs : Canonical E s) {h : H}
    {order : List (TorrentCall H T)} (hne : ∀ k ∈ order, k.hash E ≠ h) :
    (order.foldl (torrentSections E).exec s).lookup h = s.lookup h := by
  induction order generalizing s with
  | nil => rfl
  | cons k order ih =>
    rw [foldl_cons, ih (hs.exec hE k) fun k' hk' => hne k' (mem_cons_of_mem _ hk'),
      exec_lookup_of_ne hE hs (hne k (by simp))]

variable {c c' : TwoSection.Concurrent (TorrentStore H) (TorrentCall H T) (List T)}
  {s : TorrentStore H} {acts : List (TwoSection.Act (TorrentCall H T))}

/-- The store is canonical, and a list that was read has one torrent for each hash. -/
structure TorrentsInv (E : TorrentTexts H T)
    (c : TwoSection.Concurrent (TorrentStore H) (TorrentCall H T) (List T)) : Prop where
  canonical : Canonical E c.shared
  nodup : ∀ torr list, (.add torr, list) ∈ c.flight → (list.map E.hash).Nodup

theorem TorrentsInv.undisturbed (hE : E.Faithful) (h : TorrentsInv E c)
    {a : TwoSection.Act (TorrentCall H T)} (hok : Unchanged E c a) :
    (torrentSections E).Undisturbed c a := by
  cases a with
  | call k => trivial
  | finish i =>
    intro k list hflight
    cases k with
    | rem h => rfl
    | add torr =>
      rw [exec_add hE h.canonical]
      exact write_add (h.nodup torr list (mem_of_getElem? hflight)) (hok (.add torr, list) hflight)

theorem TorrentsInv.step (hE : E.Faithful) (h : TorrentsInv E c)
    {a : TwoSection.Act (TorrentCall H T)} (hok : Unchanged E c a)
    (hstep : (torrentSections E).step c a = some c') : TorrentsInv E c' := by
  have hquiet := h.undisturbed hE hok
  rcases TwoSection.step_cases hstep with ⟨k, rfl, rfl⟩ | ⟨i, k, list, rfl, hflight, rfl⟩
  · refine ⟨h.canonical, fun torr list hmem => ?_⟩
    rcases mem_append.mp hmem with hmem | hmem
    · exact h.nodup torr list hmem
    · cases mem_singleton.mp hmem
      exact nodup_listTorrent hE h.canonical
  · refine ⟨?_, fun torr list hmem => h.nodup torr list (mem_of_mem_eraseIdx hmem)⟩
    show Canonical E ((torrentSections E).write k list c.shared)
    rw [hquiet k list hflight]
    exact h.canonical.exec hE k

/-- **The calls are serial**, in the order of their last sections, if no listed torrent changes before the list
is written back. So a torrent is absent after its removal, and stored as its last addition gave it. -/
theorem torrents_serializable (hE : E.Faithful) (hs : Canonical E s)
    (hok : Lib.Each (torrentSections E).step (Unchanged E) (TwoSection.start s) acts)
    (hrun : Lib.run (torrentSections E).step (TwoSection.start s) acts = some c)
    (hflight : c.flight = []) :
    c.done.Perm (TwoSection.calls acts) ∧ c.shared = c.done.foldl (torrentSections E).exec s ∧
      (∀ before h after, c.done = before ++ .rem h :: after → (∀ k ∈ after, k.hash E ≠ h) →
        c.shared.lookup h = none) ∧
      ∀ before torr after buf, c.done = before ++ .add torr :: after →
        (∀ k ∈ after, k.hash E ≠ E.hash torr) → E.marshal torr = some buf →
          c.shared.lookup (E.hash torr) = some buf := by
  have hstart : TorrentsInv E (TwoSection.start s) := ⟨hs, by simp [TwoSection.start]⟩
  have hquiet : Lib.Each (torrentSections E).step (torrentSections E).Undisturbed
      (TwoSection.start s) acts :=
    hok.imp (fun _ _ _ hinv hok hstep => hinv.step hE hok hstep)
      (fun _ _ hinv hok => hinv.undisturbed hE hok) hstart
  obtain ⟨hperm, hshared⟩ := TwoSection.serializable hquiet hrun hflight
  refine ⟨hperm, hshared, ?_, ?_⟩
  · intro before h after hdone hafter
    have hmid := canonical_foldl hE hs before
    rw [hshared, hdone, foldl_append, foldl_cons, foldl_exec_lookup_of_ne hE (hmid.exec hE _) hafter]
    exact Finmap.lookup_erase _ _
  · intro before torr after buf hdone hafter hmarshal
    have hmid := canonical_foldl hE hs before
    rw [hshared, hdone, foldl_append, foldl_cons,
      foldl_exec_lookup_of_ne hE (hmid.exec hE _) hafter, exec_add hE hmid, storeTorrent, hmarshal]
    exact Finmap.lookup_insert _

end

/-! ## A removal between the two sections -/

namespace TwoTorrents

/-- The JSON of a torrent with one of two hashes and the timestamp 1 or 2. -/
def text (t : Bool × Bool) : Bytes :=
  Lib.ascii "\x7b\"InfoHash\":\"" ++ List.replicate 39 48 ++ [if t.1 then 49 else 48] ++
    Lib.ascii "\",\"timestamp\":" ++ [if t.2 then 50 else 49, 125]

/-- `encoding/json` on these torrents. -/
def texts : TorrentTexts Bool (Bool × Bool) where
  hash := Prod.fst
  marshal t := some (text t)
  unmarshal b := [(false, false), (false, true), (true, false), (true, true)].find? fun t => text t = b
  names s := [false, true].filter fun h => h ∈ s
  sort := id

theorem texts_faithful : texts.Faithful where
  unmarshal_marshal := by
    rintro t _ ⟨⟩
    have hread : ∀ t, texts.unmarshal (text t) = some t := by decide +kernel
    exact ⟨by simp [text], t, hread t, rfl, rfl⟩
  mem_names := by
    intro s h
    cases h <;> simp [texts]
  nodup_names s := List.Nodup.filter _ (by decide)
  sort_perm l := List.Perm.refl l

/-- One torrent is stored. -/
def stored : TorrentStore Bool := Finmap.singleton false (text (false, false))

/-- Another is added; meanwhile the first is removed. -/
def acts : List (TwoSection.Act (TorrentCall Bool (Bool × Bool))) :=
  [.call (.add (true, true)), .call (.rem false), .finish 1, .finish 0]

/-- The same calls, the removal after the addition. -/
def actsInTurn : List (TwoSection.Act (TorrentCall Bool (Bool × Bool))) :=
  [.call (.add (true, true)), .call (.rem false), .finish 0, .finish 0]

theorem stored_canonical : Canonical texts stored := by
  intro h b hb
  cases h with
  | false =>
    rw [stored, Finmap.lookup_singleton_eq] at hb
    cases hb
    exact ⟨(false, false), rfl, rfl⟩
  | true => cases hb

end TwoTorrents

/-- In turn, both calls have their effect. -/
theorem inTurn_serializable : ∃ c,
    Lib.run (torrentSections TwoTorrents.texts).step (TwoSection.start TwoTorrents.stored)
      TwoTorrents.actsInTurn = some c ∧
    c.shared = c.done.foldl (torrentSections TwoTorrents.texts).exec TwoTorrents.stored := by
  have hok : Lib.Each (torrentSections TwoTorrents.texts).step (Unchanged TwoTorrents.texts)
      (TwoSection.start TwoTorrents.stored) TwoTorrents.actsInTurn := by
    decide +kernel
  exact ⟨_, rfl, (torrents_serializable TwoTorrents.texts_faithful TwoTorrents.stored_canonical hok rfl
    rfl).2.1⟩

/-- The removed torrent is stored again, which no order of the two calls gives. -/
theorem removedBetween_returns : ∃ c,
    Lib.run (torrentSections TwoTorrents.texts).step (TwoSection.start TwoTorrents.stored)
      TwoTorrents.acts = some c ∧ c.flight = [] ∧
        c.shared.lookup false = some (TwoTorrents.text (false, false)) ∧
    ¬ ∃ order : List (TorrentCall Bool (Bool × Bool)), order.Perm (TwoSection.calls TwoTorrents.acts) ∧
      c.shared = order.foldl (torrentSections TwoTorrents.texts).exec TwoTorrents.stored := by
  refine ⟨_, rfl, rfl, by decide +kernel, ?_⟩
  rintro ⟨order, hperm, hshared⟩
  have hgone : ∀ order ∈ (TwoSection.calls TwoTorrents.acts).permutations',
      (order.foldl (torrentSections TwoTorrents.texts).exec TwoTorrents.stored).lookup false
        = none := by
    decide +kernel
  have hlookup := hgone order (mem_permutations'.mpr hperm)
  rw [← hshared] at hlookup
  exact absurd hlookup (by decide +kernel)

end TorrServer.Settings
