/-
# Mcp.Unwatched — the next file to watch.

`SelectNextUnwatched` filters the torrents, goes once over the non-sample video files of those that match,
keeping the last one watched, sorts the files and takes the first that was not watched.

The order is `place`: by season, episode, file id and lower-cased title, and by file id behind all others where
no episode was recognised. `cmpCandidate` decides it by differences of `int`s, which is the order only as long
as no difference of two ids leaves the range (`cmpCandidate_neg`). The search of `filterSnapshots` through the
paths panics on a nil entry (`MeetsNil`).
-/
import TorrServer.Lib.Sort
import TorrServer.Mcp.Episode
import Mathlib.Data.Prod.Lex
import Mathlib.Data.List.Infix
import Mathlib.Data.List.Flatten

namespace TorrServer.Mcp

open List

open Lib (Bytes ascii trimSpace)

/-! ## The model -/

/-- A file of a torrent. -/
structure TorrentFileStat where
  id : Int
  path : Bytes
  deriving DecidableEq, Repr

/-- A torrent as the search sees it. -/
structure TorrentSnapshot where
  title : Bytes
  category : Bytes := []
  hash : Bytes
  files : List (Option TorrentFileStat)

/-- By hash, the indices that were viewed; no entry and a nil one are the same. -/
abbrev ViewedMap := Bytes → Option (Int → Bool)

/-- What the caller asks for; an empty field asks for nothing. -/
structure Filter where
  query : Bytes := []
  category : Bytes := []
  hash : Bytes := []

/-- `strings.ToLower` and `strings.EqualFold`. -/
structure Fold where
  toLower : Bytes → Bytes
  equalFold : Bytes → Bytes → Bool

/-- `strings.Contains`. -/
def contains (text sub : Bytes) : Bool := decide (sub <:+: text)

section Model

variable (F : Fold)

/-- The filter as `filterSnapshots` compares with it. -/
def Filter.normal (f : Filter) : Filter :=
  { query := F.toLower (trimSpace f.query)
    category := F.toLower (trimSpace f.category)
    hash := F.toLower (trimSpace f.hash) }

/-- The conditions on hash and category. -/
def admits (f : Filter) (s : TorrentSnapshot) : Bool :=
  if f.hash ≠ [] ∧ !F.equalFold s.hash f.hash then false
  else if f.hash = [] ∧ f.category ≠ [] ∧ f.category ≠ ascii "all" then
    let cat := F.toLower (trimSpace s.category)
    if f.category = ascii "uncategorized" then cat = []
    else if cat ≠ f.category then
      if cat ≠ [] ∨ f.query = [] then false else true
    else true
  else true

/-- The search through the paths; `none` is the panic at a nil entry. -/
def titleFromFiles (query : Bytes) : List (Option TorrentFileStat) → Option Bool
  | [] => some false
  | none :: _ => none
  | some file :: files =>
    if contains (F.toLower file.path) query then some true else titleFromFiles query files

/-- The title or the hash holds the query. -/
def named (query : Bytes) (s : TorrentSnapshot) : Bool :=
  query = [] || contains (F.toLower s.title) query || contains (F.toLower s.hash) query

/-- Whether a snapshot stays. -/
def keeps (f : Filter) (s : TorrentSnapshot) : Option Bool :=
  if !admits F f s then some false
  else if !named F f.query s then titleFromFiles F f.query s.files
  else some true

/-- The snapshots that the filter keeps; `none` is the panic. -/
def filterLoop (f : Filter) : List TorrentSnapshot → Option (List TorrentSnapshot)
  | [] => some []
  | s :: all =>
    match keeps F f s with
    | none => none
    | some kept => (filterLoop f all).map fun out => if kept then s :: out else out

/-- `filterSnapshots`; `none` is a panic. -/
def filterSnapshots (all : List TorrentSnapshot) (f : Filter) : Option (List TorrentSnapshot) :=
  filterLoop F (f.normal F) all

/-- `episodeCandidate`: a file with what its path says, and the title and hash of its torrent. -/
structure EpisodeCandidate where
  title : Bytes
  hash : Bytes
  file : TorrentFileStat
  ref : EpisodeRef
  viewed : Bool
  parsed_eq : ref = parseEpisode file.path

/-- `strings.Compare`. -/
def compare (a b : Bytes) : Int := if a = b then 0 else if a < b then -1 else 1

/-- The difference of two `int`s. -/
def sub (a b : Int) : Int := (a - b).bmod (2 ^ 64)

/-- The season `cmpCandidate` compares by: `1<<30` for a file without an episode. -/
def EpisodeCandidate.cmpSeason (c : EpisodeCandidate) : Int := if !c.ref.parsed then 2 ^ 30 else c.ref.season

/-- The episode it compares by. -/
def EpisodeCandidate.cmpEpisode (c : EpisodeCandidate) : Int :=
  if !c.ref.parsed then c.file.id else c.ref.episode

/-- By season, episode, file and title. -/
def cmpCandidate (a b : EpisodeCandidate) : Int :=
  if a.cmpSeason ≠ b.cmpSeason then sub a.cmpSeason b.cmpSeason
  else if a.cmpEpisode ≠ b.cmpEpisode then sub a.cmpEpisode b.cmpEpisode
  else if a.file.id ≠ b.file.id then sub a.file.id b.file.id
  else compare (F.toLower a.title) (F.toLower b.title)

/-- The candidates so far and the last one that was viewed. -/
structure Found where
  cands : List EpisodeCandidate := []
  last : Option EpisodeCandidate := none

/-- The new `last` after a viewed candidate. -/
def pickLast (last : Option EpisodeCandidate) (c : EpisodeCandidate) : Option EpisodeCandidate :=
  match last with
  | none => some c
  | some l => if 0 < cmpCandidate F c l then some c else some l

/-- `viewed[strings.ToLower(snap.Hash)]`, or else `viewed[snap.Hash]`. -/
def viewedFiles (viewed : ViewedMap) (hash : Bytes) : Option (Int → Bool) :=
  (viewed (F.toLower hash)).or (viewed hash)

/-- The body of the inner loop. -/
def addFile (viewed : ViewedMap) (snap : TorrentSnapshot) (found : Found) : Option TorrentFileStat → Found
  | none => found
  | some f =>
    if !isVideoFile F.toLower f.path || isSampleFile f.path then found
    else
      let isViewed := ((viewedFiles F viewed snap.hash).map (· f.id)).getD false
      let c : EpisodeCandidate :=
        { title := snap.title, hash := snap.hash, file := f, ref := parseEpisode f.path,
          viewed := isViewed, parsed_eq := rfl }
      { cands := found.cands ++ [c], last := if isViewed then pickLast F found.last c else found.last }

/-- The loops over the snapshots and their files. -/
def addAll (viewed : ViewedMap) (snaps : List TorrentSnapshot) : Found :=
  snaps.foldl (fun found snap => snap.files.foldl (addFile F viewed snap) found) {}

/-- The answer. -/
structure NextUnwatched where
  caughtUp : Bool := false
  showTitle : Bytes := []
  hash : Bytes := []
  season : Int := 0
  episode : Int := 0
  code : Bytes := []
  fileIndex : Int := 0
  filePath : Bytes := []
  remainingUnwatched : Nat := 0
  lastWatched : Option EpisodeRef := none
  lastWatchedTitle : Bytes := []
  lastWatchedPath : Bytes := []
  matchedTorrents : Nat := 0
  message : String := ""

/-- `%02d`. -/
def twoDigits (n : Int) : Bytes :=
  let digits := Lib.formatInt n
  if digits.length < 2 then 48 :: digits else digits

/-- `S01E02`, without the part that is not known. -/
def formatEpisodeCode (season episode : Int) : Bytes :=
  if season ≤ 0 ∧ episode ≤ 0 then []
  else if season ≤ 0 then ascii "E" ++ twoDigits episode
  else if episode ≤ 0 then ascii "S" ++ twoDigits season
  else ascii "S" ++ twoDigits season ++ ascii "E" ++ twoDigits episode

/-- The fields that show a candidate. -/
def NextUnwatched.shown (res : NextUnwatched) (c : EpisodeCandidate) : NextUnwatched :=
  { res with
    showTitle := c.title
    hash := c.hash
    season := c.ref.season
    episode := c.ref.episode
    code := formatEpisodeCode c.ref.season c.ref.episode
    fileIndex := c.file.id
    filePath := c.file.path }

/-- The end of `SelectNextUnwatched`, where the result is put together. -/
def result (matchedTorrents unwatched : Nat) (last next : Option EpisodeCandidate) : NextUnwatched :=
  let res : NextUnwatched := { matchedTorrents := matchedTorrents, remainingUnwatched := unwatched }
  let res :=
    match last with
    | none => res
    | some last =>
      { res with
        lastWatched := some last.ref
        lastWatchedTitle := last.title
        lastWatchedPath := last.file.path }
  match next with
  | none =>
    match last with
    | some last =>
      { res.shown last with caughtUp := true, message := "all matching episodes are marked viewed" }
    | none => { res with caughtUp := true, message := "no video files found in matching torrents" }
  | some next =>
    { res.shown next with
      caughtUp := false
      message :=
        if next.ref.parsed ∧ 0 < next.ref.season then "next unwatched episode"
        else "next unwatched video file" }

/-- `SelectNextUnwatched` behind the filter. -/
def selectFrom (snaps : List TorrentSnapshot) (viewed : ViewedMap) : NextUnwatched :=
  if snaps.length = 0 then { caughtUp := true, message := "no matching torrents" }
  else
    let found := addAll F viewed snaps
    let unwatched := (found.cands.filter (!·.viewed)).length
    let cands := Lib.sortStable (fun a b => cmpCandidate F a b < 0) found.cands
    result snaps.length unwatched found.last (cands.find? (!·.viewed))

/-- `SelectNextUnwatched`; `none` is a panic. -/
def selectNextUnwatched (all : List TorrentSnapshot) (viewed : ViewedMap) (f : Filter) : Option NextUnwatched :=
  (filterSnapshots F all f).map fun snaps => selectFrom F snaps viewed

end Model

/-! ## The order of the files -/

/-- The order: first whether no episode was recognised, then season, episode, id and title. -/
abbrev Place := Bool ×ₗ Int ×ₗ Int ×ₗ Int ×ₗ Bytes

/-- Where a file stands. -/
def place (F : Fold) (title : Bytes) (id : Int) (path : Bytes) : Place :=
  let ref := parseEpisode path
  if ref.parsed then
    toLex (false, toLex (ref.season, toLex (ref.episode, toLex (id, F.toLower title))))
  else toLex (true, toLex (0, toLex (0, toLex (id, F.toLower title))))

/-- The place of a candidate. -/
def EpisodeCandidate.place (F : Fold) (c : EpisodeCandidate) : Place :=
  Mcp.place F c.title c.file.id c.file.path

theorem sub_eq {a b : Int} (h : |a - b| < 2 ^ 63) : sub a b = a - b := by
  obtain ⟨hlo, hhi⟩ := abs_lt.1 h
  unfold sub
  apply Int.bmod_eq_of_le
  · omega
  · omega

theorem compare_neg_iff {a b : Bytes} : compare a b < 0 ↔ a < b := by
  unfold compare
  split_ifs with heq hlt
  · simp [heq]
  · simp [hlt]
  · simp [hlt]

theorem compare_pos_iff {a b : Bytes} : 0 < compare a b ↔ b < a := by
  unfold compare
  split_ifs with heq hlt
  · simp [heq]
  · simp [hlt.le]
  · simp only [Int.zero_lt_one, true_iff]
    exact lt_of_le_of_ne (not_lt.1 hlt) (Ne.symm heq)

section Order

variable {F : Fold} {a b : EpisodeCandidate}

theorem EpisodeCandidate.small (c : EpisodeCandidate) : Small c.ref.season ∧ Small c.ref.episode := by
  rw [c.parsed_eq]
  exact small_parseEpisode c.file.path

/-- One link of the comparison: by a difference of `int`s, and if there is none by the rest. -/
theorem link_iff {x y rest : Int} {P Q : Prop} (h : |x - y| < 2 ^ 63)
    (hrest : (rest < 0 ↔ P) ∧ (0 < rest ↔ Q)) :
    ((if x ≠ y then sub x y else rest) < 0 ↔ x < y ∨ x = y ∧ P) ∧
      (0 < (if x ≠ y then sub x y else rest) ↔ y < x ∨ y = x ∧ Q) := by
  rw [sub_eq h]
  split_ifs with hne
  · have hne' : ¬ y = x := fun heq => hne heq.symm
    simp [hne, hne']
  · have heq : x = y := not_not.1 hne
    simp [heq, hrest]

/-- The order in the terms `cmpCandidate` compares by. -/
theorem place_lt_iff : a.place F < b.place F ↔
    a.cmpSeason < b.cmpSeason ∨ a.cmpSeason = b.cmpSeason ∧
      (a.cmpEpisode < b.cmpEpisode ∨ a.cmpEpisode = b.cmpEpisode ∧
        (a.file.id < b.file.id ∨ a.file.id = b.file.id ∧ F.toLower a.title < F.toLower b.title)) := by
  obtain ⟨⟨has, has'⟩, -⟩ := a.small
  obtain ⟨⟨hbs, hbs'⟩, -⟩ := b.small
  have hparsed : ∀ c : EpisodeCandidate, parseEpisode c.file.path = c.ref := fun c => c.parsed_eq.symm
  unfold EpisodeCandidate.place Mcp.place EpisodeCandidate.cmpSeason EpisodeCandidate.cmpEpisode
  simp only [hparsed]
  cases hpa : a.ref.parsed <;> cases hpb : b.ref.parsed
  · simp only [Bool.not_false, if_true, Bool.false_eq_true, if_false, Prod.Lex.toLex_lt_toLex]
    generalize (F.toLower a.title < F.toLower b.title) = titles
    grind
  · have hlt : b.ref.season < 1073741824 := by omega
    have hbool : ¬ true < false := by decide
    simp [Prod.Lex.toLex_lt_toLex, hbool, hlt.not_gt, hlt.ne']
  · have hlt : a.ref.season < 1073741824 := by omega
    simp [Prod.Lex.toLex_lt_toLex, hlt]
  · simp [Prod.Lex.toLex_lt_toLex]

/-- **`cmpCandidate` is the order**, as long as the difference of the ids is an `int`. -/
theorem cmpCandidate_iff (hids : |a.file.id - b.file.id| < 2 ^ 63) :
    (cmpCandidate F a b < 0 ↔ a.place F < b.place F) ∧ (0 < cmpCandidate F a b ↔ b.place F < a.place F) := by
  obtain ⟨⟨has, has'⟩, hae, hae'⟩ := a.small
  obtain ⟨⟨hbs, hbs'⟩, hbe, hbe'⟩ := b.small
  have hseasons : |a.cmpSeason - b.cmpSeason| < 2 ^ 63 := by
    unfold EpisodeCandidate.cmpSeason
    rw [abs_lt]
    split_ifs
    all_goals omega
  rw [place_lt_iff, place_lt_iff]
  have hid :=
    link_iff hids (And.intro (@compare_neg_iff (F.toLower a.title) (F.toLower b.title)) compare_pos_iff)
  by_cases heq : a.cmpSeason = b.cmpSeason
  · -- of one season, both have an episode or neither has
    have hepisodes : |a.cmpEpisode - b.cmpEpisode| < 2 ^ 63 := by
      unfold EpisodeCandidate.cmpSeason at heq
      unfold EpisodeCandidate.cmpEpisode
      split_ifs at heq ⊢
      · exact hids
      · omega
      · omega
      · rw [abs_lt]
        omega
    exact link_iff hseasons (link_iff hepisodes hid)
  · unfold cmpCandidate
    rw [if_pos heq, sub_eq hseasons]
    simp [heq, Ne.symm heq]

end Order

/-! ## The files there are to watch -/

/-- A non-sample video file of a torrent. -/
structure Item where
  title : Bytes
  hash : Bytes
  file : TorrentFileStat
  deriving DecidableEq

section Items

variable (F : Fold)

/-- The place of a file. -/
def Item.place (i : Item) : Place := Mcp.place F i.title i.file.id i.file.path

/-- Whether the file is marked as viewed. -/
def Item.isViewed (viewed : ViewedMap) (i : Item) : Bool :=
  ((viewedFiles F viewed i.hash).map (· i.file.id)).getD false

/-- The file of an entry of the list, if it is there to watch. -/
def itemOf (title hash : Bytes) : Option TorrentFileStat → Option Item
  | none => none
  | some file => if !isVideoFile F.toLower file.path || isSampleFile file.path then none
    else some ⟨title, hash, file⟩

/-- The files of a snapshot that count. -/
def itemsOf (s : TorrentSnapshot) : List Item := s.files.filterMap (itemOf F s.title s.hash)

/-- The filter lets a torrent through: by hash, category, and the query in title, hash or a path. -/
def Matches (f : Filter) (s : TorrentSnapshot) : Bool :=
  admits F f s && (named F f.query s || s.files.any fun file =>
    (file.map fun file => contains (F.toLower file.path) f.query).getD false)

/-- The non-sample video files of the matching torrents. -/
def playable (all : List TorrentSnapshot) (f : Filter) : List Item :=
  (all.filter (Matches F (f.normal F))).flatMap (itemsOf F)

/-- The search through the paths of a torrent meets a nil entry. -/
def MeetsNil (f : Filter) (s : TorrentSnapshot) : Prop :=
  admits F f s = true ∧ named F f.query s = false ∧
    ∃ front back, s.files = front ++ none :: back ∧
      ∀ file, some file ∈ front → contains (F.toLower file.path) f.query = false

/-- The candidate made of a file. -/
def Item.candidate (viewed : ViewedMap) (i : Item) : EpisodeCandidate where
  title := i.title
  hash := i.hash
  file := i.file
  ref := parseEpisode i.file.path
  viewed := i.isViewed F viewed
  parsed_eq := rfl

end Items

/-! ## The filter -/

variable {s s' : TorrentSnapshot}

section Filtering

variable {F : Fold} {f : Filter}

variable {files : List (Option TorrentFileStat)}

theorem titleFromFiles_eq_none_iff {query : Bytes} :
    titleFromFiles F query files = none ↔ ∃ front back, files = front ++ none :: back ∧
      ∀ file, some file ∈ front → contains (F.toLower file.path) query = false := by
  induction files with
  | nil =>
    refine ⟨fun h => (nomatch h), ?_⟩
    rintro ⟨front, back, h, -⟩
    simp at h
  | cons entry files ih =>
    cases entry with
    | none => exact ⟨fun _ => ⟨[], files, rfl, fun _ h => nomatch h⟩, fun _ => rfl⟩
    | some file =>
      rw [titleFromFiles]
      by_cases hfile : contains (F.toLower file.path) query = true
      · rw [if_pos hfile]
        refine ⟨fun h => (nomatch h), ?_⟩
        rintro ⟨front, back, h, hfront⟩
        cases front with
        | nil => cases h
        | cons first front =>
          cases h
          rw [hfront file mem_cons_self] at hfile
          cases hfile
      · rw [if_neg hfile, ih]
        constructor
        · rintro ⟨front, back, rfl, hfront⟩
          refine ⟨some file :: front, back, rfl, fun file' hfile' => ?_⟩
          rcases mem_cons.1 hfile' with h | h
          · cases h
            exact Bool.not_eq_true _ ▸ hfile
          · exact hfront file' h
        · rintro ⟨front, back, h, hfront⟩
          cases front with
          | nil => cases h
          | cons first front =>
            cases h
            exact ⟨front, back, rfl, fun file' hfile' => hfront file' (mem_cons_of_mem _ hfile')⟩

theorem titleFromFiles_eq_some {query : Bytes} {found : Bool} (h : titleFromFiles F query files = some found) :
    found = files.any fun file => (file.map fun file => contains (F.toLower file.path) query).getD false := by
  induction files with
  | nil =>
    cases h
    rfl
  | cons entry files ih =>
    cases entry with
    | none => cases h
    | some file =>
      rw [titleFromFiles] at h
      rw [any_cons]
      split at h
      · rename_i hfile
        cases h
        simp [hfile]
      · rename_i hfile
        simp [ih h, hfile]

theorem keeps_eq_none_iff : keeps F f s = none ↔ MeetsNil F f s := by
  unfold keeps MeetsNil
  rw [← titleFromFiles_eq_none_iff]
  cases admits F f s <;> cases named F f.query s <;> simp

theorem keeps_eq_some {kept : Bool} (h : keeps F f s = some kept) : kept = Matches F f s := by
  unfold keeps at h
  unfold Matches
  cases hadmits : admits F f s
  · simp [hadmits] at h
    simp [h]
  · cases hnamed : named F f.query s
    · simp [hadmits, hnamed] at h
      simpa using titleFromFiles_eq_some h
    · simp [hadmits, hnamed] at h
      simp [h]

/-- **The filter** panics where a path search meets a nil entry, and otherwise keeps what matches. -/
theorem filterLoop_eq (all : List TorrentSnapshot) :
    (filterLoop F f all = none ↔ ∃ s ∈ all, MeetsNil F f s) ∧
      ∀ out, filterLoop F f all = some out → out = all.filter (Matches F f) := by
  induction all with
  | nil => exact ⟨by simp [filterLoop], fun out h => by cases h; rfl⟩
  | cons s all ih =>
    rw [filterLoop]
    cases hkeeps : keeps F f s with
    | none =>
      refine ⟨⟨fun _ => ⟨s, mem_cons_self, keeps_eq_none_iff.1 hkeeps⟩, fun _ => rfl⟩, ?_⟩
      exact fun out h => nomatch h
    | some kept =>
      have hkept := keeps_eq_some hkeeps
      have hnot : ¬ MeetsNil F f s := fun h => by
        rw [keeps_eq_none_iff.2 h] at hkeeps
        cases hkeeps
      constructor
      · simp only [Option.map_eq_none_iff, mem_cons, exists_eq_or_imp, hnot, false_or]
        exact ih.1
      · intro out h
        obtain ⟨rest, hrest, rfl⟩ := Option.map_eq_some_iff.1 h
        rw [ih.2 rest hrest, filter_cons, hkept]

end Filtering

/-! ## The loops -/

section Loops

variable {F : Fold} {viewed : ViewedMap}

/-- More files were found. -/
def Found.extend (F : Fold) (viewed : ViewedMap) (found : Found) (items : List Item) : Found where
  cands := found.cands ++ items.map (Item.candidate F viewed)
  last := ((items.map (Item.candidate F viewed)).filter (·.viewed)).foldl (pickLast F) found.last

theorem Found.extend_nil (found : Found) : found.extend F viewed [] = found := by
  unfold Found.extend
  simp

theorem Found.extend_append (found : Found) (items items' : List Item) :
    (found.extend F viewed items).extend F viewed items' = found.extend F viewed (items ++ items') := by
  unfold Found.extend
  simp [filter_append, foldl_append]

theorem addFile_eq (snap : TorrentSnapshot) (found : Found) (entry : Option TorrentFileStat) :
    addFile F viewed snap found entry = found.extend F viewed (itemOf F snap.title snap.hash entry).toList := by
  cases entry with
  | none => exact found.extend_nil.symm
  | some file =>
    rw [addFile, itemOf]
    by_cases hskip : (!isVideoFile F.toLower file.path || isSampleFile file.path) = true
    · rw [if_pos hskip, if_pos hskip]
      exact found.extend_nil.symm
    · rw [if_neg hskip, if_neg hskip]
      unfold Found.extend
      cases hviewed : ((viewedFiles F viewed snap.hash).map (· file.id)).getD false <;>
        simp [Item.candidate, Item.isViewed, hviewed]

theorem foldl_addFile (snap : TorrentSnapshot) (files : List (Option TorrentFileStat)) (found : Found) :
    files.foldl (addFile F viewed snap) found =
      found.extend F viewed (files.filterMap (itemOf F snap.title snap.hash)) := by
  induction files generalizing found with
  | nil => exact found.extend_nil.symm
  | cons entry files ih =>
    rw [foldl_cons, ih, addFile_eq, Found.extend_append]
    congr 1
    cases h : itemOf F snap.title snap.hash entry <;> simp [h]

/-- **The loops** find the files of all torrents, in order. -/
theorem addAll_eq (snaps : List TorrentSnapshot) :
    addAll F viewed snaps = ({} : Found).extend F viewed (snaps.flatMap (itemsOf F)) := by
  have hfrom : ∀ found : Found,
      snaps.foldl (fun found snap => snap.files.foldl (addFile F viewed snap) found) found =
        found.extend F viewed (snaps.flatMap (itemsOf F)) := by
    induction snaps with
    | nil => exact fun found => found.extend_nil.symm
    | cons snap snaps ih =>
      intro found
      rw [foldl_cons, ih, foldl_addFile, Found.extend_append]
      rfl
  exact hfrom {}

/-- The last candidate picked is one of the furthest. -/
theorem foldl_pickLast {cands : List EpisodeCandidate} {last : Option EpisodeCandidate}
    (hids : ∀ a ∈ last.toList ++ cands, ∀ b ∈ last.toList ++ cands, |a.file.id - b.file.id| < 2 ^ 63) :
    (cands.foldl (pickLast F) last = none ↔ last = none ∧ cands = []) ∧
      ∀ l, cands.foldl (pickLast F) last = some l →
        l ∈ last.toList ++ cands ∧ ∀ c ∈ last.toList ++ cands, c.place F ≤ l.place F := by
  induction cands generalizing last with
  | nil =>
    refine ⟨by simp, fun l h => ?_⟩
    subst h
    simp
  | cons c cands ih =>
    rw [foldl_cons]
    -- one of the two is kept, and it is as far as the other
    obtain ⟨kept, hkept, hmem, hfar⟩ : ∃ kept, pickLast F last c = some kept ∧
        kept ∈ last.toList ++ [c] ∧ ∀ c' ∈ last.toList ++ [c], c'.place F ≤ kept.place F := by
      cases last with
      | none => exact ⟨c, rfl, by simp, by simp⟩
      | some l =>
        have hcmp := (cmpCandidate_iff (F := F) (hids c (by simp) l (by simp))).2
        unfold pickLast
        by_cases hpos : 0 < cmpCandidate F c l
        · refine ⟨c, if_pos hpos, by simp, ?_⟩
          simp [(hcmp.1 hpos).le]
        · refine ⟨l, if_neg hpos, by simp, ?_⟩
          simp [not_lt.1 fun h => hpos (hcmp.2 h)]
    have hsub : ∀ c' ∈ (some kept).toList ++ cands, c' ∈ last.toList ++ c :: cands := by
      intro c' hc'
      simp only [Option.toList_some, mem_append, mem_singleton] at hc' hmem ⊢
      rcases hc' with rfl | hc'
      · rcases hmem with h | rfl
        · exact .inl h
        · exact .inr mem_cons_self
      · exact .inr (mem_cons_of_mem _ hc')
    obtain ⟨hnone, hsome⟩ := @ih (some kept) fun a ha b hb => hids a (hsub a ha) b (hsub b hb)
    rw [hkept]
    refine ⟨by simp [hnone], fun l hl => ?_⟩
    obtain ⟨hl, hfurthest⟩ := hsome l hl
    refine ⟨hsub l hl, fun c' hc' => ?_⟩
    have hkeptl := hfurthest kept (by simp)
    rcases mem_append.1 hc' with h | h
    · exact (hfar c' (mem_append_left _ h)).trans hkeptl
    · rcases mem_cons.1 h with rfl | h
      · exact (hfar c' (by simp)).trans hkeptl
      · exact hfurthest c' (mem_append_right _ h)

end Loops

/-! ## The answer -/

/-- The result shows a file. -/
structure NextUnwatched.Shows (res : NextUnwatched) (i : Item) : Prop where
  title : res.showTitle = i.title
  hash : res.hash = i.hash
  season : res.season = (parseEpisode i.file.path).season
  episode : res.episode = (parseEpisode i.file.path).episode
  fileIndex : res.fileIndex = i.file.id
  filePath : res.filePath = i.file.path

/-- The place of the file a result shows. -/
def NextUnwatched.place (F : Fold) (res : NextUnwatched) : Place :=
  Mcp.place F res.showTitle res.fileIndex res.filePath

theorem NextUnwatched.Shows.place {F : Fold} {res : NextUnwatched} {i : Item} (h : res.Shows i) :
    res.place F = i.place F := by
  unfold NextUnwatched.place Item.place
  rw [h.title, h.fileIndex, h.filePath]

/-- What a result says about the files there are to watch. -/
structure Answers (F : Fold) (viewed : ViewedMap) (items : List Item) (res : NextUnwatched) : Prop where
  caughtUp : res.caughtUp = true ↔ ∀ i ∈ items, i.isViewed F viewed = true
  /-- Otherwise it shows a file that was not viewed, and no such file is before it. -/
  next : res.caughtUp = false → ∃ i ∈ items, i.isViewed F viewed = false ∧ res.Shows i ∧
    ∀ i' ∈ items, i'.isViewed F viewed = false → i.place F ≤ i'.place F
  remaining : res.remainingUnwatched = (items.filter (!·.isViewed F viewed)).length
  noLast : res.lastWatched = none ↔ ∀ i ∈ items, i.isViewed F viewed = false
  /-- The last one watched is viewed, with no viewed file behind it; who has caught up is shown it. -/
  last : ∀ ref, res.lastWatched = some ref → ∃ i ∈ items, i.isViewed F viewed = true ∧
    ref = parseEpisode i.file.path ∧ res.lastWatchedTitle = i.title ∧ res.lastWatchedPath = i.file.path ∧
    (∀ i' ∈ items, i'.isViewed F viewed = true → i'.place F ≤ i.place F) ∧
    (res.caughtUp = true → res.Shows i)
  blank : res.caughtUp = true → res.lastWatched = none →
    res.showTitle = [] ∧ res.fileIndex = 0 ∧ res.filePath = []

section Answer

variable {F : Fold} {viewed : ViewedMap} {items : List Item}

/-- The ids of the files are close enough to be compared by a difference. -/
def IdsClose (items : List Item) : Prop :=
  ∀ i ∈ items, ∀ i' ∈ items, |i.file.id - i'.file.id| < 2 ^ 63

theorem IdsClose.candidates (h : IdsClose items) : ∀ a ∈ items.map (Item.candidate F viewed),
    ∀ b ∈ items.map (Item.candidate F viewed), |a.file.id - b.file.id| < 2 ^ 63 := by
  intro a ha b hb
  obtain ⟨i, hi, rfl⟩ := mem_map.1 ha
  obtain ⟨i', hi', rfl⟩ := mem_map.1 hb
  exact h i hi i' hi'

/-- The first unviewed candidate in the sorted list. -/
theorem find?_sortStable (hids : IdsClose items) :
    let next := (Lib.sortStable (fun a b => cmpCandidate F a b < 0) (items.map (Item.candidate F viewed))).find?
      (!·.viewed)
    (next = none ↔ ∀ i ∈ items, i.isViewed F viewed = true) ∧
      ∀ c, next = some c → ∃ i ∈ items, c = i.candidate F viewed ∧ i.isViewed F viewed = false ∧
        ∀ i' ∈ items, i'.isViewed F viewed = false → i.place F ≤ i'.place F := by
  intro next
  have hperm := Lib.perm_sortStable (fun a b => cmpCandidate F a b < 0) (items.map (Item.candidate F viewed))
  have hless : ∀ a ∈ items.map (Item.candidate F viewed), ∀ b ∈ items.map (Item.candidate F viewed),
      decide (cmpCandidate F a b < 0) = true ↔ a.place F < b.place F := by
    intro a ha b hb
    rw [decide_eq_true_eq]
    exact (cmpCandidate_iff (hids.candidates a ha b hb)).1
  have hsorted := Lib.sorted_sortStable (EpisodeCandidate.place F) hless
  constructor
  · rw [find?_eq_none]
    constructor
    · intro h i hi
      have := h _ (hperm.mem_iff.2 (mem_map_of_mem hi))
      simpa [Item.candidate] using this
    · intro h c hc
      obtain ⟨i, hi, rfl⟩ := mem_map.1 (hperm.mem_iff.1 hc)
      simpa [Item.candidate] using h i hi
  · intro c hc
    obtain ⟨i, hi, rfl⟩ := mem_map.1 (hperm.mem_iff.1 (mem_of_find?_eq_some hc))
    have hunviewed := find?_some (p := fun c : EpisodeCandidate => !c.viewed) hc
    refine ⟨i, hi, rfl, by simpa [Item.candidate] using hunviewed, fun i' hi' hunviewed' => ?_⟩
    have hmem' := hperm.mem_iff.2 (mem_map_of_mem (f := Item.candidate F viewed) hi')
    rcases Lib.rel_of_find? hsorted hc _ hmem' (by simpa [Item.candidate] using hunviewed') with heq | hle
    · exact le_of_eq (congrArg (EpisodeCandidate.place F) heq).symm
    · exact hle

theorem last_extend (hids : IdsClose items) : let last := (({} : Found).extend F viewed items).last
    (last = none ↔ ∀ i ∈ items, i.isViewed F viewed = false) ∧
      ∀ c, last = some c → ∃ i ∈ items, c = i.candidate F viewed ∧ i.isViewed F viewed = true ∧
        ∀ i' ∈ items, i'.isViewed F viewed = true → i'.place F ≤ i.place F := by
  intro last
  have hmem : ∀ c, c ∈ (items.map (Item.candidate F viewed)).filter (·.viewed) ↔
      ∃ i ∈ items, c = i.candidate F viewed ∧ i.isViewed F viewed = true := by
    intro c
    rw [mem_filter, mem_map]
    constructor
    · rintro ⟨⟨i, hi, rfl⟩, h⟩
      exact ⟨i, hi, rfl, h⟩
    · rintro ⟨i, hi, rfl, h⟩
      exact ⟨⟨i, hi, rfl⟩, h⟩
  obtain ⟨hnone, hsome⟩ := @foldl_pickLast F ((items.map (Item.candidate F viewed)).filter (·.viewed)) none
    fun a ha b hb => hids.candidates a (mem_of_mem_filter ha) b (mem_of_mem_filter hb)
  constructor
  · refine hnone.trans ?_
    rw [and_iff_right rfl, eq_nil_iff_forall_not_mem]
    constructor
    · intro h i hi
      exact Bool.eq_false_iff.2 fun hviewed => h _ ((hmem _).2 ⟨i, hi, rfl, hviewed⟩)
    · intro h c hc
      obtain ⟨i, hi, -, hviewed⟩ := (hmem c).1 hc
      rw [h i hi] at hviewed
      cases hviewed
  · intro c hc
    obtain ⟨hcmem, hfar⟩ := hsome c hc
    obtain ⟨i, hi, rfl, hviewed⟩ := (hmem c).1 hcmem
    exact ⟨i, hi, rfl, hviewed, fun i' hi' h => hfar _ ((hmem _).2 ⟨i', hi', rfl, h⟩)⟩

/-- The result is right if the two candidates are. -/
theorem answers_result {last next : Option EpisodeCandidate} (matchedTorrents : Nat)
    (hnext : (next = none ↔ ∀ i ∈ items, i.isViewed F viewed = true) ∧
      ∀ c, next = some c → ∃ i ∈ items, c = i.candidate F viewed ∧ i.isViewed F viewed = false ∧
        ∀ i' ∈ items, i'.isViewed F viewed = false → i.place F ≤ i'.place F)
    (hlast : (last = none ↔ ∀ i ∈ items, i.isViewed F viewed = false) ∧
      ∀ c, last = some c → ∃ i ∈ items, c = i.candidate F viewed ∧ i.isViewed F viewed = true ∧
        ∀ i' ∈ items, i'.isViewed F viewed = true → i'.place F ≤ i.place F) :
    Answers F viewed items
      (result matchedTorrents (items.filter (!·.isViewed F viewed)).length last next) := by
  cases next with
  | none =>
    have hcaughtUp := hnext.1.1 rfl
    cases last with
    | none =>
      have hblank := hlast.1.1 rfl
      exact ⟨⟨fun _ => hcaughtUp, fun _ => rfl⟩, fun h => (nomatch h), rfl,
        ⟨fun _ => hblank, fun _ => rfl⟩, fun _ h => (nomatch h), fun _ _ => ⟨rfl, rfl, rfl⟩⟩
    | some l =>
      obtain ⟨i, hi, rfl, hviewed, hfar⟩ := hlast.2 l rfl
      refine ⟨⟨fun _ => hcaughtUp, fun _ => rfl⟩, fun h => (nomatch h), rfl, ?_, ?_, fun _ h => (nomatch h)⟩
      · exact ⟨fun h => (nomatch h), fun h => absurd (hlast.1.2 h) (by simp)⟩
      · intro ref href
        cases href
        exact ⟨i, hi, hviewed, rfl, rfl, rfl, hfar, fun _ => ⟨rfl, rfl, rfl, rfl, rfl, rfl⟩⟩
  | some c =>
    obtain ⟨i, hi, rfl, hunviewed, hnear⟩ := hnext.2 c rfl
    have hnot : ¬ ∀ i ∈ items, i.isViewed F viewed = true := fun h => by
      rw [h i hi] at hunviewed
      cases hunviewed
    have hshows : ∀ last, (result matchedTorrents (items.filter (!·.isViewed F viewed)).length last
        (some (i.candidate F viewed))).Shows i := fun _ => ⟨rfl, rfl, rfl, rfl, rfl, rfl⟩
    refine ⟨⟨fun h => (nomatch h), fun h => absurd h hnot⟩, fun _ => ⟨i, hi, hunviewed, hshows last, hnear⟩,
      ?_, ?_, ?_, fun h => (nomatch h)⟩
    · cases last <;> rfl
    · cases last with
      | none => exact ⟨fun _ => hlast.1.1 rfl, fun _ => rfl⟩
      | some l => exact ⟨fun h => (nomatch h), fun h => absurd (hlast.1.2 h) (by simp)⟩
    · intro ref href
      cases last with
      | none => cases href
      | some l =>
        obtain ⟨il, hil, rfl, hviewed, hfar⟩ := hlast.2 l rfl
        cases href
        exact ⟨il, hil, hviewed, rfl, rfl, rfl, hfar, fun h => (nomatch h)⟩

/-- Behind the filter the answer is right. -/
theorem selectFrom_answers (snaps : List TorrentSnapshot) (hids : IdsClose (snaps.flatMap (itemsOf F))) :
    Answers F viewed (snaps.flatMap (itemsOf F)) (selectFrom F snaps viewed) := by
  unfold selectFrom
  split
  · -- no torrents, no files
    rename_i hnone
    rw [length_eq_zero_iff.1 hnone]
    exact ⟨by simp, by simp, rfl, by simp, by simp, by simp⟩
  · rw [addAll_eq]
    have hcands : (({} : Found).extend F viewed (snaps.flatMap (itemsOf F))).cands =
        (snaps.flatMap (itemsOf F)).map (Item.candidate F viewed) := nil_append _
    have hcount : (((snaps.flatMap (itemsOf F)).map (Item.candidate F viewed)).filter (!·.viewed)).length =
        ((snaps.flatMap (itemsOf F)).filter (!·.isViewed F viewed)).length := by
      rw [filter_map, length_map]
      rfl
    simp only [hcands, hcount]
    exact answers_result snaps.length (find?_sortStable hids) (last_extend hids)

end Answer

/-! ## Other orders of the torrents and files -/

/-- The same torrent with its files in another order. -/
structure TorrentSnapshot.Same (s s' : TorrentSnapshot) : Prop where
  title : s.title = s'.title
  category : s.category = s'.category
  hash : s.hash = s'.hash
  files : s.files.Perm s'.files

/-- The same torrents and files, in another order. -/
def Shuffled (all all' : List TorrentSnapshot) : Prop :=
  ∃ mid, all.Perm mid ∧ List.Forall₂ TorrentSnapshot.Same mid all'

section Shuffle

variable {F : Fold} {f : Filter} {viewed : ViewedMap}

theorem TorrentSnapshot.Same.matches (h : s.Same s') : Matches F f s = Matches F f s' := by
  have hany := @List.Perm.any_eq _ _ _
    (fun file : Option TorrentFileStat =>
      (file.map fun file => contains (F.toLower file.path) f.query).getD false) h.files
  unfold Matches admits named
  rw [h.title, h.category, h.hash, hany]

theorem TorrentSnapshot.Same.items (h : s.Same s') : (itemsOf F s).Perm (itemsOf F s') := by
  unfold itemsOf
  rw [h.title, h.hash]
  exact h.files.filterMap _

/-- Only the order of the files to watch changes. -/
theorem Shuffled.playable {all all' : List TorrentSnapshot} (h : Shuffled all all') :
    (playable F all f).Perm (playable F all' f) := by
  obtain ⟨mid, hperm, hsame⟩ := h
  have hmid : (Mcp.playable F all f).Perm (Mcp.playable F mid f) := (hperm.filter _).flatMap_right _
  refine hmid.trans ?_
  clear hperm hmid
  unfold Mcp.playable
  induction hsame with
  | nil => exact List.Perm.refl _
  | cons hs _ ih =>
    rw [filter_cons, filter_cons, hs.matches]
    split
    · exact hs.items.append ih
    · exact ih

theorem IdsClose.perm {items items' : List Item} (h : IdsClose items) (hperm : items.Perm items') :
    IdsClose items' :=
  fun i hi i' hi' => h i (hperm.mem_iff.2 hi) i' (hperm.mem_iff.2 hi')

/-- Two right answers show the same place. -/
theorem Answers.place_eq {items items' : List Item} {res res' : NextUnwatched} (h : Answers F viewed items res)
    (h' : Answers F viewed items' res') (hperm : items.Perm items') :
    res.caughtUp = res'.caughtUp ∧ res.remainingUnwatched = res'.remainingUnwatched ∧
      res.place F = res'.place F := by
  have hall : ∀ p : Item → Bool, (∀ i ∈ items, p i = true) ↔ ∀ i ∈ items', p i = true :=
    fun p => ⟨fun hi i hmem => hi i (hperm.mem_iff.2 hmem), fun hi i hmem => hi i (hperm.mem_iff.1 hmem)⟩
  have hcaughtUp : res.caughtUp = res'.caughtUp := by
    rw [Bool.eq_iff_iff, h.caughtUp, h'.caughtUp]
    exact hall _
  refine ⟨hcaughtUp, ?_, ?_⟩
  · rw [h.remaining, h'.remaining]
    exact (hperm.filter _).length_eq
  · cases hres : res.caughtUp with
    | false =>
      -- both are first among the files not viewed
      obtain ⟨i, hi, hunviewed, hshows, hfirst⟩ := h.next hres
      obtain ⟨i', hi', hunviewed', hshows', hfirst'⟩ := h'.next (hcaughtUp ▸ hres)
      rw [hshows.place, hshows'.place]
      exact le_antisymm (hfirst i' (hperm.mem_iff.2 hi') hunviewed') (hfirst' i (hperm.mem_iff.1 hi) hunviewed)
    | true =>
      have hres' := hcaughtUp ▸ hres
      have hnone : res.lastWatched = none ↔ res'.lastWatched = none := by
        rw [h.noLast, h'.noLast]
        simpa using hall (!·.isViewed F viewed)
      cases hlast : res.lastWatched with
      | none =>
        obtain ⟨htitle, hindex, hpath⟩ := h.blank hres hlast
        obtain ⟨htitle', hindex', hpath'⟩ := h'.blank hres' (hnone.1 hlast)
        unfold NextUnwatched.place
        rw [htitle, hindex, hpath, htitle', hindex', hpath']
      | some ref =>
        -- both are last among the files viewed
        obtain ⟨ref', hlast'⟩ : ∃ ref', res'.lastWatched = some ref' := by
          rw [← Option.ne_none_iff_exists']
          exact fun h => by rw [hnone.2 h] at hlast; cases hlast
        obtain ⟨i, hi, hviewed, -, -, -, hfar, hshows⟩ := h.last ref hlast
        obtain ⟨i', hi', hviewed', -, -, -, hfar', hshows'⟩ := h'.last ref' hlast'
        rw [(hshows hres).place, (hshows' hres').place]
        exact le_antisymm (hfar' i (hperm.mem_iff.1 hi) hviewed) (hfar i' (hperm.mem_iff.2 hi') hviewed')

end Shuffle

end TorrServer.Mcp
