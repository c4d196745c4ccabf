/-
# Settings.BTSets — where the settings are after any history of changes and restarts.

The settings are one entry, `Settings/BitTorr`, that is written to the store the router picked at the last
start. Which store that is, is a flag inside the entry. `SwitchSettingsStorage` sets the flag, writes the entry
to the store in use and copies it to the other one; every start reads the flag, from the JSON store if it has an
entry, copies the entry from the store the flag does not name to the one it names, and reads it there.

A copy that is left behind is not cleared when the two are equal, so it is older than the entry as soon as the
settings change again, and the next start may copy it back (`reads_last_written`).

Environment overrides and read-only mode are off. `TorrentsSavePath` may be replaced in memory at any time by
the directory walk that `SetBTSets` starts.
-/
import TorrServer.Settings.Migrate
import TorrServer.Lib.Runs

namespace TorrServer.Settings

open Lib (Bytes)

variable {k l : Backend} {v : Bytes}

/-! ## The settings -/

/-- Where posters come from. -/
structure TMDBConfig where
  apiKey : String
  apiUrl : String
  imageUrl : String
  imageUrlRu : String
  deriving DecidableEq, Repr

/-- `BTSets`: the fields that the functions below look at or change; `rest` has the others. -/
structure BTSets (ρ : Type) where
  cacheSize : Int
  readerReadAHead : Int
  preloadCache : Int
  useDisk : Bool
  torrentsSavePath : String
  retrackersMode : Int
  trackersListUrl : String
  defaultTrackers : String
  torrentDisconnectTimeout : Int
  enableBonjour : Bool
  tmdbSettings : TMDBConfig
  connectionsLimit : Int
  aggressivePeerManagement : Bool
  enableLPD : Bool
  lpdIPv6 : Bool
  responsiveMode : Bool
  showFSActiveTorr : Bool
  storeSettingsInJson : Bool
  storeViewedInJson : Bool
  rest : ρ
  deriving DecidableEq, Repr

namespace BTSets

variable {ρ : Type}

/-- The trackers of a new installation, one on a line. -/
def defaultTrackersText : String :=
  "http://retracker.local/announce\n" ++
  "http://bt4.t-ru.org/ann?magnet\n" ++
  "http://retracker.mgts.by:80/announce\n" ++
  "http://tracker.city9x.com:2710/announce\n" ++
  "http://tracker.electro-torrent.pl:80/announce\n" ++
  "http://tracker.internetwarriors.net:1337/announce\n" ++
  "http://tracker2.itzmx.com:6961/announce\n" ++
  "udp://opentor.org:2710\n" ++
  "udp://public.popcorn-tracker.org:6969/announce\n" ++
  "udp://tracker.opentrackr.org:1337/announce\n" ++
  "http://bt.svao-ix.ru/announce\n" ++
  "udp://explodie.org:6969/announce\n" ++
  "wss://tracker.btorrent.xyz\n" ++
  "wss://tracker.openwebtorrent.com"

/-- The TMDB addresses that a configuration without them gets. -/
def defaultTMDB : TMDBConfig :=
  { apiKey := "", apiUrl := "https://api.themoviedb.org", imageUrl := "https://image.tmdb.org"
    imageUrlRu := "https://imagetmdb.com" }

/-- The settings of `SetDefaultConfig`; a field it does not set is zero, in `zero` for the rest. -/
def default (zero : ρ) : BTSets ρ :=
  { cacheSize := 64 * 1024 * 1024, readerReadAHead := 95, preloadCache := 50
    useDisk := false, torrentsSavePath := "", retrackersMode := 1, trackersListUrl := ""
    defaultTrackers := defaultTrackersText, torrentDisconnectTimeout := 900, enableBonjour := true
    tmdbSettings := defaultTMDB, connectionsLimit := 80, aggressivePeerManagement := true
    enableLPD := true, lpdIPv6 := false, responsiveMode := true, showFSActiveTorr := true
    storeSettingsInJson := true, storeViewedInJson := false, rest := zero }

/-- The failsafe checks of `SetBTSets`. -/
def failsafe (s : BTSets ρ) : BTSets ρ :=
  { s with
    cacheSize := if s.cacheSize = 0 then 64 * 1024 * 1024 else s.cacheSize
    connectionsLimit := if s.connectionsLimit < 80 then 80 else s.connectionsLimit
    responsiveMode := true
    aggressivePeerManagement := true
    torrentDisconnectTimeout :=
      if s.torrentDisconnectTimeout < 300 then 900 else s.torrentDisconnectTimeout
    readerReadAHead := min (max s.readerReadAHead 5) 100
    preloadCache := min (max s.preloadCache 0) 100
    useDisk := if s.torrentsSavePath = "" then false else s.useDisk }

/-- What `loadBTSets` changes in the settings it has read; `named` is for `EnableBonjour`. -/
def upgrade (s : BTSets ρ) (named : Bool) : BTSets ρ :=
  { s with
    readerReadAHead := if s.readerReadAHead < 90 then 95 else s.readerReadAHead
    preloadCache := if s.preloadCache < 30 then 50 else s.preloadCache
    responsiveMode := true
    aggressivePeerManagement := true
    connectionsLimit := if s.connectionsLimit < 100 then 100 else s.connectionsLimit
    torrentDisconnectTimeout :=
      if s.torrentDisconnectTimeout < 300 then 900 else s.torrentDisconnectTimeout
    tmdbSettings := if s.tmdbSettings.apiUrl = "" then defaultTMDB else s.tmdbSettings
    enableBonjour := if named then s.enableBonjour else true
    defaultTrackers :=
      if s.trackersListUrl = "" ∧ s.defaultTrackers = "" then defaultTrackersText
      else s.defaultTrackers }

/-- The two flags. -/
def prefs (s : BTSets ρ) : Bool × Bool := (s.storeSettingsInJson, s.storeViewedInJson)

/-- The integers of the settings, with those of the other fields. -/
def ints (restInts : ρ → List Int) (s : BTSets ρ) : List Int :=
  [s.cacheSize, s.readerReadAHead, s.preloadCache, s.retrackersMode, s.torrentDisconnectTimeout,
    s.connectionsLimit] ++
    restInts s.rest

end BTSets

/-- JSON texts of settings: `json.Marshal`, `json.Unmarshal`, whether a text names `EnableBonjour`, and the zero
and the integers of the other fields. -/
structure SetsTexts (J ρ : Type) extends Texts J where
  marshal : BTSets ρ → Bytes
  unmarshal : Bytes → Option (BTSets ρ)
  namesBonjour : Bytes → Bool
  zero : ρ
  restInts : ρ → List Int

/-- Every integer is still in the range of `int64` after it has been a `float64`, as in the JSON store. From
`2 ^ 63 - 512` on it becomes `2 ^ 63`, which is printed as 9223372036854776000, and `json.Unmarshal` fails. -/
def SetsTexts.Fits {J ρ : Type} (E : SetsTexts J ρ) (s : BTSets ρ) : Prop :=
  ∀ n ∈ s.ints E.restInts, -(2 ^ 63 - 512) < n ∧ n < 2 ^ 63 - 512

/-- Assumed: printed settings are JSON; and printed settings that fit can be read, after any detours through the
stores, as settings that fit. -/
structure SetsTexts.Faithful {J ρ : Type} (E : SetsTexts J ρ) : Prop extends
    E.toTexts.Faithful where
  marshal_json : ∀ s, SameJson E.toTexts (E.marshal s) (E.marshal s)
  reads : ∀ s, E.Fits s → ∀ ks : List Backend,
    ∃ s', E.unmarshal (ks.foldr E.stored (E.marshal s)) = some s' ∧ E.Fits s'
  zero_ints : ∀ n ∈ E.restInts E.zero, n = 0

/-! ## The process and the two stores -/

/-- What each store has under `Settings/BitTorr`; the store in use and `BTsets`; the last text of `SetBTSets`;
and, for every start, what `loadBTSets` read and what had been written last before. -/
structure SetsState (ρ : Type) where
  json : Option Bytes
  bbolt : Option Bytes
  routed : Option Backend
  mem : Option (BTSets ρ)
  written : Option Bytes
  reads : List (Option Bytes × Option Bytes)

/-- The calls: `SetBTSets`, the directory walk's assignment, `SwitchSettingsStorage`, and a restart. -/
inductive SetsAct (ρ : Type)
  | set (sets : BTSets ρ)
  | foundCacheDir (path : String)
  | switch (useJson : Bool)
  | restart

namespace SetsState

variable {J ρ : Type}

/-- Empty stores and no process. -/
def init : SetsState ρ :=
  { json := none, bbolt := none, routed := none, mem := none, written := none, reads := [] }

/-- The entry of a store. -/
def entry (s : SetsState ρ) : Backend → Option Bytes
  | .json => s.json
  | .bbolt => s.bbolt

/-- `Set` of a store. -/
def put (s : SetsState ρ) (k : Backend) (v : Option Bytes) : SetsState ρ :=
  match k with
  | .json => { s with json := v }
  | .bbolt => { s with bbolt := v }

variable (E : SetsTexts J ρ) (s : SetsState ρ)

/-- `Get` of a store. -/
def get (k : Backend) : Option Bytes := (s.entry k).map (E.stored k)

/-- `SetBTSets` in a process that writes settings to store `k`. -/
def setBTSets (k : Backend) (sets : BTSets ρ) : SetsState ρ :=
  let sets := sets.failsafe
  { s with mem := some sets, written := some (E.marshal sets) }.put k (some (E.marshal sets))

/-- `loadExistingSettings`. -/
def loadExisting : Option (BTSets ρ) :=
  ((s.get E .json).bind E.unmarshal).orElse fun _ => (s.get E .bbolt).bind E.unmarshal

/-- `determineStoragePreferences` without environment overrides. -/
def preferences : Bool × Bool :=
  match s.loadExisting E with
  | some sets => sets.prefs
  | none => (true, false)

variable [DecidableEq J] (s : SetsState ρ)

/-- `MigrateSingle` of the entry into store `dst`, without clearing. -/
def migrateInto (dst : Backend) : SetsState ρ :=
  s.put dst (migrateSingle E.toTexts dst.other dst (s.entry dst.other) (s.entry dst)).1

/-- `SwitchSettingsStorage` in a process that writes settings to store `k`. -/
def switchSettingsStorage (k : Backend) (useJson : Bool) : SetsState ρ :=
  let s :=
    match s.mem with
    | some sets => s.setBTSets E k { sets with storeSettingsInJson := useJson }
    | none => s
  s.migrateInto E (.ofFlag useJson)

/-- The settings half of `applyCleanMigrations`. -/
def cleanMigrate (dst : Backend) : SetsState ρ :=
  let r := safeMigrate E.toTexts dst.other dst (s.entry dst.other) (s.entry dst)
  (s.put dst.other r.1).put dst r.2

/-- `loadBTSets` in a fresh process that reads settings from store `k`. -/
def loadBTSets (k : Backend) : SetsState ρ :=
  let buf := s.get E k
  let s := { s with reads := (buf, s.written) :: s.reads }
  match (buf.filter fun b => b.length > 0).bind fun b =>
      (E.unmarshal b).map fun sets => (b, sets) with
  | some (b, sets) => { s with mem := some (sets.upgrade (E.namesBonjour b)) }
  | none =>
    -- `SetDefaultConfig`
    { s with mem := some (BTSets.default E.zero) }.put k
      (some (E.marshal (BTSets.default E.zero)))

/-- The start of the server: chooses the backend, migrates and loads. -/
def initSets : SetsState ρ :=
  let prefs := s.preferences E
  let k := Backend.ofFlag prefs.1
  let s := s.cleanMigrate E k
  let s := { s with routed := some k, mem := none }.loadBTSets E k
  match s.mem with
  | some sets =>
    if sets.prefs = prefs then s
    else s.setBTSets E k
      { sets with storeSettingsInJson := prefs.1, storeViewedInJson := prefs.2 }
  | none => s

/-- One call; before the first start there is no process to call. -/
def step : SetsAct ρ → Option (SetsState ρ)
  | .set sets => s.routed.map fun k => s.setBTSets E k sets
  | .foundCacheDir path =>
    s.routed.map fun _ => { s with mem := s.mem.map fun sets =>
      if sets.useDisk then { sets with torrentsSavePath := path } else sets }
  | .switch useJson => s.routed.map fun k => s.switchSettingsStorage E k useJson
  | .restart => some (s.initSets E)

/-! ## Histories that lose nothing -/

/-- The condition on a start: if the entries of the stores differ, the migration leaves the entry in use alone
and reads it, or copies it; so it goes into that store with texts of one length, or out of it with different
lengths. -/
def RestartSafe : Prop :=
  ∀ j b, s.json = some j → s.bbolt = some b → SameJson E.toTexts j b ∨
    (s.routed = some (Backend.ofFlag (s.preferences E).1) ↔
      (E.stored .json j).length = (E.stored .bbolt b).length)

/-- The condition on a switch: if it goes to the store in use, the other has no entry, or one that counts as
equal to the one the switch writes. -/
def SwitchSafe (useJson : Bool) : Prop :=
  s.routed = some (.ofFlag useJson) →
    ∀ v ∈ s.entry (Backend.ofFlag useJson).other, ∀ sets ∈ s.mem,
      isByteArraysEqualJson E.toTexts (E.stored (Backend.ofFlag useJson).other v)
        (E.stored (.ofFlag useJson)
          (E.marshal { sets with storeSettingsInJson := useJson }.failsafe)) = some true

/-- The condition on a step. -/
def Safe : SetsAct ρ → Prop
  | .set sets => E.Fits sets
  | .foundCacheDir _ => True
  | .switch useJson => s.SwitchSafe E useJson
  | .restart => s.RestartSafe E

/-- What every start so far read is what `SetBTSets` had written last, as JSON. -/
def ReadsLastWritten : Prop :=
  ∀ r ∈ s.reads, ∀ w, r.2 = some w → ∃ b, r.1 = some b ∧ SameJson E.toTexts b w

/-- A text of settings that fit, after any detours through the stores. -/
def IsSets (v : Bytes) : Prop :=
  ∃ sets, ∃ ks : List Backend, E.Fits sets ∧ v = ks.foldr E.stored (E.marshal sets)

/-- Entries are texts of settings, and the store in use has the entry that was written last. -/
structure Inv : Prop where
  valid : ∀ k v, s.entry k = some v → IsSets E v
  fresh : s.routed = none → (∀ k, s.entry k = none) ∧ s.written = none
  mem : s.routed.isSome = true → ∃ sets, s.mem = some sets ∧ E.Fits sets
  current : ∀ k, s.routed = some k → ∃ v, s.entry k = some v ∧
    ∀ w, s.written = some w → SameJson E.toTexts v w
  reads : s.ReadsLastWritten E

end SetsState

namespace SetsState

variable {J ρ : Type} {E : SetsTexts J ρ}

theorem entry_put_of_ne (s : SetsState ρ) (v : Option Bytes) (h : l ≠ k) : (s.put k v).entry l = s.entry l := by
  cases k <;> cases l <;> first | exact absurd rfl h | rfl

section

variable (s : SetsState ρ) (k : Backend) (v : Option Bytes)

@[simp] theorem entry_put_self : (s.put k v).entry k = v := by
  cases k <;> rfl

theorem entry_put_other : (s.put k v).entry k.other = s.entry k.other := by
  cases k <;> rfl

@[simp] theorem put_routed : (s.put k v).routed = s.routed := by
  cases k <;> rfl

@[simp] theorem put_mem : (s.put k v).mem = s.mem := by
  cases k <;> rfl

@[simp] theorem put_written : (s.put k v).written = s.written := by
  cases k <;> rfl

@[simp] theorem put_reads : (s.put k v).reads = s.reads := by
  cases k <;> rfl

end

theorem IsSets.json (hE : E.Faithful) (h : IsSets E v) : SameJson E.toTexts v v := by
  obtain ⟨sets, ks, -, rfl⟩ := h
  induction ks with
  | nil => exact hE.marshal_json sets
  | cons k ks ih => exact (sameJson_stored hE.toFaithful k ih).refl_left

theorem isSets_marshal {sets : BTSets ρ} (h : E.Fits sets) : IsSets E (E.marshal sets) := ⟨sets, [], h, rfl⟩

theorem IsSets.stored (h : IsSets E v) (k : Backend) : IsSets E (E.stored k v) := by
  obtain ⟨sets, ks, hfits, rfl⟩ := h
  exact ⟨sets, k :: ks, hfits, rfl⟩

theorem IsSets.reads (hE : E.Faithful) (h : IsSets E v) : ∃ sets, E.unmarshal v = some sets ∧ E.Fits sets := by
  obtain ⟨sets, ks, hfits, rfl⟩ := h
  exact hE.reads sets hfits ks

/-! Whatever the calls change in the settings, the integers stay in range. -/

theorem fits_failsafe {sets : BTSets ρ} (h : E.Fits sets) : E.Fits sets.failsafe := by
  simp only [SetsTexts.Fits, BTSets.ints, List.cons_append, List.nil_append, List.forall_mem_cons] at h ⊢
  obtain ⟨h₁, h₂, h₃, h₄, h₅, h₆, hrest⟩ := h
  refine ⟨?_, ?_, ?_, h₄, ?_, ?_, hrest⟩ <;> dsimp only [BTSets.failsafe] <;> grind

theorem fits_upgrade {sets : BTSets ρ} (h : E.Fits sets) (named : Bool) : E.Fits (sets.upgrade named) := by
  simp only [SetsTexts.Fits, BTSets.ints, List.cons_append, List.nil_append, List.forall_mem_cons] at h ⊢
  obtain ⟨h₁, h₂, h₃, h₄, h₅, h₆, hrest⟩ := h
  refine ⟨h₁, ?_, ?_, h₄, ?_, ?_, hrest⟩ <;> dsimp only [BTSets.upgrade] <;> grind

theorem fits_default (hE : E.Faithful) : E.Fits (BTSets.default E.zero) := by
  intro n hn
  rcases List.mem_append.1 hn with hn | hn
  · simp only [BTSets.default, List.mem_cons, List.not_mem_nil, or_false] at hn
    omega
  · rw [hE.zero_ints n hn]
    decide

theorem Inv.init : Inv E (init : SetsState ρ) := by
  refine ⟨?_, ?_, ?_, ?_, ?_⟩
  · rintro (_ | _) v h <;> cases h
  · exact fun _ => ⟨by rintro (_ | _) <;> rfl, rfl⟩
  · exact fun h => absurd h (by simp [SetsState.init])
  · exact fun k h => absurd h (by simp [SetsState.init])
  · exact fun r h => absurd h (by simp [SetsState.init])

/-- **An entry is stored or dropped.** It leaves the store in use with the entry written last. -/
theorem inv_put {s : SetsState ρ} {v : Option Bytes} (hk : s.routed = some k)
    (hvalid : ∀ m u, s.entry m = some u → IsSets E u) (hv : ∀ u, v = some u → IsSets E u)
    (hmem : ∃ sets, s.mem = some sets ∧ E.Fits sets)
    (hcurrent : ∃ u, (s.put l v).entry k = some u ∧ ∀ w, s.written = some w → SameJson E.toTexts u w)
    (hreads : s.ReadsLastWritten E) : Inv E (s.put l v) := by
  refine ⟨fun m u hu => ?_, fun hn => ?_, fun _ => ?_, fun m hm => ?_, fun r hr => ?_⟩
  · by_cases hm : m = l
    · subst hm
      rw [entry_put_self] at hu
      exact hv u hu
    · rw [entry_put_of_ne _ _ hm] at hu
      exact hvalid m u hu
  · rw [put_routed, hk] at hn
    cases hn
  · rwa [put_mem]
  · rw [put_routed, hk] at hm
    cases hm
    rwa [put_written]
  · rw [put_reads] at hr
    exact hreads r hr

theorem Inv.setBTSets (hE : E.Faithful) {s : SetsState ρ} (h : Inv E s) (hk : s.routed = some k)
    {sets : BTSets ρ} (hfits : E.Fits sets) : Inv E (s.setBTSets E k sets) := by
  refine inv_put hk h.valid ?_ ⟨sets.failsafe, rfl, fits_failsafe hfits⟩ ⟨_, entry_put_self _ _ _, ?_⟩ h.reads
  · rintro _ ⟨⟩
    exact isSets_marshal (fits_failsafe hfits)
  · rintro _ ⟨⟩
    exact hE.marshal_json _

/-- `loadBTSets` of a store with the last entry, or of an empty one before the first write. -/
theorem inv_loadBTSets (hE : E.Faithful) {s : SetsState ρ} (hk : s.routed = some k)
    (hvalid : ∀ l v, s.entry l = some v → IsSets E v) (hreads : s.ReadsLastWritten E)
    (hcur : (s.entry k = none ∧ s.written = none) ∨
      ∃ u, s.entry k = some u ∧ ∀ w, s.written = some w → SameJson E.toTexts u w) :
    Inv E (s.loadBTSets E k) ∧ (s.loadBTSets E k).routed = some k := by
  rcases hcur with ⟨hnone, hw⟩ | ⟨u, hu, hw⟩
  · -- nothing to read: the defaults are written
    have hload : s.loadBTSets E k =
        { s with
          reads := (none, s.written) :: s.reads
          mem := some (BTSets.default E.zero) }.put k
            (some (E.marshal (BTSets.default E.zero))) := by
      simp [loadBTSets, get, hnone]
    rw [hload]
    refine ⟨inv_put hk hvalid ?_ ⟨_, rfl, fits_default hE⟩ ⟨_, entry_put_self _ _ _, fun w hw' => ?_⟩ ?_,
      by rw [put_routed]; exact hk⟩
    · rintro _ ⟨⟩
      exact isSets_marshal (fits_default hE)
    · exact absurd (hw.symm.trans hw') (by simp)
    · intro r hr w hrw
      rcases List.mem_cons.mp hr with rfl | hr
      · exact absurd (hw.symm.trans hrw) (by simp)
      · exact hreads r hr w hrw
  · have hsu := hvalid k u hu
    have hsame := sameJson_stored hE.toFaithful k (hsu.json hE)
    obtain ⟨sets, hun, hfits⟩ := (hsu.stored k).reads hE
    have hlen : 0 < (E.stored k u).length :=
      List.length_pos_of_ne_nil (hsame.ne_nil hE.toFaithful)
    have hload : s.loadBTSets E k =
        { s with
          reads := (some (E.stored k u), s.written) :: s.reads
          mem := some (sets.upgrade (E.namesBonjour (E.stored k u))) } := by
      simp [loadBTSets, get, hu, hun, hlen, Option.filter_some]
    rw [hload]
    refine ⟨⟨hvalid, ?_, ?_, ?_, ?_⟩, hk⟩
    · intro hn
      exact absurd (hk.symm.trans hn) (by simp)
    · exact fun _ => ⟨_, rfl, fits_upgrade hfits _⟩
    · intro l hl
      cases hk.symm.trans hl
      exact ⟨u, hu, hw⟩
    · intro r hr w hrw
      rcases List.mem_cons.mp hr with rfl | hr
      · exact ⟨_, rfl, hsame.trans (hw w hrw)⟩
      · exact hreads r hr w hrw

section Migration

variable [DecidableEq J]

theorem isSets_migrateSingle {src dst : Backend} {s t : Option Bytes}
    (hs : ∀ v, s = some v → IsSets E v) (ht : ∀ v, t = some v → IsSets E v) :
    ∀ v, (migrateSingle E.toTexts src dst s t).1 = some v → IsSets E v := by
  intro v hv
  cases s with
  | none => exact ht v hv
  | some u =>
    have hcopy : IsSets E (E.stored src u) := (hs u rfl).stored src
    cases t with
    | none =>
      cases hv
      exact hcopy
    | some w =>
      by_cases heq : isByteArraysEqualJson E.toTexts (E.stored src u) (E.stored dst w) =
          some true
      · rw [migrateSingle_of_equal heq] at hv
        exact ht v hv
      · rw [migrateSingle_of_not_equal heq] at hv
        cases hv
        exact hcopy

theorem Inv.switch (hE : E.Faithful) {s : SetsState ρ} (h : Inv E s) (hk : s.routed = some k) {useJson : Bool}
    (hsafe : s.SwitchSafe E useJson) :
    Inv E (s.switchSettingsStorage E k useJson) := by
  obtain ⟨sets, hmem, hfits⟩ := h.mem (by simp [hk])
  have hfits : E.Fits { sets with storeSettingsInJson := useJson } := hfits
  have h₁ := h.setBTSets hE hk hfits
  have hk₁ : (s.setBTSets E k { sets with storeSettingsInJson := useJson }).routed = some k := by
    rw [SetsState.setBTSets, put_routed]
    exact hk
  simp only [switchSettingsStorage, hmem, migrateInto]
  by_cases hdst : Backend.ofFlag useJson = k
  · -- the target is the store in use, which keeps the entry just written
    subst hdst
    have hentry : (s.setBTSets E (.ofFlag useJson)
        { sets with storeSettingsInJson := useJson }).entry (Backend.ofFlag useJson).other =
          s.entry (Backend.ofFlag useJson).other := by
      rw [SetsState.setBTSets, entry_put_other]
      rfl
    have hcur : (s.setBTSets E (.ofFlag useJson)
        { sets with storeSettingsInJson := useJson }).entry (.ofFlag useJson) =
          some (E.marshal { sets with storeSettingsInJson := useJson }.failsafe) :=
      entry_put_self _ _ _
    have hkeep : (migrateSingle E.toTexts (Backend.ofFlag useJson).other (.ofFlag useJson)
        (s.entry (Backend.ofFlag useJson).other)
        (some (E.marshal { sets with storeSettingsInJson := useJson }.failsafe))).1 =
          some (E.marshal { sets with storeSettingsInJson := useJson }.failsafe) := by
      cases hother : s.entry (Backend.ofFlag useJson).other with
      | none => rfl
      | some v => rw [migrateSingle_of_equal (hsafe hk v hother sets hmem)]
    rw [hentry, hcur, hkeep]
    refine inv_put hk₁ h₁.valid ?_ (h₁.mem (by simp [hk₁])) ⟨_, entry_put_self _ _ _, fun w hw => ?_⟩ h₁.reads
    · rintro _ ⟨⟩
      exact isSets_marshal (fits_failsafe hfits)
    · rw [SetsState.setBTSets, put_written] at hw
      cases hw
      exact hE.marshal_json _
  · obtain ⟨u, hu, hw⟩ := h₁.current k hk₁
    refine inv_put hk₁ h₁.valid ?_ (h₁.mem (by simp [hk₁])) ⟨u, ?_, hw⟩ h₁.reads
    · exact isSets_migrateSingle (fun v hv => h₁.valid _ v hv) (fun v hv => h₁.valid _ v hv)
    · rw [entry_put_of_ne _ _ (Ne.symm hdst)]
      exact hu

/-- **A start keeps the entry.** After the migration the target has, as JSON, the entry that was in use. -/
theorem entry_cleanMigrate (hE : E.Faithful) {s : SetsState ρ} (h : Inv E s) {r : Backend}
    (hr : s.routed = some r) (hsafe : s.RestartSafe E) (hv : s.entry r = some v) :
    ∃ u, (s.cleanMigrate E (.ofFlag (s.preferences E).1)).entry (.ofFlag (s.preferences E).1) =
      some u ∧ SameJson E.toTexts u v := by
  have hsv := h.valid r v hv
  generalize hpref : Backend.ofFlag (s.preferences E).1 = k
  -- the condition, for whichever of the two is the store in use
  have hcond : ∀ u, s.entry r.other = some u → SameJson E.toTexts u v ∨
      (r = k ↔ (E.stored r.other u).length = (E.stored r v).length) := by
    intro u hu
    cases r with
    | json =>
      refine (hsafe v u hv hu).imp SameJson.symm fun hiff => ?_
      rw [hr, hpref, Option.some.injEq] at hiff
      exact hiff.trans eq_comm
    | bbolt =>
      refine (hsafe u v hu hv).imp_right fun hiff => ?_
      rw [hr, hpref, Option.some.injEq] at hiff
      exact hiff
  have hmig : (s.cleanMigrate E k).entry k =
      (migrateSingle E.toTexts k.other k (s.entry k.other) (s.entry k)).1 :=
    entry_put_self _ _ _
  rw [hmig]
  by_cases hkr : r = k
  · subst hkr
    refine ⟨v, ?_, hsv.json hE⟩
    cases hother : s.entry r.other with
    | none => rw [migrateSingle_none, hv]
    | some u =>
      have hsu := h.valid _ u hother
      have heq : isByteArraysEqualJson E.toTexts (E.stored r.other u) (E.stored r v) =
          some true := by
        rw [isByteArraysEqualJson_stored_iff hE.toFaithful _ _ (hsu.json hE) (hsv.json hE)]
        rcases hcond u hother with hs | hlen
        · exact .inr hs
        · exact .inl (hlen.mp rfl)
      rw [hv, migrateSingle_of_equal heq]
  · -- the migration goes out of the store in use
    have hro : k = r.other := by
      cases r <;> cases k <;> first | rfl | exact absurd rfl hkr
    have hrk : k.other = r := by
      subst hro
      cases r <;> rfl
    rw [hrk, hv]
    have hcopy : SameJson E.toTexts (E.stored r v) v := sameJson_stored hE.toFaithful r (hsv.json hE)
    cases hk : s.entry k with
    | none => exact ⟨_, rfl, hcopy⟩
    | some u =>
      have hsu := h.valid _ u hk
      by_cases heq : isByteArraysEqualJson E.toTexts (E.stored r v) (E.stored k u) = some true
      · refine ⟨u, by rw [migrateSingle_of_equal heq], ?_⟩
        rw [isByteArraysEqualJson_stored_iff hE.toFaithful _ _ (hsv.json hE) (hsu.json hE)] at heq
        rcases hcond u (hro ▸ hk) with hs | hlen
        · exact hs
        · rcases heq with heq | hs
          · exact absurd (hlen.mpr (hro ▸ heq.symm)) hkr
          · exact hs.symm
      · exact ⟨_, by rw [migrateSingle_of_not_equal heq], hcopy⟩

theorem isSets_cleanMigrate {s : SetsState ρ} (h : Inv E s) (k : Backend) :
    ∀ l v, (s.cleanMigrate E k).entry l = some v → IsSets E v := by
  intro l v hv
  by_cases hl : l = k
  · subst hl
    rw [cleanMigrate, entry_put_self] at hv
    exact isSets_migrateSingle (fun u hu => h.valid _ u hu) (fun u hu => h.valid _ u hu) v hv
  · have hother : l = k.other := by
      cases l <;> cases k <;> first | rfl | exact absurd rfl hl
    subst hother
    rw [cleanMigrate, entry_put_other, entry_put_self, safeMigrate] at hv
    split at hv
    · cases hv
    · exact h.valid _ v hv

theorem Inv.initSets (hE : E.Faithful) {s : SetsState ρ} (h : Inv E s) (hsafe : s.RestartSafe E) :
    Inv E (s.initSets E) := by
  generalize hk : Backend.ofFlag (s.preferences E).1 = k
  have hwritten : (s.cleanMigrate E k).written = s.written := by simp [cleanMigrate]
  have hcur : ((s.cleanMigrate E k).entry k = none ∧ s.written = none) ∨
      ∃ u, (s.cleanMigrate E k).entry k = some u ∧
        ∀ w, s.written = some w → SameJson E.toTexts u w := by
    cases hr : s.routed with
    | none =>
      obtain ⟨hentry, hw⟩ := h.fresh hr
      refine .inl ⟨?_, hw⟩
      rw [cleanMigrate, entry_put_self, safeMigrate, hentry, hentry]
      rfl
    | some r =>
      obtain ⟨v, hv, hw⟩ := h.current r hr
      obtain ⟨u, hu, huv⟩ := entry_cleanMigrate hE h hr hsafe hv
      rw [hk] at hu
      exact .inr ⟨u, hu, fun w hw' => huv.trans (hw w hw')⟩
  have hreads : (s.cleanMigrate E k).ReadsLastWritten E := by
    intro r hr
    simp only [cleanMigrate, put_reads] at hr
    exact h.reads r hr
  rw [← hwritten] at hcur
  obtain ⟨hload, hroute⟩ := inv_loadBTSets hE
    (s := { s.cleanMigrate E k with routed := some k, mem := none }) rfl
    (isSets_cleanMigrate h k) hreads hcur
  simp only [SetsState.initSets, hk]
  -- the flags in the entry may differ from those the start went by, and are then written anew
  split
  · rename_i sets hmem
    split
    · exact hload
    · obtain ⟨sets', hmem', hfits⟩ := hload.mem (by rw [hroute]; rfl)
      cases hmem.symm.trans hmem'
      exact hload.setBTSets hE hroute hfits
  · exact hload

theorem Inv.step (hE : E.Faithful) {s s' : SetsState ρ} {a : SetsAct ρ} (h : Inv E s)
    (hsafe : s.Safe E a) (hs : s.step E a = some s') : Inv E s' := by
  cases a with
  | set sets =>
    obtain ⟨k, hk, rfl⟩ := Option.map_eq_some_iff.mp hs
    exact h.setBTSets hE hk hsafe
  | foundCacheDir path =>
    obtain ⟨k, hk, rfl⟩ := Option.map_eq_some_iff.mp hs
    refine ⟨h.valid, h.fresh, fun hroute => ?_, h.current, h.reads⟩
    obtain ⟨sets, hmem, hfits⟩ := h.mem hroute
    refine ⟨_, congrArg (Option.map _) hmem, ?_⟩
    dsimp only
    split
    · exact hfits
    · exact hfits
  | switch useJson =>
    obtain ⟨k, hk, rfl⟩ := Option.map_eq_some_iff.mp hs
    exact h.switch hE hk hsafe
  | restart =>
    cases hs
    exact h.initSets hE hsafe

/-- **Safe histories lose no settings**: every start reads, as JSON, the entry that `SetBTSets` wrote last
before it. -/
theorem reads_last_written (hE : E.Faithful) (acts : List (SetsAct ρ))
    (hsafe : Lib.Each (SetsState.step E) (SetsState.Safe E) init acts) :
    Lib.Along (SetsState.step E) (SetsState.ReadsLastWritten E) init acts := by
  have hinv : Lib.Along (SetsState.step E) (Inv E) init acts :=
    Lib.Each.along (fun _ _ _ h hok hs => h.step hE hok hs) Inv.init hsafe
  exact Lib.Along.mono (fun _ h => h.reads) hinv

end Migration

/-! ## Two histories -/

/-- The beginning of a text, up to the number. -/
def numberText : Bytes := Lib.ascii "\x7b\"PreloadCache\":"

/-- The end of a text, with the two flags. -/
def flagsText (flags : Bool × Bool) : Bytes :=
  let bool (b : Bool) := Lib.ascii (if b then "true" else "false")
  Lib.ascii ",\"StoreSettingsInJson\":" ++ bool flags.1 ++
    (Lib.ascii ",\"StoreViewedInJson\":" ++ bool flags.2 ++ Lib.ascii "\x7d")

/-- JSON texts of a number and the two flags. The keys are in their order, so that the stores return the texts
as they are. -/
def flagTexts : SetsTexts Bytes Unit where
  parse b := if b = [] then none else some b
  stored _ v := v
  marshal s := numberText ++ (Lib.formatInt s.preloadCache ++ flagsText s.prefs)
  unmarshal b := do
    guard (numberText.isPrefixOf b)
    let rest := b.drop numberText.length
    let flags ← [(true, true), (true, false), (false, true), (false, false)].find? fun flags =>
      flagsText flags = rest.dropWhile (· ≠ 44)
    let n ← Lib.parseInt (rest.takeWhile (· ≠ 44))
    return { BTSets.default () with
      storeSettingsInJson := flags.1, storeViewedInJson := flags.2, preloadCache := n }
  namesBonjour _ := true
  zero := ()
  restInts _ := []

/-- The number in such a text ends at the comma. -/
theorem formatInt_ne_comma (n : Int) : ∀ b ∈ Lib.formatInt n, decide (b ≠ 44) = true := by
  intro b hb
  rw [decide_eq_true_eq]
  rintro rfl
  rcases Lib.formatInt_bytes n 44 hb with h | h <;> cases h

theorem flagTexts_unmarshal {s : BTSets Unit} (hlo : -2 ^ 63 ≤ s.preloadCache) (hhi : s.preloadCache < 2 ^ 63) :
    flagTexts.unmarshal (flagTexts.marshal s) = some { BTSets.default () with
      storeSettingsInJson := s.storeSettingsInJson, storeViewedInJson := s.storeViewedInJson
      preloadCache := s.preloadCache } := by
  have hcomma : ∀ flags, (flagsText flags).takeWhile (· ≠ 44) = [] ∧
      (flagsText flags).dropWhile (· ≠ 44) = flagsText flags := by
    rintro ⟨_ | _, _ | _⟩ <;> decide
  have hfind : [(true, true), (true, false), (false, true), (false, false)].find?
      (fun flags => flagsText flags = flagsText s.prefs) = some s.prefs := by
    generalize s.prefs = flags
    revert flags
    decide
  simp only [flagTexts]
  rw [List.drop_left, List.takeWhile_append_of_pos (formatInt_ne_comma _),
    List.dropWhile_append_of_pos (formatInt_ne_comma _), (hcomma _).1, (hcomma _).2, hfind, List.append_nil]
  simp [Lib.parseInt_formatInt hlo hhi, BTSets.prefs]

theorem flagTexts_faithful : flagTexts.Faithful where
  parse_nil := rfl
  parse_stored _ _ _ h := h
  marshal_json s := ⟨flagTexts.marshal s, rfl, rfl⟩
  reads s h ks := by
    have hsame : ks.foldr flagTexts.stored (flagTexts.marshal s) = flagTexts.marshal s := by
      induction ks with
      | nil => rfl
      | cons k ks ih => exact ih
    have hnumber := h s.preloadCache (by simp [BTSets.ints])
    rw [hsame]
    refine ⟨_, flagTexts_unmarshal (by omega) (by omega), fun n hn => ?_⟩
    simp only [BTSets.ints, BTSets.default, flagTexts, List.append_nil, List.mem_cons, List.not_mem_nil,
      or_false] at hn
    omega
  zero_ints n hn := by cases hn

/-- The default settings with another number, kept in the BBolt store. -/
def hundred : BTSets Unit :=
  { BTSets.default () with preloadCache := 100, storeSettingsInJson := false }

/-- The default settings, kept in the BBolt store. -/
def fifty : BTSets Unit := { BTSets.default () with storeSettingsInJson := false }

/-- The settings change, then the storage, then a restart. -/
def changeThenSwitch : List (SetsAct Unit) := [.restart, .set hundred, .switch false, .restart]

theorem changeThenSwitch_reads_last_written :
    ∃ s, Lib.run (SetsState.step flagTexts) init changeThenSwitch = some s ∧
      s.ReadsLastWritten flagTexts ∧
      s.reads.head? = some (some (flagTexts.marshal hundred), some (flagTexts.marshal hundred)) := by
  have hsafe : Lib.Each (SetsState.step flagTexts) (SetsState.Safe flagTexts) init
      changeThenSwitch := by
    refine (Lib.each_cons_some rfl).mpr ⟨?_, ?_⟩
    · intro j b hj
      cases hj
    refine (Lib.each_cons_some rfl).mpr ⟨show ∀ n ∈ _, _ from by decide, ?_⟩
    refine (Lib.each_cons_some rfl).mpr ⟨?_, ?_⟩
    · intro h
      exact absurd h (by decide)
    refine (Lib.each_cons_some rfl).mpr ⟨?_, trivial⟩
    -- the two copies are the same text
    intro j b hj hb
    cases hj
    cases hb
    exact .inl ⟨_, rfl, rfl⟩
  have halong := reads_last_written flagTexts_faithful changeThenSwitch hsafe
  exact ⟨_, rfl, halong.last rfl, by decide⟩

/-- The storage changes, a restart, then the settings, and another restart. -/
def switchThenChange : List (SetsAct Unit) :=
  [.restart, .switch false, .restart, .set hundred, .restart]

/-- The copy that the switch left in the JSON store overwrites the change. -/
theorem switchThenChange_reads_old :
    ∃ s, Lib.run (SetsState.step flagTexts) init switchThenChange = some s ∧
      s.reads.head? = some (some (flagTexts.marshal fifty), some (flagTexts.marshal hundred)) ∧
      ¬ s.ReadsLastWritten flagTexts := by
  refine ⟨_, rfl, by decide, ?_⟩
  intro h
  obtain ⟨b, hb, j, hj, hw⟩ :=
    h (some (flagTexts.marshal fifty), some (flagTexts.marshal hundred)) (by decide) _ rfl
  cases hb
  cases hj
  cases hw

end SetsState

end TorrServer.Settings
