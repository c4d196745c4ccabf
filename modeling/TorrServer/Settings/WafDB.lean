/-
# Settings.WafDB — the lists of the firewall in `settings.json`.

`wafdb.go` keeps the lists in the entry `waf` of the settings file. It reads the file as a map of raw JSON
texts, so that the other entries are printed again as they are. `encoding/json` is a parameter, with what is
assumed of it. The write of the file succeeds here; a read may fail.
-/
import TorrServer.Lib.Checked
import TorrServer.Lib.Maps
import TorrServer.Lib.Utf8

namespace TorrServer.Settings

open Lib

/-! ## The model -/

/-- `WAFConfig`; `none` is a `nil` slice. -/
structure WAFConfig where
  version : Int := 0
  whitelist : Option (List Bytes) := none
  blacklist : Option (List Bytes) := none
  referers : Option (List Bytes) := none
  deriving DecidableEq

/-- `encoding/json` for the file, a map of raw texts that `null` makes `nil`, and for its entry `waf`;
`indented` is the text that `MarshalIndent` prints for a raw one. -/
structure WAFTexts where
  unmarshalRoot : Bytes → Except String (Option (List (String × Bytes)))
  marshalIndent : List (String × Bytes) → Except String Bytes
  indented : Bytes → Bytes
  unmarshal : Bytes → Except String WAFConfig
  marshal : WAFConfig → Except String Bytes

/-- Where the record stands. -/
def wafConfigKey : String := "waf"

/-- The version that is written. -/
def wafConfigVersion : Int := 1

/-- Every list is there, and the version is the current one. -/
def normalizeWAFConfig (cfg : WAFConfig) : WAFConfig where
  version := wafConfigVersion
  whitelist := some (cfg.whitelist.getD [])
  blacklist := some (cfg.blacklist.getD [])
  referers := some (cfg.referers.getD [])

/-- The raw text is `null`. -/
def isNull (raw : Bytes) : Bool := trimSpace raw = ascii "null"

section

variable (J : WAFTexts)

/-- `readWAFSettings`, of what `os.ReadFile` returns: an error, that there is no file, or its bytes. -/
def readWAFSettings (file : Except String (Option Bytes)) : Except String (List (String × Bytes)) := do
  match ← file with
  | none => return []
  | some data => return (← J.unmarshalRoot data).getD []

/-- `GetWAFConfig`: the configuration, and whether the file has one. -/
def getWAFConfig (file : Except String (Option Bytes)) : Except String (WAFConfig × Bool) := do
  let root ← readWAFSettings J file
  match findEntry wafConfigKey root with
  | none => return (normalizeWAFConfig {}, false)
  | some raw =>
    require (isNull raw = false) "waf setting must be an object"
    let cfg ← J.unmarshal raw
    let cfg := if cfg.version = 0 then { cfg with version := wafConfigVersion } else cfg
    return (normalizeWAFConfig cfg, true)

/-- `SetWAFConfig`: the bytes that are written. -/
def setWAFConfig (readOnly : Bool) (file : Except String (Option Bytes))
    (cfg : WAFConfig) : Except String Bytes := do
  require (readOnly = false) "read-only mode"
  let data ← J.marshal (normalizeWAFConfig cfg)
  let root ← readWAFSettings J file
  J.marshalIndent (insertEntry wafConfigKey data root)

end

/-! ## What is stored is read back -/

/-- The lines are UTF-8. -/
def WAFConfig.IsUTF8 (cfg : WAFConfig) : Prop :=
  ∀ line ∈ cfg.whitelist.getD [] ++ cfg.blacklist.getD [] ++ cfg.referers.getD [], validUTF8 line = true

/-- What is assumed of `encoding/json`: a printed map is read back with each entry indented, which changes
neither what it decodes to nor whether it is `null`; a printed configuration of UTF-8 lines is not `null`, and
is read back. -/
structure WAFTexts.Faithful (J : WAFTexts) : Prop where
  marshalIndent : ∀ m data, J.marshalIndent m = .ok data →
    ∃ m', J.unmarshalRoot data = .ok (some m') ∧ ∀ n, findEntry n m' = (findEntry n m).map J.indented
  unmarshal_indented : ∀ raw, J.unmarshal (J.indented raw) = J.unmarshal raw
  isNull_indented : ∀ raw, isNull (J.indented raw) = isNull raw
  marshal : ∀ cfg raw, cfg.IsUTF8 → J.marshal cfg = .ok raw → isNull raw = false ∧ J.unmarshal raw = .ok cfg

section

variable {J : WAFTexts} {readOnly : Bool} {file : Except String (Option Bytes)} {cfg : WAFConfig} {data : Bytes}

/-- **Only the entry `waf` is replaced**; every other one is the one that was read, indented. -/
theorem entries_of_setWAFConfig (hJ : J.Faithful) (hset : setWAFConfig J readOnly file cfg = .ok data) :
    ∃ raw root root', J.marshal (normalizeWAFConfig cfg) = .ok raw ∧ readWAFSettings J file = .ok root ∧
      readWAFSettings J (.ok (some data)) = .ok root' ∧
      ∀ n, findEntry n root' = (if n = wafConfigKey then some raw else findEntry n root).map J.indented := by
  simp only [setWAFConfig, bind_eq_ok, require_eq_ok] at hset
  obtain ⟨-, -, raw, hraw, root, hroot, hdata⟩ := hset
  obtain ⟨root', hread, hentries⟩ := hJ.marshalIndent _ _ hdata
  refine ⟨raw, root, root', hraw, hroot, ?_, fun n => ?_⟩
  · simp only [readWAFSettings, ok_bind, hread]
    rfl
  · rw [hentries, findEntry_insertEntry]

/-- **What is stored is read back**, with the lists that were `nil` empty. -/
theorem getWAFConfig_of_setWAFConfig (hJ : J.Faithful) (hutf8 : cfg.IsUTF8)
    (hset : setWAFConfig J readOnly file cfg = .ok data) :
    getWAFConfig J (.ok (some data)) = .ok (normalizeWAFConfig cfg, true) := by
  obtain ⟨raw, root, root', hraw, -, hread, hentries⟩ := entries_of_setWAFConfig hJ hset
  obtain ⟨hobject, hback⟩ := hJ.marshal (normalizeWAFConfig cfg) raw hutf8 hraw
  have hentry := hentries wafConfigKey
  rw [if_pos rfl, Option.map_some] at hentry
  rw [getWAFConfig, hread, ok_bind, hentry]
  dsimp only
  rw [require_of _ ((hJ.isNull_indented raw).trans hobject), ok_bind, hJ.unmarshal_indented, hback]
  rfl

end

end TorrServer.Settings
