/-
# Mcp.Episode — the season and the episode in a file path.

`ParseEpisode` tries patterns for `S01E02`, `1x02` and words such as "season" and "серия". The patterns have the
flag `(?i)`: a letter stands for its whole orbit under `unicode.SimpleFold`, and a class that is negated leaves
out the orbits of what it names.

A group of digits is at most four long, so no season a path can name comes near the `1<<30` that `cmpCandidate`
puts in place of an unrecognised one.
-/
import TorrServer.Lib.Regexp
import TorrServer.Lib.Utf8

namespace TorrServer.Mcp

open Lib (Bytes Regexp runes parseInt)
open Lib.Regexp (one greedy group seq oneOf textStart textEnd)

/-! ## The patterns -/

/-- Letters whose orbit has a third member. -/
def thirdCase : List (Char × Nat) := [('s', 0x17F), ('с', 0x1C83), ('о', 0x1C82)]

/-- A lower-case letter of a pattern with `(?i)`; capitals are 32 below, in both scripts. -/
def letter (c : Char) : Regexp Nat :=
  one fun r => r == c.toNat || r == c.toNat - 32 || thirdCase.contains (c, r)

/-- A word in either case. -/
def word (w : String) : Regexp Nat := seq (w.toList.map letter)

/-- `[0-9A-Za-z]` with `(?i)`: U+017F and U+212A fold to `s` and `k`. -/
def isWordRune (r : Nat) : Bool :=
  (48 ≤ r && r ≤ 57) || (65 ≤ r && r ≤ 90) || (97 ≤ r && r ≤ 122) || r == 0x17F || r == 0x212A

/-- `(?:^|[^0-9A-Za-z])`. -/
def leftEdge : Regexp Nat := oneOf textStart [one fun r => !isWordRune r]

/-- `(?:[^0-9A-Za-z]|$)`. -/
def rightEdge : Regexp Nat := oneOf (one fun r => !isWordRune r) [textEnd]

/-- Any number of the given characters. -/
def anyOf (cs : String) : Regexp Nat := greedy (fun r => cs.toList.any (·.toNat == r)) 0 none

/-- An ASCII digit. -/
def isDigitRune (r : Nat) : Bool := 48 ≤ r && r ≤ 57

/-- `(\d{1,max})` as group `n`. -/
def number (n max : Nat) : Regexp Nat := group n (greedy isDigitRune 1 (some max))

/-- `S01E02`. -/
def reSxxExx : Regexp Nat :=
  seq [leftEdge, letter 's', number 1 3, anyOf ".-_ ", letter 'e', number 2 4, rightEdge]

/-- `1x02`. -/
def reNxNN : Regexp Nat := seq [leftEdge, number 1 2, letter 'x', number 2 3, rightEdge]

/-- The word for a season, in English or Russian. -/
def seasonWord : Regexp Nat :=
  oneOf (word "season")
    [word "sezon", word "сезон"]

/-- A season by its word, the number before or after it. -/
def reSeason : Regexp Nat :=
  oneOf (seq [seasonWord, anyOf "- .", number 1 3])
    [seq [number 2 3, anyOf "- .", seasonWord]]

/-- An episode by its word. -/
def reEpWord : Regexp Nat :=
  seq [oneOf (word "episode")
      [seq [word "ep", oneOf (word "isode") [.empty]],
        word "серия", word "серии"], anyOf "- .", number 1 4]

/-- `E02` alone. -/
def reEOnly : Regexp Nat := seq [leftEdge, letter 'e', number 1 4, rightEdge]

/-- A file that is a sample, a trailer or a preview. -/
def reSample : Regexp Nat :=
  seq [
    oneOf textStart [one fun r => ['.', '_', '-', '\t', '\n', '\x0c', '\r', ' ', '[', '('].any (·.toNat == r)],
    oneOf (word "sample")
      [word "trailer", word "preview"],
    oneOf (one fun r => ['.', '_', '-', '\t', '\n', '\x0c', '\r', ' ', ']', ')'].any (·.toNat == r)) [textEnd]]

/-! ## Paths -/

/-- `FindStringSubmatch` of a pattern with `n` groups of digits, without the whole match. -/
def submatches (re : Regexp Nat) (n : Nat) (text : Bytes) : Option (List Bytes) :=
  (re.find (runes text)).map fun t => (List.range n).map fun i => (t.groupText (i + 1)).map UInt8.ofNat

/-- `atoi`; a number of at most four digits is never out of range. -/
def atoi (s : Bytes) : Int := (parseInt s).getD 0

/-- The first group that matched, as a number. -/
def firstSubint (m : Option (List Bytes)) : Int :=
  match (m.getD []).find? (· ≠ []) with
  | some s => atoi s
  | none => 0

/-- What a path says about the episode. -/
structure EpisodeRef where
  season : Int := 0
  episode : Int := 0
  parsed : Bool := false
  deriving DecidableEq, Repr

/-- The season and the episode in a path, by the first pattern that fits. -/
def parseEpisode (path : Bytes) : EpisodeRef :=
  if path = [] then {}
  else
    let norm := path.map fun b => if b = 92 then 47 else b
    match submatches reSxxExx 2 norm with
    | some [season, episode] => { season := atoi season, episode := atoi episode, parsed := true }
    | _ =>
      match submatches reNxNN 2 norm with
      | some [season, episode] => { season := atoi season, episode := atoi episode, parsed := true }
      | _ =>
        let season := firstSubint (submatches reSeason 2 norm)
        let episode := firstSubint (submatches reEpWord 1 norm)
        let episode := if episode = 0 ∧ 0 < season then firstSubint (submatches reEOnly 1 norm) else episode
        if 0 < season ∧ 0 < episode then { season, episode, parsed := true }
        else if 0 < episode then { season, episode, parsed := true }
        else if 0 < season then { season, episode := 0, parsed := true }
        else {}

/-- `filepath.Base` where the separator is a slash. -/
def base (path : Bytes) : Bytes :=
  if path = [] then [46]
  else
    let trimmed := (path.reverse.dropWhile (· == 47))
    if trimmed = [] then [47] else (trimmed.takeWhile (· != 47)).reverse

/-- Whether the name is that of a sample. -/
def isSampleFile (path : Bytes) : Bool := (reSample.find (runes (base path))).isSome

/-- `path.Ext`: the name from its last dot on. -/
def ext (path : Bytes) : Bytes :=
  let last := path.reverse.takeWhile (· != 47)
  if 46 ∈ last then ((last.takeWhile (· != 46)) ++ [46]).reverse else []

/-- The keys of `extVideo`. -/
def extVideo : List String :=
  [".3g2", ".3gp", ".aaf", ".asf", ".avchd", ".avi", ".drc", ".dv", ".flv", ".iso", ".m2ts", ".m2v", ".m4p",
    ".m4v", ".mkv", ".mng", ".mov", ".mp2", ".mp4", ".mpe", ".mpeg", ".mpg", ".mpv", ".mts", ".mxf", ".nsv",
    ".ogv", ".qt", ".rm", ".rmvb", ".roq", ".svi", ".ts", ".vob", ".webm", ".wmv", ".yuv"]

/-- `isVideoFile`: `GetMimeType` looks the lower-cased extension up in `extVideo` first. -/
def isVideoFile (toLower : Bytes → Bytes) (path : Bytes) : Bool :=
  extVideo.any fun e => Lib.ascii e == toLower (ext path)

/-! ## How large a season can be -/

theorem atoi_lt {ds : Bytes} {n : Nat} (h : ∀ b ∈ ds, Lib.isDigit b = true) (hlen : ds.length ≤ n) :
    0 ≤ atoi ds ∧ atoi ds < 10 ^ n := by
  have hval : Lib.decVal ds < 10 ^ n :=
    Nat.lt_of_lt_of_le (Lib.decVal_lt h) (Nat.pow_le_pow_right (by decide) hlen)
  have hpos : (0 : Int) < 10 ^ n := by positivity
  unfold atoi
  rw [Lib.parseInt_of_digits h, Lib.parseMagnitude]
  split
  · refine ⟨Int.natCast_nonneg _, ?_⟩
    show ((Lib.decVal ds : Nat) : Int) < 10 ^ n
    exact_mod_cast hval
  · exact ⟨Int.le_refl 0, hpos⟩

/-- The texts a number of at most four digits has, as a group. -/
def Digits (_ : Nat) (w : List Nat) : Prop := w.length ≤ 4 ∧ ∀ r ∈ w, isDigitRune r = true

theorem groupsHold_number (n : Nat) {max : Nat} (hmax : max ≤ 4) : (number n max).GroupsHold Digits := by
  refine ⟨fun s t ht => ?_, trivial⟩
  obtain ⟨hlen, hdigits⟩ := Regexp.upTo_of_mem_ways_greedy ht
  exact ⟨Nat.le_trans hlen hmax, hdigits⟩

theorem groupsHold_patterns : ∀ re ∈ [reSxxExx, reNxNN, reSeason, reEpWord, reEOnly], re.GroupsHold Digits := by
  have hone : ∀ p, (one p : Regexp Nat).GroupsHold Digits := fun _ => trivial
  have hanyOf : ∀ cs, (anyOf cs).GroupsHold Digits := fun _ => trivial
  have hstart : (textStart : Regexp Nat).GroupsHold Digits := trivial
  have hend : (textEnd : Regexp Nat).GroupsHold Digits := trivial
  simp [reSxxExx, reNxNN, reSeason, reEpWord, reEOnly, leftEdge, rightEdge, seasonWord, word,
    letter, seq, oneOf, Regexp.GroupsHold, hone, hanyOf, hstart, hend, groupsHold_number]

/-- What the groups of the patterns come to. -/
theorem digits_of_submatches {re : Regexp Nat} (hre : re.GroupsHold Digits) {n : Nat} {text : Bytes}
    {ws : List Bytes} (h : submatches re n text = some ws) :
    ∀ w ∈ ws, w.length ≤ 4 ∧ ∀ b ∈ w, Lib.isDigit b = true := by
  obtain ⟨t, ht, rfl⟩ := Option.map_eq_some_iff.1 h
  intro w hw
  obtain ⟨i, -, rfl⟩ := List.mem_map.1 hw
  obtain ⟨hlen, hdigits⟩ :=
    Regexp.groupText_of_find hre (fun _ => ⟨Nat.zero_le 4, fun _ hr => nomatch hr⟩) ht (i + 1)
  refine ⟨by rw [List.length_map]; exact hlen, fun b hb => ?_⟩
  obtain ⟨r, hr, rfl⟩ := List.mem_map.1 hb
  have hr := hdigits r hr
  simp only [isDigitRune, Bool.and_eq_true, decide_eq_true_eq] at hr
  simp only [Lib.isDigit, Bool.and_eq_true, decide_eq_true_eq, UInt8.le_iff_toNat_le, UInt8.toNat_ofNat']
  show 48 ≤ r % 256 ∧ r % 256 ≤ 57
  omega

/-- The numbers a path can name. -/
def Small (n : Int) : Prop := 0 ≤ n ∧ n < 10 ^ 4

theorem small_zero : Small 0 := ⟨Int.le_refl 0, by decide⟩

theorem small_firstSubint {re : Regexp Nat} (hre : re.GroupsHold Digits) (n : Nat) (text : Bytes) :
    Small (firstSubint (submatches re n text)) := by
  unfold firstSubint
  split
  · rename_i w hw
    cases hmatches : submatches re n text with
    | none =>
      rw [hmatches] at hw
      cases hw
    | some ws =>
      rw [hmatches] at hw
      obtain ⟨hlen, hdigits⟩ := digits_of_submatches hre hmatches w (List.mem_of_find?_eq_some hw)
      exact atoi_lt hdigits hlen
  · exact small_zero

/-- **A recognised season is small**, and so is an episode. -/
theorem small_parseEpisode (path : Bytes) :
    Small (parseEpisode path).season ∧ Small (parseEpisode path).episode := by
  have hpatterns := groupsHold_patterns
  simp only [List.forall_mem_cons] at hpatterns
  obtain ⟨hSxxExx, hNxNN, hSeason, hEpWord, hEOnly, -⟩ := hpatterns
  have hpair : ∀ {re : Regexp Nat} {text season episode : Bytes}, re.GroupsHold Digits →
      submatches re 2 text = some [season, episode] → Small (atoi season) ∧ Small (atoi episode) := by
    intro re text season episode hre h
    have hdigits := digits_of_submatches hre h
    obtain ⟨hlen, hseason⟩ := hdigits season (by simp)
    obtain ⟨hlen', hepisode⟩ := hdigits episode (by simp)
    exact ⟨atoi_lt hseason hlen, atoi_lt hepisode hlen'⟩
  unfold parseEpisode
  split
  · exact ⟨small_zero, small_zero⟩
  · extract_lets norm season episode episode'
    split
    · rename_i hmatch
      exact hpair hSxxExx hmatch
    · split
      · rename_i hmatch
        exact hpair hNxNN hmatch
      · have hseason : Small season := small_firstSubint hSeason 2 norm
        have hepisode : Small episode' := by
          unfold episode'
          split
          · exact small_firstSubint hEOnly 1 norm
          · exact small_firstSubint hEpWord 1 norm
        split
        · exact ⟨hseason, hepisode⟩
        · split
          · exact ⟨hseason, hepisode⟩
          · split
            · exact ⟨hseason, small_zero⟩
            · exact ⟨small_zero, small_zero⟩

end TorrServer.Mcp
