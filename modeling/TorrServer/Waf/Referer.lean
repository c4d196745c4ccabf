/-
# Waf.Referer — the hosts a request may not come from.

A request is turned away when the host of its `Referer` or of its `Origin` is one of the blocked hosts or lies
under one: those built in and those of the configured text, one rule a line. A rule may be written as a host,
with a port, or as the URL of a site; `normalizeRefererRule` gets the host out of it, lower-cased.
`isBlockedReferer` compares texts: equal, or ending in a dot and the blocked host; that is, the labels of a host
end with those of a blocked one (`isBlockedReferer_isSome`).

`url.Parse`, `net.ParseIP`, `strings.ToLower` and the classes of runes are parameters with what is documented of
them; `net.SplitHostPort` is written out.
-/
import TorrServer.Waf.Lists
import TorrServer.Lib.Split
import Mathlib.Data.List.DropRight

namespace TorrServer.Waf

open Lib List

/-! ## The model -/

/-- What is read of a `url.URL`; `user` is `u.User != nil` and `hostname` is `u.Hostname()`. -/
structure Url where
  scheme : Bytes
  user : Bool
  path : Bytes
  rawQuery : Bytes
  fragment : Bytes
  hostname : Bytes

/-- `net.ParseIP`, `strings.ToLower`, `unicode.IsLetter`, `unicode.IsDigit` and `url.Parse`. -/
structure RefererTexts extends NetTexts where
  toLower : Bytes → Bytes
  isLetter : Nat → Bool
  isDigit : Nat → Bool
  parseURL : Bytes → Option Url

/-- The labels of a host: `strings.Split(host, ".")`. -/
def labels (host : Bytes) : List Bytes := host.splitOn 46

/-- `strings.TrimSuffix(s, ".")`. -/
def trimDot (s : Bytes) : Bytes := if s.getLast? = some 46 then s.dropLast else s

/-- `[` or `]`. -/
def isBracket (b : UInt8) : Bool := b = 91 || b = 93

/-- `strings.Trim(s, "[]")`. -/
def trimBrackets (s : Bytes) : Bytes := (s.dropWhile isBracket).rdropWhile isBracket

/-- A text before and after the last `sep` in it. -/
def cutLast (sep : UInt8) : Bytes → Option (Bytes × Bytes)
  | [] => none
  | b :: s =>
    match cutLast sep s with
    | some (before, after) => some (b :: before, after)
    | none => if b = sep then some ([], s) else none

/-- `net.SplitHostPort`; `none` is an error. -/
def splitHostPort (hostport : Bytes) : Option (Bytes × Bytes) :=
  -- the port starts after the last colon
  match cutLast 58 hostport with
  | none => none
  | some (before, port) =>
    if hostport.head? = some 91 then
      -- the first `]` is expected just before the last colon, and no other bracket
      let stop := hostport.idxOf 93
      if 93 ∉ hostport ∨ stop + 1 ≠ before.length then none
      else if 91 ∈ hostport.drop 1 ∨ 93 ∈ hostport.drop (stop + 1) then none
      else some ((hostport.take stop).drop 1, port)
    else if 58 ∈ before then none
    else if 91 ∈ hostport ∨ 93 ∈ hostport then none
    else some (before, port)

/-- `ParseWarning`; the codes are `invalid_referer` and `line_too_long`. -/
inductive RefererWarning
  | invalidReferer
  | lineTooLong
  deriving DecidableEq, Repr

/-- The hosts that are blocked in any case. -/
def defaultBlockedReferers : List Bytes :=
  ["abhq.ru", "abmsx.tech", "akter.black", "bylampa.online", "lampa.click", "lampa.land", "lampa1.ru",
    "line.pm", "nnmtv.pw", "stull.xyz", "tvigl.info", "uspeh.sbs", "usph.xyz", "xabb.ru"].map ascii

/-- The two schemes that a rule may have. -/
def http : Bytes := ascii "http"

def https : Bytes := ascii "https"

/-- `://`. -/
def schemeEnd : Bytes := [58, 47, 47]

section

variable (E : RefererTexts)

/-- The host in a rule: of a URL of a site, or before a port. -/
def ruleHost (value : Bytes) : Option Bytes :=
  if schemeEnd <:+: value then
    match E.parseURL value with
    | none => none
    | some u =>
      if u.scheme ≠ http ∧ u.scheme ≠ https ∨ u.user = true ∨ u.path ≠ [] ∧ u.path ≠ [47] ∨
          u.rawQuery ≠ [] ∨ u.fragment ≠ [] then none
      else some u.hostname
  else if ∃ b ∈ value, b = 47 ∨ b = 63 ∨ b = 35 ∨ b = 64 then none
  else
    match splitHostPort value with
    | some (parsedHost, _) => some parsedHost
    | none => some value

/-- A label that a rule may have. -/
def checkLabel (label : Bytes) : Bool :=
  label ≠ [] && label.length ≤ 63 && label.head? ≠ some 45 && label.getLast? ≠ some 45 &&
    (runes label).all fun r => E.isLetter r || E.isDigit r || r = 45

/-- What a rule makes of its host, in lower case. -/
def acceptHost (host : Bytes) : Option Bytes :=
  let host := trimBrackets host
  if host = [] then none
  else if (E.parseIP host).isSome then some host
  else if 253 < host.length then none
  else if (labels host).all (checkLabel E) then some host
  else none

/-- What a rule makes of its host. -/
def checkHost (host : Bytes) : Option Bytes := acceptHost E (E.toLower (trimDot (trimSpace host)))

/-- The host of a rule, in lower case; `none` for a rule that is not accepted. -/
def normalizeRefererRule (value : Bytes) : Option Bytes :=
  let value := trimSpace value
  if value = [] ∨ 42 ∈ value then none
  else
    match ruleHost E value with
    | none => none
    | some host => checkHost E host

/-- The loop of `scanRefererBufValidated`. -/
def scanRefererLoop : Nat → List Bytes → List Bytes × List (Nat × RefererWarning)
  | _, [] => ([], [])
  | lineNo, text :: rest =>
    let (hosts, warnings) := scanRefererLoop (lineNo + 1) rest
    let line := trimSpace text
    if line = [] ∨ line.head? = some 35 then (hosts, warnings)
    else
      match normalizeRefererRule E line with
      | none => (hosts, (lineNo, .invalidReferer) :: warnings)
      | some host => (host :: hosts, warnings)

/-- The hosts of a list, with a warning for each line that is refused. -/
def scanRefererBufValidated (buf : Bytes) : List Bytes × List (Nat × RefererWarning) :=
  if buf = [] then ([], [])
  else
    let lines := scanLines buf
    let (hosts, warnings) := scanRefererLoop E 1 lines
    (hosts, if tooLong buf then warnings ++ [(lines.length + 1, .lineTooLong)] else warnings)

/-- One round of a loop of `mergeReferers`, on `seen` and `blocked`. -/
def mergeReferer (acc : List Bytes × List Bytes) (host : Bytes) : List Bytes × List Bytes :=
  let host := E.toLower (trimSpace host)
  if host = [] then acc
  else if acc.1.contains host then acc
  else (host :: acc.1, acc.2 ++ [host])

/-- `mergeReferers`: the same loop twice. -/
def mergeReferers (defaults fileHosts : List Bytes) : List Bytes :=
  let acc := defaults.foldl (mergeReferer E) ([], [])
  (fileHosts.foldl (mergeReferer E) acc).2

/-- The default hosts and those of the list. -/
def blockedReferersFromConfig (buf : Bytes) : List Bytes :=
  mergeReferers E defaultBlockedReferers (scanRefererBufValidated E buf).1

/-- The host of a `Referer` or `Origin` header. -/
def hostFromHeader (value : Bytes) : Bytes :=
  let value := trimSpace value
  if value = [] then []
  else
    match E.parseURL value with
    | none => []
    | some u => E.toLower (trimDot u.hostname)

/-- Whether the host or a domain above it is blocked. -/
def hostMatchesBlocked (host : Bytes) (blocked : List Bytes) : Bool :=
  let host := E.toLower (trimSpace host)
  if host = [] then false
  else blocked.any fun blockedHost =>
    blockedHost ≠ [] && (host = blockedHost || (46 :: blockedHost).isSuffixOf host)

/-- `isBlockedReferer`: the host that is blocked, if one is. -/
def isBlockedReferer (referer origin : Bytes) (blocked : List Bytes) : Option Bytes :=
  let fromReferer := hostFromHeader E referer
  if fromReferer ≠ [] ∧ hostMatchesBlocked E fromReferer blocked = true then some fromReferer
  else
    let fromOrigin := hostFromHeader E origin
    if fromOrigin ≠ [] ∧ hostMatchesBlocked E fromOrigin blocked = true then some fromOrigin else none

end

/-! ## What is documented of the parameters -/

/-- The lower-case form of an ASCII byte. -/
def lowerByte (b : UInt8) : UInt8 := if 65 ≤ b && b ≤ 90 then b + 32 else b

/-- A byte of the text of an IP address. -/
def isAddressByte (b : UInt8) : Bool :=
  Lib.isDigit b || (65 ≤ b && b ≤ 70) || (97 ≤ b && b ≤ 102) || b = 58 || b = 46

/-- A text of letters, digits, hyphens and dots. -/
def RefererTexts.IsName (E : RefererTexts) (s : Bytes) : Prop :=
  ∀ r ∈ runes s, E.isLetter r = true ∨ E.isDigit r = true ∨ r = 45 ∨ r = 46

/-- The text of an IPv6 address, maybe with a dotted part. -/
def RefererTexts.IsIPv6 (E : RefererTexts) (s : Bytes) : Prop := (E.parseIP s).isSome = true ∧ 58 ∈ s

/-- Nothing, or a colon and digits. -/
def IsPort (s : Bytes) : Prop :=
  s = [] ∨ ∃ digits : Bytes, s = 58 :: digits ∧ ∀ b ∈ digits, Lib.isDigit b = true

/-- `http` or `https` in any case. -/
def IsScheme (s : Bytes) : Prop := s.map lowerByte = http ∨ s.map lowerByte = https

/-- Nothing, or a slash. -/
def IsRoot (s : Bytes) : Prop := s = [] ∨ s = [47]

/-- Documented: an IP address is written with hexadecimal digits, colons and dots and does not end in a dot, an
IPv6 address has two colons; `ToLower` works rune by rune, on ASCII by `lowerByte`, and does nothing the second
time; the ASCII letters and digits are the usual ones, with no white space among the others; and `Parse` reads
the URL of a site. -/
structure RefererTexts.Documented (E : RefererTexts) : Prop where
  parseIP_bytes : ∀ text, (E.parseIP text).isSome = true → ∀ b ∈ text, isAddressByte b = true
  parseIP_last : ∀ text, (E.parseIP text).isSome = true → text.getLast? ≠ some 46
  parseIP_colons : ∀ text, E.IsIPv6 text → 2 ≤ text.count 58
  toLower_ascii : ∀ s : Bytes, (∀ b ∈ s, b < 0x80) → E.toLower s = s.map lowerByte
  toLower_append : ∀ (s rest : Bytes) (b : UInt8), b < 0x80 →
    E.toLower (s ++ b :: rest) = E.toLower s ++ lowerByte b :: E.toLower rest
  toLower_toLower : ∀ s, E.toLower (E.toLower s) = E.toLower s
  isLetter_ascii : ∀ b : UInt8, b < 0x80 → (E.isLetter b.toNat || E.isDigit b.toNat) = isAlnum b
  not_space : ∀ r ∈ spaceRunes, E.isLetter r = false ∧ E.isDigit r = false
  parseURL_nil : ∀ u, E.parseURL [] = some u → u.hostname = []
  parseURL_name : ∀ scheme name port path, IsScheme scheme → E.IsName name → name ≠ [] → IsPort port →
    IsRoot path →
    E.parseURL (scheme ++ schemeEnd ++ name ++ port ++ path) =
      some { scheme := scheme.map lowerByte, user := false, path := path, rawQuery := [], fragment := []
             hostname := name }
  parseURL_address : ∀ scheme address port path, IsScheme scheme → E.IsIPv6 address → IsPort port →
    IsRoot path →
    E.parseURL (scheme ++ schemeEnd ++ (91 :: address ++ [93]) ++ port ++ path) =
      some { scheme := scheme.map lowerByte, user := false, path := path, rawQuery := [], fragment := []
             hostname := address }

/-! ## Labels -/

/-- The comparison of texts is one of labels. -/
theorem labels_suffix_iff (host rule : Bytes) :
    labels rule <:+ labels host ↔ host = rule ∨ 46 :: rule <:+ host :=
  splitOn_suffix_iff

theorem mem_runes_labels {host : Bytes} {r : Nat} (h : r ∈ runes host) :
    r = 46 ∨ ∃ label ∈ labels host, r ∈ runes label := by
  rw [← @intercalate_splitOn _ host _ _ 46] at h
  unfold labels
  generalize host.splitOn 46 = ls at h ⊢
  induction ls with
  | nil => cases h
  | cons label ls ih =>
    cases ls with
    | nil => exact Or.inr ⟨label, mem_cons_self, by simpa using h⟩
    | cons next ls =>
      rw [intercalate_cons_cons, append_assoc, singleton_append, runes_append rfl, runes_ascii_cons (by decide),
        mem_append, mem_cons] at h
      rcases h with h | h | h
      · exact Or.inr ⟨label, mem_cons_self, h⟩
      · exact Or.inl h
      · rcases ih h with h | ⟨l, hl, hr⟩
        · exact Or.inl h
        · exact Or.inr ⟨l, mem_cons_of_mem _ hl, hr⟩

/-! ## Hosts as the code compares them -/

section

variable {E : RefererTexts}

namespace RefererTexts.Documented

theorem toLower_nil (hE : E.Documented) : E.toLower [] = [] := hE.toLower_ascii [] (fun _ h => (nomatch h))

theorem toLower_cons (hE : E.Documented) {b : UInt8} (h : b < 0x80) (s : Bytes) :
    E.toLower (b :: s) = lowerByte b :: E.toLower s := by
  have happend := hE.toLower_append [] s b h
  rw [hE.toLower_nil] at happend
  exact happend

theorem toLower_concat (hE : E.Documented) {b : UInt8} (h : b < 0x80) (s : Bytes) :
    E.toLower (s ++ [b]) = E.toLower s ++ [lowerByte b] := by
  rw [hE.toLower_append s [] b h, hE.toLower_nil]

end RefererTexts.Documented

theorem ascii_of_isBracket {b : UInt8} (h : isBracket b = true) : b < 0x80 ∧ lowerByte b = b := by
  unfold isBracket at h
  rw [Bool.or_eq_true, decide_eq_true_iff, decide_eq_true_iff] at h
  rcases h with rfl | rfl
  · decide
  · decide

/-- What is left of a lower-case text between brackets is lower-case. -/
theorem toLower_trimBrackets (hE : E.Documented) {s : Bytes} (h : E.toLower s = s) :
    E.toLower (trimBrackets s) = trimBrackets s := by
  have hfront : E.toLower (s.dropWhile isBracket) = s.dropWhile isBracket := by
    induction s with
    | nil => exact h
    | cons b s ih =>
      by_cases hb : isBracket b = true
      · rw [dropWhile_cons_of_pos hb]
        apply ih
        obtain ⟨hascii, -⟩ := ascii_of_isBracket hb
        rw [hE.toLower_cons hascii] at h
        exact (List.cons.inj h).2
      · rw [dropWhile_cons_of_neg hb]
        exact h
  unfold trimBrackets
  generalize s.dropWhile isBracket = s at hfront
  induction s using List.reverseRecOn with
  | nil => exact hfront
  | append_singleton s b ih =>
    by_cases hb : isBracket b = true
    · rw [rdropWhile_concat_pos _ _ _ hb]
      apply ih
      obtain ⟨hascii, -⟩ := ascii_of_isBracket hb
      rw [hE.toLower_concat hascii] at hfront
      exact (append_inj' hfront rfl).1
    · rw [rdropWhile_concat_neg _ _ _ hb]
      exact hfront

/-- A text of which no rune is white space. -/
def Solid (s : Bytes) : Prop := ∀ r ∈ runes s, r ∉ spaceRunes

theorem solid_of_checkLabel (hE : E.Documented) {host : Bytes} (h : (labels host).all (checkLabel E) = true) :
    Solid host := by
  intro r hr hspace
  rcases mem_runes_labels hr with rfl | ⟨label, hlabel, hr⟩
  · exact absurd hspace (by decide)
  · have hcheck := all_eq_true.1 h label hlabel
    unfold checkLabel at hcheck
    obtain ⟨-, hrunes⟩ := (Bool.and_eq_true _ _).mp hcheck
    have hclass := all_eq_true.1 hrunes r hr
    obtain ⟨hletter, hdigit⟩ := hE.not_space r hspace
    rw [hletter, hdigit, Bool.false_or, Bool.false_or, decide_eq_true_iff] at hclass
    rw [hclass] at hspace
    exact absurd hspace (by decide)

/-- The host of a rule is not empty, and `mergeReferers` leaves it as it is. -/
theorem acceptHost_eq_some (hE : E.Documented) {s host : Bytes} (h : acceptHost E (E.toLower s) = some host) :
    host ≠ [] ∧ E.toLower (trimSpace host) = host := by
  have hlower : E.toLower (trimBrackets (E.toLower s)) = trimBrackets (E.toLower s) :=
    toLower_trimBrackets hE (hE.toLower_toLower s)
  unfold acceptHost at h
  dsimp only at h
  generalize trimBrackets (E.toLower s) = t at h hlower
  split_ifs at h with hnil haddress hlong hlabels
  · cases h
    have htrim : trimSpace host = host :=
      trimSpace_of_forall (by decide) (by decide) (hE.parseIP_bytes host haddress)
    exact ⟨hnil, htrim.symm ▸ hlower⟩
  · cases h
    have htrim : trimSpace host = host := trimSpace_of_runes (solid_of_checkLabel hE hlabels)
    exact ⟨hnil, htrim.symm ▸ hlower⟩

theorem normalizeRefererRule_eq_some (hE : E.Documented) {value host : Bytes}
    (h : normalizeRefererRule E value = some host) : host ≠ [] ∧ E.toLower (trimSpace host) = host := by
  unfold normalizeRefererRule at h
  dsimp only at h
  split at h
  · cases h
  · split at h
    · cases h
    · exact acceptHost_eq_some hE h

/-! ## The blocked hosts -/

/-- A line that is no comment and of which `normalizeRefererRule` extracts a host. -/
def Accepts (E : RefererTexts) (line host : Bytes) : Prop :=
  (trimSpace line).head? ≠ some 35 ∧ normalizeRefererRule E (trimSpace line) = some host

theorem normalizeRefererRule_nil : normalizeRefererRule E [] = none := rfl

theorem mem_scanRefererLoop (lineNo : Nat) (lines : List Bytes) (host : Bytes) :
    host ∈ (scanRefererLoop E lineNo lines).1 ↔ ∃ line ∈ lines, Accepts E line host := by
  induction lines generalizing lineNo with
  | nil => simp [scanRefererLoop]
  | cons text rest ih =>
    rw [exists_mem_cons_iff, ← ih (lineNo + 1), scanRefererLoop]
    unfold Accepts
    dsimp only
    by_cases hskip : trimSpace text = [] ∨ (trimSpace text).head? = some 35
    · rw [if_pos hskip]
      constructor
      · exact Or.inr
      · rintro (⟨hhash, hrule⟩ | h)
        · rcases hskip with hnil | hcomment
          · rw [hnil, normalizeRefererRule_nil] at hrule
            cases hrule
          · exact absurd hcomment hhash
        · exact h
    · rw [if_neg hskip]
      obtain ⟨-, hhash⟩ := not_or.1 hskip
      cases hrule : normalizeRefererRule E (trimSpace text) with
      | none => simp
      | some h => simp [hhash, @eq_comm _ h]

theorem mem_mergeReferer_fold (hosts : List Bytes) {acc : List Bytes × List Bytes}
    (hseen : ∀ x, x ∈ acc.1 ↔ x ∈ acc.2) :
    let acc' := hosts.foldl (mergeReferer E) acc
    (∀ x, x ∈ acc'.1 ↔ x ∈ acc'.2) ∧
      ∀ x, x ∈ acc'.2 ↔ x ∈ acc.2 ∨ x ≠ [] ∧ ∃ host ∈ hosts, E.toLower (trimSpace host) = x := by
  induction hosts generalizing acc with
  | nil => exact ⟨hseen, fun x => by simp⟩
  | cons host hosts ih =>
    have hround : (∀ x, x ∈ (mergeReferer E acc host).1 ↔ x ∈ (mergeReferer E acc host).2) ∧
        ∀ x, x ∈ (mergeReferer E acc host).2 ↔ x ∈ acc.2 ∨ x ≠ [] ∧ E.toLower (trimSpace host) = x := by
      unfold mergeReferer
      dsimp only
      generalize E.toLower (trimSpace host) = t
      split_ifs with hnil hmem
      · refine ⟨hseen, fun x => ⟨Or.inl, ?_⟩⟩
        rintro (h | ⟨hx, rfl⟩)
        · exact h
        · exact absurd hnil hx
      · refine ⟨hseen, fun x => ⟨Or.inl, ?_⟩⟩
        rintro (h | ⟨-, rfl⟩)
        · exact h
        · exact (hseen t).1 (contains_iff_mem.1 hmem)
      · constructor
        · intro x
          rw [mem_cons, mem_append, mem_singleton, hseen x, or_comm]
        · intro x
          rw [mem_append, mem_singleton]
          constructor
          · rintro (h | rfl)
            · exact Or.inl h
            · exact Or.inr ⟨hnil, rfl⟩
          · rintro (h | ⟨-, rfl⟩)
            · exact Or.inl h
            · exact Or.inr rfl
    obtain ⟨hsame, hmem⟩ := ih hround.1
    refine ⟨hsame, fun x => ?_⟩
    rw [foldl_cons, hmem x, hround.2 x, exists_mem_cons_iff]
    tauto

theorem mem_mergeReferers (defaults fileHosts : List Bytes) (x : Bytes) :
    x ∈ mergeReferers E defaults fileHosts ↔
      x ≠ [] ∧ ∃ host ∈ defaults ++ fileHosts, E.toLower (trimSpace host) = x := by
  obtain ⟨hsame, hdefaults⟩ := @mem_mergeReferer_fold E defaults ([], []) (fun _ => Iff.rfl)
  obtain ⟨-, hfile⟩ := mem_mergeReferer_fold (E := E) fileHosts hsame
  unfold mergeReferers
  dsimp only
  rw [hfile x, hdefaults x]
  simp only [not_mem_nil, false_or, mem_append, or_and_right, exists_or, and_or_left]

/-- The built-in hosts are in the form in which hosts are compared. -/
theorem toLower_default (hE : E.Documented) {host : Bytes} (h : host ∈ defaultBlockedReferers) :
    host ≠ [] ∧ E.toLower (trimSpace host) = host := by
  have hform : ∀ host ∈ defaultBlockedReferers,
      host ≠ [] ∧ trimSpace host = host ∧ (∀ b ∈ host, b < 0x80) ∧ host.map lowerByte = host := by
        decide +kernel
  obtain ⟨hne, htrim, hascii, hlower⟩ := hform host h
  refine ⟨hne, ?_⟩
  rw [htrim, hE.toLower_ascii host hascii, hlower]

/-- **The blocked hosts**: those built in, whatever the text, and those of the rules in it. -/
theorem mem_blockedReferersFromConfig (hE : E.Documented) (buf host : Bytes) :
    host ∈ blockedReferersFromConfig E buf ↔
      host ∈ defaultBlockedReferers ∨ ∃ line ∈ scanLines buf, Accepts E line host := by
  have hscan : ∀ h, h ∈ (scanRefererBufValidated E buf).1 ↔ ∃ line ∈ scanLines buf, Accepts E line h := by
    intro h
    unfold scanRefererBufValidated
    by_cases hnil : buf = []
    · rw [if_pos hnil, hnil]
      exact mem_scanRefererLoop (E := E) 1 [] h
    · rw [if_neg hnil]
      exact mem_scanRefererLoop 1 (scanLines buf) h
  -- every host on the way is in its final form
  have hform : ∀ h, h ∈ defaultBlockedReferers ++ (scanRefererBufValidated E buf).1 →
      h ≠ [] ∧ E.toLower (trimSpace h) = h := by
    intro h hmem
    rcases mem_append.1 hmem with hmem | hmem
    · exact toLower_default hE hmem
    · obtain ⟨line, -, -, hrule⟩ := (hscan h).1 hmem
      exact normalizeRefererRule_eq_some hE hrule
  unfold blockedReferersFromConfig
  rw [mem_mergeReferers, ← hscan, ← mem_append]
  constructor
  · rintro ⟨-, h, hmem, rfl⟩
    rw [(hform h hmem).2]
    exact hmem
  · intro hmem
    exact ⟨(hform host hmem).1, host, hmem, (hform host hmem).2⟩

/-! ## The verdict -/

theorem hostMatchesBlocked_iff (host : Bytes) {blocked : List Bytes} (hne : ∀ b ∈ blocked, b ≠ []) :
    hostMatchesBlocked E host blocked = true ↔
      ∃ b ∈ blocked, labels b <:+ labels (E.toLower (trimSpace host)) := by
  unfold hostMatchesBlocked
  dsimp only
  generalize E.toLower (trimSpace host) = t
  simp only [labels_suffix_iff]
  by_cases hnil : t = []
  · rw [if_pos hnil, hnil]
    refine iff_of_false (by decide) ?_
    rintro ⟨b, hb, h | h⟩
    · exact hne b hb h.symm
    · exact absurd (suffix_nil.1 h) (cons_ne_nil _ _)
  · rw [if_neg hnil, any_eq_true]
    apply exists_congr
    intro b
    apply and_congr_right
    intro hb
    simp [hne b hb]

/-- The host of a header as it is compared. -/
def headerHost (E : RefererTexts) (u : Url) : Bytes := E.toLower (trimSpace (E.toLower (trimDot u.hostname)))

theorem isBlockedReferer_isSome (hE : E.Documented) (referer origin : Bytes) {blocked : List Bytes}
    (hne : ∀ b ∈ blocked, b ≠ []) :
    (isBlockedReferer E referer origin blocked).isSome = true ↔
      ∃ header ∈ [referer, origin], ∃ u, E.parseURL (trimSpace header) = some u ∧
        ∃ b ∈ blocked, labels b <:+ labels (headerHost E u) := by
  have hempty : hostMatchesBlocked E [] blocked = false := by
    unfold hostMatchesBlocked
    exact if_pos hE.toLower_nil
  -- an empty host matches nothing, so the tests for it make no difference
  have hheader : ∀ header,
      (hostFromHeader E header ≠ [] ∧ hostMatchesBlocked E (hostFromHeader E header) blocked = true) ↔
      ∃ u, E.parseURL (trimSpace header) = some u ∧ ∃ b ∈ blocked, labels b <:+ labels (headerHost E u) := by
    intro header
    have hmatches :
      (hostFromHeader E header ≠ [] ∧ hostMatchesBlocked E (hostFromHeader E header) blocked = true) ↔
        hostMatchesBlocked E (hostFromHeader E header) blocked = true := by
      refine and_iff_right_of_imp fun h hnil => ?_
      rw [hnil, hempty] at h
      cases h
    rw [hmatches]
    have hhost : ∀ u, hostMatchesBlocked E (E.toLower (trimDot u.hostname)) blocked = true ↔
        ∃ b ∈ blocked, labels b <:+ labels (headerHost E u) := fun u => hostMatchesBlocked_iff _ hne
    unfold hostFromHeader
    dsimp only
    by_cases hblank : trimSpace header = []
    · rw [if_pos hblank, hempty, hblank]
      refine iff_of_false (by decide) ?_
      rintro ⟨u, hu, hb⟩
      rw [← hhost u, hE.parseURL_nil u hu] at hb
      have hnil : E.toLower (trimDot []) = [] := hE.toLower_nil
      rw [hnil, hempty] at hb
      cases hb
    · rw [if_neg hblank]
      cases hu : E.parseURL (trimSpace header) with
      | none => simp [hempty]
      | some u => simp [hhost u]
  unfold isBlockedReferer
  dsimp only
  rw [exists_mem_cons_iff, exists_mem_cons_iff, ← hheader, ← hheader]
  by_cases hreferer : hostFromHeader E referer ≠ [] ∧
    hostMatchesBlocked E (hostFromHeader E referer) blocked = true
  · rw [if_pos hreferer]
    exact iff_of_true rfl (Or.inl hreferer)
  · rw [if_neg hreferer]
    by_cases horigin : hostFromHeader E origin ≠ [] ∧
      hostMatchesBlocked E (hostFromHeader E origin) blocked = true
    · rw [if_pos horigin]
      exact iff_of_true rfl (Or.inr (Or.inl horigin))
    · rw [if_neg horigin]
      refine iff_of_false (by decide) ?_
      rintro (h | h | ⟨header, hmem, -⟩)
      · exact hreferer h
      · exact horigin h
      · cases hmem

end

end TorrServer.Waf
