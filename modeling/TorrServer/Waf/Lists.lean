/-
# Waf.Lists — the IP lists of the firewall, from their texts to a verdict.

A list is edited as a text. `Update` cuts it into lines, stores them in the settings file, and loads them again;
`scanBuf` reads a range from each line, and the middleware asks the white list and the black list. What a line
means is said once more without bytes and masks (`Spec`): an address, the addresses between two of them, or
those that share a prefix.
-/
import Mathlib.Data.List.TakeWhile
import TorrServer.Lib.Lines
import TorrServer.Settings.WafDB
import TorrServer.Waf.Address

namespace TorrServer.Waf

open Lib List Settings

variable {left right line text : Bytes}

/-! ## The model -/

/-- `net.ParseIP`, and the address and the prefix length that `net.ParseCIDR` reads. -/
structure NetTexts where
  parseIP : Bytes → Option Bytes
  parsePrefix : Bytes → Option (Bytes × Nat)

/-- Documented: `ParseIP` gives 16 bytes; the address of a network has 4 or 16, and its prefix is not longer. -/
structure NetTexts.Documented (E : NetTexts) : Prop where
  parseIP : ∀ text ip, E.parseIP text = some ip → ip.length = 16
  parsePrefix : ∀ text ip ones, E.parsePrefix text = some (ip, ones) →
    (ip.length = 4 ∨ ip.length = 16) ∧ ones ≤ 8 * ip.length

/-- The addresses from `first` to `last`. -/
structure Range where
  first : Bytes
  last : Bytes
  description : Bytes := []

/-- `ParseWarning`; the codes are `invalid_ip_range` and `line_too_long`. -/
inductive WarningCode
  | invalidIPRange
  | lineTooLong
  deriving DecidableEq, Repr

section

variable (E : NetTexts)

/-- The hyphen between two addresses. -/
def findRangeHyphen (spec : Bytes) : Option Nat :=
  (List.range (spec.length - 1)).find? fun i =>
    1 ≤ i && spec[i]? == some 45 && (E.parseIP (trimSpace (spec.take i))).isSome &&
      (E.parseIP (trimSpace (spec.drop (i + 1)))).isSome

/-- `parseIPSpec`; every error is `bad IP range`. -/
def parseIPSpec (spec : Bytes) : Option (Bytes × Bytes) :=
  let spec := trimSpace spec
  if spec = [] then none
  else if (47 : UInt8) ∈ spec then
    match E.parsePrefix spec with
    | none => none
    | some (ip, ones) =>
      let net := network ip ones
      let first := minifyIP net.ip
      let last := minifyIP (lastIP net)
      if first.length ≠ last.length then none else some (first, last)
  else
    match findRangeHyphen E spec with
    | some hyphen =>
      match E.parseIP (trimSpace (spec.take hyphen)), E.parseIP (trimSpace (spec.drop (hyphen + 1))) with
      | some left, some right =>
        let first := minifyIP left
        let last := minifyIP right
        if first.length ≠ last.length then none
        else if compareBytes first last = .gt then none
        else some (first, last)
      | _, _ => none
    | none =>
      match E.parseIP spec with
      | none => none
      | some ip => some (minifyIP ip, minifyIP ip)

/-- `parseLine`: an error, or a range unless the line is blank or a comment. -/
def parseLine (l : Bytes) : Except String (Option Range) :=
  let line := trimSpace l
  if line = [] ∨ line.head? = some 35 then .ok none
  else
    match parseIPSpec E line with
    | some (first, last) => .ok (some { first := first, last := last })
    | none =>
      match line.findIdx? (· == 58) with
      | none => .error "bad IP range"
      | some colon =>
        let desc := trimSpace (line.take colon)
        let spec := trimSpace (line.drop (colon + 1))
        if colon = 0 ∨ desc = [] ∨ spec = [] then .error "bad IP range"
        else
          match parseIPSpec E spec with
          | none => .error "bad IP range"
          | some (first, last) => .ok (some { first := first, last := last, description := desc })

/-- A longer line ends the scan. -/
def maxScannerTokenSize : Nat := 1024 * 1024

/-- The lines of a `bufio.Scanner`: not the empty one at the end, and none behind one that is too long. -/
def scanLines (text : Bytes) : List Bytes :=
  let lines := splitLines text
  let lines := if lines.getLast? = some [] then lines.dropLast else lines
  (lines.takeWhile (·.length < maxScannerTokenSize)).map dropCR

/-- Is there a line that stops the scanner? -/
def tooLong (text : Bytes) : Bool := (splitLines text).any fun line => maxScannerTokenSize ≤ line.length

/-- The loop of `scanBuf`. -/
def scanLoop : Nat → List Bytes → List Range × List (Nat × WarningCode)
  | _, [] => ([], [])
  | lineNo, line :: rest =>
    let (ranges, warnings) := scanLoop (lineNo + 1) rest
    match parseLine E line with
    | .error _ => (ranges, (lineNo, .invalidIPRange) :: warnings)
    | .ok none => (ranges, warnings)
    | .ok (some r) => (r :: ranges, warnings)

/-- The order of `New`: by the first address, then by the last. -/
def rangeLess (a b : Range) : Bool :=
  match compareBytes a.first b.first with
  | .lt => true
  | .gt => false
  | .eq => compareBytes a.last b.last = .lt

/-- `New`: a stable sort. -/
def newIPList (ranges : List Range) : List Range := ranges.mergeSort fun a b => !rangeLess b a

/-- The ranges of a list, with a warning for each line that is none. -/
def scanBuf (buf : Bytes) : List Range × List (Nat × WarningCode) :=
  if buf = [] then (newIPList [], [])
  else
    let lines := scanLines buf
    let (ranges, warnings) := scanLoop E 1 lines
    (newIPList ranges, if tooLong buf then warnings ++ [(lines.length + 1, .lineTooLong)] else warnings)

end

/-- The loop of `lookup`. -/
def lookupIn (ranges : List Range) (ip : Bytes) : Option Range :=
  ranges.find? fun r => r.first.length == ip.length && r.last.length == ip.length &&
    compareBytes r.first ip != .gt && compareBytes ip r.last != .gt

/-- The range that an address is in. -/
def lookup (ranges : List Range) (ip : Bytes) : Option Range :=
  match to4 ip with
  | some v4 => lookupIn ranges v4
  | none => if ip.length = 16 then lookupIn ranges ip else none

/-- The part of `Snapshot` that the IP check reads. -/
structure Snapshot where
  whiteIP : List Range
  blackIP : List Range
  ipEnabled : Bool

/-- The lines that are not blank. -/
def textToList (text : Bytes) : List Bytes :=
  (splitLines (replaceCRLF text)).filter fun line => trimSpace line ≠ []

/-- `loadLists`, from the settings file; a configuration that cannot be read counts as an empty one. -/
def loadLists (E : NetTexts) (J : WAFTexts) (file : Except String (Option Bytes)) : Snapshot :=
  let cfg := match getWAFConfig J file with
    | .ok (cfg, _) => cfg
    | .error _ => {}
  let white := (scanBuf E (joinLines (cfg.whitelist.getD []))).1
  let black := (scanBuf E (joinLines (cfg.blacklist.getD []))).1
  { whiteIP := white, blackIP := black, ipEnabled := 0 < white.length || 0 < black.length }

/-- The texts that replace the lists. -/
structure ListsUpdate where
  whitelist : Bytes
  blacklist : Bytes
  referers : Bytes

/-- The configuration that `update` stores. -/
def ListsUpdate.config (u : ListsUpdate) : WAFConfig where
  whitelist := some (textToList u.whitelist)
  blacklist := some (textToList u.blacklist)
  referers := some (textToList u.referers)

/-- `update`: the settings file that is written, and the lists loaded from it. -/
def update (E : NetTexts) (J : WAFTexts) (readOnly : Bool) (file : Except String (Option Bytes))
    (u : ListsUpdate) :
    Except String (Bytes × Snapshot) := do
  let data ← setWAFConfig J readOnly file u.config
  return (data, loadLists E J (.ok (some data)))

/-- The IP check of `WAF`; `none` is an address that `clientIP` cannot determine. -/
def passesIP (snap : Snapshot) (clientIP : Option Bytes) : Bool :=
  if snap.ipEnabled = false then true
  else
    match clientIP with
    | none => false
    | some ip =>
      let ip := minifyIP ip
      if 0 < snap.whiteIP.length ∧ lookup snap.whiteIP ip = none then false
      else if 0 < snap.blackIP.length ∧ lookup snap.blackIP ip ≠ none then false
      else true

/-! ## What a line means -/

/-- The addresses of a line. -/
inductive Spec
  | single (addr : Addr)
  | range (first last : Addr)
  | cidr (addr : Addr) (hostBits : Nat)

/-- The address is of the same family, and the same, between the two, or the same up to the prefix. -/
def Spec.Contains : Spec → Addr → Prop
  | .single a, x => x = a
  | .range first last, x => x.family = first.family ∧ first.value ≤ x.value ∧ x.value ≤ last.value
  | .cidr a hostBits, x => x.family = a.family ∧ x.value / 2 ^ hostBits = a.value / 2 ^ hostBits

/-- The network of an address. One of 16 bytes within the IPv4-mapped addresses is of the family IPv4; one that
ends with them but begins before is none. -/
def networkSpec (ip : Bytes) (ones : Nat) : Option Spec :=
  let hostBits := 8 * ip.length - ones
  if ip.length = 4 then some (.cidr ⟨.v4, beVal ip⟩ hostBits)
  else if IsMapped (beVal ip) ∧ hostBits ≤ 32 then some (.cidr ⟨.v4, beVal ip % 2 ^ 32⟩ hostBits)
  else if IsMapped (beVal ip / 2 ^ hostBits * 2 ^ hostBits + (2 ^ hostBits - 1)) then none
  else some (.cidr ⟨.v6, beVal ip⟩ hostBits)

section

variable (E : NetTexts)

/-- The addresses that a text without a description gives. -/
def specOf (text : Bytes) : Option Spec :=
  let spec := trimSpace text
  if spec = [] then none
  else if (47 : UInt8) ∈ spec then (E.parsePrefix spec).bind fun p => networkSpec p.1 p.2
  else
    match findRangeHyphen E spec with
    | some hyphen =>
      match E.parseIP (trimSpace (spec.take hyphen)), E.parseIP (trimSpace (spec.drop (hyphen + 1))) with
      | some left, some right =>
        if (addrOf left).family = (addrOf right).family ∧ (addrOf left).value ≤ (addrOf right).value then
          some (.range (addrOf left) (addrOf right))
        else none
      | _, _ => none
    | none => (E.parseIP spec).map fun ip => .single (addrOf ip)

/-- The addresses of an accepted line: of the whole line, or of what follows the description. -/
def lineSpec (line : Bytes) : Option Spec :=
  let line := trimSpace line
  if line = [] ∨ line.head? = some 35 then none
  else
    match specOf E line with
    | some spec => some spec
    | none =>
      match line.findIdx? (· == 58) with
      | none => none
      | some colon =>
        let desc := trimSpace (line.take colon)
        let spec := trimSpace (line.drop (colon + 1))
        if colon = 0 ∨ desc = [] ∨ spec = [] then none else specOf E spec

end

/-! ## Ranges and what they mean -/

/-- The test of `lookup`. -/
def holds (first last ip : Bytes) : Bool :=
  first.length == ip.length && last.length == ip.length &&
    compareBytes first ip != .gt && compareBytes ip last != .gt

/-- A range stands for the addresses of a line. -/
def Represents (first last : Bytes) (spec : Spec) : Prop :=
  ∀ ip, Minified ip → (holds first last ip = true ↔ spec.Contains (addrOf ip))

section

variable {first last ip : Bytes} {ones : Nat}

theorem holds_iff (hfirst : Minified first) (hsame : first.length = last.length)
    (hip : Minified ip) : holds first last ip = true ↔
      (addrOf ip).family = (addrOf first).family ∧ beVal first ≤ beVal ip ∧ beVal ip ≤ beVal last := by
  simp only [holds, Bool.and_eq_true, beq_iff_eq, bne_iff_ne, ne_eq]
  constructor
  · rintro ⟨⟨⟨hlength, -⟩, hlow⟩, hhigh⟩
    rw [compareBytes_eq_gt_iff hlength] at hlow
    rw [compareBytes_eq_gt_iff (hlength.symm.trans hsame)] at hhigh
    exact ⟨((length_eq_iff hfirst hip).1 hlength).symm, by omega, by omega⟩
  · rintro ⟨hfamily, hlow, hhigh⟩
    have hlength := (length_eq_iff hfirst hip).2 hfamily.symm
    refine ⟨⟨⟨hlength, hsame.symm.trans hlength⟩, ?_⟩, ?_⟩
    · rw [compareBytes_eq_gt_iff hlength]
      omega
    · rw [compareBytes_eq_gt_iff (hlength.symm.trans hsame)]
      omega

theorem value_of_minified (h : Minified ip) : (addrOf ip).value = beVal ip := by rw [addrOf_of_minified h]

theorem represents_range (hleft : left.length = 16) (hright : right.length = 16)
    (hsame : (minifyIP left).length = (minifyIP right).length) :
    Represents (minifyIP left) (minifyIP right) (.range (addrOf left) (addrOf right)) := by
  intro ip hip
  have hfirst := minifyIP_minified (.inr hleft)
  have hlast := minifyIP_minified (.inr hright)
  rw [holds_iff hfirst hsame hip, Spec.Contains, ← addrOf_minifyIP (.inr hleft),
    ← addrOf_minifyIP (.inr hright), value_of_minified hfirst, value_of_minified hlast, value_of_minified hip]

theorem represents_single (h : ip.length = 16) :
    Represents (minifyIP ip) (minifyIP ip) (.single (addrOf ip)) := by
  intro x hx
  have hip := minifyIP_minified (.inr h)
  rw [holds_iff hip rfl hx, Spec.Contains, ← addrOf_minifyIP (.inr h), ← value_of_minified hip,
    ← value_of_minified hx]
  constructor
  · rintro ⟨hfamily, hlow, hhigh⟩
    cases hx' : addrOf x
    cases hip' : addrOf (minifyIP ip)
    simp only [hx', hip'] at hfamily hlow hhigh
    rw [hfamily, Nat.le_antisymm hhigh hlow]
  · intro heq
    rw [heq]
    exact ⟨rfl, Nat.le_refl _, Nat.le_refl _⟩

theorem represents_network {f : Family} {k : Nat} (hfirst : Minified first)
    (hsame : first.length = last.length) (hfamily : (addrOf first).family = f) (v : Nat)
    (hbetween : ∀ w, beVal first ≤ w ∧ w ≤ beVal last ↔ w / 2 ^ k = v / 2 ^ k) :
    Represents first last (.cidr ⟨f, v⟩ k) := by
  intro x hx
  rw [holds_iff hfirst hsame hx, hfamily, hbetween, Spec.Contains, value_of_minified hx]

/-- Numbers with the same prefix agree in the bits in front of it. -/
theorem div_eq_of_share {v w k n : Nat} (hk : k ≤ n) (h : w / 2 ^ k = v / 2 ^ k) : w / 2 ^ n = v / 2 ^ n := by
  obtain ⟨e, rfl⟩ := Nat.exists_eq_add_of_le hk
  rw [Nat.pow_add, ← Nat.div_div_eq_div_mul, ← Nat.div_div_eq_div_mul, h]

theorem network_ends_share (ip : Bytes) (h : ones ≤ 8 * ip.length) :
    beVal (network ip ones).ip / 2 ^ (8 * ip.length - ones) = beVal ip / 2 ^ (8 * ip.length - ones) ∧
      beVal (lastIP (network ip ones)) / 2 ^ (8 * ip.length - ones)
        = beVal ip / 2 ^ (8 * ip.length - ones) := by
  have hle : beVal (network ip ones).ip ≤ beVal (lastIP (network ip ones)) := by
    obtain ⟨hlow, hhigh⟩ := network_ends ip ones h
    omega
  exact ⟨(between_network_iff h _).1 ⟨Nat.le_refl _, hle⟩, (between_network_iff h _).1 ⟨hle, Nat.le_refl _⟩⟩

/-- A network within the IPv4-mapped addresses. -/
theorem represents_mapped (hlength : ip.length = 16) (hones : ones ≤ 8 * ip.length)
    (hmapped : IsMapped (beVal ip)) (hbits : 8 * ip.length - ones ≤ 32) :
    (minifyIP (network ip ones).ip).length = (minifyIP (lastIP (network ip ones))).length ∧
      Represents (minifyIP (network ip ones).ip) (minifyIP (lastIP (network ip ones)))
        (.cidr ⟨.v4, beVal ip % 2 ^ 32⟩ (8 * ip.length - ones)) := by
  have hiplen : (network ip ones).ip.length = 16 := (network_ip_length ip ones).trans hlength
  have hlastlen : (lastIP (network ip ones)).length = 16 := (lastIP_network_length ip ones).trans hlength
  obtain ⟨hlow, hhigh⟩ := network_ends_share ip hones
  have hlowMapped : IsMapped (beVal (network ip ones).ip) := (div_eq_of_share hbits hlow).trans hmapped
  have hhighMapped : IsMapped (beVal (lastIP (network ip ones))) := (div_eq_of_share hbits hhigh).trans hmapped
  obtain ⟨hfirstLen, hfirstVal⟩ := minifyIP_of_mapped hiplen hlowMapped
  obtain ⟨hlastLen, hlastVal⟩ := minifyIP_of_mapped hlastlen hhighMapped
  have hfirst := minifyIP_minified (.inr hiplen)
  refine ⟨hfirstLen.trans hlastLen.symm, ?_⟩
  apply represents_network hfirst (hfirstLen.trans hlastLen.symm)
  · rw [addrOf_of_minified hfirst, if_pos hfirstLen]
  · intro w
    -- the numbers of all three lie behind the same multiple of `2 ^ 32`
    have hbetween := between_network_iff hones (0xffff * 2 ^ 32 + w)
    have hdvd : 2 ^ (8 * ip.length - ones) ∣ 0xffff * 2 ^ 32 :=
      Dvd.dvd.mul_left (Nat.pow_dvd_pow 2 hbits) _
    obtain ⟨q, hq⟩ := hdvd
    have hsplit : ∀ u, (0xffff * 2 ^ 32 + u) / 2 ^ (8 * ip.length - ones)
        = q + u / 2 ^ (8 * ip.length - ones) := by
      intro u
      rw [hq, Nat.mul_add_div (Nat.two_pow_pos _)]
    have hip : beVal ip = 0xffff * 2 ^ 32 + beVal ip % 2 ^ 32 := by
      rw [IsMapped] at hmapped
      omega
    rw [hip, hsplit, hsplit, Nat.add_left_cancel_iff] at hbetween
    rw [IsMapped] at hlowMapped hhighMapped
    rw [← hbetween, hfirstVal, hlastVal]
    omega

/-- A network with an end that is not IPv4-mapped. -/
theorem represents_unmapped (hlength : ip.length = 16) (hones : ones ≤ 8 * ip.length)
    (hwithin : ¬ (IsMapped (beVal ip) ∧ 8 * ip.length - ones ≤ 32)) :
    (IsMapped (beVal (lastIP (network ip ones))) →
      (minifyIP (network ip ones).ip).length ≠ (minifyIP (lastIP (network ip ones))).length) ∧
    (¬ IsMapped (beVal (lastIP (network ip ones))) →
      (minifyIP (network ip ones).ip).length = (minifyIP (lastIP (network ip ones))).length ∧
      Represents (minifyIP (network ip ones).ip) (minifyIP (lastIP (network ip ones)))
        (.cidr ⟨.v6, beVal ip⟩ (8 * ip.length - ones))) := by
  have hiplen : (network ip ones).ip.length = 16 := (network_ip_length ip ones).trans hlength
  have hlastlen : (lastIP (network ip ones)).length = 16 := (lastIP_network_length ip ones).trans hlength
  obtain ⟨hlow, hhigh⟩ := network_ends ip ones hones
  have hpos : 0 < 2 ^ (8 * ip.length - ones) := Nat.two_pow_pos _
  -- both ends are mapped only if the whole network is
  have hboth : ¬ (IsMapped (beVal (network ip ones).ip) ∧ IsMapped (beVal (lastIP (network ip ones)))) := by
    rintro ⟨hfirst, hlast⟩
    obtain ⟨hle, hge⟩ := (between_network_iff hones (beVal ip)).2 rfl
    rw [IsMapped] at hfirst hlast
    refine hwithin ⟨by rw [IsMapped]; omega, ?_⟩
    by_contra hlong
    have hpow : 2 ^ 33 ≤ 2 ^ (8 * ip.length - ones) := Nat.pow_le_pow_right (by decide) (by omega)
    omega
  constructor
  · intro hlast hsame
    have hfirst : ¬ IsMapped (beVal (network ip ones).ip) := fun hfirst => hboth ⟨hfirst, hlast⟩
    rw [minifyIP_of_not_mapped hiplen hfirst, hiplen, (minifyIP_of_mapped hlastlen hlast).1] at hsame
    cases hsame
  · intro hlast
    have hfirst : ¬ IsMapped (beVal (network ip ones).ip) := by
      intro hfirst
      rcases Nat.lt_or_ge 32 (8 * ip.length - ones) with hlong | hshort
      · -- the first address is even in its bit 32, the mapped ones are odd
        obtain ⟨e, he⟩ := Nat.exists_eq_add_of_lt hlong
        rw [IsMapped, hlow, he, show 32 + e + 1 = 32 + (1 + e) by omega, Nat.pow_add, ← Nat.mul_assoc,
          Nat.mul_right_comm, Nat.mul_div_cancel _ (by decide), Nat.pow_add, ← Nat.mul_assoc,
          Nat.mul_right_comm] at hfirst
        omega
      · obtain ⟨hshare, hshare'⟩ := network_ends_share ip hones
        exact hlast ((div_eq_of_share hshort (hshare'.trans hshare.symm)).trans hfirst)
    rw [minifyIP_of_not_mapped hiplen hfirst, minifyIP_of_not_mapped hlastlen hlast]
    have hfirstMin : Minified (network ip ones).ip :=
      .inr ⟨hiplen, to4_eq_none hiplen (mt (mapped_iff hiplen).1 hfirst)⟩
    refine ⟨hiplen.trans hlastlen.symm, ?_⟩
    apply represents_network hfirstMin (hiplen.trans hlastlen.symm)
    · rw [addrOf_of_minified hfirstMin, if_neg (by omega)]
    · exact between_network_iff hones

theorem represents_short (hlength : ip.length = 4) (hones : ones ≤ 8 * ip.length) :
    (minifyIP (network ip ones).ip).length = (minifyIP (lastIP (network ip ones))).length ∧
      Represents (minifyIP (network ip ones).ip) (minifyIP (lastIP (network ip ones)))
        (.cidr ⟨.v4, beVal ip⟩ (8 * ip.length - ones)) := by
  have hiplen : (network ip ones).ip.length = 4 := (network_ip_length ip ones).trans hlength
  have hlastlen : (lastIP (network ip ones)).length = 4 := (lastIP_network_length ip ones).trans hlength
  have hfirst : minifyIP (network ip ones).ip = (network ip ones).ip := by
    rw [minifyIP, to4_of_length hiplen]
    rfl
  have hlast : minifyIP (lastIP (network ip ones)) = lastIP (network ip ones) := by
    rw [minifyIP, to4_of_length hlastlen]
    rfl
  rw [hfirst, hlast]
  refine ⟨hiplen.trans hlastlen.symm, ?_⟩
  apply represents_network (.inl hiplen) (hiplen.trans hlastlen.symm)
  · rw [addrOf_of_minified (.inl hiplen), if_pos hiplen]
  · exact between_network_iff hones

end

/-! ## Lines and what they mean -/

/-- Both sides give nothing, or a range and the addresses that it stands for. -/
def Agree : Option (Bytes × Bytes) → Option Spec → Prop
  | some range, some spec => Represents range.1 range.2 spec
  | none, none => True
  | _, _ => False

section

variable {E : NetTexts}

/-- Equal lengths, as the code asks for them, are equal families. -/
theorem minified_length_iff (hleft : left.length = 16) (hright : right.length = 16) :
    (minifyIP left).length = (minifyIP right).length ↔ (addrOf left).family = (addrOf right).family := by
  rw [length_eq_iff (minifyIP_minified (.inr hleft)) (minifyIP_minified (.inr hright)),
    addrOf_minifyIP (.inr hleft), addrOf_minifyIP (.inr hright)]

theorem agree_parseIPSpec (hE : E.Documented) (text : Bytes) : Agree (parseIPSpec E text) (specOf E text) := by
  rw [parseIPSpec, specOf]
  by_cases hempty : trimSpace text = []
  · rw [if_pos hempty, if_pos hempty]
    trivial
  · rw [if_neg hempty, if_neg hempty]
    by_cases hslash : (47 : UInt8) ∈ trimSpace text
    · -- a network
      rw [if_pos hslash, if_pos hslash]
      cases hprefix : E.parsePrefix (trimSpace text) with
      | none => trivial
      | some p =>
        obtain ⟨ip, ones⟩ := p
        obtain ⟨hlength, hones⟩ := hE.parsePrefix _ _ _ hprefix
        rw [Option.bind_some, networkSpec]
        dsimp only
        rcases hlength with hshort | hlong
        · obtain ⟨hsame, hrep⟩ := represents_short hshort hones
          rw [if_neg (not_not_intro hsame), if_pos hshort]
          exact hrep
        · rw [if_neg (show ¬ ip.length = 4 by omega)]
          by_cases hwithin : IsMapped (beVal ip) ∧ 8 * ip.length - ones ≤ 32
          · obtain ⟨hsame, hrep⟩ := represents_mapped hlong hones hwithin.1 hwithin.2
            rw [if_neg (not_not_intro hsame), if_pos hwithin]
            exact hrep
          · obtain ⟨hrejected, hrep⟩ := represents_unmapped hlong hones hwithin
            rw [if_neg hwithin, ← (network_ends ip ones hones).2]
            by_cases hlast : IsMapped (beVal (lastIP (network ip ones)))
            · rw [if_pos hlast, if_pos (hrejected hlast)]
              trivial
            · obtain ⟨hsame, hrep⟩ := hrep hlast
              rw [if_neg hlast, if_neg (not_not_intro hsame)]
              exact hrep
    · rw [if_neg hslash, if_neg hslash]
      cases hhyphen : findRangeHyphen E (trimSpace text) with
      | some hyphen =>
        -- two addresses
        dsimp only
        cases hleft : E.parseIP (trimSpace ((trimSpace text).take hyphen)) with
        | none => trivial
        | some left =>
          cases hright : E.parseIP (trimSpace ((trimSpace text).drop (hyphen + 1))) with
          | none => trivial
          | some right =>
            have hleftLen := hE.parseIP _ _ hleft
            have hrightLen := hE.parseIP _ _ hright
            dsimp only
            by_cases hsame : (minifyIP left).length = (minifyIP right).length
            · have hfamily := (minified_length_iff hleftLen hrightLen).1 hsame
              have hvalues : compareBytes (minifyIP left) (minifyIP right) = .gt ↔
                  ¬ (addrOf left).value ≤ (addrOf right).value := by
                rw [compareBytes_eq_gt_iff hsame, ← addrOf_minifyIP (.inr hleftLen),
                  ← addrOf_minifyIP (.inr hrightLen), value_of_minified (minifyIP_minified (.inr hleftLen)),
                  value_of_minified (minifyIP_minified (.inr hrightLen)), Nat.not_le]
              rw [if_neg (not_not_intro hsame)]
              by_cases hle : (addrOf left).value ≤ (addrOf right).value
              · rw [if_neg (fun hgt => hvalues.1 hgt hle), if_pos ⟨hfamily, hle⟩]
                exact represents_range hleftLen hrightLen hsame
              · rw [if_pos (hvalues.2 hle), if_neg (fun h => hle h.2)]
                trivial
            · rw [if_pos hsame, if_neg (fun h => hsame ((minified_length_iff hleftLen hrightLen).2 h.1))]
              trivial
      | none =>
        -- one address
        dsimp only
        cases hip : E.parseIP (trimSpace text) with
        | none => trivial
        | some ip => exact represents_single (hE.parseIP _ _ hip)

theorem Agree.cases {range : Option (Bytes × Bytes)} {spec : Option Spec} (h : Agree range spec) :
    (range = none ∧ spec = none) ∨
      ∃ r s, range = some r ∧ spec = some s ∧ Represents r.1 r.2 s := by
  cases range with
  | none =>
    cases spec with
    | none => exact .inl ⟨rfl, rfl⟩
    | some s => exact h.elim
  | some r =>
    cases spec with
    | none => exact h.elim
    | some s => exact .inr ⟨r, s, rfl, rfl, h⟩

/-- A line is accepted with a range exactly if it has a meaning, and then the range stands for it. -/
theorem parseLine_cases (hE : E.Documented) (line : Bytes) :
    ((∀ r, parseLine E line ≠ .ok (some r)) ∧ lineSpec E line = none) ∨
      ∃ r spec, parseLine E line = .ok (some r) ∧ lineSpec E line = some spec ∧
        Represents r.first r.last spec := by
  rw [parseLine, lineSpec]
  by_cases hskip : trimSpace line = [] ∨ (trimSpace line).head? = some 35
  · rw [if_pos hskip, if_pos hskip]
    exact .inl ⟨(fun _ h => nomatch h), rfl⟩
  · rw [if_neg hskip, if_neg hskip]
    rcases (agree_parseIPSpec hE (trimSpace line)).cases with ⟨hparse, hspec⟩
      | ⟨range, spec, hparse, hspec, hrep⟩
    · -- not the whole line: the first colon ends a description
      rw [hparse, hspec]
      dsimp only
      cases hcolon : (trimSpace line).findIdx? (· == 58) with
      | none => exact .inl ⟨(fun _ h => nomatch h), rfl⟩
      | some colon =>
        dsimp only
        by_cases hbad : colon = 0 ∨ trimSpace ((trimSpace line).take colon) = [] ∨
            trimSpace ((trimSpace line).drop (colon + 1)) = []
        · rw [if_pos hbad, if_pos hbad]
          exact .inl ⟨(fun _ h => nomatch h), rfl⟩
        · rw [if_neg hbad, if_neg hbad]
          rcases (agree_parseIPSpec hE (trimSpace ((trimSpace line).drop (colon + 1)))).cases
            with ⟨hparse', hspec'⟩ | ⟨range, spec, hparse', hspec', hrep⟩
          · rw [hparse', hspec']
            exact .inl ⟨(fun _ h => nomatch h), rfl⟩
          · rw [hparse', hspec']
            exact .inr ⟨_, spec, rfl, rfl, hrep⟩
    · rw [hparse, hspec]
      exact .inr ⟨_, spec, rfl, rfl, hrep⟩

/-! ## From the texts to the lists -/

/-- Only what is left of a line when it is trimmed counts. -/
theorem parseLine_congr {line' : Bytes} (h : trimSpace line = trimSpace line') :
    parseLine E line = parseLine E line' := by
  rw [parseLine, parseLine, h]

theorem mem_scanLoop {lines : List Bytes} {r : Range} (lineNo : Nat) :
    r ∈ (scanLoop E lineNo lines).1 ↔ ∃ line ∈ lines, parseLine E line = .ok (some r) := by
  induction lines generalizing lineNo with
  | nil => simp [scanLoop]
  | cons line rest ih =>
    have hrest := ih (lineNo + 1)
    rw [scanLoop]
    dsimp only
    cases hline : parseLine E line with
    | error e => simp [hrest, hline]
    | ok result =>
      cases result with
      | none => simp [hrest, hline]
      | some r' =>
        simp only [mem_cons, hrest, exists_eq_or_imp, hline, Except.ok.injEq, Option.some.injEq]
        exact or_congr_left eq_comm

/-- The lines of a text that are not blank, as the list is stored. -/
theorem mem_textToList (h : line ∈ textToList text) :
    trimSpace line ≠ [] ∧ (10 : UInt8) ∉ line ∧
      ∃ line' ∈ splitLines text, trimSpace line' = trimSpace line ∧ line.length ≤ line'.length := by
  obtain ⟨hmem, hblank⟩ := mem_filter.1 h
  refine ⟨of_decide_eq_true hblank, not_mem_of_mem_splitOn hmem, ?_⟩
  obtain ⟨line', hmem', hcr⟩ := exists_of_forall₂_left (splitLines_replaceCRLF text) line hmem
  refine ⟨line', hmem', trimSpace_of_cr hcr, ?_⟩
  rcases hcr with rfl | rfl
  · exact Nat.le_refl _
  · rw [length_append]
    omega

theorem exists_mem_textToList (h : line ∈ splitLines text) (hblank : trimSpace line ≠ []) :
    ∃ line' ∈ textToList text, trimSpace line = trimSpace line' := by
  obtain ⟨line', hmem', hcr⟩ := exists_of_forall₂_left (splitLines_replaceCRLF text).flip line h
  have htrim : trimSpace line = trimSpace line' := trimSpace_of_cr hcr
  exact ⟨line', mem_filter.2 ⟨hmem', decide_eq_true (htrim ▸ hblank)⟩, htrim⟩

/-- A line with a range is not blank. -/
theorem trimSpace_ne_nil_of_parseLine {r : Range} (h : parseLine E line = .ok (some r)) :
    trimSpace line ≠ [] := by
  intro hblank
  rw [parseLine, if_pos (.inl hblank)] at h
  cases h

theorem splitLines_joinLines (hne : textToList text ≠ []) :
    splitLines (joinLines (textToList text)) = textToList text :=
  splitOn_intercalate 10 (fun _ hline => (mem_textToList hline).2.1) hne

/-- The lines that are scanned are those that were stored. -/
theorem scanLines_joinLines (hne : textToList text ≠ [])
    (hshort : ∀ line ∈ splitLines text, line.length < maxScannerTokenSize) :
    scanLines (joinLines (textToList text)) = (textToList text).map dropCR := by
  have hlast : (textToList text).getLast? ≠ some [] := by
    intro hlast
    exact (mem_textToList (mem_of_getLast? hlast)).1 (by decide)
  have htake : (textToList text).takeWhile (fun line => line.length < maxScannerTokenSize)
      = textToList text := by
    rw [takeWhile_eq_self_iff]
    intro line hline
    obtain ⟨-, -, line', hmem, -, hle⟩ := mem_textToList hline
    exact decide_eq_true (Nat.lt_of_le_of_lt hle (hshort line' hmem))
  rw [scanLines, splitLines_joinLines hne, if_neg hlast, htake]

/-- **The ranges of a list** are those of the lines of its text. -/
theorem mem_scanBuf (hshort : ∀ line ∈ splitLines text, line.length < maxScannerTokenSize) {r : Range} :
    r ∈ (scanBuf E (joinLines (textToList text))).1 ↔
      ∃ line ∈ splitLines text, parseLine E line = .ok (some r) := by
  have hstored : (∃ line ∈ textToList text, parseLine E line = .ok (some r)) ↔
      ∃ line ∈ splitLines text, parseLine E line = .ok (some r) := by
    constructor
    · rintro ⟨line, hline, hparse⟩
      obtain ⟨-, -, line', hmem, htrim, -⟩ := mem_textToList hline
      exact ⟨line', hmem, (parseLine_congr htrim).trans hparse⟩
    · rintro ⟨line, hline, hparse⟩
      obtain ⟨line', hmem, htrim⟩ := exists_mem_textToList hline (trimSpace_ne_nil_of_parseLine hparse)
      exact ⟨line', hmem, (parseLine_congr htrim.symm).trans hparse⟩
  rw [← hstored]
  by_cases hnil : textToList text = []
  · have hempty : (scanBuf E (joinLines [])).1 = [] := by
      rw [scanBuf, if_pos (show joinLines [] = [] from rfl), newIPList, mergeSort_nil]
    rw [hnil, hempty]
    simp
  · have hbuf : joinLines (textToList text) ≠ [] := by
      intro hempty
      have hsplit := splitLines_joinLines hnil
      rw [hempty] at hsplit
      exact (mem_textToList (hsplit ▸ mem_singleton.2 rfl : ([] : Bytes) ∈ textToList text)).1 (by decide)
    rw [scanBuf, if_neg hbuf, scanLines_joinLines hnil hshort]
    show r ∈ newIPList (scanLoop E 1 _).1 ↔ _
    rw [newIPList, mem_mergeSort, mem_scanLoop]
    simp only [mem_map, exists_exists_and_eq_and]
    constructor
    · rintro ⟨line, hline, hparse⟩
      exact ⟨line, hline, (parseLine_congr (trimSpace_dropCR line)).symm.trans hparse⟩
    · rintro ⟨line, hline, hparse⟩
      exact ⟨line, hline, (parseLine_congr (trimSpace_dropCR line)).trans hparse⟩

/-! ## The verdict -/

theorem lookup_ne_none_iff {ranges : List Range} {ip : Bytes} (hip : Minified ip) :
    lookup ranges ip ≠ none ↔ ∃ r ∈ ranges, holds r.first r.last ip = true := by
  have hlookup : lookup ranges ip = lookupIn ranges ip := by
    rcases hip with hshort | ⟨hlong, hnone⟩
    · rw [lookup, to4_of_length hshort]
    · rw [lookup, hnone, if_pos hlong]
  rw [hlookup, Option.ne_none_iff_isSome, lookupIn, find?_isSome]
  rfl

/-- A list that was loaded from a text: what it contains, and when it is empty. -/
theorem loaded_spec (hE : E.Documented) (hshort : ∀ line ∈ splitLines text, line.length < maxScannerTokenSize)
    {ip : Bytes} (hip : ip.length = 4 ∨ ip.length = 16) :
    (0 < (scanBuf E (joinLines (textToList text))).1.length ↔
      ∃ line ∈ splitLines text, lineSpec E line ≠ none) ∧
    (lookup (scanBuf E (joinLines (textToList text))).1 (minifyIP ip) ≠ none ↔
      ∃ line ∈ splitLines text, ∃ spec, lineSpec E line = some spec ∧ spec.Contains (addrOf ip)) := by
  constructor
  · rw [length_pos_iff_exists_mem]
    constructor
    · rintro ⟨r, hr⟩
      obtain ⟨line, hline, hparse⟩ := (mem_scanBuf hshort).1 hr
      rcases parseLine_cases hE line with ⟨hno, -⟩ | ⟨-, spec, -, hspec, -⟩
      · exact absurd hparse (hno r)
      · exact ⟨line, hline, by rw [hspec]; exact Option.some_ne_none spec⟩
    · rintro ⟨line, hline, hspec⟩
      rcases parseLine_cases hE line with ⟨-, hnone⟩ | ⟨r, -, hparse, -, -⟩
      · exact absurd hnone hspec
      · exact ⟨r, (mem_scanBuf hshort).2 ⟨line, hline, hparse⟩⟩
  · rw [lookup_ne_none_iff (minifyIP_minified hip), ← addrOf_minifyIP hip]
    constructor
    · rintro ⟨r, hr, hholds⟩
      obtain ⟨line, hline, hparse⟩ := (mem_scanBuf hshort).1 hr
      rcases parseLine_cases hE line with ⟨hno, -⟩ | ⟨r', spec, hparse', hspec, hrep⟩
      · exact absurd hparse (hno r)
      · rw [hparse] at hparse'
        cases hparse'
        exact ⟨line, hline, spec, hspec, (hrep _ (minifyIP_minified hip)).1 hholds⟩
    · rintro ⟨line, hline, spec, hspec, hcontains⟩
      rcases parseLine_cases hE line with ⟨-, hnone⟩ | ⟨r, spec', hparse, hspec', hrep⟩
      · rw [hspec] at hnone
        cases hnone
      · rw [hspec] at hspec'
        cases hspec'
        exact ⟨r, (mem_scanBuf hshort).2 ⟨line, hline, hparse⟩, (hrep _ (minifyIP_minified hip)).2 hcontains⟩

theorem passesIP_lists (white black : List Range) (ip : Bytes) :
    passesIP { whiteIP := white, blackIP := black, ipEnabled := 0 < white.length || 0 < black.length }
        (some ip) = true ↔
      (¬ 0 < white.length ∨ lookup white (minifyIP ip) ≠ none) ∧ ¬ lookup black (minifyIP ip) ≠ none := by
  have hempty : ∀ ranges : List Range, ¬ 0 < ranges.length → lookup ranges (minifyIP ip) = none := by
    intro ranges hnot
    rw [length_eq_zero_iff.1 (Nat.eq_zero_of_not_pos hnot), lookup]
    split
    · rfl
    · exact ite_self none
  rw [passesIP]
  dsimp only
  by_cases hwhite : 0 < white.length
  · rw [decide_eq_true hwhite, Bool.true_or, if_neg (by simp)]
    by_cases hfound : lookup white (minifyIP ip) = none
    · rw [if_pos ⟨hwhite, hfound⟩]
      simp [hwhite, hfound]
    · rw [if_neg fun h => hfound h.2]
      by_cases hbanned : lookup black (minifyIP ip) = none
      · rw [if_neg fun h => h.2 hbanned]
        simp [hfound, hbanned]
      · have hblack : 0 < black.length := by
          by_contra hnot
          exact hbanned (hempty black hnot)
        rw [if_pos ⟨hblack, hbanned⟩]
        simp [hbanned]
  · rw [decide_eq_false hwhite, Bool.false_or]
    by_cases hblack : 0 < black.length
    · rw [decide_eq_true hblack, if_neg (by simp), if_neg fun h => hwhite h.1]
      by_cases hbanned : lookup black (minifyIP ip) = none
      · rw [if_neg fun h => h.2 hbanned]
        simp [hwhite, hbanned]
      · rw [if_pos ⟨hblack, hbanned⟩]
        simp [hbanned]
    · rw [decide_eq_false hblack, if_pos rfl]
      simp [hwhite, hempty black hblack]

end

/-! ## Dotted addresses -/

namespace Dotted

/-- A text cut at a byte. -/
def cut (sep : UInt8) (text : Bytes) : Bytes × Bytes :=
  (text.takeWhile (· != sep), (text.dropWhile (· != sep)).drop 1)

/-- A number of one byte. -/
def parseByte (text : Bytes) : Option UInt8 := (parseMagnitude text 255).map UInt8.ofNat

/-- An IPv4 address in dotted form. -/
def parseV4 (text : Bytes) : Option Bytes := do
  let (a, rest) := cut 46 text
  let (b, rest) := cut 46 rest
  let (c, d) := cut 46 rest
  return [← parseByte a, ← parseByte b, ← parseByte c, ← parseByte d]

/-- The texts of IPv4 only. -/
def texts : NetTexts where
  parseIP text := (parseV4 text).map (v4InV6Prefix ++ ·)
  parsePrefix text := do
    let (address, ones) := cut 47 text
    return (← parseV4 address, ← parseMagnitude ones 32)

theorem parseV4_length {ip : Bytes} (h : parseV4 text = some ip) : ip.length = 4 := by
  simp only [parseV4, Option.bind_eq_bind, Option.bind_eq_some_iff, Option.pure_def, Option.some.injEq] at h
  obtain ⟨a, -, b, -, c, -, d, -, rfl⟩ := h
  rfl

theorem texts_documented : texts.Documented where
  parseIP text ip h := by
    obtain ⟨short, hshort, rfl⟩ := Option.map_eq_some_iff.1 h
    rw [length_append, parseV4_length hshort]
    rfl
  parsePrefix text ip ones h := by
    simp only [texts, Option.bind_eq_bind, Option.bind_eq_some_iff, Option.pure_def, Option.some.injEq,
      Prod.mk.injEq] at h
    obtain ⟨ip', hip, ones', hones, rfl, rfl⟩ := h
    have hlength := parseV4_length hip
    refine ⟨.inl hlength, ?_⟩
    rw [parseMagnitude] at hones
    split at hones
    · rename_i hbound
      cases hones
      omega
    · cases hones

/-- A white list of one network, and a black list of one of its addresses. -/
def lists : ListsUpdate :=
  { whitelist := ascii "lan:10.0.0.0/8\r", blacklist := ascii "10.0.0.7", referers := [] }

/-- What is printed for the lists. -/
def raw : Bytes := ascii
  "\x7b\"version\":1,\"whitelist\":[\"lan:10.0.0.0/8\\r\"],\"blacklist\":[\"10.0.0.7\"],\"referers\":[]\x7d"

/-- JSON for these lists only, and without indentation. -/
def json : WAFTexts where
  unmarshalRoot data :=
    if data = ascii "\x7b\"waf\":" ++ raw ++ ascii "\x7d" then .ok (some [(wafConfigKey, raw)])
      else .error "no map"
  marshalIndent m :=
    if m = [(wafConfigKey, raw)] then .ok (ascii "\x7b\"waf\":" ++ raw ++ ascii "\x7d") else .error "no text"
  indented text := text
  unmarshal text := if text = raw then .ok (normalizeWAFConfig lists.config) else .error "no lists"
  marshal cfg := if cfg = normalizeWAFConfig lists.config then .ok raw else .error "no text"

theorem json_faithful : json.Faithful where
  marshalIndent m data h := by
    rw [json, ite_eq_iff] at h
    obtain ⟨rfl, h⟩ | ⟨-, h⟩ := h
    · cases h
      exact ⟨_, by simp only [json, if_pos], fun n => Option.map_id'.symm⟩
    · cases h
  unmarshal_indented _ := rfl
  isNull_indented _ := rfl
  marshal cfg text _ h := by
    rw [json, ite_eq_iff] at h
    obtain ⟨rfl, h⟩ | ⟨-, h⟩ := h
    · cases h
      exact ⟨by decide +kernel, by simp only [json, if_pos]⟩
    · cases h

end Dotted

end TorrServer.Waf
