/-
# Waf.RefererRules — the ways to write a rule, and the verdict on a request.

A rule of the referer list is written for a host: as its name or as an IPv6 address, with or without a port,
with a dot behind the name, in any letter case, or as the URL of a site. Each of these spellings is followed
here through `normalizeRefererRule`.
-/
import TorrServer.Waf.Referer

namespace TorrServer.Waf

open Lib List

variable {s t after host digits written text value port scheme path : Bytes} {b sep : UInt8}

section

variable {E : RefererTexts}

/-! ## The ways to write a rule -/

/-- The host in a rule: a name, in any case and maybe with a dot, or an IPv6 address in brackets. -/
inductive Writes (E : RefererTexts) (host : Bytes) : Bytes → Prop
  | name (written : Bytes) (dot : Bool) : E.IsName written → written ≠ [] → written.getLast? ≠ some 46 →
      E.toLower written = E.toLower host → Writes E host (written ++ if dot then [46] else [])
  | address (written : Bytes) : E.IsIPv6 written → E.toLower written = E.toLower host →
      Writes E host (91 :: written ++ [93])

/-- The rules for a host: an IPv6 address, or the host with or without a port, or these in a URL. -/
inductive Spells (E : RefererTexts) (host : Bytes) : Bytes → Prop
  | bare (written : Bytes) : E.IsIPv6 written → E.toLower written = E.toLower host → Spells E host written
  | plain {text port : Bytes} : Writes E host text → IsPort port → Spells E host (text ++ port)
  | url {scheme text port path : Bytes} : IsScheme scheme → Writes E host text → IsPort port → IsRoot path →
      Spells E host (scheme ++ schemeEnd ++ text ++ port ++ path)

/-- A visible ASCII byte. -/
def isGraph (b : UInt8) : Bool := 33 ≤ b && b < 0x80

theorem solid_graph_append (hs : ∀ b ∈ s, isGraph b = true) (ht : Solid t) : Solid (s ++ t) := by
  induction s with
  | nil => exact ht
  | cons b s ih =>
    obtain ⟨hlow, hhigh⟩ := (Bool.and_eq_true _ _).mp (hs b mem_cons_self)
    have hascii : b < 0x80 := of_decide_eq_true hhigh
    have hgraph : 33 ≤ b.toNat := UInt8.le_iff_toNat_le.1 (of_decide_eq_true hlow)
    have htop : b.toNat < 128 := UInt8.lt_iff_toNat_lt.1 hascii
    intro r hr
    rw [cons_append, runes_ascii_cons hascii, mem_cons] at hr
    rcases hr with rfl | hr
    · have hoff : ∀ r ∈ spaceRunes, r < 33 ∨ 128 ≤ r := by decide
      intro hspace
      have := hoff _ hspace
      omega
    · exact ih (fun c hc => hs c (mem_cons_of_mem b hc)) r hr

theorem solid_append_graph (hs : Solid s) (ht : ∀ b ∈ t, isGraph b = true) : Solid (s ++ t) := by
  cases t with
  | nil => rwa [append_nil]
  | cons b t =>
    have hstarts : startsRune b = true := by
      obtain ⟨-, hhigh⟩ := (Bool.and_eq_true _ _).mp (ht b mem_cons_self)
      exact Bool.or_eq_true_iff.2 (Or.inl hhigh)
    have htail : Solid (b :: t) := by
      have hall := solid_graph_append ht (t := []) (fun r hr => (nomatch hr))
      rwa [append_nil] at hall
    intro r hr
    rw [runes_append hstarts, mem_append] at hr
    rcases hr with hr | hr
    · exact hs r hr
    · exact htail r hr

/-- An ASCII byte that is no letter or digit, no hyphen and no dot is not in a name. -/
theorem RefererTexts.IsName.not_mem
    (hascii : ∀ b : UInt8, b < 0x80 → (E.isLetter b.toNat || E.isDigit b.toNat) = isAlnum b) (h : E.IsName s)
    (hb : b < 0x80 ∧ isAlnum b = false ∧ b ≠ 45 ∧ b ≠ 46) : b ∉ s := by
  intro hmem
  obtain ⟨hlow, hclass, h45, h46⟩ := hb
  have hrune := h _ (mem_runes_of_ascii hlow hmem)
  rw [← hascii b hlow, Bool.or_eq_false_iff] at hclass
  rw [hclass.1, hclass.2] at hrune
  rcases hrune with h | h | h | h
  · cases h
  · cases h
  · exact h45 (UInt8.toNat_inj.1 h)
  · exact h46 (UInt8.toNat_inj.1 h)

theorem RefererTexts.IsName.solid (hE : E.Documented) (h : E.IsName s) : Solid s := by
  intro r hr hspace
  obtain ⟨hletter, hdigit⟩ := hE.not_space r hspace
  rcases h r hr with h | h | rfl | rfl
  · rw [hletter] at h
    cases h
  · rw [hdigit] at h
    cases h
  · exact absurd hspace (by decide)
  · exact absurd hspace (by decide)

theorem RefererTexts.IsIPv6.bytes (hE : E.Documented) (h : E.IsIPv6 s) (hb : b ∈ s) :
    isAddressByte b = true := hE.parseIP_bytes s h.1 b hb

theorem isGraph_of_isDigit (h : Lib.isDigit b = true) : isGraph b = true := by
  unfold Lib.isDigit at h
  unfold isGraph
  simp only [Bool.and_eq_true, decide_eq_true_iff, UInt8.le_iff_toNat_le, UInt8.lt_iff_toNat_lt,
    UInt8.reduceToNat] at h ⊢
  omega

theorem isGraph_of_isAddressByte (h : isAddressByte b = true) : isGraph b = true := by
  unfold isAddressByte Lib.isDigit at h
  unfold isGraph
  simp only [Bool.or_eq_true, Bool.and_eq_true, decide_eq_true_iff, UInt8.le_iff_toNat_le,
    UInt8.lt_iff_toNat_lt, ← UInt8.toNat_inj, UInt8.reduceToNat] at h ⊢
  omega

theorem isGraph_of_lowerByte (h : isGraph (lowerByte b) = true) : isGraph b = true := by
  unfold lowerByte at h
  split_ifs at h with hupper
  · unfold isGraph
    simp only [Bool.and_eq_true, decide_eq_true_iff, UInt8.le_iff_toNat_le, UInt8.lt_iff_toNat_lt,
      UInt8.reduceToNat] at hupper ⊢
    omega
  · exact h

theorem IsScheme.graph (h : IsScheme s) : ∀ b ∈ s, isGraph b = true := by
  intro b hb
  apply isGraph_of_lowerByte
  have hmem : lowerByte b ∈ s.map lowerByte := mem_map_of_mem hb
  have hletters : ∀ c ∈ http ++ https, isGraph c = true := by decide +kernel
  apply hletters
  rcases h with h | h
  · exact mem_append_left _ (h ▸ hmem)
  · exact mem_append_right _ (h ▸ hmem)

/-- A byte that is its own lower case and not in `https` is in no scheme. -/
theorem IsScheme.not_mem (h : IsScheme s) (hb : lowerByte b ∉ https) : b ∉ s := by
  intro hmem
  have hlower : lowerByte b ∈ s.map lowerByte := mem_map_of_mem hmem
  rcases h with h | h
  · rw [h] at hlower
    have hsub : ∀ c ∈ http, c ∈ https := by decide +kernel
    exact hb (hsub _ hlower)
  · exact hb (h ▸ hlower)

theorem IsPort.graph (h : IsPort s) : ∀ b ∈ s, isGraph b = true := by
  intro b hb
  rcases h with rfl | ⟨digits, rfl, hdigits⟩
  · cases hb
  · rcases mem_cons.1 hb with rfl | hb
    · rfl
    · exact isGraph_of_isDigit (hdigits b hb)

theorem IsPort.not_mem (h : IsPort s) (hb : Lib.isDigit b = false) (hcolon : b ≠ 58) : b ∉ s := by
  intro hmem
  rcases h with rfl | ⟨digits, rfl, hdigits⟩
  · cases hmem
  · rcases mem_cons.1 hmem with h | hmem
    · exact hcolon h
    · rw [hdigits b hmem] at hb
      cases hb

theorem IsRoot.graph (h : IsRoot s) : ∀ b ∈ s, isGraph b = true := by
  rcases h with rfl | rfl
  · exact fun b hb => (nomatch hb)
  · decide +kernel

/-! ### Cutting off the port -/

theorem cutLast_eq_none_iff : cutLast sep s = none ↔ sep ∉ s := by
  induction s with
  | nil => simp [cutLast]
  | cons b s ih =>
    rw [cutLast]
    cases hrest : cutLast sep s with
    | none =>
      have hs : sep ∉ s := ih.1 hrest
      by_cases hb : b = sep
      · simp [hb]
      · simp [hb, hs, Ne.symm hb]
    | some cut =>
      have hs : sep ∈ s := by
        by_contra hs
        rw [ih.2 hs] at hrest
        cases hrest
      simp [hs]

theorem cutLast_append (h : sep ∉ after) (before : Bytes) :
    cutLast sep (before ++ sep :: after) = some (before, after) := by
  induction before with
  | nil =>
    rw [nil_append, cutLast, cutLast_eq_none_iff.2 h]
    exact if_pos rfl
  | cons b before ih => rw [cons_append, cutLast, ih]

theorem cutLast_eq_some {before : Bytes} (h : cutLast sep s = some (before, after)) :
    s = before ++ sep :: after ∧ sep ∉ after := by
  induction s generalizing before with
  | nil => cases h
  | cons b s ih =>
    rw [cutLast] at h
    cases hrest : cutLast sep s with
    | none =>
      rw [hrest] at h
      obtain ⟨rfl, hcut⟩ := Option.ite_none_right_eq_some.1 h
      cases hcut
      exact ⟨rfl, cutLast_eq_none_iff.1 hrest⟩
    | some cut =>
      rw [hrest] at h
      cases h
      obtain ⟨hs, hafter⟩ := ih hrest
      exact ⟨congrArg (b :: ·) hs, hafter⟩

theorem splitHostPort_of_not_mem (h : (58 : UInt8) ∉ s) : splitHostPort s = none := by
  unfold splitHostPort
  rw [cutLast_eq_none_iff.2 h]

theorem splitHostPort_name (hcolon : (58 : UInt8) ∉ host) (hopen : (91 : UInt8) ∉ host)
    (hclose : (93 : UInt8) ∉ host) (hdigits : ∀ b ∈ digits, Lib.isDigit b = true) :
    splitHostPort (host ++ 58 :: digits) = some (host, digits) := by
  have hnot : ∀ b, Lib.isDigit b = false → b ∉ digits := by
    intro b hb hmem
    rw [hdigits b hmem] at hb
    cases hb
  have hopen' : (91 : UInt8) ∉ host ++ 58 :: digits := by simp [hopen, hnot 91 rfl]
  have hclose' : (93 : UInt8) ∉ host ++ 58 :: digits := by simp [hclose, hnot 93 rfl]
  unfold splitHostPort
  rw [cutLast_append (hnot 58 rfl)]
  dsimp only
  have hhead : (host ++ 58 :: digits).head? ≠ some 91 := fun hhead => hopen' (mem_of_mem_head? hhead)
  rw [if_neg hhead, if_neg hcolon, if_neg (not_or.2 ⟨hopen', hclose'⟩)]

theorem splitHostPort_brackets (hopen : (91 : UInt8) ∉ host) (hclose : (93 : UInt8) ∉ host)
    (hdigits : ∀ b ∈ digits, Lib.isDigit b = true) :
    splitHostPort (91 :: host ++ [93] ++ 58 :: digits) = some (host, digits) := by
  have hnot : ∀ b, Lib.isDigit b = false → b ∉ digits := by
    intro b hb hmem
    rw [hdigits b hmem] at hb
    cases hb
  have hstop : (91 :: host ++ [93] ++ 58 :: digits).idxOf 93 = host.length + 1 := by
    have hfront : (93 : UInt8) ∉ 91 :: host := by simp [hclose]
    rw [append_assoc, idxOf_append_of_notMem hfront]
    rfl
  unfold splitHostPort
  rw [cutLast_append (hnot 58 rfl)]
  dsimp only
  have hhead : (91 :: host ++ [93] ++ 58 :: digits).head? = some 91 := rfl
  rw [if_pos hhead, hstop, if_neg (by simp), if_neg (by simp [hopen, hnot 91 rfl, hnot 93 rfl])]
  simp

/-- A host in brackets without a port is none to `SplitHostPort`. -/
theorem splitHostPort_brackets_only (hclose : (93 : UInt8) ∉ host) :
    splitHostPort (91 :: host ++ [93]) = none := by
  have hstop : (91 :: host ++ [93]).idxOf 93 = host.length + 1 := by
    have hfront : (93 : UInt8) ∉ 91 :: host := by simp [hclose]
    rw [idxOf_append_of_notMem hfront]
    rfl
  unfold splitHostPort
  cases hcut : cutLast 58 (91 :: host ++ [93]) with
  | none => rfl
  | some cut =>
    obtain ⟨before, port⟩ := cut
    have hlength := congrArg List.length (cutLast_eq_some hcut).1
    simp only [length_append, length_cons, length_nil] at hlength
    dsimp only
    have hhead : (91 :: host ++ [93]).head? = some 91 := rfl
    rw [if_pos hhead, hstop, if_pos]
    right
    omega

/-- A text with two colons and no brackets is none either. -/
theorem splitHostPort_colons (hopen : (91 : UInt8) ∉ host) (hcount : 2 ≤ host.count 58) :
    splitHostPort host = none := by
  unfold splitHostPort
  cases hcut : cutLast 58 host with
  | none => rfl
  | some cut =>
    obtain ⟨before, port⟩ := cut
    dsimp only
    have hhead : host.head? ≠ some 91 := fun hhead => hopen (mem_of_mem_head? hhead)
    rw [if_neg hhead, if_pos]
    -- one colon is before the port and none in it, so the other one is in what looks like the host
    obtain ⟨hhost, hport⟩ := cutLast_eq_some hcut
    rw [hhost, count_append, count_cons_self, count_eq_zero.2 hport] at hcount
    exact count_pos_iff.1 (by omega)

/-! ### What a rule makes of the host it is written for -/

theorem trimBrackets_brackets (s : Bytes) : trimBrackets (91 :: s ++ [93]) = trimBrackets s := by
  unfold trimBrackets
  rw [cons_append, dropWhile_cons_of_pos rfl, dropWhile_append]
  by_cases hempty : (s.dropWhile isBracket).isEmpty = true
  · rw [if_pos hempty, isEmpty_iff.1 hempty]
    rfl
  · rw [if_neg hempty, rdropWhile_concat_pos _ _ _ rfl]

theorem trimDot_of_ne (h : s.getLast? ≠ some 46) : trimDot s = s := if_neg h

theorem trimDot_concat (s : Bytes) : trimDot (s ++ [46]) = s := by
  unfold trimDot
  rw [if_pos (getLast?_concat ..), dropLast_concat]

/-- The written host is as good as the host. -/
theorem checkHost_address (hE : E.Documented) (h : E.IsIPv6 written)
    (hcase : E.toLower written = E.toLower host) :
    checkHost E written = acceptHost E (E.toLower host) := by
  have htrim : trimSpace written = written :=
    trimSpace_of_forall (by decide) (by decide) (fun b hb => h.bytes hE hb)
  unfold checkHost
  rw [htrim, trimDot_of_ne (hE.parseIP_last written h.1), hcase]

theorem solid_address (hE : E.Documented) (h : E.IsIPv6 written) :
    ∀ b ∈ 91 :: written ++ [93], isGraph b = true := by
  intro b hb
  rcases mem_append.1 hb with hb | hb
  · rcases mem_cons.1 hb with rfl | hb
    · rfl
    · exact isGraph_of_isAddressByte (h.bytes hE hb)
  · cases mem_singleton.1 hb
    rfl

theorem solid_of_graph (h : ∀ b ∈ s, isGraph b = true) : Solid s := by
  have hall := solid_graph_append h (t := []) (fun r hr => (nomatch hr))
  rwa [append_nil] at hall

theorem checkHost_writes (hE : E.Documented) (h : Writes E host text) :
    checkHost E text = acceptHost E (E.toLower host) := by
  cases h with
  | name written dot hname _ hlast hcase =>
    have hsolid : Solid (written ++ if dot then [46] else []) := by
      apply solid_append_graph (hname.solid hE)
      cases dot <;> decide +kernel
    have hdot : trimDot (written ++ if dot then [46] else []) = written := by
      cases dot with
      | false =>
        show trimDot (written ++ []) = written
        rw [append_nil, trimDot_of_ne hlast]
      | true => exact trimDot_concat written
    unfold checkHost
    rw [trimSpace_of_runes hsolid, hdot, hcase]
  | address written h hcase =>
    have hlast : (91 :: written ++ [93]).getLast? ≠ some 46 := by
      rw [getLast?_concat]
      decide
    unfold checkHost
    rw [trimSpace_of_runes (solid_of_graph (solid_address hE h)), trimDot_of_ne hlast,
      hE.toLower_concat (by decide), hE.toLower_cons (by decide), hcase]
    unfold acceptHost
    dsimp only
    rw [show lowerByte 91 = 91 from rfl, show lowerByte 93 = 93 from rfl, trimBrackets_brackets]

theorem Writes.solid (hE : E.Documented) (h : Writes E host text) : Solid text := by
  cases h with
  | name written dot hname _ _ _ =>
    apply solid_append_graph (hname.solid hE)
    cases dot <;> decide +kernel
  | address written h _ => exact solid_of_graph (solid_address hE h)

theorem Writes.ne_nil (h : Writes E host text) : text ≠ [] := by
  cases h with
  | name written dot _ hne _ _ => exact append_ne_nil_of_left_ne_nil hne _
  | address written _ _ => exact cons_ne_nil _ _

/-- The bytes that `normalizeRefererRule` looks for are in no host. -/
theorem Writes.not_mem (hE : E.Documented) (h : Writes E host text)
    (hb : b = 42 ∨ b = 47 ∨ b = 63 ∨ b = 35 ∨ b = 64) :
    b ∉ text := by
  have hclass : (b < 0x80 ∧ isAlnum b = false ∧ b ≠ 45 ∧ b ≠ 46) ∧ isAddressByte b = false ∧
      b ≠ 91 ∧ b ≠ 93 := by
    rcases hb with rfl | rfl | rfl | rfl | rfl <;> decide
  obtain ⟨hname', haddress, hopen, hclose⟩ := hclass
  cases h with
  | name written dot hname _ _ _ =>
    intro hmem
    rcases mem_append.1 hmem with hmem | hmem
    · exact hname.not_mem hE.isLetter_ascii hname' hmem
    · cases dot with
      | false => cases hmem
      | true => exact hname'.2.2.2 (mem_singleton.1 hmem)
  | address written h _ =>
    intro hmem
    rcases mem_append.1 hmem with hmem | hmem
    · rcases mem_cons.1 hmem with hmem | hmem
      · exact hopen hmem
      · rw [h.bytes hE hmem] at haddress
        cases haddress
    · exact hclose (mem_singleton.1 hmem)

/-- A text without a slash is no URL. -/
theorem ruleHost_of_plain (h : ∀ b : UInt8, b = 47 ∨ b = 63 ∨ b = 35 ∨ b = 64 → b ∉ value) :
    ruleHost E value = some ((splitHostPort value).elim value Prod.fst) := by
  have hscheme : ¬ schemeEnd <:+: value := fun hcontains =>
    h 47 (Or.inl rfl) (hcontains.subset (by decide))
  have hany : ¬ ∃ b ∈ value, b = 47 ∨ b = 63 ∨ b = 35 ∨ b = 64 := by
    rintro ⟨b, hmem, hb⟩
    exact h b hb hmem
  unfold ruleHost
  rw [if_neg hscheme, if_neg hany]
  cases splitHostPort value with
  | none => rfl
  | some cut => rfl

/-- A rule that is solid and has no star is read as it is. -/
theorem normalizeRefererRule_of_solid (hsolid : Solid value) (hne : value ≠ []) (hstar : (42 : UInt8) ∉ value) :
    normalizeRefererRule E value = (ruleHost E value).bind (checkHost E) := by
  unfold normalizeRefererRule
  dsimp only
  rw [trimSpace_of_runes hsolid, if_neg (not_or.2 ⟨hne, hstar⟩)]
  cases ruleHost E value with
  | none => rfl
  | some host => rfl

theorem checkHost_splitHostPort (hE : E.Documented) (h : Writes E host text) (hport : IsPort port) :
    checkHost E ((splitHostPort (text ++ port)).elim (text ++ port) Prod.fst)
      = acceptHost E (E.toLower host) := by
  have hwhole := checkHost_writes hE h
  cases h with
  | name written dot hname _ _ _ =>
    have hnot : ∀ b : UInt8, b < 0x80 ∧ isAlnum b = false ∧ b ≠ 45 ∧ b ≠ 46 →
        b ∉ written ++ if dot then [46] else [] := by
      intro b hb hmem
      rcases mem_append.1 hmem with hmem | hmem
      · exact hname.not_mem hE.isLetter_ascii hb hmem
      · cases dot with
        | false => cases hmem
        | true => exact hb.2.2.2 (mem_singleton.1 hmem)
    rcases hport with rfl | ⟨digits, rfl, hdigits⟩
    · rw [append_nil, splitHostPort_of_not_mem (hnot 58 (by decide))]
      exact hwhole
    · rw [splitHostPort_name (hnot 58 (by decide)) (hnot 91 (by decide)) (hnot 93 (by decide)) hdigits]
      exact hwhole
  | address written h hcase =>
    have hnot : ∀ b : UInt8, isAddressByte b = false → b ∉ written := by
      intro b hb hmem
      rw [h.bytes hE hmem] at hb
      cases hb
    rcases hport with rfl | ⟨digits, rfl, hdigits⟩
    · rw [append_nil, splitHostPort_brackets_only (hnot 93 (by decide))]
      exact hwhole
    · rw [splitHostPort_brackets (hnot 91 (by decide)) (hnot 93 (by decide)) hdigits]
      exact checkHost_address hE h hcase

theorem ruleHost_url (hE : E.Documented) (hscheme : IsScheme scheme) (h : Writes E host text)
    (hport : IsPort port) (hpath : IsRoot path) :
    ∃ written, ruleHost E (scheme ++ schemeEnd ++ text ++ port ++ path) = some written ∧
      checkHost E written = acceptHost E (E.toLower host) := by
  have hcontains : schemeEnd <:+: scheme ++ schemeEnd ++ text ++ port ++ path := by
    refine ⟨scheme, text ++ port ++ path, ?_⟩
    simp only [append_assoc]
  have hhost : ∀ written, E.parseURL (scheme ++ schemeEnd ++ text ++ port ++ path) =
      some { scheme := scheme.map lowerByte, user := false, path := path, rawQuery := [], fragment := []
             hostname := written } →
      ruleHost E (scheme ++ schemeEnd ++ text ++ port ++ path) = some written := by
    intro written hparse
    unfold ruleHost
    rw [if_pos hcontains, hparse]
    dsimp only
    rw [if_neg]
    unfold IsScheme at hscheme
    unfold IsRoot at hpath
    simp only [ne_eq, not_true_eq_false, or_false, Bool.false_eq_true, false_or]
    tauto
  have hwhole := checkHost_writes hE h
  cases h with
  | name written dot hname hne _ _ =>
    have hname' : E.IsName (written ++ if dot then [46] else []) := by
      cases dot with
      | false =>
        show E.IsName (written ++ [])
        rwa [append_nil]
      | true =>
        intro r hr
        have hr : r ∈ runes (written ++ [46]) := hr
        rw [runes_append rfl, mem_append] at hr
        rcases hr with hr | hr
        · exact hname r hr
        · exact Or.inr (Or.inr (Or.inr (mem_singleton.1 hr)))
    have hne' : (written ++ if dot then [46] else []) ≠ [] := append_ne_nil_of_left_ne_nil hne _
    exact ⟨_, hhost _ (hE.parseURL_name _ _ _ _ hscheme hname' hne' hport hpath), hwhole⟩
  | address written h hcase =>
    exact ⟨written, hhost _ (hE.parseURL_address _ _ _ _ hscheme h hport hpath), checkHost_address hE h hcase⟩

/-- **However a rule is written, it is a rule for its host.** -/
theorem normalizeRefererRule_spells (hE : E.Documented) {rule : Bytes} (h : Spells E host rule) :
    normalizeRefererRule E rule = acceptHost E (E.toLower host) := by
  cases h with
  | bare _ h hcase =>
    have hnot : ∀ b : UInt8, isAddressByte b = false → b ∉ rule := by
      intro b hb hmem
      rw [h.bytes hE hmem] at hb
      cases hb
    have hne : rule ≠ [] := by
      rintro rfl
      exact absurd (hE.parseIP_colons [] h) (by decide)
    have hsolid : Solid rule := solid_of_graph fun b hb => isGraph_of_isAddressByte (h.bytes hE hb)
    rw [normalizeRefererRule_of_solid hsolid hne (hnot 42 (by decide)), ruleHost_of_plain,
      splitHostPort_colons (hnot 91 (by decide)) (hE.parseIP_colons rule h)]
    · exact checkHost_address hE h hcase
    · rintro b (rfl | rfl | rfl | rfl)
      all_goals exact hnot _ (by decide)
  | @plain text port h hport =>
    have hmem : ∀ b : UInt8, b = 42 ∨ b = 47 ∨ b = 63 ∨ b = 35 ∨ b = 64 → b ∉ text ++ port := by
      intro b hb hmem
      rcases mem_append.1 hmem with hmem | hmem
      · exact h.not_mem hE hb hmem
      · refine hport.not_mem ?_ ?_ hmem
        · rcases hb with rfl | rfl | rfl | rfl | rfl <;> rfl
        · rcases hb with rfl | rfl | rfl | rfl | rfl <;> decide
    have hsolid : Solid (text ++ port) := solid_append_graph (h.solid hE) hport.graph
    rw [normalizeRefererRule_of_solid hsolid (append_ne_nil_of_left_ne_nil h.ne_nil _) (hmem 42 (Or.inl rfl)),
      ruleHost_of_plain fun b hb => hmem b (Or.inr hb)]
    exact checkHost_splitHostPort hE h hport
  | @url scheme text port path hscheme h hport hpath =>
    obtain ⟨written, hrule, hcheck⟩ := ruleHost_url hE hscheme h hport hpath
    have hsolid : Solid (scheme ++ schemeEnd ++ text ++ port ++ path) := by
      apply solid_append_graph _ hpath.graph
      apply solid_append_graph _ hport.graph
      apply solid_graph_append _ (h.solid hE)
      intro b hb
      rcases mem_append.1 hb with hb | hb
      · exact hscheme.graph b hb
      · have hgraph : ∀ c ∈ schemeEnd, isGraph c = true := by decide +kernel
        exact hgraph b hb
    have hstar : (42 : UInt8) ∉ scheme ++ schemeEnd ++ text ++ port ++ path := by
      have hpath' : (42 : UInt8) ∉ path := by
        rcases hpath with rfl | rfl <;> decide
      simp only [mem_append, not_or]
      exact ⟨⟨⟨⟨hscheme.not_mem (by decide), by decide⟩, h.not_mem hE (Or.inl rfl)⟩,
        hport.not_mem rfl (by decide)⟩, hpath'⟩
    have hne : scheme ++ schemeEnd ++ text ++ port ++ path ≠ [] := by
      intro hnil
      simp only [append_eq_nil_iff] at hnil
      exact h.ne_nil hnil.1.1.2
    rw [normalizeRefererRule_of_solid hsolid hne hstar, hrule]
    exact hcheck

/-- **The verdict on a request.** It is turned away exactly when the labels of the host of one of its headers
end with those of a built-in host or of a rule; and a rule means the same with or without a scheme, a port or a
trailing dot, and in any case. -/
theorem isBlockedReferer_iff (hE : E.Documented) (config referer origin : Bytes) :
    ((isBlockedReferer E referer origin (blockedReferersFromConfig E config)).isSome = true ↔
      ∃ header ∈ [referer, origin], ∃ u, E.parseURL (trimSpace header) = some u ∧
        ∃ host, (host ∈ defaultBlockedReferers ∨ ∃ line ∈ scanLines config, Accepts E line host) ∧
          labels host <:+ labels (headerHost E u)) ∧
    ∀ host rule rule', Spells E host rule → Spells E host rule' →
      normalizeRefererRule E rule = normalizeRefererRule E rule' := by
  have hne : ∀ b ∈ blockedReferersFromConfig E config, b ≠ [] := by
    intro b hb
    rcases (mem_blockedReferersFromConfig hE config b).1 hb with hb | ⟨line, -, -, hrule⟩
    · exact (toLower_default hE hb).1
    · exact (normalizeRefererRule_eq_some hE hrule).1
  constructor
  · rw [isBlockedReferer_isSome hE referer origin hne]
    simp only [mem_blockedReferersFromConfig hE]
  · intro host rule rule' h h'
    rw [normalizeRefererRule_spells hE h, normalizeRefererRule_spells hE h']

end

/-! ## A site and its rule -/

namespace Site

/-- The host in `host:port` or `[host]:port`. -/
def hostname (authority : Bytes) : Bytes :=
  if authority.head? = some 91 then (authority.drop 1).takeWhile (· != 93) else authority.takeWhile (· != 58)

/-- A small reader of URLs. -/
def parseURL (text : Bytes) : Option Url :=
  let rest := text.dropWhile (· != 58)
  if rest.take 3 = schemeEnd then
    some { scheme := (text.takeWhile (· != 58)).map lowerByte, user := false
           path := (rest.drop 3).dropWhile (· != 47), rawQuery := [], fragment := []
           hostname := hostname ((rest.drop 3).takeWhile (· != 47)) }
  else none

/-- ASCII letters and digits, one address, and that reader. -/
def texts : RefererTexts where
  parseIP := fun text => if text = [58, 58, 49] then some (List.replicate 15 0 ++ [1]) else none
  parsePrefix := fun _ => none
  toLower := List.map lowerByte
  isLetter := fun r => (65 ≤ r && r ≤ 90) || (97 ≤ r && r ≤ 122)
  isDigit := fun r => 48 ≤ r && r ≤ 57
  parseURL := parseURL

theorem lowerByte_lowerByte (b : UInt8) : lowerByte (lowerByte b) = lowerByte b := by
  unfold lowerByte
  by_cases h : (65 ≤ b && b ≤ 90) = true
  · rw [if_pos h, if_neg]
    simp only [Bool.and_eq_true, decide_eq_true_iff, UInt8.le_iff_toNat_le, UInt8.toNat_add,
      UInt8.reduceToNat] at h ⊢
    omega
  · rw [if_neg h, if_neg h]

theorem texts_ascii (b : UInt8) (_ : b < 0x80) :
    (texts.isLetter b.toNat || texts.isDigit b.toNat) = isAlnum b := by
  rw [Bool.eq_iff_iff]
  simp only [texts, isAlnum, Lib.isDigit, Bool.or_eq_true, Bool.and_eq_true, decide_eq_true_iff,
    UInt8.le_iff_toNat_le, UInt8.reduceToNat]
  tauto

theorem parseIP_texts (h : (texts.parseIP text).isSome = true) : text = [58, 58, 49] := by
  by_contra hne
  rw [show texts.parseIP text = none from if_neg hne] at h
  cases h

theorem takeWhile_ne (h : sep ∉ s) (rest : Bytes) (hrest : rest = [] ∨ ∃ t, rest = sep :: t) :
    (s ++ rest).takeWhile (· != sep) = s ∧ (s ++ rest).dropWhile (· != sep) = rest := by
  have hall : ∀ b ∈ s, (b != sep) = true := fun b hb => bne_iff_ne.2 fun heq => h (heq ▸ hb)
  rw [takeWhile_append_of_pos hall, dropWhile_append_of_pos hall]
  rcases hrest with rfl | ⟨t, rfl⟩
  · simp
  · simp

/-- What the reader makes of the URL of a site. -/
theorem parseURL_site {authority : Bytes} (hscheme : IsScheme scheme) (hslash : (47 : UInt8) ∉ authority)
    (hpath : IsRoot path) :
    parseURL (scheme ++ schemeEnd ++ authority ++ path) =
      some { scheme := scheme.map lowerByte, user := false, path := path, rawQuery := [], fragment := []
             hostname := hostname authority } := by
  have hcolon : (58 : UInt8) ∉ scheme := hscheme.not_mem (by decide)
  have htext : scheme ++ schemeEnd ++ authority ++ path = scheme ++ 58 :: 47 :: 47 :: (authority ++ path) := by
    simp [schemeEnd]
  obtain ⟨hfront, hback⟩ := takeWhile_ne hcolon (58 :: 47 :: 47 :: (authority ++ path)) (Or.inr ⟨_, rfl⟩)
  have hroot : path = [] ∨ ∃ t, path = (47 : UInt8) :: t := by
    rcases hpath with rfl | rfl
    · exact Or.inl rfl
    · exact Or.inr ⟨[], rfl⟩
  obtain ⟨hhost, hrest⟩ := takeWhile_ne hslash path hroot
  unfold parseURL
  rw [htext, hfront, hback]
  have htake : (58 :: 47 :: 47 :: (authority ++ path)).take 3 = schemeEnd := rfl
  have hdrop : (58 :: 47 :: 47 :: (authority ++ path)).drop 3 = authority ++ path := rfl
  dsimp only
  rw [if_pos htake, hdrop, hhost, hrest]

theorem isPort_shape (h : IsPort port) : port = [] ∨ ∃ t, port = (58 : UInt8) :: t := by
  rcases h with rfl | ⟨digits, rfl, -⟩
  · exact Or.inl rfl
  · exact Or.inr ⟨digits, rfl⟩

theorem texts_documented : texts.Documented where
  parseIP_bytes := by
    intro text hsome
    rw [parseIP_texts hsome]
    decide +kernel
  parseIP_last := fun text hsome => by rw [parseIP_texts hsome]; decide
  parseIP_colons := fun text h => by rw [parseIP_texts h.1]; decide
  toLower_ascii := fun _ _ => rfl
  toLower_append := fun s rest b _ => by simp [texts]
  toLower_toLower := fun s => by simp [texts, lowerByte_lowerByte]
  isLetter_ascii := texts_ascii
  not_space := by decide
  parseURL_nil := fun u h => (nomatch h)
  parseURL_name := by
    intro scheme name port path hscheme hname hne hport hpath
    have hslash : (47 : UInt8) ∉ name ++ port := by
      rw [mem_append, not_or]
      exact ⟨hname.not_mem texts_ascii (by decide), hport.not_mem rfl (by decide)⟩
    have hhead : (name ++ port).head? ≠ some 91 := by
      rw [head?_append_of_ne_nil _ hne]
      exact fun h => hname.not_mem texts_ascii (by decide) (mem_of_mem_head? h)
    have hhost : hostname (name ++ port) = name := by
      unfold hostname
      rw [if_neg hhead]
      exact (takeWhile_ne (hname.not_mem texts_ascii (by decide)) port (isPort_shape hport)).1
    have hsite := parseURL_site hscheme hslash hpath
    rw [hhost, ← append_assoc] at hsite
    exact hsite
  parseURL_address := by
    intro scheme address port path hscheme haddress hport hpath
    obtain rfl := parseIP_texts haddress.1
    have hslash : (47 : UInt8) ∉ (91 :: [58, 58, 49] ++ [93] ++ port : Bytes) := by
      rw [mem_append, not_or]
      exact ⟨by decide, hport.not_mem rfl (by decide)⟩
    have hsite := parseURL_site hscheme hslash hpath
    rw [← append_assoc] at hsite
    exact hsite

/-- `Evil.example:8443`. -/
def rule : Bytes := ascii "Evil.example:8443"

/-- `https://evil.example./`. -/
def ruleURL : Bytes :=
  ascii "https://evil.example./"

/-- `http://cdn.EVIL.example/a`. -/
def referer : Bytes :=
  ascii "http://cdn.EVIL.example/a"

end Site

/-- A rule with a port blocks what lies under its host, and is the same rule as a URL. -/
theorem isBlockedReferer_iff_site :
    (isBlockedReferer Site.texts Site.referer []
      (blockedReferersFromConfig Site.texts Site.rule)).isSome = true ∧
      normalizeRefererRule Site.texts Site.rule = normalizeRefererRule Site.texts Site.ruleURL := by
  let host := ascii "evil.example"
  have hrule : Spells Site.texts host Site.rule :=
    Spells.plain (Writes.name (ascii "Evil.example") false
      (by unfold RefererTexts.IsName; decide +kernel) (by decide) (by decide) (by decide))
      (Or.inr ⟨[56, 52, 52, 51], rfl, by decide +kernel⟩)
  have hhttps : IsScheme https := Or.inr (by decide)
  have hurl : Spells Site.texts host Site.ruleURL :=
    Spells.url hhttps (Writes.name host true
      (by unfold RefererTexts.IsName; decide +kernel) (by decide) (by decide) (by decide)) (Or.inl rfl)
        (Or.inr rfl)
  obtain ⟨hverdict, hspelling⟩ := isBlockedReferer_iff Site.texts_documented Site.rule Site.referer []
  refine ⟨hverdict.2 ⟨Site.referer, mem_cons_self, _, rfl, host, Or.inr ⟨Site.rule, ?_, ?_⟩, ?_⟩,
    hspelling host _ _ hrule hurl⟩
  · decide +kernel
  · exact ⟨by decide +kernel, by decide +kernel⟩
  · decide +kernel

end TorrServer.Waf
