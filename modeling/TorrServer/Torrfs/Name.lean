/-
# Torrfs.Name — names of categories and torrents in the file tree.

The directories of the tree are named after categories and titles. `SanitizeName` makes a name of them: control
characters go, slashes become underscores, what is not UTF-8 becomes U+FFFD, white space at the ends goes, and
nothing is left of `.` and `..`. A category without a name is `other`, a torrent without a name goes by its
hash. All of these are plain names, elements of a path that stand for themselves.
-/
import TorrServer.Lib.Path

namespace TorrServer.Torrfs

open Lib List

/-! ## The model -/

/-- What `SanitizeName` makes of a rune; `strings.Map` writes U+FFFD for an invalid byte. -/
def sanitizeRune (d : Nat × Bytes) : Bytes :=
  if isInvalid d = true then [0xEF, 0xBF, 0xBD]
  else if d.1 = 47 ∨ d.1 = 92 then [95]
  else if d.1 < 0x20 ∨ d.1 = 0x7f then []
  else d.2

/-- A name that is one element of a path. -/
def sanitizeName (name : Bytes) : Bytes :=
  let name := (decodings name).flatMap sanitizeRune
  let name := trimSpace name
  -- `.` and `..` are collapsed by `path.Clean`
  if name = [] ∨ name = [46] ∨ name = [46, 46] then [] else name

/-- The directory of a category. -/
def categoryName (category : Bytes) : Bytes :=
  let category := sanitizeName category
  if category = [] then ascii "other" else category

/-- What the tree reads of a `Torrent` with metadata: hash, title, category and display paths. -/
structure Torrent where
  hash : Bytes
  title : Bytes
  category : Bytes
  files : List Bytes
  hash_ne_nil : hash ≠ []
  hash_alnum : ∀ b ∈ hash, isAlnum b = true

/-- The directory of a torrent. -/
def torrentName (t : Torrent) : Bytes :=
  let name := sanitizeName t.title
  if name = [] then t.hash else name

/-! ## Sanitised names -/

/-- A rune that `SanitizeName` keeps as it is. -/
def isKept (d : Nat × Bytes) : Bool := !isInvalid d && d.1 ≠ 47 && d.1 ≠ 92 && !(d.1 < 0x20) && d.1 ≠ 0x7f

theorem sanitizeRune_of_isKept {d : Nat × Bytes} (h : isKept d = true) : sanitizeRune d = d.2 := by
  simp only [isKept, ne_eq, decide_not, Bool.and_eq_true, Bool.not_eq_true', decide_eq_false_iff_not] at h
  obtain ⟨⟨⟨⟨hvalid, hslash⟩, hback⟩, hlow⟩, hdel⟩ := h
  unfold sanitizeRune
  rw [hvalid, if_neg (by decide), if_neg (not_or.2 ⟨hslash, hback⟩), if_neg (not_or.2 ⟨hlow, hdel⟩)]

/-- What a rune becomes is nothing or a rune that is kept. -/
theorem decodings_sanitizeRune {s : Bytes} {d : Nat × Bytes} (hd : d ∈ decodings s) :
    ∃ kept : List (Nat × Bytes), (∀ e ∈ kept, isKept e = true) ∧
      ∀ rest, decodings (sanitizeRune d ++ rest) = kept ++ decodings rest := by
  have hone : ∀ e : Nat × Bytes, isKept e = true → (∀ rest, decodings (e.2 ++ rest) = e :: decodings rest) →
      sanitizeRune d = e.2 → ∃ kept : List (Nat × Bytes), (∀ e ∈ kept, isKept e = true) ∧
        ∀ rest, decodings (sanitizeRune d ++ rest) = kept ++ decodings rest := by
    intro e hkept hdecodings hpiece
    refine ⟨[e], forall_mem_singleton.2 hkept, fun rest => ?_⟩
    rw [hpiece]
    exact hdecodings rest
  by_cases hvalid : isInvalid d = true
  · apply hone (0xFFFD, [0xEF, 0xBF, 0xBD]) rfl
    · exact decodings_snd_append (s := [0xEF, 0xBF, 0xBD]) (by decide) rfl
    · exact if_pos hvalid
  · by_cases hslash : d.1 = 47 ∨ d.1 = 92
    · apply hone (95, [95]) rfl
      · exact decodings_ascii_cons (by decide)
      · unfold sanitizeRune
        rw [if_neg hvalid, if_pos hslash]
    · by_cases hcontrol : d.1 < 0x20 ∨ d.1 = 0x7f
      · refine ⟨[], fun e he => (nomatch he), fun rest => ?_⟩
        have hnothing : sanitizeRune d = [] := by
          unfold sanitizeRune
          rw [if_neg hvalid, if_neg hslash, if_pos hcontrol]
        rw [hnothing]
        rfl
      · obtain ⟨hs, hb⟩ := not_or.1 hslash
        obtain ⟨hl, hdel⟩ := not_or.1 hcontrol
        have hvalid : isInvalid d = false := Bool.eq_false_iff.2 hvalid
        have hkept : isKept d = true := by simp [isKept, hvalid, hs, hb, hdel, Nat.not_lt.1 hl]
        exact hone d hkept (decodings_snd_append hd hvalid) (sanitizeRune_of_isKept hkept)

theorem isKept_of_mapped {s : Bytes} {ds : List (Nat × Bytes)} (h : ∀ d ∈ ds, d ∈ decodings s) :
    ∀ e ∈ decodings (ds.flatMap sanitizeRune), isKept e = true := by
  induction ds with
  | nil => exact fun e he => (nomatch he)
  | cons d ds ih =>
    obtain ⟨kept, hkept, hdecodings⟩ := decodings_sanitizeRune (h d mem_cons_self)
    intro e he
    rw [flatMap_cons, hdecodings, mem_append] at he
    rcases he with he | he
    · exact hkept e he
    · exact ih (fun d' hd' => h d' (mem_cons_of_mem d hd')) e he

theorem isKept_sanitizeName {name : Bytes} {d : Nat × Bytes} (h : d ∈ decodings (sanitizeName name)) :
    isKept d = true := by
  unfold sanitizeName at h
  dsimp only at h
  split at h
  · cases h
  · exact isKept_of_mapped (fun _ hd => hd) d (mem_decodings_of_trimSpace h)

theorem sanitizeName_sanitizeName (name : Bytes) : sanitizeName (sanitizeName name) = sanitizeName name := by
  have hmapped : (decodings (sanitizeName name)).flatMap sanitizeRune = sanitizeName name := by
    have hpieces : (decodings (sanitizeName name)).flatMap sanitizeRune =
        (decodings (sanitizeName name)).flatMap Prod.snd :=
      flatMap_congr fun d hd => sanitizeRune_of_isKept (isKept_sanitizeName hd)
    rw [hpieces, flatMap_decodings]
  have hform : sanitizeName name = [] ∨ trimSpace (sanitizeName name) = sanitizeName name ∧
      ¬ (sanitizeName name = [] ∨ sanitizeName name = [46] ∨ sanitizeName name = [46, 46]) := by
    unfold sanitizeName
    dsimp only
    split_ifs with h
    · exact Or.inl rfl
    · exact Or.inr ⟨trimSpace_trimSpace _, h⟩
  rcases hform with hnil | ⟨htrim, hne⟩
  · rw [hnil]
    rfl
  · rw [sanitizeName, hmapped, htrim, if_neg hne]

/-- **Sanitised names are plain.** -/
theorem plainName_sanitizeName {name : Bytes} (h : sanitizeName name ≠ []) :
    PlainName (sanitizeName name) ∧ validUTF8 (sanitizeName name) = true := by
  have hdots : sanitizeName name ≠ [46] ∧ sanitizeName name ≠ [46, 46] := by
    unfold sanitizeName at h ⊢
    dsimp only at h ⊢
    split_ifs at h ⊢ with hcond
    · exact absurd rfl h
    · exact ⟨fun hdot => hcond (Or.inr (Or.inl hdot)), fun hdots => hcond (Or.inr (Or.inr hdots))⟩
  refine ⟨⟨h, hdots.1, hdots.2, fun hmem => ?_⟩, ?_⟩
  · have hrune := mem_runes_of_ascii (by decide) hmem
    rw [runes_eq_map] at hrune
    obtain ⟨d, hd, hslash⟩ := mem_map.1 hrune
    have hkept := isKept_sanitizeName hd
    simp [isKept, hslash] at hkept
  · unfold validUTF8
    rw [all_eq_true]
    intro d hd
    have hkept := isKept_sanitizeName hd
    simp only [isKept, Bool.and_eq_true] at hkept
    exact hkept.1.1.1.1

theorem validUTF8_of_ascii {s : Bytes} (h : ∀ b ∈ s, b < 0x80) : validUTF8 s = true := by
  unfold validUTF8
  induction s with
  | nil => rfl
  | cons b s ih =>
    rw [decodings_ascii_cons (h b mem_cons_self), all_cons, ih fun c hc => h c (mem_cons_of_mem b hc),
      Bool.and_true]
    have hascii : b.toNat < 128 := UInt8.lt_iff_toNat_lt.1 (h b mem_cons_self)
    have hne : b.toNat ≠ 0xFFFD := by omega
    simp [isInvalid, hne]

theorem categoryName_categoryName (category : Bytes) :
    categoryName (categoryName category) = categoryName category := by
  by_cases h : sanitizeName category = []
  · have hother : categoryName category = ascii "other" := if_pos h
    rw [hother]
    decide
  · have hname : categoryName category = sanitizeName category := if_neg h
    rw [hname]
    unfold categoryName
    dsimp only
    rw [sanitizeName_sanitizeName, if_neg h]

theorem plainName_categoryName (category : Bytes) :
    PlainName (categoryName category) ∧ validUTF8 (categoryName category) = true := by
  by_cases h : sanitizeName category = []
  · have hother : categoryName category = ascii "other" := if_pos h
    rw [hother]
    exact ⟨⟨by decide, by decide, by decide, by decide⟩, by decide⟩
  · have hname : categoryName category = sanitizeName category := if_neg h
    rw [hname]
    exact plainName_sanitizeName h

theorem plainName_torrentName (t : Torrent) : PlainName (torrentName t) ∧ validUTF8 (torrentName t) = true := by
  by_cases h : sanitizeName t.title = []
  · have hhash : torrentName t = t.hash := if_pos h
    have hnot : ∀ b : UInt8, isAlnum b = false → b ∉ t.hash := by
      intro b hb hmem
      rw [t.hash_alnum b hmem] at hb
      cases hb
    have hdot : (46 : UInt8) ∉ t.hash := hnot 46 rfl
    rw [hhash]
    refine ⟨⟨t.hash_ne_nil, ?_, ?_, hnot 47 rfl⟩, ?_⟩
    · exact fun heq => hdot (heq ▸ mem_cons_self)
    · exact fun heq => hdot (heq ▸ mem_cons_self)
    · apply validUTF8_of_ascii
      intro b hb
      have halnum := t.hash_alnum b hb
      simp only [isAlnum, isDigit, Bool.or_eq_true, Bool.and_eq_true, decide_eq_true_iff, UInt8.le_iff_toNat_le,
        UInt8.reduceToNat] at halnum
      rw [UInt8.lt_iff_toNat_lt]
      simp only [UInt8.reduceToNat]
      omega
  · have hname : torrentName t = sanitizeName t.title := if_neg h
    rw [hname]
    exact plainName_sanitizeName h

end TorrServer.Torrfs
