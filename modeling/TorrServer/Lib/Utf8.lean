/-
# Lib.Utf8 — runes and white space of byte strings, as Go has them.

`range` over a string decodes UTF-8 and gives U+FFFD for every byte that does not start a valid encoding.
`strings.TrimSpace` takes encodings of white space off both ends; a string ends in white space exactly when it
ends in the bytes of such an encoding.
-/
import TorrServer.Lib.Strconv

namespace TorrServer.Lib

open List

variable {s w : Bytes} {b : UInt8} {ws : List Bytes}

/-! ## Runes -/

/-- A continuation byte within bounds. -/
def isCont (b : UInt8) (lo hi : UInt8) : Bool := lo ≤ b && b ≤ hi

/-- `utf8.DecodeRune` of a string that starts with `b`: the rune and its width. -/
def decodeRune (b : UInt8) (rest : Bytes) : Nat × Nat :=
  let bad : Nat × Nat := (0xFFFD, 1)
  let low (c : UInt8) : Nat := c.toNat % 64
  if b < 0x80 then (b.toNat, 1)
  else if 0xC2 ≤ b && b ≤ 0xDF then
    match rest with
    | c :: _ => if isCont c 0x80 0xBF then (b.toNat % 32 * 64 + low c, 2) else bad
    | _ => bad
  else if 0xE0 ≤ b && b ≤ 0xEF then
    match rest with
    | c :: d :: _ =>
      if isCont c (if b = 0xE0 then 0xA0 else 0x80) (if b = 0xED then 0x9F else 0xBF) &&
          isCont d 0x80 0xBF then
        (b.toNat % 16 * 4096 + low c * 64 + low d, 3)
      else bad
    | _ => bad
  else if 0xF0 ≤ b && b ≤ 0xF4 then
    match rest with
    | c :: d :: e :: _ =>
      if isCont c (if b = 0xF0 then 0x90 else 0x80) (if b = 0xF4 then 0x8F else 0xBF) &&
          isCont d 0x80 0xBF && isCont e 0x80 0xBF then
        (b.toNat % 8 * 262144 + low c * 4096 + low d * 64 + low e, 4)
      else bad
    | _ => bad
  else bad

/-- The runes of a string, at most as many as `fuel`. -/
def runesFuel : Nat → Bytes → List Nat
  | _, [] => []
  | 0, _ => []
  | fuel + 1, b :: rest =>
    let r := decodeRune b rest
    r.1 :: runesFuel fuel ((b :: rest).drop r.2)

/-- `for _, r := range s`: every rune takes at least one byte. -/
def runes (s : Bytes) : List Nat := runesFuel s.length s

theorem runes_of_ascii (h : ∀ b ∈ s, b < 0x80) : runes s = s.map UInt8.toNat := by
  unfold runes
  induction s with
  | nil => rfl
  | cons b s ih =>
    have hb : decodeRune b s = (b.toNat, 1) := if_pos (h b mem_cons_self)
    rw [length_cons, runesFuel, hb, map_cons, drop_succ_cons, drop_zero, ih fun c hc =>
      h c (mem_cons_of_mem b hc)]

/-- A byte that does not continue an encoding. -/
def startsRune (b : UInt8) : Bool := b < 0x80 || 0xC0 ≤ b

theorem isCont_of_startsRune {lo hi : UInt8} (h : startsRune b = true) (hlo : 0x80 ≤ lo) (hhi : hi ≤ 0xBF) :
    isCont b lo hi = false := by
  unfold startsRune at h
  unfold isCont
  rw [Bool.or_eq_true, decide_eq_true_iff, decide_eq_true_iff] at h
  rw [Bool.and_eq_false_iff, decide_eq_false_iff_not, decide_eq_false_iff_not]
  simp only [UInt8.lt_iff_toNat_lt, UInt8.le_iff_toNat_le] at *
  simp only [UInt8.reduceToNat] at *
  omega

theorem decodeRune_width (b : UInt8) (rest : Bytes) :
    1 ≤ (decodeRune b rest).2 ∧ (decodeRune b rest).2 ≤ rest.length + 1 := by
  unfold decodeRune
  rcases rest with _ | ⟨c, _ | ⟨d, _ | ⟨e, rest⟩⟩⟩ <;> dsimp only <;> split_ifs <;> simp

/-- A byte that starts a rune is not taken into the one before it. -/
theorem decodeRune_append (h : startsRune b = true) (c : UInt8) (s rest : Bytes) :
    decodeRune c (s ++ b :: rest) = decodeRune c s := by
  have hcont : ∀ {lo hi}, 0x80 ≤ lo → hi ≤ 0xBF → isCont b lo hi = false := isCont_of_startsRune h
  have hcont' : isCont b 0x80 0xBF = false := hcont (by decide) (by decide)
  have hE : ∀ c : UInt8, isCont b (if c = 0xE0 then 0xA0 else 0x80) (if c = 0xED then 0x9F else 0xBF)
      = false := by
    intro c
    apply hcont
    · split_ifs <;> decide
    · split_ifs <;> decide
  have hF : ∀ c : UInt8, isCont b (if c = 0xF0 then 0x90 else 0x80) (if c = 0xF4 then 0x8F else 0xBF)
      = false := by
    intro c
    apply hcont
    · split_ifs <;> decide
    · split_ifs <;> decide
  unfold decodeRune
  rcases s with _ | ⟨d, _ | ⟨e, _ | ⟨f, s⟩⟩⟩
  · cases rest with
    | nil => simp [hcont']
    | cons x rest => cases rest <;> simp [hcont', hE, hF]
  · cases rest <;> simp [hcont']
  · simp [hcont']
  · rfl

/-- A rune is decoded from the bytes it takes, whatever follows them. -/
theorem decodeRune_take_append (h : decodeRune b s ≠ (0xFFFD, 1)) (rest : Bytes) :
    decodeRune b (s.take ((decodeRune b s).2 - 1) ++ rest) = decodeRune b s := by
  by_cases hascii : b < 0x80
  · have hany : ∀ t, decodeRune b t = (b.toNat, 1) := fun t => if_pos hascii
    rw [hany, hany]
  unfold decodeRune at h ⊢
  rcases s with _ | ⟨c, _ | ⟨d, _ | ⟨e, s⟩⟩⟩
  all_goals
    dsimp only at h ⊢
    split_ifs at h ⊢
    all_goals first | exact absurd rfl h | simp [*]

/-- The runes of a string, each with the bytes it is decoded from, at most as many as `fuel`. -/
def decodingsFuel : Nat → Bytes → List (Nat × Bytes)
  | _, [] => []
  | 0, _ => []
  | fuel + 1, b :: rest =>
    let r := decodeRune b rest
    (r.1, (b :: rest).take r.2) :: decodingsFuel fuel ((b :: rest).drop r.2)

/-- The runes of a text, each with its bytes, as `range` visits them. -/
def decodings (s : Bytes) : List (Nat × Bytes) := decodingsFuel s.length s

theorem runes_eq_map (s : Bytes) : runes s = (decodings s).map Prod.fst := by
  have hfuel : ∀ fuel s, runesFuel fuel s = (decodingsFuel fuel s).map Prod.fst := by
    intro fuel
    induction fuel with
    | zero => intro s; cases s <;> rfl
    | succ fuel ih =>
      intro s
      cases s with
      | nil => rfl
      | cons b rest => rw [runesFuel, decodingsFuel, map_cons, ih]
  exact hfuel s.length s

theorem decodingsFuel_of_le {fuel : Nat} (h : s.length ≤ fuel) : decodingsFuel fuel s = decodings s := by
  suffices hall : ∀ n fuel s, s.length ≤ n → s.length ≤ fuel →
    decodingsFuel fuel s = decodingsFuel s.length s from
    hall s.length fuel s (Nat.le_refl _) h
  intro n
  induction n with
  | zero =>
    intro fuel s hn _
    rw [eq_nil_of_length_eq_zero (Nat.le_zero.1 hn)]
    cases fuel <;> rfl
  | succ n ih =>
    intro fuel s hn hfuel
    cases s with
    | nil => cases fuel <;> rfl
    | cons b rest =>
      obtain ⟨hone, -⟩ := decodeRune_width b rest
      have hlength : ((b :: rest).drop (decodeRune b rest).2).length ≤ rest.length := by
        rw [length_drop, length_cons]
        omega
      rw [length_cons] at hn hfuel
      obtain ⟨fuel, rfl⟩ : ∃ k, fuel = k + 1 := ⟨fuel - 1, by omega⟩
      rw [length_cons, decodingsFuel, decodingsFuel, ih fuel _ (by omega) (by omega),
        ih rest.length _ (by omega) hlength]

theorem decodings_cons (b : UInt8) (rest : Bytes) :
    decodings (b :: rest) = ((decodeRune b rest).1, (b :: rest).take (decodeRune b rest).2) ::
      decodings ((b :: rest).drop (decodeRune b rest).2) := by
  obtain ⟨hone, -⟩ := decodeRune_width b rest
  rw [decodings, length_cons, decodingsFuel, decodingsFuel_of_le]
  rw [length_drop, length_cons]
  omega

/-- Induction over the runes of a string. -/
theorem rune_induction {P : Bytes → Prop} (nil : P [])
    (cons : ∀ b rest, P ((b :: rest).drop (decodeRune b rest).2) → P (b :: rest)) (s : Bytes) : P s := by
  suffices hall : ∀ n (s : Bytes), s.length ≤ n → P s from hall s.length s (Nat.le_refl _)
  intro n
  induction n with
  | zero =>
    intro s hn
    rw [eq_nil_of_length_eq_zero (Nat.le_zero.1 hn)]
    exact nil
  | succ n ih =>
    intro s hn
    cases s with
    | nil => exact nil
    | cons b rest =>
      apply cons
      apply ih
      obtain ⟨hone, -⟩ := decodeRune_width b rest
      rw [length_drop]
      omega

/-- The bytes of the runes are the string. -/
theorem flatMap_decodings (s : Bytes) : (decodings s).flatMap Prod.snd = s := by
  induction s using rune_induction with
  | nil => rfl
  | cons b rest ih => rw [decodings_cons, flatMap_cons, ih, take_append_drop]

/-- The runes of a string are those of its parts if the second starts with the start of a rune. -/
theorem decodings_append (h : startsRune b = true) (s rest : Bytes) :
    decodings (s ++ b :: rest) = decodings s ++ decodings (b :: rest) := by
  induction s using rune_induction with
  | nil => rfl
  | cons c s ih =>
    obtain ⟨-, hwidth⟩ := decodeRune_width c s
    have hdrop : (c :: (s ++ b :: rest)).drop (decodeRune c s).2 =
        (c :: s).drop (decodeRune c s).2 ++ b :: rest := by
      rw [← cons_append, drop_append_of_le_length]
      exact hwidth
    have htake : (c :: (s ++ b :: rest)).take (decodeRune c s).2 = (c :: s).take (decodeRune c s).2 := by
      rw [← cons_append, take_append_of_le_length]
      exact hwidth
    rw [cons_append, decodings_cons c, decodings_cons c, decodeRune_append h, hdrop, htake, ih, cons_append]

/-- The rune of a byte that starts no valid encoding. -/
def isInvalid (d : Nat × Bytes) : Bool := d.1 = 0xFFFD && d.2.length = 1

/-- A rune is decoded from its bytes in any place. -/
theorem decodings_snd_append {d : Nat × Bytes} (hd : d ∈ decodings s) (hvalid : isInvalid d = false)
    (rest : Bytes) :
    decodings (d.2 ++ rest) = d :: decodings rest := by
  induction s using rune_induction with
  | nil => cases hd
  | cons b s ih =>
    rw [decodings_cons, mem_cons] at hd
    rcases hd with rfl | hd
    · obtain ⟨hone, hwidth⟩ := decodeRune_width b s
      have hne : decodeRune b s ≠ (0xFFFD, 1) := by
        intro hbad
        rw [hbad] at hvalid
        exact absurd hvalid (by simp [isInvalid])
      have hcomplete := decodeRune_take_append hne rest
      have htake : (b :: s).take (decodeRune b s).2 = b :: s.take ((decodeRune b s).2 - 1) := by
        rw [← take_succ_cons, Nat.sub_add_cancel hone]
      have hlength : (b :: s.take ((decodeRune b s).2 - 1)).length = (decodeRune b s).2 := by
        rw [length_cons, length_take]
        omega
      dsimp only
      rw [htake, cons_append, decodings_cons, hcomplete, ← cons_append, take_left' hlength, drop_left' hlength]
    · exact ih hd

theorem runes_append (h : startsRune b = true) (s rest : Bytes) :
    runes (s ++ b :: rest) = runes s ++ runes (b :: rest) := by
  rw [runes_eq_map, runes_eq_map, runes_eq_map, decodings_append h, map_append]

theorem startsRune_of_ascii (h : b < 0x80) : startsRune b = true :=
  Bool.or_eq_true_iff.2 (Or.inl (decide_eq_true h))

theorem decodings_ascii_cons (h : b < 0x80) (s : Bytes) :
    decodings (b :: s) = (b.toNat, [b]) :: decodings s := by
  have hb : decodeRune b s = (b.toNat, 1) := if_pos h
  rw [decodings_cons, hb]
  rfl

theorem runes_ascii_cons (h : b < 0x80) (s : Bytes) : runes (b :: s) = b.toNat :: runes s := by
  rw [runes_eq_map, runes_eq_map, decodings_ascii_cons h, map_cons]

theorem mem_runes_of_ascii (h : b < 0x80) (hmem : b ∈ s) : b.toNat ∈ runes s := by
  obtain ⟨x, y, rfl⟩ := append_of_mem hmem
  rw [runes_append (startsRune_of_ascii h), runes_ascii_cons h]
  exact mem_append_right _ mem_cons_self

/-- `utf8.ValidString`. -/
def validUTF8 (s : Bytes) : Bool := (decodings s).all fun d => !isInvalid d

/-! ## White space -/

/-- The encodings of the runes `unicode.IsSpace` accepts. -/
def spaces : List Bytes :=
  [[0x09], [0x0A], [0x0B], [0x0C], [0x0D], [0x20], [0xC2, 0x85], [0xC2, 0xA0],
   [0xE1, 0x9A, 0x80], [0xE2, 0x80, 0x80], [0xE2, 0x80, 0x81], [0xE2, 0x80, 0x82],
   [0xE2, 0x80, 0x83], [0xE2, 0x80, 0x84], [0xE2, 0x80, 0x85], [0xE2, 0x80, 0x86],
   [0xE2, 0x80, 0x87], [0xE2, 0x80, 0x88], [0xE2, 0x80, 0x89], [0xE2, 0x80, 0x8A],
   [0xE2, 0x80, 0xA8], [0xE2, 0x80, 0xA9], [0xE2, 0x80, 0xAF], [0xE2, 0x81, 0x9F], [0xE3, 0x80, 0x80]]

/-- Take words of `ws` off the front of `s`, at most `fuel` of them. -/
def stripFront (ws : List Bytes) : Nat → Bytes → Bytes
  | 0, s => s
  | fuel + 1, s =>
    match ws.find? (·.isPrefixOf s) with
    | some w => stripFront ws fuel (s.drop w.length)
    | none => s

/-- `strings.TrimSpace`. -/
def trimSpace (s : Bytes) : Bytes :=
  let left := stripFront spaces s.length s
  (stripFront (spaces.map List.reverse) left.length left.reverse).reverse

/-- An ASCII letter or digit. -/
def isAlnum (b : UInt8) : Bool :=
  isDigit b || (65 ≤ b && b ≤ 90) || (97 ≤ b && b ≤ 122)

theorem stripFront_of_find?_eq_none (h : ws.find? (·.isPrefixOf s) = none) (fuel : Nat) :
    stripFront ws fuel s = s := by
  cases fuel with
  | zero => rfl
  | succ fuel => rw [stripFront, h]

theorem stripFront_of_head {p : UInt8 → Bool} (hws : ∀ w ∈ ws, w.head?.map p = some false)
    (hs : ∀ b ∈ s, p b = true) (fuel : Nat) : stripFront ws fuel s = s := by
  apply stripFront_of_find?_eq_none
  rw [find?_eq_none]
  intro w hw hpre
  obtain ⟨b, hb, hpb⟩ := Option.map_eq_some_iff.mp (hws w hw)
  have hfront : w <+: s := isPrefixOf_iff_prefix.1 hpre
  have hmem : b ∈ s := hfront.subset (mem_of_mem_head? hb)
  rw [hs b hmem] at hpb
  cases hpb

/-- There is nothing to trim in a string of bytes that no white space starts or ends with. -/
theorem trimSpace_of_forall {p : UInt8 → Bool} (hfront : ∀ w ∈ spaces, w.head?.map p = some false)
    (hback : ∀ w ∈ spaces.map List.reverse, w.head?.map p = some false) (h : ∀ b ∈ s, p b = true) :
    trimSpace s = s := by
  have hrev : ∀ b ∈ s.reverse, p b = true := fun b hb => h b (mem_reverse.mp hb)
  simp only [trimSpace, stripFront_of_head hfront h, stripFront_of_head hback hrev, reverse_reverse]

theorem trimSpace_of_alnum (h : ∀ b ∈ s, isAlnum b = true) : trimSpace s = s :=
  trimSpace_of_forall (by decide) (by decide) h

/-- The runes `unicode.IsSpace` accepts. -/
def spaceRunes : List Nat :=
  [0x09, 0x0A, 0x0B, 0x0C, 0x0D, 0x20, 0x85, 0xA0, 0x1680, 0x2000, 0x2001, 0x2002, 0x2003, 0x2004,
    0x2005, 0x2006,
   0x2007, 0x2008, 0x2009, 0x200A, 0x2028, 0x2029, 0x202F, 0x205F, 0x3000]

theorem startsRune_space : ∀ w ∈ spaces, w.head?.map startsRune = some true := by decide

theorem decodings_space :
    ∀ w ∈ spaces, ∃ r ∈ spaceRunes, decodings w = [(r, w)] ∧ isInvalid (r, w) = false := by decide

/-- White space in front is runes of their own. -/
theorem decodings_space_append (hw : w ∈ spaces) (rest : Bytes) :
    ∃ r ∈ spaceRunes, decodings (w ++ rest) = (r, w) :: decodings rest := by
  obtain ⟨r, hr, hdecodings, hvalid⟩ := decodings_space w hw
  have hmem : (r, w) ∈ decodings w := hdecodings ▸ mem_cons_self
  exact ⟨r, hr, decodings_snd_append hmem hvalid rest⟩

theorem decodings_append_space (hw : w ∈ spaces) (s : Bytes) :
    ∃ r ∈ spaceRunes, decodings (s ++ w) = decodings s ++ [(r, w)] := by
  obtain ⟨r, hr, hdecodings, -⟩ := decodings_space w hw
  obtain ⟨b, hb, hstarts⟩ := Option.map_eq_some_iff.1 (startsRune_space w hw)
  obtain ⟨rest, rfl⟩ : ∃ rest, w = b :: rest := ⟨w.tail, eq_cons_of_mem_head? hb⟩
  exact ⟨r, hr, by rw [decodings_append hstarts, hdecodings]⟩

/-- There is nothing to trim in a string of which no rune is white space. -/
theorem trimSpace_of_runes (h : ∀ r ∈ runes s, r ∉ spaceRunes) : trimSpace s = s := by
  rw [runes_eq_map] at h
  have hfront : spaces.find? (·.isPrefixOf s) = none := by
    rw [find?_eq_none]
    intro w hw hpre
    obtain ⟨rest, rfl⟩ := isPrefixOf_iff_prefix.1 hpre
    obtain ⟨r, hr, hdecodings⟩ := decodings_space_append hw rest
    apply h r _ hr
    rw [hdecodings]
    exact mem_cons_self
  have hback : (spaces.map List.reverse).find? (·.isPrefixOf s.reverse) = none := by
    rw [find?_eq_none]
    intro w' hw' hpre
    obtain ⟨w, hw, rfl⟩ := mem_map.1 hw'
    obtain ⟨rest, hs⟩ := isPrefixOf_iff_prefix.1 hpre
    have hsplit : s = rest.reverse ++ w := by rw [← reverse_reverse s, ← hs, reverse_append, reverse_reverse]
    obtain ⟨r, hr, hdecodings⟩ := decodings_append_space hw rest.reverse
    apply h r _ hr
    rw [hsplit, hdecodings, map_append]
    exact mem_append_right _ mem_cons_self
  unfold trimSpace
  dsimp only
  rw [stripFront_of_find?_eq_none hfront, stripFront_of_find?_eq_none hback, reverse_reverse]

/-- Trimming takes whole runes off both ends. -/
theorem decodings_trimSpace (s : Bytes) :
    ∃ front back, decodings s = front ++ decodings (trimSpace s) ++ back := by
  have hfront : ∀ fuel s, ∃ front, decodings s = front ++ decodings (stripFront spaces fuel s) := by
    intro fuel
    induction fuel with
    | zero => exact fun s => ⟨[], rfl⟩
    | succ fuel ih =>
      intro s
      rw [stripFront]
      cases hfind : spaces.find? (·.isPrefixOf s) with
      | none => exact ⟨[], rfl⟩
      | some w =>
        have hpre := find?_some hfind
        obtain ⟨rest, rfl⟩ := isPrefixOf_iff_prefix.1 hpre
        obtain ⟨r, -, hdecodings⟩ := decodings_space_append (mem_of_find?_eq_some hfind) rest
        obtain ⟨front, hrest⟩ := ih rest
        refine ⟨(r, w) :: front, ?_⟩
        dsimp only
        rw [drop_left, hdecodings, hrest, cons_append]
  have hback : ∀ fuel s, ∃ back,
      decodings (List.reverse s) = decodings (stripFront (spaces.map List.reverse) fuel s).reverse ++ back := by
    intro fuel
    induction fuel with
    | zero => exact fun s => ⟨[], (append_nil _).symm⟩
    | succ fuel ih =>
      intro s
      rw [stripFront]
      cases hfind : (spaces.map List.reverse).find? (·.isPrefixOf s) with
      | none => exact ⟨[], (append_nil _).symm⟩
      | some w' =>
        obtain ⟨w, hw, rfl⟩ := mem_map.1 (mem_of_find?_eq_some hfind)
        have hpre := find?_some hfind
        obtain ⟨rest, rfl⟩ := isPrefixOf_iff_prefix.1 hpre
        obtain ⟨r, -, hdecodings⟩ := decodings_append_space hw rest.reverse
        obtain ⟨back, hrest⟩ := ih rest
        refine ⟨back ++ [(r, w)], ?_⟩
        dsimp only
        rw [drop_left, reverse_append, reverse_reverse, hdecodings, hrest, append_assoc]
  unfold trimSpace
  dsimp only
  obtain ⟨front, hleft⟩ := hfront s.length s
  obtain ⟨back, hright⟩ := hback (stripFront spaces s.length s).length (stripFront spaces s.length s).reverse
  rw [reverse_reverse] at hright
  exact ⟨front, back, by rw [hleft, hright, append_assoc]⟩

theorem find?_stripFront (hws : ∀ w ∈ ws, w ≠ []) {fuel : Nat} (h : s.length ≤ fuel) :
    ws.find? (·.isPrefixOf (stripFront ws fuel s)) = none := by
  induction fuel generalizing s with
  | zero =>
    rw [eq_nil_of_length_eq_zero (Nat.le_zero.1 h), find?_eq_none]
    intro w hw hpre
    exact hws w hw <| prefix_nil.1 <| isPrefixOf_iff_prefix.1 hpre
  | succ fuel ih =>
    rw [stripFront]
    cases hfind : ws.find? (·.isPrefixOf s) with
    | none => exact hfind
    | some w =>
      apply ih
      have hpos : 0 < w.length := length_pos_of_ne_nil (hws w (mem_of_find?_eq_some hfind))
      rw [length_drop]
      omega

theorem trimSpace_trimSpace (s : Bytes) : trimSpace (trimSpace s) = trimSpace s := by
  let left := stripFront spaces s.length s
  let back := stripFront (spaces.map List.reverse) left.length left.reverse
  have htrim : trimSpace s = back.reverse := rfl
  have hleft : spaces.find? (·.isPrefixOf left) = none := find?_stripFront (by decide) (Nat.le_refl _)
  have hback : (spaces.map List.reverse).find? (·.isPrefixOf back) = none :=
    find?_stripFront (by decide) (Nat.le_of_eq length_reverse)
  have hsuffix : ∀ ws fuel s, stripFront ws fuel s <:+ s := by
    intro ws fuel
    induction fuel with
    | zero => exact fun s => suffix_rfl
    | succ fuel ih =>
      intro s
      rw [stripFront]
      cases ws.find? (·.isPrefixOf s) with
      | none => exact suffix_rfl
      | some w => exact (ih _).trans (drop_suffix _ _)
  -- what is left is the front of `left`, so it starts with no white space either
  have hfront : spaces.find? (·.isPrefixOf back.reverse) = none := by
    rw [find?_eq_none] at hleft ⊢
    intro w hw hpre
    apply hleft w hw
    have hwhole : back.reverse <+: left := by
      rw [← reverse_reverse left]
      exact reverse_prefix.2 (hsuffix _ _ _)
    have hword : w <+: back.reverse := isPrefixOf_iff_prefix.1 hpre
    exact isPrefixOf_iff_prefix.2 (hword.trans hwhole)
  rw [htrim]
  unfold trimSpace
  dsimp only
  rw [stripFront_of_find?_eq_none hfront, reverse_reverse, stripFront_of_find?_eq_none hback]

theorem mem_decodings_of_trimSpace {d : Nat × Bytes} (h : d ∈ decodings (trimSpace s)) : d ∈ decodings s := by
  obtain ⟨front, back, hs⟩ := decodings_trimSpace s
  rw [hs]
  exact mem_append_left _ (mem_append_right _ h)

end TorrServer.Lib
