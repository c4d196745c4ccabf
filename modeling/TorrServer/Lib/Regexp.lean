/-
# Lib.Regexp — leftmost-first matching.

Of the matches that start leftmost, package `regexp` takes the one a backtracking search finds first.
`Regexp.ways` lists all ways an expression matches from one position on, in the order of that search: an
alternative on the left before one on the right, a greedy repetition from its longest run down, a lazy one from
its shortest up. `find` takes the first way from the first position that has one.

The expressions have repetitions of one character class only, so that no iteration is empty. Characters are
arbitrary: runes or bytes.
-/
import Mathlib.Data.List.Basic

namespace TorrServer.Lib

open List

/-- Regular expressions. -/
inductive Regexp (α : Type) where
  | empty
  /-- An empty-width assertion about what is before (nearest first) and what is behind. -/
  | assert (p : List α → List α → Bool)
  /-- `[p]{min,max}`, with `none` for no upper bound. -/
  | greedy (p : α → Bool) (min : Nat) (max : Option Nat)
  /-- `[p]*?`. -/
  | lazy (p : α → Bool)
  | cat (r s : Regexp α)
  | alt (r s : Regexp α)
  | group (n : Nat) (r : Regexp α)

namespace Regexp

variable {α : Type}

/-- The characters before a position, nearest first, those behind, and the closed groups, last first. -/
structure Pos (α : Type) where
  before : List α
  after : List α
  groups : List (Nat × List α) := []

/-- The position `k` characters on. -/
def Pos.advance (s : Pos α) (k : Nat) : Pos α :=
  { s with before := (s.after.take k).reverse ++ s.before, after := s.after.drop k }

/-- The text between two positions. -/
def Pos.upTo (s t : Pos α) : List α := s.after.take (s.after.length - t.after.length)

/-- How many characters of the class follow, up to a bound. -/
def runLength (p : α → Bool) (max : Option Nat) (text : List α) : Nat :=
  match max with
  | none => (text.takeWhile p).length
  | some m => min m (text.takeWhile p).length

/-- All ways to match from a position on, in the order of a backtracking search. -/
def ways : Regexp α → Pos α → List (Pos α)
  | .empty, s => [s]
  | .assert p, s => if p s.before s.after then [s] else []
  | .greedy p min max, s =>
    (((List.range (runLength p max s.after + 1)).filter (min ≤ ·)).reverse).map s.advance
  | .lazy p, s => (List.range (runLength p none s.after + 1)).map s.advance
  | .cat r r', s => (r.ways s).flatMap r'.ways
  | .alt r r', s => r.ways s ++ r'.ways s
  | .group n r, s => (r.ways s).map fun t => { t with groups := (n, s.upTo t) :: t.groups }

/-- The match from a position on. -/
def matchAt (r : Regexp α) (before after : List α) : Option (Pos α) :=
  (r.ways { before, after }).head?

/-- The leftmost-first match: the number of characters skipped and the position at its end. -/
def findFrom (r : Regexp α) : List α → List α → Option (Nat × Pos α)
  | before, [] => (r.matchAt before []).map (0, ·)
  | before, a :: after =>
    match r.matchAt before (a :: after) with
    | some t => some (0, t)
    | none => (r.findFrom (a :: before) after).map fun m => (m.1 + 1, m.2)

/-- `FindStringSubmatch`: the position behind the match, with its groups. -/
def find (r : Regexp α) (text : List α) : Option (Pos α) := (r.findFrom [] text).map Prod.snd

/-- The text of a group; empty if it took no part in the match. -/
def Pos.groupText (t : Pos α) (n : Nat) : List α := (t.groups.lookup n).getD []

/-! ## Shorthands -/

/-- One character of a class. -/
def one (p : α → Bool) : Regexp α := .greedy p 1 (some 1)

/-- `^` without the flag `m`. -/
def textStart : Regexp α := .assert fun before _ => before.isEmpty

/-- `$` without the flag `m`. -/
def textEnd : Regexp α := .assert fun _ after => after.isEmpty

/-- One after the other. -/
def seq : List (Regexp α) → Regexp α
  | [] => .empty
  | [r] => r
  | r :: rs => .cat r (seq rs)

/-- One of several, tried from the left. -/
def oneOf (r : Regexp α) : List (Regexp α) → Regexp α
  | [] => r
  | r' :: rs => .alt r (oneOf r' rs)

/-! ## What a group holds -/

theorem length_after_advance (s : Pos α) (k : Nat) : (s.advance k).after.length = s.after.length - k :=
  length_drop

theorem runLength_le_length (p : α → Bool) (max : Option Nat) (text : List α) :
    runLength p max text ≤ (text.takeWhile p).length := by
  unfold runLength
  split
  · exact Nat.le_refl _
  · exact Nat.min_le_right _ _

theorem runLength_le_max (p : α → Bool) (m : Nat) (text : List α) : runLength p (some m) text ≤ m :=
  Nat.min_le_left _ _

/-- A repetition goes over characters of its class, within its bounds. -/
theorem exists_of_mem_ways_greedy {p : α → Bool} {min : Nat} {max : Option Nat} {s t : Pos α}
    (h : t ∈ (greedy p min max).ways s) :
    ∃ k, min ≤ k ∧ k ≤ runLength p max s.after ∧ t = s.advance k := by
  unfold ways at h
  obtain ⟨k, hk, rfl⟩ := mem_map.1 h
  obtain ⟨hrange, hmin⟩ := mem_filter.1 (mem_reverse.1 hk)
  exact ⟨k, of_decide_eq_true hmin, Nat.le_of_lt_succ (mem_range.1 hrange), rfl⟩

theorem upTo_advance {s : Pos α} {k : Nat} (h : k ≤ s.after.length) :
    s.upTo (s.advance k) = s.after.take k := by
  unfold Pos.upTo
  rw [length_after_advance]
  congr 1
  omega

theorem take_of_le_takeWhile {p : α → Bool} {text : List α} {k : Nat}
    (h : k ≤ (text.takeWhile p).length) : text.take k = (text.takeWhile p).take k := by
  obtain ⟨rest, hrest⟩ := takeWhile_prefix (l := text) p
  conv_lhs => rw [← hrest]
  exact take_append_of_le_length h

/-- The text a repetition goes over. -/
theorem upTo_of_mem_ways_greedy {p : α → Bool} {min m : Nat} {s t : Pos α}
    (h : t ∈ (greedy p min (some m)).ways s) :
    (s.upTo t).length ≤ m ∧ ∀ a ∈ s.upTo t, p a = true := by
  obtain ⟨k, -, hk, rfl⟩ := exists_of_mem_ways_greedy h
  have hrun := Nat.le_trans hk (runLength_le_length p (some m) s.after)
  have hfront : s.after.takeWhile p <+: s.after := takeWhile_prefix p
  have htext : k ≤ s.after.length := Nat.le_trans hrun hfront.length_le
  rw [upTo_advance htext]
  constructor
  · exact Nat.le_trans (length_take_le k s.after) (Nat.le_trans hk (runLength_le_max p m s.after))
  · intro a ha
    rw [take_of_le_takeWhile hrun] at ha
    exact all_eq_true.1 all_takeWhile a (mem_of_mem_take ha)

/-- Every group of the expression takes only texts with a property. -/
def GroupsHold (P : Nat → List α → Prop) : Regexp α → Prop
  | .group n r => (∀ s t, t ∈ r.ways s → P n (s.upTo t)) ∧ GroupsHold P r
  | .cat r r' => GroupsHold P r ∧ GroupsHold P r'
  | .alt r r' => GroupsHold P r ∧ GroupsHold P r'
  | _ => True

/-- What the groups of the expression take is what the groups of its matches hold. -/
theorem groups_of_mem_ways {P : Nat → List α → Prop} {r : Regexp α} (hr : r.GroupsHold P) {s t : Pos α}
    (ht : t ∈ r.ways s) (hs : ∀ g ∈ s.groups, P g.1 g.2) : ∀ g ∈ t.groups, P g.1 g.2 := by
  induction r generalizing s t with
  | empty =>
    rw [ways, mem_singleton] at ht
    subst ht
    exact hs
  | assert p =>
    rw [ways] at ht
    split at ht
    · rw [mem_singleton] at ht
      subst ht
      exact hs
    · cases ht
  | greedy p min max =>
    obtain ⟨k, -, -, rfl⟩ := exists_of_mem_ways_greedy ht
    exact hs
  | lazy p =>
    rw [ways] at ht
    obtain ⟨k, -, rfl⟩ := mem_map.1 ht
    exact hs
  | cat r r' ih ih' =>
    obtain ⟨u, hu, ht⟩ := mem_flatMap.1 ht
    exact ih' hr.2 ht (ih hr.1 hu hs)
  | alt r r' ih ih' =>
    rcases mem_append.1 ht with ht | ht
    · exact ih hr.1 ht hs
    · exact ih' hr.2 ht hs
  | group n r ih =>
    obtain ⟨u, hu, rfl⟩ := mem_map.1 ht
    intro g hg
    rcases mem_cons.1 hg with rfl | hg
    · exact hr.1 s u hu
    · exact ih hr.2 hu hs g hg

theorem groups_of_matchAt {P : Nat → List α → Prop} {r : Regexp α} (hr : r.GroupsHold P)
    {before after : List α} {t : Pos α} (h : r.matchAt before after = some t) :
    ∀ g ∈ t.groups, P g.1 g.2 :=
  groups_of_mem_ways hr (mem_of_mem_head? h) (fun _ hg => nomatch hg)

theorem groups_of_findFrom {P : Nat → List α → Prop} {r : Regexp α} (hr : r.GroupsHold P)
    {before after : List α} {m : Nat × Pos α} (h : r.findFrom before after = some m) :
    ∀ g ∈ m.2.groups, P g.1 g.2 := by
  induction after generalizing before m with
  | nil =>
    obtain ⟨t, ht, rfl⟩ := Option.map_eq_some_iff.1 h
    exact groups_of_matchAt hr ht
  | cons a after ih =>
    rw [findFrom] at h
    split at h
    · rename_i t ht
      cases h
      exact groups_of_matchAt hr ht
    · obtain ⟨m', hm', rfl⟩ := Option.map_eq_some_iff.1 h
      exact fun g hg => ih (m := m') hm' g hg

/-- **A group of a match** holds a text its expression takes, or nothing. -/
theorem groupText_of_find {P : Nat → List α → Prop} {r : Regexp α} (hr : r.GroupsHold P)
    (hempty : ∀ n, P n []) {text : List α} {t : Pos α} (h : r.find text = some t) (n : Nat) :
    P n (t.groupText n) := by
  obtain ⟨m, hm, rfl⟩ := Option.map_eq_some_iff.1 h
  unfold Pos.groupText
  cases hlookup : m.2.groups.lookup n with
  | none => exact hempty n
  | some w =>
    have hmem : (n, w) ∈ m.2.groups := by
      obtain ⟨l, l', hl, -⟩ := lookup_eq_some_iff.1 hlookup
      rw [hl]
      exact mem_append_right _ mem_cons_self
    exact groups_of_findFrom hr hm (n, w) hmem

end Regexp

end TorrServer.Lib
