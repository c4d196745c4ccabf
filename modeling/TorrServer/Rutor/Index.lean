/-
# Rutor.Index — the inverted index over the titles of the rutor database.

`Index` maps a token to the ids of the documents whose title has it. `add` goes through the documents in order
and appends the id of each to the posting lists of its tokens; a token that comes twice in one title is noticed
because its list already ends with the id. `search` intersects the posting lists of the tokens of a query. The
posting lists are therefore sorted and without repetition (`postings_add`), which is what `intersection` needs.
The analysis of a text into tokens is arbitrary here.
-/
import Mathlib.Data.List.Induction
import Mathlib.Tactic.SplitIfs

namespace TorrServer.Rutor

open List

/-! ## The model -/

/-- `map[string][]int`; `none` is the `nil` of a token that is not there. -/
def Index (τ : Type) := τ → Option (List Nat)

/-- The rounds of `intersection` in which `i` stays at `a`; `next` goes on with the next `i`. -/
def intersectionAt (a : Nat) (next : List Nat → List Nat) : List Nat → List Nat
  | [] => []
  | b :: bs =>
    if a < b then next (b :: bs)
    else if b < a then intersectionAt a next bs
    else a :: next bs

/-- `intersection`: `i` and `j` run over the lists, so that what is left of each is the state. -/
def intersection : List Nat → List Nat → List Nat
  | [], _ => []
  | a :: as, bs => intersectionAt a (intersection as) bs

namespace Index

variable {τ δ : Type} [DecidableEq τ]

/-- `idx[token] = ids`. -/
def put (idx : Index τ) (token : τ) (ids : List Nat) : Index τ :=
  fun t => if t = token then some ids else idx t

/-- The body of the inner loop of `add`. -/
def addToken (ID : Nat) (idx : Index τ) (token : τ) : Index τ :=
  match idx token with
  | none => idx.put token [ID]
  | some ids =>
    -- Don't add same ID twice.
    if ids.getLast? = some ID then idx else idx.put token (ids ++ [ID])

/-- `make(Index)`. -/
def empty : Index τ := fun _ => none

/-- `add`, to an empty index. -/
def add (analyze : δ → List τ) (torrs : List δ) : Index τ :=
  torrs.zipIdx.foldl (fun idx torr => (analyze torr.1).foldl (addToken torr.2) idx) empty

/-- The loop of `search` over the tokens that are left; `none` is `nil`. -/
def searchTokens (idx : Index τ) : List τ → Option (List Nat) → Option (List Nat)
  | [], r => r
  | token :: tokens, r =>
    match idx token with
    | some ids =>
      match r with
      | none => searchTokens idx tokens (some ids)
      | some found => searchTokens idx tokens (some (intersection found ids))
    | none => none

/-- The documents that have every token of the text. -/
def search (analyze : δ → List τ) (idx : Index τ) (text : δ) : Option (List Nat) :=
  searchTokens idx (analyze text) none

end Index

/-! ## Sorted lists -/

section Sorted

variable {a b : List Nat}

theorem intersection_cons_cons (x y : Nat) (a b : List Nat) :
    intersection (x :: a) (y :: b) =
      if x < y then intersection a (y :: b)
      else if y < x then intersection (x :: a) b
      else x :: intersection a b := rfl

theorem intersection_nil : intersection a [] = [] := by
  cases a <;> rfl

theorem not_mem_of_lt {x y : Nat} (hb : (y :: b).Pairwise (· < ·)) (hlt : x < y) : x ∉ y :: b := by
  intro hmem
  rcases mem_cons.1 hmem with rfl | hrest
  · exact absurd hlt (Nat.lt_irrefl _)
  · exact absurd (Nat.lt_trans hlt ((pairwise_cons.1 hb).1 _ hrest)) (Nat.lt_irrefl _)

theorem mem_intersection (ha : a.Pairwise (· < ·)) (hb : b.Pairwise (· < ·)) (n : Nat) :
    n ∈ intersection a b ↔ n ∈ a ∧ n ∈ b := by
  induction a generalizing b with
  | nil => simp [intersection]
  | cons x a ih =>
    obtain ⟨hfirst, ha'⟩ := pairwise_cons.1 ha
    induction b with
    | nil => simp [intersection_nil]
    | cons y b ihb =>
      obtain ⟨hfirst', hb'⟩ := pairwise_cons.1 hb
      rw [intersection_cons_cons]
      by_cases hlt : x < y
      · -- `x` is not in the other list
        rw [if_pos hlt, ih ha' hb, mem_cons (b := x)]
        constructor
        · exact fun ⟨hn, hn'⟩ => ⟨.inr hn, hn'⟩
        · rintro ⟨rfl | hn, hn'⟩
          · exact absurd hn' (not_mem_of_lt hb hlt)
          · exact ⟨hn, hn'⟩
      · rw [if_neg hlt]
        by_cases hlt' : y < x
        · rw [if_pos hlt', ihb hb', mem_cons (b := y)]
          constructor
          · exact fun ⟨hn, hn'⟩ => ⟨hn, .inr hn'⟩
          · rintro ⟨hn, rfl | hn'⟩
            · exact absurd hn (not_mem_of_lt ha hlt')
            · exact ⟨hn, hn'⟩
        · obtain rfl : x = y := by omega
          rw [if_neg hlt', mem_cons, ih ha' hb', mem_cons, mem_cons]
          constructor
          · rintro (rfl | ⟨hn, hn'⟩)
            · exact ⟨.inl rfl, .inl rfl⟩
            · exact ⟨.inr hn, .inr hn'⟩
          · rintro ⟨rfl | hn, hn'⟩
            · exact .inl rfl
            · rcases hn' with rfl | hn'
              · exact absurd (hfirst _ hn) (Nat.lt_irrefl _)
              · exact .inr ⟨hn, hn'⟩

theorem intersection_sublist (a b : List Nat) : (intersection a b).Sublist a := by
  induction a generalizing b with
  | nil => exact List.Sublist.refl _
  | cons x a ih =>
    induction b with
    | nil => exact nil_sublist _
    | cons y b ihb =>
      rw [intersection_cons_cons]
      split_ifs
      · exact (ih _).cons _
      · exact ihb
      · exact (ih _).cons_cons _

end Sorted

/-! ## The posting lists -/

namespace Index

variable {τ δ : Type} [DecidableEq τ] (analyze : δ → List τ)

/-- The ids of the documents that have the token, in order. -/
def postings (torrs : List δ) (token : τ) : List Nat :=
  (torrs.zipIdx.filter fun torr => token ∈ analyze torr.1).map Prod.snd

/-- The index has exactly these lists, and no entry for a token that no document has. -/
def Posts (idx : Index τ) (lists : τ → List Nat) : Prop :=
  ∀ token, (idx token).getD [] = lists token ∧ idx token ≠ some []

variable {analyze}

theorem postings_concat (torrs : List δ) (torr : δ) (token : τ) :
    postings analyze (torrs ++ [torr]) token =
      postings analyze torrs token ++ if token ∈ analyze torr then [torrs.length] else [] := by
  rw [postings, zipIdx_append, filter_append, map_append, postings]
  congr 1
  rw [zipIdx_singleton, filter_cons, filter_nil, Nat.zero_add]
  by_cases htoken : token ∈ analyze torr
  · rw [if_pos (decide_eq_true htoken), if_pos htoken]
    rfl
  · rw [if_neg (by simpa using htoken), if_neg htoken]
    rfl

theorem mem_postings {torrs : List δ} {token : τ} {ID : Nat} :
    ID ∈ postings analyze torrs token ↔ ∃ torr, torrs[ID]? = some torr ∧ token ∈ analyze torr := by
  simp only [postings, mem_map, mem_filter, Prod.exists, mem_zipIdx_iff_getElem?, decide_eq_true_eq]
  constructor
  · rintro ⟨torr, _, ⟨hget, htoken⟩, rfl⟩
    exact ⟨torr, hget, htoken⟩
  · rintro ⟨torr, hget, htoken⟩
    exact ⟨torr, ID, ⟨hget, htoken⟩, rfl⟩

theorem sorted_postings (torrs : List δ) (token : τ) : (postings analyze torrs token).Pairwise (· < ·) := by
  have hids : (torrs.zipIdx.map Prod.snd).Pairwise (· < ·) := by
    rw [zipIdx_map_snd]
    exact pairwise_lt_range' ..
  exact hids.sublist (List.Sublist.map _ filter_sublist)

theorem Posts.addToken {idx : Index τ} {lists : τ → List Nat} {ID : Nat} {seen : List τ}
    (hbelow : ∀ token, ∀ x ∈ lists token, x < ID)
    (h : idx.Posts fun token => lists token ++ if token ∈ seen then [ID] else []) (token : τ) :
    (idx.addToken ID token).Posts fun t => lists t ++ if t ∈ seen ++ [token] then [ID] else [] := by
  have hother : ∀ t, t ≠ token → (t ∈ seen ++ [token] ↔ t ∈ seen) := by
    intro t ht
    simp [ht]
  have hmine : token ∈ seen ++ [token] := by simp
  obtain ⟨hlist, hne⟩ := h token
  have hrest : ∀ ids : List Nat, ids ≠ [] → ids = lists token ++ [ID] →
      (idx.put token ids).Posts fun t => lists t ++ if t ∈ seen ++ [token] then [ID] else [] := by
    intro ids hnil hids t
    by_cases ht : t = token
    · subst ht
      simp only [put, if_true, if_pos hmine]
      exact ⟨hids, fun heq => hnil (Option.some.inj heq)⟩
    · simp only [put, if_neg ht, hother t ht]
      exact h t
  rw [Index.addToken]
  cases hidx : idx token with
  | none =>
    -- a token that was not there is in no list, and not seen
    rw [hidx] at hlist
    have hnil : lists token = [] := (append_eq_nil_iff.1 hlist.symm).1
    exact hrest [ID] (cons_ne_nil _ _) (by rw [hnil]; rfl)
  | some ids =>
    rw [hidx] at hlist
    have hids : ids = lists token ++ if token ∈ seen then [ID] else [] := hlist
    by_cases hseen : token ∈ seen
    · -- the list ends with the id: nothing to do
      have hlast : ids.getLast? = some ID := by rw [hids, if_pos hseen, getLast?_concat]
      simp only [if_pos hlast]
      intro t
      by_cases ht : t = token
      · subst ht
        simp only [if_pos hmine]
        rw [if_pos hseen] at hids
        exact ⟨by rw [hidx, hids]; rfl, hne⟩
      · simp only [hother t ht]
        exact h t
    · rw [if_neg hseen, append_nil] at hids
      have hlast : ids.getLast? ≠ some ID := by
        intro hlast
        have hmem := hbelow token ID (hids ▸ mem_of_getLast? hlast)
        exact absurd hmem (Nat.lt_irrefl _)
      simp only [if_neg hlast]
      exact hrest (ids ++ [ID]) (by simp) (by rw [hids])

theorem Posts.addTokens {lists : τ → List Nat} {ID : Nat} (hbelow : ∀ token, ∀ x ∈ lists token, x < ID)
    (tokens : List τ) {idx : Index τ} {seen : List τ}
    (h : idx.Posts fun token => lists token ++ if token ∈ seen then [ID] else []) :
    Posts (tokens.foldl (Index.addToken ID) idx) fun t =>
      lists t ++ if t ∈ seen ++ tokens then [ID] else [] := by
  induction tokens generalizing idx seen with
  | nil =>
    rw [append_nil]
    exact h
  | cons token tokens ih =>
    rw [foldl_cons, append_cons]
    exact ih (h.addToken hbelow token)

/-- **The lists of the index** are the ids of the documents that have the token, in order. -/
theorem postings_add (torrs : List δ) : (add analyze torrs).Posts (postings analyze torrs) := by
  induction torrs using List.reverseRecOn with
  | nil =>
    intro token
    exact ⟨rfl, fun h => nomatch h⟩
  | append_singleton torrs torr ih =>
    have hbelow : ∀ token, ∀ x ∈ postings analyze torrs token, x < torrs.length := by
      intro token x hx
      obtain ⟨d, hget, -⟩ := mem_postings.1 hx
      exact (List.getElem?_eq_some_iff.1 hget).1
    have hstart : Posts (add analyze torrs) fun token =>
        postings analyze torrs token ++ if token ∈ ([] : List τ) then [torrs.length] else [] := by
      simpa using ih
    have hdoc := hstart.addTokens hbelow (analyze torr)
    intro token
    rw [postings_concat, add, zipIdx_append, foldl_append, Nat.zero_add]
    exact hdoc token

/-! ## Searching -/

/-- What `search` has found after some tokens: the sorted ids of the documents that have all. -/
def Finds (analyze : δ → List τ) (torrs : List δ) (tokens : List τ) (found : List Nat) : Prop :=
  found.Pairwise (· < ·) ∧
    ∀ ID, ID ∈ found ↔ ∃ torr, torrs[ID]? = some torr ∧ ∀ token ∈ tokens, token ∈ analyze torr

theorem finds_postings (torrs : List δ) (token : τ) :
    Finds analyze torrs [token] (postings analyze torrs token) := by
  refine ⟨sorted_postings torrs token, ?_⟩
  intro ID
  rw [mem_postings]
  simp

theorem Finds.intersection {torrs : List δ} {seen : List τ} {found : List Nat}
    (h : Finds analyze torrs seen found) (token : τ) :
    Finds analyze torrs (seen ++ [token]) (intersection found (postings analyze torrs token)) := by
  refine ⟨h.1.sublist (intersection_sublist _ _), ?_⟩
  intro ID
  rw [mem_intersection h.1 (sorted_postings torrs token), h.2, mem_postings]
  constructor
  · rintro ⟨⟨torr, hget, hseen⟩, torr', hget', htoken⟩
    cases hget.symm.trans hget'
    refine ⟨torr, hget, ?_⟩
    intro t ht
    rcases mem_append.1 ht with hmem | hmem
    · exact hseen t hmem
    · rw [mem_singleton.1 hmem]
      exact htoken
  · rintro ⟨torr, hget, hall⟩
    exact ⟨⟨torr, hget, fun t ht => hall t (mem_append_left _ ht)⟩, torr, hget,
      hall token (mem_append_right _ (mem_singleton.2 rfl))⟩

theorem finds_nil {torrs : List δ} {tokens : List τ} {token : τ} (htoken : token ∈ tokens)
    (h : postings analyze torrs token = []) : Finds analyze torrs tokens [] := by
  refine ⟨List.Pairwise.nil, ?_⟩
  intro ID
  refine ⟨fun hmem => absurd hmem not_mem_nil, ?_⟩
  rintro ⟨torr, hget, hall⟩
  have hmem := mem_postings.2 ⟨torr, hget, hall token htoken⟩
  rw [h] at hmem
  exact hmem

theorem searchTokens_finds {torrs : List δ} {idx : Index τ} (hidx : idx.Posts (postings analyze torrs))
    (tokens : List τ) {seen : List τ} {found : List Nat} (h : Finds analyze torrs seen found) :
    Finds analyze torrs (seen ++ tokens) ((idx.searchTokens tokens (some found)).getD []) := by
  induction tokens generalizing seen found with
  | nil =>
    rw [append_nil]
    exact h
  | cons token tokens ih =>
    have hlist := (hidx token).1
    rw [searchTokens]
    cases hget : idx token with
    | none =>
      rw [hget] at hlist
      exact finds_nil (mem_append_right _ mem_cons_self) hlist.symm
    | some ids =>
      rw [hget] at hlist
      have hids : ids = postings analyze torrs token := hlist
      rw [append_cons, hids]
      exact ih (h.intersection token)

/-- **Search is exact**: the ids of the documents whose title has every token of the query, ascending. -/
theorem search_finds (torrs : List δ) (text : δ) (htext : analyze text ≠ []) :
    (((add analyze torrs).search analyze text).getD []).Pairwise (· < ·) ∧
      ∀ ID, ID ∈ ((add analyze torrs).search analyze text).getD [] ↔
        ∃ torr, torrs[ID]? = some torr ∧ ∀ token ∈ analyze text, token ∈ analyze torr := by
  have hidx : (add analyze torrs).Posts (postings analyze torrs) := postings_add torrs
  show Finds analyze torrs (analyze text) ((searchTokens (add analyze torrs) (analyze text) none).getD [])
  cases htokens : analyze text with
  | nil => exact absurd htokens htext
  | cons token tokens =>
    have hlist := (hidx token).1
    rw [searchTokens]
    cases hget : add analyze torrs token with
    | none =>
      rw [hget] at hlist
      exact finds_nil mem_cons_self hlist.symm
    | some ids =>
      rw [hget] at hlist
      have hids : ids = postings analyze torrs token := hlist
      rw [hids]
      exact searchTokens_finds hidx tokens (finds_postings torrs token)

/-- Three titles as lists of words, one with a word twice. -/
theorem search_two_words : let titles := [["red", "sun", "red"], ["sun"], ["blue", "red", "sun"]]
    ((add id titles).search id ["sun", "red"]).getD [] = [0, 2] ∧
      ∀ ID, ID ∈ ((add id titles).search id ["sun", "red"]).getD [] ↔
        ∃ title, titles[ID]? = some title ∧ ∀ word ∈ ["sun", "red"], word ∈ title :=
  ⟨by decide +kernel, (@search_finds _ _ _ id [["red", "sun", "red"], ["sun"], ["blue", "red", "sun"]]
    ["sun", "red"] (by decide)).2⟩

end Index

end TorrServer.Rutor
