/-
# Lib.Path — slash-separated paths, as Go's `path` and `io/fs` have them.

`path.Clean` drops empty and `.` elements and lets `..` take back the one before; `fs.ValidPath` accepts what
has none of these. Both leave alone a path of plain names, names that are one element of a path and mean
themselves.
-/
import TorrServer.Lib.Utf8
import TorrServer.Lib.Split

namespace TorrServer.Lib

open List

/-- A name that stands for itself as an element of a path. -/
structure PlainName (name : Bytes) : Prop where
  ne_nil : name ≠ []
  ne_dot : name ≠ [46]
  ne_dotdot : name ≠ [46, 46]
  no_slash : (47 : UInt8) ∉ name

/-- The elements of a path. -/
def elements (path : Bytes) : List Bytes := path.splitOn 47

/-- `strings.Join(names, "/")`. -/
def joinNames (names : List Bytes) : Bytes := [47].intercalate names

/-- One element of the path on its way through `path.Clean`. -/
def cleanElement (rooted : Bool) (out : List Bytes) (elem : Bytes) : List Bytes :=
  if elem = [] ∨ elem = [46] then out
  else if elem = [46, 46] then
    if out ≠ [] ∧ out.getLast? ≠ some [46, 46] then out.dropLast
    else if rooted then out
    else out ++ [[46, 46]]
  else out ++ [elem]

/-- `path.Clean`. -/
def clean (path : Bytes) : Bytes :=
  let rooted : Bool := path.head? = some 47
  let out := (elements path).foldl (cleanElement rooted) []
  if rooted then 47 :: joinNames out
  else if out = [] then [46]
  else joinNames out

/-- `path.Join`. -/
def pathJoin (elems : List Bytes) : Bytes :=
  let elems := elems.dropWhile (· = [])
  if elems = [] then [] else clean (joinNames elems)

/-- `fs.ValidPath`: the path is rooted nowhere and has no empty, `.` or `..` element. -/
def validPath (name : Bytes) : Bool :=
  validUTF8 name && (name = [46] || (elements name).all fun elem => elem ≠ [] && elem ≠ [46] && elem ≠ [46, 46])

variable {names : List Bytes}

theorem elements_joinNames (hne : names ≠ []) (h : ∀ name ∈ names, PlainName name) :
    elements (joinNames names) = names := splitOn_intercalate 47 (fun name hname => (h name hname).no_slash) hne

theorem joinNames_singleton (name : Bytes) : joinNames [name] = name := intercalate_singleton

theorem joinNames_cons_cons (name next : Bytes) (names : List Bytes) :
    joinNames (name :: next :: names) = name ++ 47 :: joinNames (next :: names) := by
  rw [joinNames, intercalate_cons_cons, append_assoc]
  rfl

theorem length_le_joinNames (name : Bytes) (names : List Bytes) :
    names.length ≤ (joinNames (name :: names)).length := by
  induction names generalizing name with
  | nil => exact Nat.zero_le _
  | cons next names ih =>
    have hnext := ih next
    rw [joinNames_cons_cons, length_append, length_cons, length_cons]
    omega

theorem joinNames_ne_nil (hne : names ≠ []) (h : ∀ name ∈ names, PlainName name) : joinNames names ≠ [] := by
  intro hnil
  have helements := elements_joinNames hne h
  rw [hnil] at helements
  exact (h [] (helements ▸ mem_cons_self)).ne_nil rfl

theorem joinNames_elements (path : Bytes) : joinNames (elements path) = path := intercalate_splitOn 47

theorem foldl_cleanElement (rooted : Bool) (h : ∀ name ∈ names, PlainName name) (out : List Bytes) :
    names.foldl (cleanElement rooted) out = out ++ names := by
  induction names generalizing out with
  | nil => rw [foldl_nil, append_nil]
  | cons name names ih =>
    obtain ⟨hnil, hdot, hdotdot, -⟩ := h name mem_cons_self
    have hname : cleanElement rooted out name = out ++ [name] := by
      unfold cleanElement
      rw [if_neg (not_or.2 ⟨hnil, hdot⟩), if_neg hdotdot]
    rw [foldl_cons, hname, ih fun n hn => h n (mem_cons_of_mem name hn), append_assoc]
    rfl

theorem head?_joinNames (hne : names ≠ []) (h : ∀ name ∈ names, PlainName name) :
    (joinNames names).head? ≠ some 47 := by
  obtain ⟨name, rest, rfl⟩ := exists_cons_of_ne_nil hne
  have hname := h name mem_cons_self
  have hfront : ∃ tail, joinNames (name :: rest) = name ++ tail := by
    cases rest with
    | nil => exact ⟨[], by rw [joinNames_singleton, append_nil]⟩
    | cons next rest => exact ⟨_, joinNames_cons_cons name next rest⟩
  obtain ⟨tail, htail⟩ := hfront
  rw [htail, head?_append_of_ne_nil _ hname.ne_nil]
  exact fun hhead => hname.no_slash (mem_of_mem_head? hhead)

theorem getLast?_joinNames (hne : names ≠ []) (h : ∀ name ∈ names, PlainName name) :
    (joinNames names).getLast? ≠ some 47 := by
  induction names with
  | nil => exact absurd rfl hne
  | cons name names ih =>
    cases names with
    | nil =>
      rw [joinNames_singleton]
      exact fun hlast => (h name mem_cons_self).no_slash (mem_of_getLast? hlast)
    | cons next names =>
      have hplain : ∀ n ∈ next :: names, PlainName n := fun n hn => h n (mem_cons_of_mem name hn)
      have hne' : joinNames (next :: names) ≠ [] := joinNames_ne_nil (cons_ne_nil _ _) hplain
      rw [joinNames_cons_cons, getLast?_append_of_ne_nil _ (cons_ne_nil _ _), getLast?_cons_of_ne_nil hne']
      exact ih (cons_ne_nil _ _) hplain

theorem clean_joinNames (hne : names ≠ []) (h : ∀ name ∈ names, PlainName name) :
    clean (joinNames names) = joinNames names := by
  unfold clean
  dsimp only
  rw [elements_joinNames hne h, foldl_cleanElement _ h, nil_append, if_neg hne,
    decide_eq_false (head?_joinNames hne h)]
  rfl

theorem pathJoin_of_plain (h : ∀ name ∈ names, PlainName name) : pathJoin names = joinNames names := by
  unfold pathJoin
  have hdrop : names.dropWhile (fun name => decide (name = [])) = names := by
    cases names with
    | nil => rfl
    | cons name names =>
      exact dropWhile_cons_of_neg (by simp [(h name mem_cons_self).ne_nil])
  dsimp only
  rw [hdrop]
  by_cases hnil : names = []
  · rw [if_pos hnil, hnil]
    rfl
  · rw [if_neg hnil, clean_joinNames hnil h]

theorem validUTF8_append_slash (s t : Bytes) : validUTF8 (s ++ 47 :: t) = (validUTF8 s && validUTF8 t) := by
  unfold validUTF8
  rw [decodings_append rfl, decodings_ascii_cons (by decide), all_append, all_cons]
  rfl

theorem validUTF8_joinNames (h : ∀ name ∈ names, validUTF8 name = true) :
    validUTF8 (joinNames names) = true := by
  induction names with
  | nil => rfl
  | cons name names ih =>
    cases names with
    | nil =>
      rw [joinNames_singleton]
      exact h name mem_cons_self
    | cons next names =>
      rw [joinNames_cons_cons, validUTF8_append_slash, h name mem_cons_self, Bool.true_and]
      exact ih fun n hn => h n (mem_cons_of_mem name hn)

theorem validPath_joinNames (hne : names ≠ []) (h : ∀ name ∈ names, PlainName name)
    (hvalid : ∀ name ∈ names, validUTF8 name = true) : validPath (joinNames names) = true := by
  have hall : (elements (joinNames names)).all
      (fun elem => elem ≠ [] && elem ≠ [46] && elem ≠ [46, 46]) = true := by
    rw [elements_joinNames hne h, all_eq_true]
    intro name hname
    obtain ⟨hnil, hdot, hdotdot, -⟩ := h name hname
    simp [hnil, hdot, hdotdot]
  unfold validPath
  rw [validUTF8_joinNames hvalid, hall, Bool.or_true, Bool.and_true]

theorem plainName_of_validPath {path name : Bytes} (h : validPath path = true) (hdot : path ≠ [46])
    (hname : name ∈ elements path) : PlainName name := by
  unfold validPath at h
  rw [decide_eq_false hdot, Bool.false_or, Bool.and_eq_true, all_eq_true] at h
  have helem := h.2 name hname
  simp only [ne_eq, decide_not, Bool.and_eq_true, Bool.not_eq_true', decide_eq_false_iff_not] at helem
  exact ⟨helem.1.1, helem.1.2, helem.2, not_mem_of_mem_splitOn hname⟩

end TorrServer.Lib
