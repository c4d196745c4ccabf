/-
# Torrfs.Reach — which files can be reached through the tree.

A file of a torrent should be found under its category, the name of its torrent and its display path. It is,
unless another node stands there: an earlier torrent of the same name in the category, a file whose display path
is a directory of this one, or a later file with the same display path (`reachable_iff`).
-/
import TorrServer.Torrfs.Tree
import Mathlib.Data.List.TakeWhile

namespace TorrServer.Torrfs

open Lib List

variable {names l way : List Bytes} {j : Nat} {d n : Node} {t : Torrent} {name f p : Bytes}

/-! ## Looking a name up in a listing -/

/-- In the listing of a map a name is found in whatever order it comes. -/
theorem find?_values {order : List Node → List Node} (horder : ∀ l, (order l).Perm l) {nodes : Nodes}
    (hnames : ∀ name n, nodes.lookup name = some n → n.name = name) (name : Bytes) :
    (order (values nodes)).find? (fun n => n.name = name) = nodes.lookup name := by
  have hmem : ∀ n, n ∈ order (values nodes) ↔ nodes.lookup n.name = some n := by
    intro n
    rw [(horder _).mem_iff]
    constructor
    · intro hn
      obtain ⟨⟨k, n'⟩, he, rfl⟩ := mem_map.1 hn
      have hlookup : nodes.lookup k = some n' := AList.mem_lookup_iff.2 he
      rwa [hnames k n' hlookup]
    · intro hlookup
      exact mem_map.2 ⟨⟨n.name, n⟩, AList.mem_lookup_iff.1 hlookup, rfl⟩
  cases hfind : (order (values nodes)).find? fun n => n.name = name with
  | some n =>
    have hname : n.name = name := name_of_find? hfind
    rw [← hname]
    exact ((hmem n).1 (mem_of_find?_eq_some hfind)).symm
  | none =>
    cases hlookup : nodes.lookup name with
    | none => rfl
    | some n =>
      have hname := hnames name n hlookup
      have hn : n ∈ order (values nodes) := (hmem n).2 (hname.symm ▸ hlookup)
      exact absurd (decide_eq_true hname) (find?_eq_none.1 hfind n hn)

/-- The root has a directory for each category. -/
theorem lookup_categories (torrs : List Torrent) (name : Bytes) (n : Node) :
    (torrs.foldl addCategory ∅).lookup name = some n ↔
      n = .category name ∧ ∃ t ∈ torrs, categoryName t.category = name := by
  induction torrs using List.reverseRecOn generalizing n with
  | nil => simp
  | append_singleton torrs t ih =>
    rw [foldl_append, foldl_cons, foldl_nil]
    have hlist : (∃ t' ∈ torrs ++ [t], categoryName t'.category = name) ↔
        (∃ t' ∈ torrs, categoryName t'.category = name) ∨ categoryName t.category = name := by
      simp [or_and_right, exists_or]
    rw [hlist]
    generalize torrs.foldl addCategory ∅ = nodes at ih ⊢
    unfold addCategory
    dsimp only
    by_cases hname : categoryName t.category = name
    · subst hname
      by_cases hmem : categoryName t.category ∈ nodes
      · obtain ⟨m, hm⟩ := Option.isSome_iff_exists.1 (AList.lookup_isSome.2 hmem)
        obtain ⟨-, hsome⟩ := (ih m).1 hm
        rw [if_pos hmem, ih]
        exact and_congr_right fun _ => iff_of_true hsome (Or.inr rfl)
      · rw [if_neg hmem, AList.lookup_insert, newCategoryDir, categoryName_categoryName]
        simp [eq_comm]
    · by_cases hmem : categoryName t.category ∈ nodes
      · simp [hmem, ih, hname]
      · rw [if_neg hmem, AList.lookup_insert_ne (Ne.symm hname), ih]
        simp [hname]

/-! ## The listing of a directory in a torrent -/

/-- The first element of a path, and whether there are more. -/
theorem elements_eq_cons (path : Bytes) :
    ∃ more, elements path = path.takeWhile (· != 47) :: more ∧ (path.contains 47 = false ↔ more = []) := by
  by_cases hmem : (47 : UInt8) ∈ path
  · obtain ⟨first, rest, rfl, hfirst⟩ := eq_append_cons_of_mem hmem
    have hall : ∀ b ∈ first, (b != 47) = true := fun b hb => bne_iff_ne.2 fun heq => hfirst (heq ▸ hb)
    refine ⟨elements rest, ?_, ?_⟩
    · unfold elements
      rw [splitOn_append_cons_self, splitOn_eq_singleton hfirst, takeWhile_append_of_pos hall]
      simp
    · exact iff_of_false (by simp) (splitOn_ne_nil _ rest)
  · have hall : ∀ b ∈ path, (b != 47) = true := fun b hb => bne_iff_ne.2 fun heq => hmem (heq ▸ hb)
    refine ⟨[], ?_, iff_of_true (by simpa using hmem) rfl⟩
    unfold elements
    rw [splitOn_eq_singleton hmem, takeWhile_eq_self_iff.2 hall]

/-- What is relative to a directory is what is behind its names. -/
theorem relPath_eq_some_iff (h : ∀ name ∈ names, PlainName name) (dp rel : Bytes) :
    relPath (joinNames names) dp = some rel ↔ elements dp = names ++ elements rel := by
  unfold relPath
  by_cases hnil : names = []
  · subst hnil
    have htop : joinNames [] = [] := rfl
    rw [htop, if_pos rfl, nil_append]
    constructor
    · intro heq
      rw [Option.some.inj heq]
    · intro heq
      rw [splitOn_injective heq]
  · rw [if_neg (joinNames_ne_nil hnil h)]
    have helements : ∀ r, elements (joinNames names ++ 47 :: r) = names ++ elements r := by
      intro r
      have hsplit : elements (joinNames names ++ 47 :: r) = elements (joinNames names) ++ elements r :=
        splitOn_append_cons_self _ r
      rw [hsplit, elements_joinNames hnil h]
    constructor
    · intro hsome
      split at hsome
      · rename_i hfront
        obtain ⟨r, rfl⟩ := isPrefixOf_iff_prefix.1 hfront
        have hlength : (joinNames names ++ [47]).length = (joinNames names).length + 1 := length_append
        rw [drop_left' hlength] at hsome
        cases hsome
        rw [append_assoc]
        exact helements rel
      · cases hsome
    · intro hdp
      rw [← helements rel] at hdp
      rw [splitOn_injective hdp]
      have hsplit : joinNames names ++ 47 :: rel = (joinNames names ++ [47]) ++ rel := by rw [append_assoc]; rfl
      have hlength : (joinNames names ++ [47]).length = (joinNames names).length + 1 := length_append
      have hfront : (joinNames names ++ [47]).isPrefixOf (joinNames names ++ [47] ++ rel) = true :=
        isPrefixOf_iff_prefix.2 (prefix_append _ _)
      rw [hsplit, if_pos hfront, drop_left' hlength]

/-- A directory shows a path under the name behind its own names. -/
theorem relEntry_eq_some_iff {names : List Bytes} (h : ∀ name ∈ names, PlainName name) (dp name : Bytes)
    (leaf : Bool) :
    relEntry (joinNames names) dp = some (name, leaf) ↔
      ∃ more, elements dp = names ++ name :: more ∧ name ≠ [] ∧ leaf = more.isEmpty := by
  unfold relEntry
  cases hrel : relPath (joinNames names) dp with
  | none =>
    refine iff_of_false (by simp) ?_
    rintro ⟨more, hdp, -, -⟩
    -- the path behind the names would be relative to the directory
    have hrest : elements (joinNames (name :: more)) = name :: more := by
      refine splitOn_intercalate 47 (fun piece hpiece => ?_) (cons_ne_nil _ _)
      have hmem : piece ∈ elements dp := hdp ▸ mem_append_right _ hpiece
      exact not_mem_of_mem_splitOn hmem
    rw [← hrest, ← relPath_eq_some_iff h, hrel] at hdp
    cases hdp
  | some rel =>
    obtain ⟨more, helements, hmore⟩ := elements_eq_cons rel
    rw [(relPath_eq_some_iff h dp rel).1 hrel, helements]
    have hempty : rel = [] → rel.takeWhile (· != 47) = [] := by
      rintro rfl
      rfl
    have hleaf : (!rel.contains 47) = more.isEmpty := by
      rw [Bool.eq_iff_iff, Bool.not_eq_true', hmore, List.isEmpty_iff]
    dsimp only
    rw [hleaf]
    generalize rel.takeWhile (· != 47) = first at hempty ⊢
    by_cases hfirst : first = []
    · have hskip : (if rel = [] then none else if first = [] then none else some (first, more.isEmpty)) =
          (none : Option (Bytes × Bool)) := by simp [hfirst]
      rw [hskip]
      refine iff_of_false (by simp) ?_
      rintro ⟨more', heq, hne, -⟩
      rw [hfirst] at heq
      exact hne (List.cons.inj (append_cancel_left heq)).1.symm
    · rw [if_neg fun hrel => hfirst (hempty hrel), if_neg hfirst]
      constructor
      · intro heq
        cases heq
        exact ⟨more, rfl, hfirst, rfl⟩
      · rintro ⟨more', heq, -, rfl⟩
        obtain ⟨rfl, rfl⟩ := List.cons.inj (append_cancel_left heq)
        rfl

/-- The last place in a list with a property. -/
def LastAt (l : List Bytes) (q : Bytes → Prop) (j : Nat) : Prop :=
  ∃ x, l[j]? = some x ∧ q x ∧ ∀ k y, j < k → l[k]? = some y → ¬ q y

theorem LastAt.unique {q : Bytes → Prop} {i : Nat} (hi : LastAt l q i) (hj : LastAt l q j) : i = j := by
  obtain ⟨x, hx, hqx, hlasti⟩ := hi
  obtain ⟨y, hy, hqy, hlastj⟩ := hj
  rcases Nat.lt_trichotomy i j with h | h | h
  · exact absurd hqy (hlasti j y h hy)
  · exact h
  · exact absurd hqx (hlastj i x h hx)

theorem lastAt_concat {x : Bytes} {q : Bytes → Prop} :
    LastAt (l ++ [x]) q j ↔ q x ∧ j = l.length ∨ ¬ q x ∧ LastAt l q j := by
  have hget : (l ++ [x])[l.length]? = some x := getElem?_concat_length
  constructor
  · rintro ⟨y, hy, hqy, hlast⟩
    by_cases hx : q x
    · left
      refine ⟨hx, ?_⟩
      rcases Nat.lt_trichotomy j l.length with h | h | h
      · exact absurd hx (hlast _ x h hget)
      · exact h
      · rw [getElem?_eq_none (by simp; omega)] at hy
        cases hy
    · right
      have hj : j < l.length := by
        by_contra hge
        rcases Nat.lt_or_eq_of_le (Nat.not_lt.1 hge) with h | h
        · rw [getElem?_eq_none (by simp; omega)] at hy
          cases hy
        · rw [← h, hget] at hy
          cases hy
          exact hx hqy
      rw [getElem?_append_left hj] at hy
      refine ⟨hx, y, hy, hqy, fun k z hk hz => hlast k z hk ?_⟩
      have hk : k < l.length := (List.getElem?_eq_some_iff.1 hz).1
      rwa [getElem?_append_left hk]
  · rintro (⟨hx, rfl⟩ | ⟨hx, y, hy, hqy, hlast⟩)
    · refine ⟨x, hget, hx, fun k z hk hz => ?_⟩
      rw [getElem?_eq_none (by simp; omega)] at hz
      cases hz
    · have hj : j < l.length := (List.getElem?_eq_some_iff.1 hy).1
      refine ⟨y, by rwa [getElem?_append_left hj], hqy, fun k z hk hz => ?_⟩
      by_cases hkl : k < l.length
      · rw [getElem?_append_left hkl] at hz
        exact hlast k z hk hz
      · rcases Nat.lt_or_eq_of_le (Nat.not_lt.1 hkl) with h | h
        · rw [getElem?_eq_none (by simp; omega)] at hz
          cases hz
        · rw [← h, hget] at hz
          cases hz
          exact hx

theorem lastAt_of_mem {l : List Bytes} {q : Bytes → Prop} {x : Bytes} (hx : x ∈ l) (hq : q x) :
    ∃ j, LastAt l q j := by
  induction l using List.reverseRecOn with
  | nil => cases hx
  | append_singleton l y ih =>
    by_cases hy : q y
    · exact ⟨l.length, lastAt_concat.2 (Or.inl ⟨hy, rfl⟩)⟩
    · rcases mem_append.1 hx with hx | hx
      · obtain ⟨j, hj⟩ := ih hx
        exact ⟨j, lastAt_concat.2 (Or.inr ⟨hy, hj⟩)⟩
      · rw [mem_singleton.1 hx] at hq
        exact absurd hq hy

/-- A display path shown under another name changes nothing under this one. -/
theorem lookup_addFile_of_ne {nodes : Nodes} {dp : Bytes}
    (hfile : relEntry d.getTorrPath dp ≠ some (name, true))
    (hdir : relEntry d.getTorrPath dp ≠ some (name, false)) :
    (addFile d t nodes (dp, j)).lookup name = nodes.lookup name := by
  unfold addFile
  dsimp only
  cases hentry : relEntry d.getTorrPath dp with
  | none => rfl
  | some entry =>
    obtain ⟨first, leaf⟩ := entry
    have hne : name ≠ first := by
      rintro rfl
      cases leaf with
      | true => exact hfile hentry
      | false => exact hdir hentry
    cases leaf with
    | true => exact AList.lookup_insert_ne hne
    | false =>
      dsimp only
      split
      · rfl
      · exact AList.lookup_insert_ne hne

/-- **What a directory of a torrent has under a name**: the last file shown under it, or else a directory. -/
theorem lookup_torrentNodes (d : Node) (t : Torrent) (name : Bytes) (n : Node) :
    (torrentNodes d t).lookup name = some n ↔
      (∃ j, LastAt t.files (fun dp => relEntry d.getTorrPath dp = some (name, true)) j ∧ n = .file d name t j) ∨
      (∀ dp ∈ t.files, relEntry d.getTorrPath dp ≠ some (name, true)) ∧
        (∃ dp ∈ t.files, relEntry d.getTorrPath dp = some (name, false)) ∧ n = .dir d name t := by
  unfold torrentNodes
  generalize t.files = files
  induction files using List.reverseRecOn generalizing n with
  | nil => simp [LastAt]
  | append_singleton files dp ih =>
    have hzip : (files ++ [dp]).zipIdx = files.zipIdx ++ [(dp, files.length)] := by
      rw [zipIdx_append]
      simp
    have hnone : (∀ x ∈ files ++ [dp], relEntry d.getTorrPath x ≠ some (name, true)) ↔
        (∀ x ∈ files, relEntry d.getTorrPath x ≠ some (name, true)) ∧
          relEntry d.getTorrPath dp ≠ some (name, true) := by
      rw [forall_mem_append, forall_mem_singleton]
    have hsome : (∃ x ∈ files ++ [dp], relEntry d.getTorrPath x = some (name, false)) ↔
        (∃ x ∈ files, relEntry d.getTorrPath x = some (name, false)) ∨
          relEntry d.getTorrPath dp = some (name, false) := by
      simp [or_and_right, exists_or]
    rw [hzip, foldl_append, foldl_cons, foldl_nil, hnone, hsome]
    simp only [lastAt_concat]
    generalize files.zipIdx.foldl (addFile d t) ∅ = nodes at ih ⊢
    by_cases hfile : relEntry d.getTorrPath dp = some (name, true)
    · -- the file takes the name
      have hadd : addFile d t nodes (dp, files.length) = nodes.insert name (.file d name t files.length) := by
        unfold addFile
        rw [hfile]
      rw [hadd, AList.lookup_insert]
      simp only [hfile, true_and, not_true_eq_false, false_and, or_false, exists_eq_left, ne_eq, and_false]
      exact ⟨fun h => (Option.some.inj h).symm, fun h => h ▸ rfl⟩
    · by_cases hdir : relEntry d.getTorrPath dp = some (name, false)
      · have hadd : addFile d t nodes (dp, files.length) =
            if name ∈ nodes then nodes else nodes.insert name (.dir d name t) := by
          unfold addFile
          rw [hdir]
        have hno : some (name, false) ≠ some (name, true) := by simp
        rw [hadd]
        simp only [hdir, hno, false_and, not_false_eq_true, true_and, false_or, ne_eq, and_true, or_true]
        by_cases hmem : name ∈ nodes
        · -- a file or a directory already has it
          rw [if_pos hmem, ih]
          obtain ⟨m, hm⟩ := Option.isSome_iff_exists.1 (AList.lookup_isSome.2 hmem)
          rcases (ih m).1 hm with ⟨j, hj, -⟩ | ⟨hnot, hany, -⟩
          · obtain ⟨x, hx, hqx, -⟩ := hj
            have hyes : ¬ ∀ y ∈ files, ¬ relEntry d.getTorrPath y = some (name, true) :=
              fun hall => hall x (mem_of_getElem? hx) hqx
            simp only [ne_eq, hyes, false_and]
          · simp only [ne_eq, hany, true_and]
        · rw [if_neg hmem, AList.lookup_insert]
          have hfree : ∀ m, ¬ nodes.lookup name = some m := by
            intro m hm
            rw [AList.lookup_eq_none.2 hmem] at hm
            cases hm
          have hnot : ∀ y ∈ files, ¬ relEntry d.getTorrPath y = some (name, true) := by
            intro y hy hq
            obtain ⟨j, hj⟩ :=
              @lastAt_of_mem files (fun dp => relEntry d.getTorrPath dp = some (name, true)) y hy hq
            exact hfree _ ((ih _).2 (Or.inl ⟨j, hj, rfl⟩))
          have hnolast : ∀ j, ¬ LastAt files (fun dp => relEntry d.getTorrPath dp = some (name, true)) j := by
            rintro j ⟨x, hx, hqx, -⟩
            exact hnot x (mem_of_getElem? hx) hqx
          simp only [hnolast, false_and, exists_false, false_or]
          exact ⟨fun h => ⟨hnot, (Option.some.inj h).symm⟩, fun h => h.2 ▸ rfl⟩
      · rw [lookup_addFile_of_ne hfile hdir, ih]
        simp only [hfile, hdir, false_and, not_false_eq_true, true_and, false_or, ne_eq, and_true, or_false]

/-! ## Walking in a torrent -/

/-- The node is the directory of `t` at these names. -/
structure DirAt (d : Node) (t : Torrent) (names : List Bytes) : Prop where
  isFile : d.isFile = false
  torr : d.torr = some t
  parts : ∃ top, d.parts = top :: names
  read : ∀ order torrs, readDir order torrs d = order (values (torrentNodes d t))

theorem dirAt_torrent (name : Bytes) (t : Torrent) : DirAt (.torrent name t) t [] :=
  ⟨rfl, rfl, ⟨name, rfl⟩, fun _ _ => rfl⟩

theorem DirAt.dir (h : DirAt d t names) (name : Bytes) : DirAt (.dir d name t) t (names ++ [name]) := by
  refine ⟨rfl, rfl, ?_, fun _ _ => rfl⟩
  obtain ⟨top, hparts⟩ := h.parts
  refine ⟨top, ?_⟩
  show (if d.torr.isNone then d.parts else d.parts ++ [name]) = _
  rw [h.torr, hparts]
  rfl

theorem DirAt.getTorrPath (h : DirAt d t names) (hplain : ∀ n ∈ names, PlainName n) :
    d.getTorrPath = joinNames names := by
  obtain ⟨top, hparts⟩ := h.parts
  unfold Node.getTorrPath
  rw [hparts]
  exact pathJoin_of_plain hplain

section

variable {order : List Node → List Node} {torrs : List Torrent}

/-- The file or the directory under a plain name, by the elements of the display paths. -/
theorem DirAt.find?_eq_some_iff (horder : ∀ l, (order l).Perm l) (h : DirAt d t names)
    (hplain : ∀ n ∈ names ++ [name], PlainName n) (n : Node) :
    (readDir order torrs d).find? (fun dir => dir.name = name) = some n ↔
      (∃ j, LastAt t.files (fun dp => elements dp = names ++ [name]) j ∧ n = .file d name t j) ∨
      (∀ dp ∈ t.files, elements dp ≠ names ++ [name]) ∧
        (∃ dp ∈ t.files, ∃ more, more ≠ [] ∧ elements dp = names ++ name :: more) ∧ n = .dir d name t := by
  have hpath := h.getTorrPath fun n hn => hplain n (mem_append_left _ hn)
  have hentry := @relEntry_eq_some_iff names fun n hn => hplain n (mem_append_left _ hn)
  have hne : name ≠ [] := (hplain name (mem_append_right _ mem_cons_self)).ne_nil
  have hfile : ∀ dp, relEntry d.getTorrPath dp = some (name, true) ↔ elements dp = names ++ [name] := by
    intro dp
    rw [hpath, hentry]
    constructor
    · rintro ⟨more, hdp, -, hleaf⟩
      rw [hdp, isEmpty_iff.1 hleaf.symm]
    · intro hdp
      exact ⟨[], hdp, hne, rfl⟩
  have hdir : ∀ dp, relEntry d.getTorrPath dp = some (name, false) ↔
      ∃ more, more ≠ [] ∧ elements dp = names ++ name :: more := by
    intro dp
    rw [hpath, hentry]
    constructor
    · rintro ⟨more, hdp, -, hleaf⟩
      exact ⟨more, isEmpty_eq_false_iff.1 hleaf.symm, hdp⟩
    · rintro ⟨more, hmore, hdp⟩
      exact ⟨more, hdp, hne, (isEmpty_eq_false_iff.2 hmore).symm⟩
  have hnames : ∀ name n, (torrentNodes d t).lookup name = some n → n.name = name := by
    intro name n hn
    rcases (lookup_torrentNodes d t name n).1 hn with ⟨j, -, rfl⟩ | ⟨-, -, rfl⟩
    · rfl
    · rfl
  rw [h.read, find?_values horder hnames, lookup_torrentNodes]
  simp only [hfile, hdir, ne_eq]

theorem walk_cons (h : d.isFile = false) (name : Bytes) (names : List Bytes) :
    walk order torrs (name :: names) d =
      ((readDir order torrs d).find? fun dir => dir.name = name).bind (walk order torrs names) := by
  rw [walk, h]
  rfl

theorem walk_file (names : List Bytes) (d : Node) (name : Bytes) (t : Torrent) (j : Nat) :
    walk order torrs names (.file d name t j) = some (.file d name t j) := by
  cases names with
  | nil => rfl
  | cons first names => exact if_pos rfl

/-- **A walk in a torrent opens a file** if it is the last one at a point on the way, with none before. -/
theorem DirAt.walk_opens_iff (horder : ∀ l, (order l).Perm l) (h : DirAt d t names)
    (hplain : ∀ n ∈ names ++ way, PlainName n) (t' : Torrent) (j : Nat) :
    (∃ n, walk order torrs way d = some n ∧ n.Opens t' j) ↔
      t = t' ∧ ∃ k, 0 < k ∧ k ≤ way.length ∧ LastAt t.files (fun dp => elements dp = names ++ way.take k) j ∧
        ∀ i, 0 < i → i < k → ∀ dp ∈ t.files, elements dp ≠ names ++ way.take i := by
  induction way generalizing d names with
  | nil =>
    refine iff_of_false ?_ ?_
    · rintro ⟨n, hn, hopens⟩
      cases hn
      cases d with
      | file => cases h.isFile
      | _ => exact hopens
    · rintro ⟨-, k, hpos, hle, -⟩
      exact absurd hle (by simp; omega)
  | cons name way ih =>
    have hplain' : ∀ n ∈ names ++ [name], PlainName n := by
      intro n hn
      apply hplain
      rcases mem_append.1 hn with hn | hn
      · exact mem_append_left _ hn
      · exact mem_append_right _ (mem_singleton.1 hn ▸ mem_cons_self)
    have hfind : ∀ n, (readDir order torrs d).find? (fun dir => dir.name = name) = some n ↔ _ :=
      h.find?_eq_some_iff horder hplain'
    have htake : ∀ i, names ++ (name :: way).take (i + 1) = names ++ [name] ++ way.take i := by
      intro i
      rw [take_succ_cons, append_assoc, singleton_append]
    rw [walk_cons h.isFile]
    cases hchild : (readDir order torrs d).find? fun dir => dir.name = name with
    | none =>
      -- nothing is shown under the name, so nothing is on the way
      refine iff_of_false (by simp) ?_
      rintro ⟨-, k, hpos, -, ⟨f, hf, helements, -⟩, -⟩
      have hmem := mem_of_getElem? hf
      obtain ⟨i, rfl⟩ : ∃ i, k = i + 1 := ⟨k - 1, by omega⟩
      have hnone : ∀ n, ¬ (readDir order torrs d).find? (fun dir => dir.name = name) = some n := by
        rw [hchild]
        exact fun n hn => (nomatch hn)
      have hnot : ∀ dp ∈ t.files, elements dp ≠ names ++ [name] := by
        intro dp hdp heq
        obtain ⟨l, hl⟩ := @lastAt_of_mem t.files (fun dp => elements dp = names ++ [name]) dp hdp heq
        exact hnone _ ((hfind _).2 (Or.inl ⟨l, hl, rfl⟩))
      apply hnone (.dir d name t)
      refine (hfind _).2 (Or.inr ⟨hnot, ⟨f, hmem, way.take i, ?_, ?_⟩, rfl⟩)
      · intro hnil
        rw [htake, hnil, append_nil] at helements
        exact hnot f hmem helements
      · rw [helements, take_succ_cons]
    | some child =>
      rw [Option.bind_some]
      rcases (hfind child).1 hchild with ⟨l, hl, rfl⟩ | ⟨hnot, -, rfl⟩
      · -- the file is the only one that the walk can open
        rw [walk_file]
        constructor
        · rintro ⟨n, hn, hopens⟩
          cases hn
          obtain ⟨rfl, rfl⟩ := hopens
          exact ⟨rfl, 1, Nat.one_pos, by simp, hl, fun i hpos hlt => by omega⟩
        · rintro ⟨rfl, k, hpos, -, hlast, hbefore⟩
          refine ⟨_, rfl, rfl, ?_⟩
          by_cases hk : k = 1
          · subst hk
            exact hl.unique hlast
          · obtain ⟨f, hf, helements, -⟩ := hl
            exact absurd helements (hbefore 1 Nat.one_pos (by omega) f (mem_of_getElem? hf))
      · rw [ih (h.dir name) (by rwa [append_assoc, singleton_append])]
        apply and_congr_right
        intro _
        constructor
        · rintro ⟨k, hpos, hle, hlast, hbefore⟩
          refine ⟨k + 1, Nat.succ_pos k, Nat.succ_le_succ hle, ?_, fun i hi hlt => ?_⟩
          · simp only [htake]
            exact hlast
          · obtain ⟨i, rfl⟩ : ∃ m, i = m + 1 := ⟨i - 1, by omega⟩
            rw [htake]
            by_cases hzero : i = 0
            · rw [hzero, take_zero, append_nil]
              exact hnot
            · exact hbefore i (Nat.pos_of_ne_zero hzero) (by omega)
        · rintro ⟨k, hpos, hle, hlast, hbefore⟩
          obtain ⟨k, rfl⟩ : ∃ m, k = m + 1 := ⟨k - 1, by omega⟩
          simp only [htake] at hlast
          have hk : k ≠ 0 := by
            rintro rfl
            obtain ⟨f, hf, helements, -⟩ := hlast
            rw [take_zero, append_nil] at helements
            exact hnot f (mem_of_getElem? hf) helements
          refine ⟨k, Nat.pos_of_ne_zero hk, Nat.le_of_succ_le_succ hle, hlast, fun i hi hlt => ?_⟩
          have hnone := hbefore (i + 1) (Nat.succ_pos i) (by omega)
          rwa [htake] at hnone

theorem listed_cons {child : Node}
    (hfind : (readDir order torrs d).find? (fun dir => dir.name = name) = some child)
    (h : Listed order torrs child names) : Listed order torrs d (name :: names) := by
  rw [← name_of_find? hfind]
  exact Listed.cons (mem_of_find?_eq_some hfind) h

/-- The names of a display path are listed one after the other if no file is on the way. -/
theorem DirAt.listed (horder : ∀ l, (order l).Perm l) (h : DirAt d t names)
    (hplain : ∀ n ∈ names ++ way, PlainName n) (hf : f ∈ t.files) (helements : elements f = names ++ way)
    (hbefore : ∀ i, 0 < i → i < way.length → ∀ dp ∈ t.files, elements dp ≠ names ++ way.take i) :
    Listed order torrs d way := by
  induction way generalizing d names with
  | nil => exact Listed.nil d
  | cons name way ih =>
    have hplain' : ∀ n ∈ names ++ [name], PlainName n := by
      intro n hn
      apply hplain
      rcases mem_append.1 hn with hn | hn
      · exact mem_append_left _ hn
      · exact mem_append_right _ (mem_singleton.1 hn ▸ mem_cons_self)
    have hfind : ∀ n, (readDir order torrs d).find? (fun dir => dir.name = name) = some n ↔ _ :=
      h.find?_eq_some_iff horder hplain'
    by_cases hlast : way = []
    · subst hlast
      obtain ⟨j, hj⟩ := @lastAt_of_mem t.files (fun dp => elements dp = names ++ [name]) f hf helements
      exact listed_cons ((hfind _).2 (Or.inl ⟨j, hj, rfl⟩)) (Listed.nil _)
    · have hlength : 0 < way.length := length_pos_of_ne_nil hlast
      have hnot : ∀ dp ∈ t.files, elements dp ≠ names ++ [name] :=
        hbefore 1 Nat.one_pos (by rw [length_cons]; omega)
      have hdir := (hfind (.dir d name t)).2 (Or.inr ⟨hnot, ⟨f, hf, way, hlast, helements⟩, rfl⟩)
      apply listed_cons hdir
      apply ih (h.dir name)
      · rwa [append_assoc, singleton_append]
      · rw [helements, append_assoc, singleton_append]
      · intro i hi hlt dp hdp
        have hnone := hbefore (i + 1) (Nat.succ_pos i) (by rw [length_cons]; omega) dp hdp
        rwa [take_succ_cons, ← singleton_append, ← append_assoc] at hnone

/-! ## From the root -/

theorem find?_root (horder : ∀ l, (order l).Perm l) (name : Bytes) (n : Node) :
    (readDir order torrs .root).find? (fun dir => dir.name = name) = some n ↔
      n = .category name ∧ ∃ t ∈ torrs, categoryName t.category = name := by
  have hnames : ∀ name n, (torrs.foldl addCategory ∅).lookup name = some n → n.name = name := by
    intro name n hn
    obtain ⟨rfl, -⟩ := (lookup_categories torrs name n).1 hn
    rfl
  rw [← lookup_categories, ← find?_values horder hnames]
  rfl

/-- A category shows the first torrent of a name. -/
theorem find?_category (category name : Bytes) :
    (readDir order torrs (.category category)).find? (fun dir => dir.name = name) =
      (torrs.find? fun t => categoryName t.category = category ∧ torrentName t = name).map fun t =>
      .torrent name t := by
  have hlist : (readDir order torrs (.category category)).find? (fun dir => dir.name = name) =
      (torrs.find? fun t => categoryName t.category = category ∧ torrentName t = name).map
        fun t => .torrent (torrentName t) t := by
    rw [readDir, find?_map, find?_filter]
    congr 2
    funext t
    simp only [Bool.decide_eq_true, Bool.decide_and]
    rfl
  rw [hlist]
  cases hfind : torrs.find? fun t => categoryName t.category = category ∧ torrentName t = name with
  | none => rfl
  | some t =>
    have hnames := find?_some hfind
    rw [Option.map_some, Option.map_some, (of_decide_eq_true hnames).2]

/-- A walk that opens a file goes through a category and the first torrent of its name in it. -/
theorem walk_root_opens_iff (horder : ∀ l, (order l).Perm l) (names : List Bytes) (t : Torrent) (j : Nat) :
    (∃ n, walk order torrs names .root = some n ∧ n.Opens t j) ↔
      ∃ category name way, names = category :: name :: way ∧
        ∃ t', torrs.find? (fun t' => categoryName t'.category = category ∧ torrentName t' = name) = some t' ∧
          ∃ n, walk order torrs way (.torrent name t') = some n ∧ n.Opens t j := by
  constructor
  · rintro ⟨n, hwalk, hopens⟩
    cases names with
    | nil =>
      cases hwalk
      cases hopens
    | cons category names =>
      rw [walk_cons rfl] at hwalk
      obtain ⟨child, hchild, hwalk⟩ := Option.bind_eq_some_iff.1 hwalk
      obtain ⟨rfl, -⟩ := (find?_root horder category child).1 hchild
      cases names with
      | nil =>
        cases hwalk
        cases hopens
      | cons name way =>
        rw [walk_cons rfl, find?_category] at hwalk
        obtain ⟨child, hchild, hwalk⟩ := Option.bind_eq_some_iff.1 hwalk
        obtain ⟨t', ht', rfl⟩ := Option.map_eq_some_iff.1 hchild
        exact ⟨category, name, way, rfl, t', ht', n, hwalk, hopens⟩
  · rintro ⟨category, name, way, rfl, t', ht', n, hwalk, hopens⟩
    refine ⟨n, ?_, hopens⟩
    have hnames := find?_some ht'
    have hcategory : categoryName t'.category = category := (of_decide_eq_true hnames).1
    have hroot : (readDir order torrs .root).find? (fun dir => dir.name = category)
        = some (.category category) :=
      (find?_root horder category _).2 ⟨rfl, t', mem_of_find?_eq_some ht', hcategory⟩
    rw [walk_cons rfl, hroot, Option.bind_some, walk_cons rfl, find?_category, ht']
    exact hwalk

end

/-- The file is opened by a path that consists of listed names. -/
def Reachable (order : List Node → List Node) (torrs : List Torrent) (t : Torrent) (j : Nat) : Prop :=
  ∃ names, Listed order torrs .root names ∧ ∃ n, openRoot order torrs (joinNames names) = some n ∧ n.Opens t j

section

variable {order : List Node → List Node} {torrs : List Torrent}

/-- What opens a file is a walk along plain names. -/
theorem walk_of_openRoot (h : openRoot order torrs p = some n) (hopens : n.Opens t j) :
    (∀ name ∈ elements (clean p), PlainName name) ∧ walk order torrs (elements (clean p)) .root = some n := by
  have hvalid : validPath (clean p) = true := by
    by_contra hinvalid
    unfold openRoot at h
    rw [if_pos (Bool.eq_false_iff.2 hinvalid)] at h
    cases h
  have hdot : clean p ≠ [46] := by
    intro hdot
    unfold openRoot at h
    rw [if_neg (by rw [hvalid]; decide), if_pos (Or.inl hdot)] at h
    cases h
    cases hopens
  rw [openRoot_eq_walk hvalid hdot] at h
  exact ⟨fun name hname => plainName_of_validPath hvalid hdot hname, h⟩

/-- A file that a path opens stands first under its names, below no file and behind no other. -/
theorem conditions_of_opens (horder : ∀ l, (order l).Perm l) (hf : t.files[j]? = some f)
    (h : openRoot order torrs p = some n) (hopens : n.Opens t j) :
    torrs.find? (fun t' => categoryName t'.category = categoryName t.category ∧
      torrentName t' = torrentName t) = some t ∧
      (∀ g ∈ t.files, ¬ (elements g <+: elements f ∧ elements g ≠ elements f)) ∧
      ∀ k, j < k → t.files[k]? ≠ some f := by
  obtain ⟨hplain, hwalk⟩ := walk_of_openRoot h hopens
  obtain ⟨category, name, way, hnames, t', ht', hopened⟩ :=
    (walk_root_opens_iff horder _ t j).1 ⟨n, hwalk, hopens⟩
  have hway : ∀ m ∈ [] ++ way, PlainName m := by
    intro m hm
    apply hplain
    rw [hnames]
    exact mem_cons_of_mem _ (mem_cons_of_mem _ hm)
  obtain ⟨rfl, k, hpos, hle, ⟨f', hf', helements, hlast⟩, hbefore⟩ :=
    ((dirAt_torrent name t').walk_opens_iff horder hway t j).1 hopened
  rw [hf] at hf'
  cases hf'
  rw [nil_append] at helements
  have hnames := find?_some ht'
  obtain ⟨rfl, rfl⟩ := of_decide_eq_true hnames
  refine ⟨ht', ?_, ?_⟩
  · rintro g hg ⟨hfront, hne⟩
    -- the elements of `g` are the first few of the way
    have htake := prefix_iff_eq_take.1 hfront
    have hlength : (elements g).length < k := by
      have hlt : (elements g).length < (elements f).length := by
        rcases Nat.lt_or_eq_of_le hfront.length_le with hlt | heq
        · exact hlt
        · exact absurd (hfront.eq_of_length heq) hne
      rw [helements, length_take] at hlt
      omega
    have hpos' : 0 < (elements g).length := length_pos_of_ne_nil (splitOn_ne_nil _ g)
    apply hbefore (elements g).length hpos' hlength g hg
    rw [nil_append]
    rw [helements, take_take, Nat.min_eq_left (Nat.le_of_lt hlength)] at htake
    exact htake
  · intro l hl hget
    exact hlast l f hl hget (by rw [nil_append]; exact helements)

/-- **Which files are reachable**: exactly those of the first torrent of its name in its category with no file
at the path of a directory above and no later file at their path. And no path opens two files. -/
theorem reachable_iff (horder : ∀ l, (order l).Perm l) {t : Torrent} {j : Nat} {f : Bytes}
    (ht : t ∈ torrs) (hf : t.files[j]? = some f)
    (hnames : ∀ name ∈ elements f, name ≠ [] ∧ name ≠ [46] ∧ name ≠ [46, 46] ∧ validUTF8 name = true) :
    (Reachable order torrs t j ↔
      torrs.find? (fun t' => categoryName t'.category = categoryName t.category ∧
        torrentName t' = torrentName t)
        = some t ∧
      (∀ g ∈ t.files, ¬ (elements g <+: elements f ∧ elements g ≠ elements f)) ∧
      ∀ k, j < k → t.files[k]? ≠ some f) ∧
    ∀ p n t' j', openRoot order torrs p = some n → n.Opens t j → n.Opens t' j' → t' = t ∧ j' = j := by
  refine ⟨⟨?_, ?_⟩, ?_⟩
  · rintro ⟨names, -, n, hopen, hopens⟩
    exact conditions_of_opens horder hf hopen hopens
  · rintro ⟨hfirst, hbelow, hlast⟩
    obtain ⟨hcategory, hcategory'⟩ := plainName_categoryName t.category
    obtain ⟨htorrent, htorrent'⟩ := plainName_torrentName t
    have hpath : ∀ name ∈ elements f, PlainName name := by
      intro name hname
      obtain ⟨hnil, hdot, hdotdot, -⟩ := hnames name hname
      exact ⟨hnil, hdot, hdotdot, not_mem_of_mem_splitOn hname⟩
    have hne : categoryName t.category :: torrentName t :: elements f ≠ [] := cons_ne_nil _ _
    have hplain : ∀ name ∈ categoryName t.category :: torrentName t :: elements f, PlainName name :=
      forall_mem_cons.2 ⟨hcategory, forall_mem_cons.2 ⟨htorrent, hpath⟩⟩
    have hvalid : ∀ name ∈ categoryName t.category :: torrentName t :: elements f, validUTF8 name = true :=
      forall_mem_cons.2 ⟨hcategory', forall_mem_cons.2 ⟨htorrent', fun name hname => (hnames name hname).2.2.2⟩⟩
    have hbefore : ∀ i, 0 < i → i < (elements f).length →
      ∀ dp ∈ t.files, elements dp ≠ [] ++ (elements f).take i := by
      intro i _ hi dp hdp heq
      rw [nil_append] at heq
      apply hbelow dp hdp
      refine ⟨heq ▸ take_prefix _ _, fun hsame => ?_⟩
      have hlength := congrArg List.length (heq.symm.trans hsame)
      rw [length_take] at hlength
      omega
    have hd := dirAt_torrent (torrentName t) t
    refine ⟨categoryName t.category :: torrentName t :: elements f, ?_, ?_⟩
    · -- the names are listed
      have hroot : (readDir order torrs .root).find? (fun dir => dir.name = categoryName t.category) =
          some (.category (categoryName t.category)) := (find?_root horder _ _).2 ⟨rfl, t, ht, rfl⟩
      have htorr : (readDir order torrs (.category (categoryName t.category))).find?
          (fun dir => dir.name = torrentName t) = some (.torrent (torrentName t) t) := by
        rw [find?_category, hfirst]
        rfl
      exact listed_cons hroot (listed_cons htorr
        (hd.listed horder hpath (mem_of_getElem? hf) rfl hbefore))
    · -- and opening them opens the file
      have hclean := clean_joinNames hne hplain
      have hvalidPath := validPath_joinNames hne hplain hvalid
      have hdot : joinNames (categoryName t.category :: torrentName t :: elements f) ≠ [46] := by
        intro heq
        have hlength := congrArg List.length (elements_joinNames hne hplain)
        rw [heq, length_cons, length_cons] at hlength
        have hone : (elements [46]).length = 1 := rfl
        omega
      rw [openRoot_eq_walk (hclean.symm ▸ hvalidPath) (hclean.symm ▸ hdot), hclean,
        elements_joinNames hne hplain]
      apply (walk_root_opens_iff horder _ t j).2
      refine ⟨_, _, elements f, rfl, t, hfirst, ?_⟩
      have hway : ∀ name ∈ [] ++ elements f, PlainName name := hpath
      apply (hd.walk_opens_iff horder hway t j).2
      refine ⟨rfl, (elements f).length, length_pos_of_ne_nil (splitOn_ne_nil _ f), Nat.le_refl _, ?_, hbefore⟩
      refine ⟨f, hf, by rw [take_length, nil_append], fun k g hk hg heq => ?_⟩
      rw [take_length, nil_append] at heq
      rw [splitOn_injective heq] at hg
      exact hlast k hk hg
  · intro p n t' j' _ hopens hopens'
    cases n with
    | file d name t'' j'' =>
      obtain ⟨rfl, rfl⟩ := hopens
      obtain ⟨rfl, rfl⟩ := hopens'
      exact ⟨rfl, rfl⟩
    | _ => exact absurd hopens id

/-- A torrent `a` of the title `M`, with one file in a directory and one beside it. -/
def shelved : Torrent where
  hash := [97]
  title := [77]
  category := []
  files := [[100, 47, 120], [121]]
  hash_ne_nil := by decide
  hash_alnum := by simp [isAlnum, isDigit]

/-- A torrent `b` of the same title. -/
def shelvedTwin : Torrent where
  hash := [98]
  title := [77]
  category := []
  files := [[120]]
  hash_ne_nil := by decide
  hash_alnum := by simp [isAlnum, isDigit]

theorem reachable_iff_shelved : Reachable id [shelved, shelvedTwin] shelved 0 := by
  have hiff := (@reachable_iff id [shelved, shelvedTwin] (fun l => List.Perm.refl l) shelved 0 [100, 47, 120]
    (mem_cons_self ..) rfl (by decide +kernel)).1
  refine hiff.2 ⟨rfl, by decide +kernel, ?_⟩
  intro k hk hget
  have hlt : k < 2 := (List.getElem?_eq_some_iff.1 hget).1
  obtain rfl : k = 1 := Nat.le_antisymm (Nat.le_of_lt_succ hlt) hk
  exact absurd hget (by decide)

/-- Of two torrents with one title the second is listed, but the path leads into the first. -/
theorem not_reachable_twin :
    shelvedTwin ∈ [shelved, shelvedTwin] ∧ shelvedTwin.files[0]? = some [120] ∧
      (∀ name ∈ elements [120], name ≠ [] ∧ name ≠ [46] ∧ name ≠ [46, 46] ∧ validUTF8 name = true) ∧
      ∀ order : List Node → List Node, (∀ l, (order l).Perm l) →
        ¬ Reachable order [shelved, shelvedTwin] shelvedTwin 0 := by
  refine ⟨by simp, rfl, by decide +kernel, ?_⟩
  rintro order horder ⟨names, -, n, hopen, hopens⟩
  have hfirst := (conditions_of_opens horder rfl hopen hopens).1
  have hhash := congrArg (Option.map Torrent.hash) hfirst
  exact absurd hhash (by decide +kernel)

end

end TorrServer.Torrfs
