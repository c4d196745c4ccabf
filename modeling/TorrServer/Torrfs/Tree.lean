/-
# Torrfs.Tree — the tree of categories, torrents and files, and opening a path in it.

Every `ReadDir` makes the nodes of one directory, from the list of torrents or from the display paths of the
files of one torrent, and `Open` reads directory after directory along a path. Where in a torrent a directory
is, it finds out by going up its parents (`getTorrPath`).

Two of the listings are Go maps, whose order is a parameter here, `order`, of which only is known that it keeps
the nodes. `walk` is what remains of `Open` when the path is given as a list of plain names.
-/
import TorrServer.Torrfs.Name
import Mathlib.Data.List.AList

namespace TorrServer.Torrfs

open Lib List

/-! ## The model -/

/-- `torrent` is `NewTorrDir` without a parent, `dir` one inside a torrent; `index` is the place of a file in
its torrent. -/
inductive Node
  | root
  | category (name : Bytes)
  | torrent (name : Bytes) (t : Torrent)
  | dir (parent : Node) (name : Bytes) (t : Torrent)
  | file (parent : Node) (name : Bytes) (t : Torrent) (index : Nat)

namespace Node

/-- `Name()`. -/
def name : Node → Bytes
  | root => [47]
  | category name => name
  | torrent name _ => name
  | dir _ name _ => name
  | file _ name _ _ => name

/-- `Torrent()`. -/
def torr : Node → Option Torrent
  | root => none
  | category _ => none
  | torrent _ t => some t
  | dir _ _ t => some t
  | file _ _ t _ => some t

/-- What the loop of `getTorrPath` collects, from a node up to the last one with a torrent. -/
def parts : Node → List Bytes
  | root => []
  | category _ => []
  | torrent name _ => [name]
  | dir parent name _ => if parent.torr.isNone then parent.parts else parent.parts ++ [name]
  | file parent name _ _ => if parent.torr.isNone then parent.parts else parent.parts ++ [name]

/-- `getTorrPath`: without the name of the torrent. -/
def getTorrPath (d : Node) : Bytes :=
  match d.parts with
  | [] => []
  | _ :: rest => pathJoin rest

/-- `TorrFile.Open` opens the file it is, whatever is behind it in the path. -/
def isFile : Node → Bool
  | file .. => true
  | _ => false

/-- The node is file number `index` of `t`. -/
def Opens (n : Node) (t : Torrent) (index : Nat) : Prop :=
  match n with
  | file _ _ t' index' => t' = t ∧ index' = index
  | _ => False

end Node

/-- A `map[string]INode` or `map[string]fs.DirEntry`. -/
abbrev Nodes := AList fun _ : Bytes => Node

/-- The directory of the torrents of a category. -/
def newCategoryDir (category : Bytes) : Node := .category (categoryName category)

/-- One round of the loop of `RootDir.ReadDir`. -/
def addCategory (nodes : Nodes) (t : Torrent) : Nodes :=
  let cat := categoryName t.category
  if cat ∈ nodes then nodes else nodes.insert cat (newCategoryDir cat)

/-- A display path relative to a directory of its torrent; `none` if it is not in it. -/
def relPath (currTorrPath dp : Bytes) : Option Bytes :=
  if currTorrPath = [] then some dp
  else if (currTorrPath ++ [47]).isPrefixOf dp then some (dp.drop (currTorrPath.length + 1))
  else none

/-- The name under which a directory shows a display path, and whether it is the file itself; `none` if it shows
nothing. -/
def relEntry (currTorrPath dp : Bytes) : Option (Bytes × Bool) :=
  match relPath currTorrPath dp with
  | none => none
  | some rel =>
    if rel = [] then none
    else
      let name := rel.takeWhile (· != 47)
      if name = [] then none else some (name, !rel.contains 47)

/-- One round of `TorrDir.ReadDir`: a file always takes the name, a directory if it is free. -/
def addFile (d : Node) (t : Torrent) (nodes : Nodes) (entry : Bytes × Nat) : Nodes :=
  match relEntry d.getTorrPath entry.1 with
  | none => nodes
  | some (name, true) => nodes.insert name (.file d name t entry.2)
  | some (name, false) => if name ∈ nodes then nodes else nodes.insert name (.dir d name t)

/-- The nodes of a directory in a torrent. -/
def torrentNodes (d : Node) (t : Torrent) : Nodes := t.files.zipIdx.foldl (addFile d t) ∅

/-- The values of a map. -/
def values (nodes : Nodes) : List Node := nodes.entries.map Sigma.snd

section

variable (order : List Node → List Node) (torrs : List Torrent)

/-- `ReadDir(-1)`, with metadata and `ShowFSActiveTorr` off; that of a file is an error. -/
def readDir : Node → List Node
  | .root => order (values (torrs.foldl addCategory ∅))
  | .category name =>
    (torrs.filter fun t => categoryName t.category = name).map fun t => .torrent (torrentName t) t
  | .torrent name t => order (values (torrentNodes (.torrent name t) t))
  | .dir parent name t => order (values (torrentNodes (.dir parent name t) t))
  | .file .. => []

/-- `strings.TrimPrefix`. -/
def trimFront (front s : Bytes) : Bytes := if front.isPrefixOf s then s.drop front.length else s

/-- `strings.TrimSuffix(s, "/")`. -/
def trimSlash (s : Bytes) : Bytes := if s.getLast? = some 47 then s.dropLast else s

/-- `Open` of a node; each call but that of a file takes one name off the path. -/
def openNode : Nat → Node → Bytes → Option Node
  | 0, _, _ => none
  | fuel + 1, d, name =>
    if d.isFile then some d
    else
      let trimPath := trimFront d.name name
      let trimPath := trimSlash trimPath
      let trimPath := trimFront [47] trimPath
      if trimPath = [] then some d
      else
        match trimPath.splitOn 47 with
        | [] => none
        | first :: _ =>
          match (readDir order torrs d).find? fun dir => dir.name = first with
          | none => none
          | some dir => openNode fuel dir trimPath

/-- `RootDir.Open`. -/
def openRoot (name : Bytes) : Option Node :=
  let name := clean name
  if validPath name = false then none
  else if name = [46] ∨ name = [47] then some .root
  else
    let name := if name.head? = some 47 then name else 47 :: name
    openNode order torrs (name.length + 1) .root name

/-- Names that are listed one in the directory of the other, from a node on. -/
inductive Listed : Node → List Bytes → Prop
  | nil (d : Node) : Listed d []
  | cons {d child : Node} {names : List Bytes} : child ∈ readDir order torrs d → Listed child names →
      Listed d (child.name :: names)

/-- `Open` along names. -/
def walk : List Bytes → Node → Option Node
  | [], d => some d
  | name :: names, d =>
    if d.isFile then some d
    else ((readDir order torrs d).find? fun dir => dir.name = name).bind (walk names)

end

/-! ## `Open` is a walk -/

section

variable {order : List Node → List Node} {torrs : List Torrent}

theorem name_of_find? {nodes : List Node} {name : Bytes} {child : Node}
    (h : nodes.find? (fun dir => dir.name = name) = some child) : child.name = name := by
  have hname := find?_some h
  exact of_decide_eq_true hname

theorem trimFront_append (front s : Bytes) : trimFront front (front ++ s) = s := by
  have hfront : front.isPrefixOf (front ++ s) = true := isPrefixOf_iff_prefix.2 (prefix_append _ _)
  rw [trimFront, if_pos hfront, drop_left]

theorem trimmed_joinNames {names : List Bytes} (hne : names ≠ []) (h : ∀ name ∈ names, PlainName name) :
    trimFront [47] (trimSlash (joinNames names)) = joinNames names := by
  have hslash : trimSlash (joinNames names) = joinNames names := if_neg (getLast?_joinNames hne h)
  rw [hslash]
  apply if_neg
  intro hfront
  obtain ⟨rest, hrest⟩ := isPrefixOf_iff_prefix.1 hfront
  apply head?_joinNames hne h
  rw [← hrest]
  rfl

/-- What `Open` finds under the first name of the rest of the path. -/
theorem openNode_succ {fuel : Nat} {d : Node} {name first : Bytes} {names : List Bytes}
    (hfile : d.isFile = false) (hplain : ∀ n ∈ first :: names, PlainName n)
    (hrest : trimFront [47] (trimSlash (trimFront d.name name)) = joinNames (first :: names)) :
    openNode order torrs (fuel + 1) d name =
      ((readDir order torrs d).find? fun dir => dir.name = first).bind
        fun dir => openNode order torrs fuel dir (joinNames (first :: names)) := by
  have helements : (joinNames (first :: names)).splitOn 47 = first :: names :=
    elements_joinNames (cons_ne_nil _ _) hplain
  rw [openNode]
  dsimp only
  rw [hfile, hrest, if_neg (by decide), if_neg (joinNames_ne_nil (cons_ne_nil _ _) hplain), helements]
  dsimp only
  cases (readDir order torrs d).find? fun dir => dir.name = first with
  | none => rfl
  | some dir => rfl

/-- `Open` of a node along its name and plain names. -/
theorem openNode_eq_walk {names : List Bytes} {fuel : Nat} (hfuel : names.length < fuel) (d : Node)
    (hplain : ∀ n ∈ d.name :: names, PlainName n) :
    openNode order torrs fuel d (joinNames (d.name :: names)) = walk order torrs names d := by
  induction names generalizing fuel d with
  | nil =>
    obtain ⟨fuel, rfl⟩ : ∃ k, fuel = k + 1 := ⟨fuel - 1, by omega⟩
    have hnothing : trimFront [47] (trimSlash (trimFront d.name (joinNames [d.name]))) = [] := by
      have htrim := trimFront_append d.name []
      rw [append_nil] at htrim
      rw [joinNames_singleton, htrim]
      rfl
    rw [openNode, walk]
    dsimp only
    rw [hnothing, if_pos rfl, ite_self]
  | cons first names ih =>
    obtain ⟨fuel, rfl⟩ : ∃ k, fuel = k + 1 := ⟨fuel - 1, by omega⟩
    rw [walk]
    by_cases hfile : d.isFile = true
    · rw [openNode, if_pos hfile, if_pos hfile]
    · have hplain' : ∀ n ∈ first :: names, PlainName n := fun n hn => hplain n (mem_cons_of_mem _ hn)
      have hrest : trimFront [47] (trimSlash (trimFront d.name (joinNames (d.name :: first :: names)))) =
          joinNames (first :: names) := by
        -- the slash behind the name goes last
        have hlast : (47 :: joinNames (first :: names)).getLast? ≠ some 47 := by
          rw [getLast?_cons_of_ne_nil (joinNames_ne_nil (cons_ne_nil _ _) hplain')]
          exact getLast?_joinNames (cons_ne_nil _ _) hplain'
        have hslash : trimSlash (47 :: joinNames (first :: names)) = 47 :: joinNames (first :: names) :=
          if_neg hlast
        rw [joinNames_cons_cons, trimFront_append, hslash]
        exact trimFront_append [47] _
      rw [if_neg hfile, openNode_succ (Bool.eq_false_iff.2 hfile) hplain' hrest]
      apply Option.bind_congr
      intro child hchild
      have hname : child.name = first := name_of_find? hchild
      rw [length_cons] at hfuel
      rw [← hname] at hplain' ⊢
      exact ih (by omega) child hplain'

/-- **`RootDir.Open` is a walk** along the cleaned path, if it is valid and more than the root. -/
theorem openRoot_eq_walk {name : Bytes} (hvalid : validPath (clean name) = true) (hdot : clean name ≠ [46]) :
    openRoot order torrs name = walk order torrs (elements (clean name)) .root := by
  have hplain : ∀ n ∈ elements (clean name), PlainName n := fun n hn => plainName_of_validPath hvalid hdot hn
  unfold openRoot
  dsimp only
  generalize clean name = path at hvalid hdot hplain ⊢
  have hpath := joinNames_elements path
  obtain ⟨first, names, hnames⟩ := exists_cons_of_ne_nil (splitOn_ne_nil 47 path)
  have helements : elements path = first :: names := hnames
  rw [helements] at hplain hpath ⊢
  have hhead : path.head? ≠ some 47 := hpath ▸ head?_joinNames (cons_ne_nil _ _) hplain
  have hslash : path ≠ [47] := by
    rintro rfl
    exact hhead rfl
  rw [hvalid, if_neg (by decide), if_neg (not_or.2 ⟨hdot, hslash⟩), if_neg hhead]
  -- the root takes the slash in front off
  have hrest : trimFront [47] (trimSlash (trimFront Node.root.name (47 :: path)))
      = joinNames (first :: names) := by
    have hfront : trimFront Node.root.name (47 :: path) = path := trimFront_append [47] path
    rw [hfront, ← hpath]
    exact trimmed_joinNames (cons_ne_nil _ _) hplain
  rw [openNode_succ rfl hplain hrest, walk, if_neg (by decide)]
  apply Option.bind_congr
  intro child hchild
  have hname : child.name = first := name_of_find? hchild
  have hlength : names.length < (47 :: path).length := by
    have hle := length_le_joinNames first names
    rw [hpath] at hle
    rw [length_cons]
    omega
  rw [← hname] at hplain ⊢
  exact openNode_eq_walk hlength child hplain

end

end TorrServer.Torrfs
