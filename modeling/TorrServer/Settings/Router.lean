/-
# Settings.Router — which settings database a path belongs to.

`XPathDBRouter` keeps a list of routes, longest first, and the database of each. The first registration also
makes the default route, the empty one. A lookup takes the first route that is a prefix of the path.

The router refines the table `registered`, in which of several registrations of a route the first counts; since
two prefixes of one path with the same length are equal, the order in which `sort.Slice` leaves routes of one
length does not matter.
-/
import TorrServer.Lib.Sort
import TorrServer.Lib.Utf8
import Mathlib.Data.List.Induction

namespace TorrServer.Settings

open List

open Lib (Bytes trimSpace)

/-! ## The model -/

/-- The comparison `RegisterRoute` sorts the routes by: by length, descending. -/
def longer (left right : Bytes) : Bool := right.length < left.length

theorem strictWeakOn_longer (routes : List Bytes) : Lib.StrictWeakOn longer routes :=
  .of_key (fun route => -(route.length : Int)) fun left _ right _ => by
    rw [longer, decide_eq_true_eq]
    omega

/-- `XPathDBRouter` over databases `D`. -/
structure XPathDBRouter (D : Type) where
  dbs : List D := []
  routes : List Bytes := []
  route2db : Bytes → Option D := fun _ => none

namespace XPathDBRouter

variable {D : Type} (toLower : Bytes → Bytes) (S : Lib.Sorter)

/-- Routes are compared trimmed and in lower case. -/
def xPathToRoute (xPath : Bytes) : Bytes := toLower (trimSpace xPath)

section Register

variable [DecidableEq D]

/-- The end of `RegisterRoute`, where the route is entered. -/
def enter (v : XPathDBRouter D) (db : D) (newRoute : Bytes) : XPathDBRouter D :=
  { dbs := if db ∈ v.dbs then v.dbs else v.dbs ++ [db]
    routes := S.sort longer (v.routes ++ [newRoute])
    route2db := fun route => if route = newRoute then some db else v.route2db route }

/-- `RegisterRoute`, and whether it went without an error. -/
def registerRoute (v : XPathDBRouter D) (db : D) (xPath : Bytes) : XPathDBRouter D × Bool :=
  let newRoute := xPathToRoute toLower xPath
  if newRoute ∈ v.routes then (v, false)
  else
    let default := xPathToRoute toLower []
    -- First DB becomes Default DB with default route; that route is empty, so the call ends there
    let v :=
      if v.dbs = [] ∧ newRoute ≠ [] then
        if default ∈ v.routes then v else v.enter S db default
      else v
    (v.enter S db newRoute, true)

end Register

/-- The database of the first route that the path starts with. -/
def getDBForXPath (v : XPathDBRouter D) (xPath : Bytes) : Option D :=
  if v.dbs = [] then none
  else
    match v.routes.find? (·.isPrefixOf (xPathToRoute toLower xPath)) with
    | some route => v.route2db route
    | none => none

/-! ## The routes that calls register -/

/-- What some calls ask for: the default route for the first database, and then each route. -/
def requests : List (D × Bytes) → List (Bytes × D)
  | [] => []
  | (db, xPath) :: calls =>
    ([], db) :: (xPathToRoute toLower xPath, db) ::
      calls.map fun call => (xPathToRoute toLower call.2, call.1)

/-- The database a route is registered for: of several requests for a route the first counts. -/
def registered (calls : List (D × Bytes)) (route : Bytes) : Option D :=
  (requests toLower calls).lookup route

/-- The route of the table that is taken for a path: the longest prefix. -/
def LongestPrefix (table : Bytes → Option D) (path route : Bytes) (db : D) : Prop :=
  table route = some db ∧ route <+: path ∧
    ∀ route' db', table route' = some db' → route' <+: path → route'.length ≤ route.length

/-- The router stands for the table. -/
structure Refines (v : XPathDBRouter D) (table : Bytes → Option D) : Prop where
  mem_routes : ∀ route, route ∈ v.routes ↔ (table route).isSome
  route2db : ∀ route, v.route2db route = table route
  sorted : v.routes.Pairwise fun left right => right.length ≤ left.length
  dbs : v.dbs = [] ↔ v.routes = []

variable {toLower S}

/-! ## Lookups -/

theorem Refines.getDBForXPath {v : XPathDBRouter D} {table : Bytes → Option D} (h : v.Refines table)
    {db : D} (hdefault : table [] = some db) (xPath : Bytes) :
    ∃ route db, LongestPrefix table (xPathToRoute toLower xPath) route db ∧
      v.getDBForXPath toLower xPath = some db := by
  have hdbs : v.dbs ≠ [] := by
    intro hnone
    have hmem := (h.mem_routes []).2 (Option.isSome_iff_exists.2 ⟨db, hdefault⟩)
    rw [h.dbs.1 hnone] at hmem
    cases hmem
  rw [XPathDBRouter.getDBForXPath, if_neg hdbs]
  cases hfind : v.routes.find? (·.isPrefixOf (xPathToRoute toLower xPath)) with
  | none =>
    -- the default route is a prefix of everything
    have hmem := (h.mem_routes []).2 (Option.isSome_iff_exists.2 ⟨db, hdefault⟩)
    exact absurd rfl (find?_eq_none.1 hfind [] hmem)
  | some route =>
    have hmem := mem_of_find?_eq_some hfind
    obtain ⟨found, hfound⟩ := Option.isSome_iff_exists.1 ((h.mem_routes route).1 hmem)
    refine ⟨route, found, ⟨hfound, ?_, ?_⟩, ?_⟩
    · have hprefix := find?_some (p := fun r : Bytes => r.isPrefixOf (xPathToRoute toLower xPath)) hfind
      exact isPrefixOf_iff_prefix.1 hprefix
    · intro route' db' htable hprefix
      have hmem' := (h.mem_routes route').2 (Option.isSome_iff_exists.2 ⟨db', htable⟩)
      rw [← isPrefixOf_iff_prefix] at hprefix
      rcases Lib.rel_of_find? h.sorted hfind route' hmem' hprefix with heq | hle
      · exact Nat.le_of_eq (congrArg List.length heq)
      · exact hle
    · exact (h.route2db route).trans hfound

theorem LongestPrefix.unique {table : Bytes → Option D} {path route route' : Bytes} {db db' : D}
    (h : LongestPrefix table path route db) (h' : LongestPrefix table path route' db') : db = db' := by
  have hlen : route.length = route'.length :=
    Nat.le_antisymm (h'.2.2 route db h.1 h.2.1) (h.2.2 route' db' h'.1 h'.2.1)
  have hroute : route = route' :=
    (prefix_of_prefix_length_le h.2.1 h'.2.1 (Nat.le_of_eq hlen)).eq_of_length hlen
  subst hroute
  exact Option.some.inj (h.1.symm.trans h'.1)

/-! ## Registrations -/

theorem registered_nil (route : Bytes) : registered toLower ([] : List (D × Bytes)) route = none := rfl

/-- One more call: its route counts if there was no request for it before. -/
theorem registered_concat {calls : List (D × Bytes)} (hne : calls ≠ []) (db : D) (xPath route : Bytes) :
    registered toLower (calls ++ [(db, xPath)]) route =
      (registered toLower calls route).or
        (if route = xPathToRoute toLower xPath then some db else none) := by
  obtain ⟨first, rest, rfl⟩ := exists_cons_of_ne_nil hne
  have hrequests : requests toLower (first :: rest ++ [(db, xPath)]) =
      requests toLower (first :: rest) ++ [(xPathToRoute toLower xPath, db)] := by
    simp [requests]
  rw [registered, hrequests, lookup_append, registered]
  congr 1
  rw [lookup_cons, lookup_nil]
  by_cases hroute : route = xPathToRoute toLower xPath
  · simp [hroute]
  · simp [hroute, beq_eq_false_iff_ne.2 hroute]

theorem registered_single (db : D) (xPath route : Bytes) :
    registered toLower [(db, xPath)] route =
      if route = xPathToRoute toLower xPath then some db else if route = [] then some db else none := by
  rw [registered, requests, map_nil, lookup_cons, lookup_cons, lookup_nil]
  by_cases hempty : route = []
  · simp [hempty]
  · rw [beq_eq_false_iff_ne.2 hempty, if_neg hempty]
    by_cases hroute : route = xPathToRoute toLower xPath
    · rw [if_pos hroute, beq_iff_eq.2 hroute]
    · rw [if_neg hroute, beq_eq_false_iff_ne.2 hroute]

theorem refines_new : ({} : XPathDBRouter D).Refines (registered toLower []) where
  mem_routes := fun route => by simp [registered_nil]
  route2db := fun _ => rfl
  sorted := List.Pairwise.nil
  dbs := ⟨fun _ => rfl, fun _ => rfl⟩

section Register

variable [DecidableEq D]

theorem Refines.enter {v : XPathDBRouter D} {table : Bytes → Option D} (h : v.Refines table) (db : D)
    (newRoute : Bytes) :
    (v.enter S db newRoute).Refines fun route => if route = newRoute then some db else table route where
  mem_routes := by
    intro route
    show route ∈ S.sort longer (v.routes ++ [newRoute]) ↔ _
    rw [S.mem_sort, mem_append, mem_singleton, h.mem_routes]
    by_cases hroute : route = newRoute
    · simp [hroute]
    · simp [hroute]
  route2db := by
    intro route
    show (if route = newRoute then some db else v.route2db route) = _
    rw [h.route2db]
  sorted := (S.sorted (strictWeakOn_longer _)).imp fun h => Nat.not_lt.1 (of_decide_eq_false h)
  dbs := by
    have hroutes : S.sort longer (v.routes ++ [newRoute]) ≠ [] := by
      intro hnil
      have hperm := (S.perm longer (v.routes ++ [newRoute])).length_eq
      rw [hnil, length_append] at hperm
      simp at hperm
    refine ⟨fun hdbs => ?_, fun hnil => absurd hnil hroutes⟩
    have hdbs : (if db ∈ v.dbs then v.dbs else v.dbs ++ [db]) = [] := hdbs
    split_ifs at hdbs with hmem
    · rw [hdbs] at hmem
      cases hmem
    · simp at hdbs

theorem refines_first (hlower : toLower [] = []) (db : D) (xPath : Bytes) :
    (({} : XPathDBRouter D).registerRoute toLower S db xPath).1.Refines
      (registered toLower [(db, xPath)]) := by
  have hdefault : xPathToRoute toLower [] = [] := hlower
  have htable : ∀ route, registered toLower [(db, xPath)] route = _ := registered_single db xPath
  have hnew : ({} : XPathDBRouter D).Refines (registered toLower []) := refines_new
  rw [funext htable]
  by_cases hroute : xPathToRoute toLower xPath = []
  · have hsame := hnew.enter (S := S) db (xPathToRoute toLower xPath)
    simp only [registerRoute, not_mem_nil, if_false, hroute, ne_eq, not_true_eq_false, and_false]
      at hsame ⊢
    have hfun : (fun route : Bytes => if route = [] then some db else if route = [] then some db else none)
        = fun route => if route = [] then some db else none := by
      funext route
      split_ifs <;> rfl
    rw [hfun]
    exact hsame
  · have hboth := (hnew.enter (S := S) db []).enter (S := S) db (xPathToRoute toLower xPath)
    simp only [registerRoute, not_mem_nil, if_false, hdefault, ne_eq, hroute, not_false_eq_true,
      and_self, if_true]
    exact hboth

/-- **`RegisterRoute`** adds a request, and is rejected exactly if there was one for its route before. -/
theorem Refines.registerRoute {v : XPathDBRouter D} {calls : List (D × Bytes)}
    (h : v.Refines (registered toLower calls)) (hne : calls ≠ []) (db : D) (xPath : Bytes) :
    (v.registerRoute toLower S db xPath).1.Refines (registered toLower (calls ++ [(db, xPath)])) := by
  have hdbs : v.dbs ≠ [] := by
    intro hnone
    obtain ⟨⟨db', xPath'⟩, rest, rfl⟩ := exists_cons_of_ne_nil hne
    have hmem := (h.mem_routes []).2 (by simp [registered, requests])
    rw [h.dbs.1 hnone] at hmem
    cases hmem
  have htable : ∀ route, registered toLower (calls ++ [(db, xPath)]) route = _ :=
    registered_concat hne db xPath
  rw [XPathDBRouter.registerRoute]
  by_cases hmem : xPathToRoute toLower xPath ∈ v.routes
  · -- the route is taken: nothing changes, in the table either
    obtain ⟨taken, htaken⟩ := Option.isSome_iff_exists.1 ((h.mem_routes _).1 hmem)
    have hsame : registered toLower (calls ++ [(db, xPath)]) = registered toLower calls := by
      funext route
      rw [htable]
      by_cases hroute : route = xPathToRoute toLower xPath
      · rw [hroute, htaken, Option.some_or]
      · rw [if_neg hroute, Option.or_none]
    simp only [if_pos hmem]
    rw [hsame]
    exact h
  · have hfree : registered toLower calls (xPathToRoute toLower xPath) = none := by
      rw [← Option.not_isSome_iff_eq_none, ← h.mem_routes]
      exact hmem
    have hentered : registered toLower (calls ++ [(db, xPath)]) = fun route =>
        if route = xPathToRoute toLower xPath then some db else registered toLower calls route := by
      funext route
      rw [htable]
      by_cases hroute : route = xPathToRoute toLower xPath
      · rw [hroute, hfree, if_pos rfl, Option.none_or]
      · rw [if_neg hroute, if_neg hroute, Option.or_none]
    simp only [if_neg hmem, hdbs, false_and, if_false]
    rw [hentered]
    exact h.enter db _

/-! ## Sequences of calls -/

/-- The router after a sequence of calls. -/
def registerAll (toLower : Bytes → Bytes) (S : Lib.Sorter) (calls : List (D × Bytes)) : XPathDBRouter D :=
  calls.foldl (fun v call => (v.registerRoute toLower S call.1 call.2).1) {}

theorem refines_registerAll (hlower : toLower [] = []) (calls : List (D × Bytes)) :
    (registerAll toLower S calls).Refines (registered toLower calls) := by
  induction calls using List.reverseRecOn with
  | nil => exact refines_new
  | append_singleton calls call ih =>
    rw [registerAll, foldl_append, foldl_cons, foldl_nil]
    by_cases hne : calls = []
    · subst hne
      exact refines_first hlower call.1 call.2
    · exact Refines.registerRoute ih hne call.1 call.2

/-- **Every lookup finds the longest route**, in any order of registration; a rejected call changes no answer;
and after the first call every lookup finds a database. -/
theorem getDBForXPath_longest (hlower : toLower [] = []) (calls : List (D × Bytes)) :
    let v := registerAll toLower S calls
    (∀ x db, v.getDBForXPath toLower x = some db ↔
      ∃ route, LongestPrefix (registered toLower calls) (xPathToRoute toLower x) route db) ∧
    (∀ db xPath, (v.registerRoute toLower S db xPath).2 = false →
      ∀ x, (v.registerRoute toLower S db xPath).1.getDBForXPath toLower x = v.getDBForXPath toLower x) ∧
    (∀ db xPath x, (v.registerRoute toLower S db xPath).2 = true →
      ∀ later, (registerAll toLower S (calls ++ (db, xPath) :: later)).getDBForXPath toLower x ≠ none) ∧
    (calls = [] → ∀ db xPath, (v.registerRoute toLower S db xPath).2 = true) := by
  have hlookup : ∀ calls : List (D × Bytes), calls ≠ [] → ∀ x, ∃ route db,
      LongestPrefix (registered toLower calls) (xPathToRoute toLower x) route db ∧
        (registerAll toLower S calls).getDBForXPath toLower x = some db := by
    intro calls hne x
    obtain ⟨⟨db, xPath⟩, rest, rfl⟩ := exists_cons_of_ne_nil hne
    have hdefault : registered toLower ((db, xPath) :: rest) [] = some db := by simp [registered, requests]
    exact (refines_registerAll hlower _).getDBForXPath hdefault x
  refine ⟨?_, ?_, ?_, ?_⟩
  · intro x db
    by_cases hne : calls = []
    · subst hne
      refine ⟨fun h => ?_, ?_⟩
      · simp [registerAll, XPathDBRouter.getDBForXPath] at h
      · rintro ⟨route, h, -⟩
        cases h
    · obtain ⟨route, found, hlongest, hfound⟩ := hlookup calls hne x
      rw [hfound, Option.some.injEq]
      constructor
      · rintro rfl
        exact ⟨route, hlongest⟩
      · rintro ⟨route', hlongest'⟩
        exact hlongest.unique hlongest'
  · intro db xPath hrejected x
    rw [XPathDBRouter.registerRoute] at hrejected ⊢
    split_ifs at hrejected ⊢ with hmem
    rfl
  · intro db xPath x _ later
    obtain ⟨route, found, -, hfound⟩ := hlookup (calls ++ (db, xPath) :: later) (by simp) x
    rw [hfound]
    exact fun h => nomatch h
  · rintro rfl db xPath
    simp [registerAll, XPathDBRouter.registerRoute]

/-- One database for everything and one for `viewed`; a third asks for ` viewed ` and is rejected. -/
theorem getDBForXPath_longest_viewed : let calls : List (Nat × Bytes) :=
    [(0, []), (1, [118, 105, 101, 119, 101, 100])]
    let v := registerAll id Lib.Sorter.insertion calls
    let again : Bytes := [32, 118, 105, 101, 119, 101, 100, 32]
    (∃ route, LongestPrefix (registered id calls) [118, 105, 101, 119, 101, 100, 47, 49] route 1) ∧
    (v.registerRoute id Lib.Sorter.insertion 2 again).2 = false ∧
    ∀ x, (v.registerRoute id Lib.Sorter.insertion 2 again).1.getDBForXPath id x = v.getDBForXPath id x := by
  intro calls v again
  obtain ⟨hlookup, hrejected, -⟩ := @getDBForXPath_longest Nat id Lib.Sorter.insertion _ rfl calls
  have hviewed : v.getDBForXPath id [118, 105, 101, 119, 101, 100, 47, 49] = some 1 := by decide +kernel
  have hagain : (v.registerRoute id Lib.Sorter.insertion 2 again).2 = false := by decide +kernel
  have hroute : xPathToRoute id [118, 105, 101, 119, 101, 100, 47, 49] =
      [118, 105, 101, 119, 101, 100, 47, 49] := by decide +kernel
  refine ⟨?_, hagain, hrejected 2 again hagain⟩
  rw [← hroute]
  exact (hlookup _ 1).1 hviewed

end Register

end XPathDBRouter

end TorrServer.Settings
