/-
# Torr.FileStats — the file ids of a torrent.

`Torrent.Status` sorts the files of a torrent by `CompareStrings` on their paths and numbers them from one. The
ids key play links and viewed marks, so they should not depend on the order in which the engine lists the files.

`sort.Slice` is taken by its contract `SortSlice`; `sortStable`, the insertion it does on short slices, keeps
it.
-/
import TorrServer.Lib.Sort
import TorrServer.Utils.Strings

namespace TorrServer.Torr

open Lib (Bytes SortSlice StrictWeakOn sortStable sortStable_sortSlice)
open Utils (compareStrings StrictTotalOn NoEqualNumbers CutsAgree strictTotalOn_iff)

/-- A file of the torrent. -/
structure File where
  path : Bytes
  length : Int
  deriving DecidableEq, Repr

/-- `state.TorrentFileStat`. -/
structure FileStat where
  id : Nat
  path : Bytes
  length : Int
  deriving DecidableEq, Repr

/-- The loop of `Status` over the sorted files, from the id `i + 1` on. -/
def statsFrom (i : Nat) : List File → List FileStat
  | [] => []
  | f :: fs => { id := i + 1, path := f.path, length := f.length } :: statsFrom (i + 1) fs

/-- `cachedFileStats`, as `Status` fills it in from `t.Files()`. -/
def fileStats (sort : (File → File → Bool) → List File → List File) (files : List File) : List FileStat :=
  statsFrom 0 (sort (fun f g => compareStrings f.path g.path) files)

theorem strictWeakOn_of_strictTotalOn {S : Set Bytes} (h : StrictTotalOn S) {files : List File}
    (hS : ∀ f ∈ files, f.path ∈ S) :
    StrictWeakOn (fun f g => compareStrings f.path g.path) files := by
  constructor
  · intro f _
    exact Utils.compareStrings_self f.path
  · intro f hf g hg k hk
    exact h.trans _ (hS f hf) _ (hS g hg) _ (hS k hk)
  · intro f hf g hg k hk hfg hgk
    by_contra hfk
    rw [Bool.not_eq_false] at hfk
    by_cases heq : f.path = g.path
    · rw [heq, hgk] at hfk
      cases hfk
    · -- `g` is before `f`, hence before `k`, against `hgk`
      have hgf : compareStrings g.path f.path = true := by
        rcases h.exactly_one _ (hS f hf) _ (hS g hg) heq with ⟨hlt, -⟩ | ⟨hgt, -⟩
        · rw [hfg] at hlt
          cases hlt
        · exact hgt
      have := h.trans _ (hS g hg) _ (hS f hf) _ (hS k hk) hgf hfk
      rw [hgk] at this
      cases this

/-- **When the ids depend on the files only.** `CompareStrings` is a strict total order on a set of paths
exactly when it has no equal numbers and its cut numbers agree; and then the ids do not depend on the order of
the files. -/
theorem fileStats_order_independent (S : Set Bytes) :
    (StrictTotalOn S ↔ NoEqualNumbers S ∧ CutsAgree S) ∧
    (NoEqualNumbers S ∧ CutsAgree S → ∀ sort : (File → File → Bool) → List File → List File,
      SortSlice sort → ∀ files₁ files₂ : List File, files₁.Perm files₂ →
      (files₁.map File.path).Nodup → (∀ f ∈ files₁, f.path ∈ S) →
      fileStats sort files₁ = fileStats sort files₂) := by
  refine ⟨strictTotalOn_iff S, ?_⟩
  intro hS sort hsort files₁ files₂ hperm hnodup hmem
  have htotal : StrictTotalOn S := (strictTotalOn_iff S).mpr hS
  refine congrArg (statsFrom 0) (hsort.eq_of_perm hperm
    (strictWeakOn_of_strictTotalOn htotal hmem) ?_)
  intro f hf g hg hfg hgf
  by_contra hne
  have hpath : f.path ≠ g.path := fun heq => hne (List.inj_on_of_nodup_map hnodup hf hg heq)
  rcases htotal.exactly_one _ (hmem f hf) _ (hmem g hg) hpath with ⟨hlt, -⟩ | ⟨hgt, -⟩
  · rw [hfg] at hlt
    cases hlt
  · rw [hgf] at hgt
    cases hgt

/-- `a1`, `a2`, `b10`: no number is cut between two of them. -/
def threePaths : List Bytes := [[97, 49], [97, 50], [98, 49, 48]]

theorem threePaths_order_independent :
    NoEqualNumbers { x | x ∈ threePaths } ∧ CutsAgree { x | x ∈ threePaths } ∧
      fileStats sortStable (threePaths.map fun x => ⟨x, 7⟩) =
        fileStats sortStable (threePaths.reverse.map fun x => ⟨x, 7⟩) := by
  have htotal : StrictTotalOn { x | x ∈ threePaths } := by
    refine ⟨?_, ?_, ?_⟩
    · show ∀ x ∈ threePaths, _
      decide
    · show ∀ x ∈ threePaths, ∀ y ∈ threePaths, ∀ z ∈ threePaths, _
      decide
    · show ∀ x ∈ threePaths, ∀ y ∈ threePaths, _
      decide
  obtain ⟨hiff, hids⟩ := fileStats_order_independent { x | x ∈ threePaths }
  have hS := hiff.mp htotal
  refine ⟨hS.1, hS.2, hids hS sortStable sortStable_sortSlice _ _ (by decide) (by decide) ?_⟩
  show ∀ f ∈ threePaths.map (fun x => (⟨x, 7⟩ : File)), f.path ∈ threePaths
  decide

/-- `a1 < a2 < a10 < a1`, since the common prefix of `a1` and `a10` leaves nothing and `0`; and `1` and `01`,
not comparable, are numbered by the order in which they come. -/
theorem compareStrings_cycle_and_tie :
    compareStrings [97, 49] [97, 50] = true ∧ compareStrings [97, 50] [97, 49, 48] = true ∧
      compareStrings [97, 49, 48] [97, 49] = true ∧ ¬ StrictTotalOn Set.univ ∧
      compareStrings [49] [48, 49] = false ∧ compareStrings [48, 49] [49] = false ∧
      fileStats sortStable [⟨[49], 7⟩, ⟨[48, 49], 7⟩] ≠
        fileStats sortStable [⟨[48, 49], 7⟩, ⟨[49], 7⟩] := by
  refine ⟨by decide, by decide, by decide, ?_, by decide, by decide, by decide⟩
  intro h
  have htrans := h.trans [97, 49] trivial [97, 50] trivial [97, 49, 48] trivial (by decide)
    (by decide)
  exact absurd htrans (by decide)

end TorrServer.Torr
