/-
# Lib.Split — texts cut at a separator.

`strings.Split` of a text at one byte is `List.splitOn`. The pieces have no separator in them, put together with
separators they are the text, and they determine it.
-/
import TorrServer.Lib.Strconv

namespace TorrServer.Lib

open List

variable {sep : UInt8} {s t : Bytes}

theorem splitOn_injective (h : s.splitOn sep = t.splitOn sep) : s = t := by
  rw [← @intercalate_splitOn _ s _ _ sep, h, intercalate_splitOn]

theorem not_mem_of_mem_splitOn {piece : Bytes} (h : piece ∈ s.splitOn sep) : sep ∉ piece := by
  induction s generalizing piece with
  | nil =>
    rw [splitOn_nil, mem_singleton] at h
    rw [h]
    exact not_mem_nil
  | cons b s ih =>
    rw [splitOn_cons_eq_if_modifyHead] at h
    by_cases hb : (b == sep) = true
    · rw [if_pos hb, mem_cons] at h
      rcases h with rfl | h
      · exact not_mem_nil
      · exact ih h
    · rw [if_neg hb] at h
      cases hrest : s.splitOn sep with
      | nil => exact absurd hrest (splitOn_ne_nil _ _)
      | cons first rest =>
        rw [hrest, modifyHead_cons, mem_cons] at h
        rcases h with rfl | h
        · intro hmem
          rcases mem_cons.1 hmem with heq | hmem
          · exact hb (beq_iff_eq.2 heq.symm)
          · exact ih (hrest ▸ mem_cons_self) hmem
        · exact ih (hrest ▸ mem_cons_of_mem _ h)

theorem join_append {pieces pieces' : List Bytes} (hne : pieces ≠ []) (hne' : pieces' ≠ []) :
    [sep].intercalate (pieces ++ pieces') = [sep].intercalate pieces ++ sep :: [sep].intercalate pieces' := by
  induction pieces with
  | nil => exact absurd rfl hne
  | cons piece pieces ih =>
    cases pieces with
    | nil =>
      rw [singleton_append, intercalate_cons_of_ne_nil hne', intercalate_singleton, append_assoc,
        singleton_append]
    | cons next pieces =>
      rw [cons_append, cons_append, intercalate_cons_cons, intercalate_cons_cons, ← cons_append,
        ih (cons_ne_nil _ _), append_assoc _ _ (sep :: _)]

/-- The pieces of a text are the last of another exactly if that is the text, or ends in a separator and it. -/
theorem splitOn_suffix_iff : t.splitOn sep <:+ s.splitOn sep ↔ s = t ∨ sep :: t <:+ s := by
  constructor
  · rintro ⟨front, hfront⟩
    by_cases hnil : front = []
    · left
      rw [hnil, nil_append] at hfront
      exact (splitOn_injective hfront).symm
    · right
      refine ⟨[sep].intercalate front, ?_⟩
      rw [← @intercalate_splitOn _ s _ _ sep, ← hfront, join_append hnil (splitOn_ne_nil _ t),
        intercalate_splitOn]
  · rintro (rfl | ⟨front, rfl⟩)
    · exact suffix_rfl
    · rw [splitOn_append_cons_self]
      exact suffix_append _ _

end TorrServer.Lib
