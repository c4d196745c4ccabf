/-
# Gstreamer.Mp4.Ranges — the ranges of fragments in the payload buffer.

A fragment has a range of the buffer. `Ranges` says of the fragments of both queues that each has the bytes of
its samples, in front of a limit, and that no two meet. Retiming leaves the ranges, cutting a fragment divides
its range, and a release moves all of them by the same amount.
-/
import TorrServer.Gstreamer.Mp4.Standing

namespace TorrServer.Gstreamer.Mp4

open Lib List

/-! ## Ranges -/

/-- Two fragments have no byte in common. -/
def Apart (f g : Fragment) : Prop :=
  f.payloadStart + f.payloadLen ≤ g.payloadStart ∨ g.payloadStart + g.payloadLen ≤ f.payloadStart

theorem Apart.symm {f g : Fragment} (h : Apart f g) : Apart g f := Or.symm h

/-- The range of a fragment is that of its samples, in front of `limit`. -/
structure Placed (limit : Nat) (f : Fragment) : Prop where
  len : f.payloadLen = sizes f.samples
  pos : 0 < f.payloadLen
  inside : f.payloadStart + f.payloadLen ≤ limit

/-- The ranges of the queued fragments. -/
structure Ranges (limit : Nat) (fragments : List Fragment) : Prop where
  placed : ∀ f ∈ fragments, Placed limit f
  apart : fragments.Pairwise Apart

section

variable {limit limit' : Nat} {a b fragments fragments' : List Fragment} {f g l r : Fragment}

theorem Ranges.nil : Ranges limit [] := ⟨by simp, .nil⟩

theorem Ranges.perm (h : Ranges limit fragments) (hperm : fragments.Perm fragments') :
    Ranges limit fragments' :=
  ⟨fun f hf => h.placed f (hperm.mem_iff.mpr hf), (hperm.pairwise_iff Apart.symm).mp h.apart⟩

theorem Ranges.sublist (h : Ranges limit fragments) (hsub : fragments'.Sublist fragments) :
    Ranges limit fragments' :=
  ⟨fun f hf => h.placed f (hsub.subset hf), h.apart.sublist hsub⟩

theorem Placed.mono (h : Placed limit f) (hle : limit ≤ limit') : Placed limit' f :=
  ⟨h.len, h.pos, h.inside.trans hle⟩

theorem Ranges.cons (h : Ranges limit fragments) (hf : Placed limit' f) (hle : limit ≤ f.payloadStart) :
    Ranges limit' (f :: fragments) := by
  have hlimit := hf.inside
  refine ⟨?_, .cons (fun g hg => .inr ((h.placed g hg).inside.trans hle)) h.apart⟩
  rintro g (_ | ⟨_, hg⟩)
  · exact hf
  · exact (h.placed g hg).mono (by omega)

/-- Fragments that differ in their times only have the same ranges. -/
theorem Ranges.of_sameBytes (h : Ranges limit fragments)
    (hsame : List.Forall₂ Reader.SameBytes fragments fragments') : Ranges limit fragments' := by
  have hplaced : ∀ {f g : Fragment}, Reader.SameBytes f g → Placed limit f → Placed limit g := by
    intro f g hfg hf
    refine ⟨?_, ?_, ?_⟩
    · rw [hfg.payloadLen, hfg.sizes]
      exact hf.len
    · rw [hfg.payloadLen]
      exact hf.pos
    · rw [hfg.payloadStart, hfg.payloadLen]
      exact hf.inside
  induction hsame with
  | nil => exact Ranges.nil
  | @cons f g fragments fragments' hfg hrest ih =>
    have htail := ih ⟨fun d hd => h.placed d (mem_cons_of_mem _ hd), h.apart.of_cons⟩
    refine ⟨?_, .cons ?_ htail.apart⟩
    · rintro d (_ | ⟨_, hd⟩)
      · exact hplaced hfg (h.placed f (mem_cons_self ..))
      · exact htail.placed d hd
    · -- the partner of a fragment has its range
      intro d hd
      obtain ⟨e, he, hed⟩ : ∃ e ∈ fragments, Reader.SameBytes e d := by
        obtain ⟨i, hi, rfl⟩ := mem_iff_getElem.mp hd
        have hlen := hrest.length_eq
        exact ⟨fragments[i], getElem_mem _, hrest.get (by omega) hi⟩
      have hapart := rel_of_pairwise_cons h.apart he
      rw [Apart] at hapart ⊢
      rw [hfg.payloadStart, hfg.payloadLen, hed.payloadStart, hed.payloadLen]
      exact hapart

/-! ## Cutting a fragment -/

/-- The two parts of a cut fragment share its range. -/
structure CutsRange (f l r : Fragment) : Prop where
  left_len : l.payloadLen = sizes l.samples
  right_len : r.payloadLen = sizes r.samples
  left_pos : 0 < l.payloadLen
  right_pos : 0 < r.payloadLen
  left_start : l.payloadStart = f.payloadStart
  right_start : r.payloadStart = f.payloadStart + l.payloadLen
  len_eq : l.payloadLen + r.payloadLen = f.payloadLen

/-- **A cut divides the range**, whatever the durations are. -/
theorem splitFragmentAtSample_range {n : Nat} (h : splitFragmentAtSample f n = .ok (l, r)) :
    CutsRange f l r := by
  obtain ⟨s, hcut, -, ⟨hlne, hrne⟩, -, hbytes, -, rfl, rfl⟩ := splitFragmentAtSample_eq_ok h
  exact ⟨hcut.left.bytes_eq, hcut.right.bytes_eq, hcut.left.pos hlne, hcut.right.pos hrne, rfl, rfl, hbytes⟩

theorem Ranges.cut (h : Ranges limit (f :: fragments)) (hcut : CutsRange f l r) :
    Ranges limit (l :: r :: fragments) := by
  have hf := (h.placed f (mem_cons_self ..)).inside
  have hlen := hcut.len_eq
  have hls := hcut.left_start
  have hrs := hcut.right_start
  have hl : Placed limit l := ⟨hcut.left_len, hcut.left_pos, by omega⟩
  have hr : Placed limit r := ⟨hcut.right_len, hcut.right_pos, by omega⟩
  have hapart : ∀ g ∈ fragments, Apart f g := fun g hg => rel_of_pairwise_cons h.apart hg
  have hright : ∀ g ∈ fragments, Apart r g := by
    intro g hg
    rcases hapart g hg with hfg | hgf
    · exact .inl (by omega)
    · exact .inr (by omega)
  have hleft : ∀ g ∈ r :: fragments, Apart l g := by
    rintro g (_ | ⟨_, hg⟩)
    · exact .inl (by omega)
    · rcases hapart g hg with hfg | hgf
      · exact .inl (by omega)
      · exact .inr (by omega)
  refine ⟨?_, .cons hleft (.cons hright h.apart.of_cons)⟩
  rintro g (_ | ⟨_, _ | ⟨_, hg⟩⟩)
  · exact hl
  · exact hr
  · exact h.placed g (mem_cons_of_mem _ hg)

/-- **`selectAudioCount`** leaves the queue, but for one fragment that may be cut in two. -/
theorem selectAudioCount_ranges {videoTimescale videoEnd n : Nat} {video audio audio' : List Fragment}
    (h : selectAudioCount videoTimescale videoEnd audio = .ok (audio', n))
    (hranges : Ranges limit (video ++ audio)) : Ranges limit (video ++ audio') := by
  rw [selectAudioCount_eq_ok_iff] at h
  induction h generalizing video with
  | nothing => exact hranges
  | further hfind _ ih =>
    -- the cut is further on: count this fragment with what stands before
    rw [append_cons] at hranges ⊢
    exact ih hranges
  | @inside f l r rest split total hfind hpos htotal hlt hsplit =>
    have hfirst : Ranges limit (f :: (video ++ rest)) := hranges.perm perm_middle
    have hcut := hfirst.cut (splitFragmentAtSample_range hsplit)
    have hleft : (video ++ l :: r :: rest).Perm (l :: (video ++ r :: rest)) := perm_middle
    have hright : (video ++ r :: rest).Perm (r :: (video ++ rest)) := perm_middle
    exact hcut.perm (hleft.trans (hright.cons l)).symm
  | atEnd => exact hranges

/-! ## A release -/

theorem Ranges.shift {delta : Nat} (h : Ranges limit fragments)
    (hdelta : ∀ f ∈ fragments, delta ≤ f.payloadStart) :
    Ranges (limit - delta) (fragments.map (Reader.shiftFragmentPayloadStarts delta)) := by
  have hshift : ∀ f ∈ fragments, Reader.shiftFragmentPayloadStarts delta f
      = { f with payloadStart := f.payloadStart - delta } := by
    intro f hf
    rw [Reader.shiftFragmentPayloadStarts, if_pos (h.placed f hf).pos]
  refine ⟨?_, pairwise_map.mpr (h.apart.imp_of_mem ?_)⟩
  · intro g hg
    obtain ⟨f, hf, rfl⟩ := mem_map.mp hg
    have hplaced := h.placed f hf
    have hle := hdelta f hf
    have hinside := hplaced.inside
    rw [hshift f hf]
    refine ⟨hplaced.len, hplaced.pos, ?_⟩
    show f.payloadStart - delta + f.payloadLen ≤ limit - delta
    omega
  · intro f g hf hg hapart
    have hfle := hdelta f hf
    have hgle := hdelta g hg
    rw [hshift f hf, hshift g hg]
    rw [Apart] at hapart ⊢
    dsimp only
    omega

end

end TorrServer.Gstreamer.Mp4
