/-
# Gstreamer.Mp4.VideoCut — how many video fragments a segment takes.

A segment ends at a *boundary*, in front of a queued fragment that begins with a sync sample. Normally it is the
least boundary that reaches the target duration. A reader that lags behind takes the boundary that meets the
target exactly, else the largest one below it, else the least one beyond it.

The loop of `selectVideoCount` never looks at the duration of the fragment queued last, which the next `moof`
may still change. As long as it answers 0, the queue can go on in two ways that end the segment at different
boundaries (`Undecided`).
-/
import Mathlib.Order.Bounds.Basic
import TorrServer.Gstreamer.Mp4.Attempts

namespace TorrServer.Gstreamer.Mp4

open Lib List

namespace Reader

/-! ## Boundaries and durations -/

/-- The duration of the first `k` fragments, as a number. -/
def durationOf (video : List Fragment) (k : Nat) : Nat := ((video.take k).map Fragment.duration).sum

/-- A segment may take the first `k` fragments: the next one begins with a sync sample. -/
def IsBoundary (video : List Fragment) (k : Nat) : Prop := 1 ≤ k ∧ k < video.length ∧ SyncAt video k

/-- The durations of the queue add up to a `uint64`. -/
def DurationsFit (video : List Fragment) : Prop := (video.map Fragment.duration).sum < 2 ^ 64

/-- The boundary that ends a segment in the normal mode. -/
def NormalCount (target : Nat) (video : List Fragment) (k : Nat) : Prop :=
  IsLeast {k | IsBoundary video k ∧ target ≤ durationOf video k} k

/-- The boundary that ends a segment when the reader lags behind. -/
def CatchUpCount (target : Nat) (video : List Fragment) (k : Nat) : Prop :=
  IsLeast {k | IsBoundary video k ∧ durationOf video k = target} k ∨
  (∀ k, IsBoundary video k → durationOf video k ≠ target) ∧
    IsGreatest {k | IsBoundary video k ∧ durationOf video k < target} k ∨
  (∀ k, IsBoundary video k → target < durationOf video k) ∧ IsLeast {k | IsBoundary video k} k

/-- The boundary that ends a segment, in either mode. -/
def EndsSegment (catchUp : Bool) (target : Nat) (video : List Fragment) (k : Nat) : Prop :=
  if catchUp then CatchUpCount target video k else NormalCount target video k

/-- How a queue goes on: the last duration may change, and more fragments follow. -/
def GoesOn (video video' : List Fragment) : Prop :=
  ∃ front last duration more, video = front ++ [last] ∧
    video' = front ++ { last with duration := duration } :: more

/-- The queue can go on in two ways that end the segment at different boundaries. -/
def Undecided (catchUp : Bool) (target : Nat) (video : List Fragment) : Prop :=
  ∃ video₁ video₂ k₁ k₂, GoesOn video video₁ ∧ GoesOn video video₂ ∧
    DurationsFit video₁ ∧ DurationsFit video₂ ∧
    EndsSegment catchUp target video₁ k₁ ∧ EndsSegment catchUp target video₂ k₂ ∧ k₁ ≠ k₂

section

variable {target : Nat} {video front more : List Fragment} {f : Fragment}

theorem durationOf_mono (video : List Fragment) {j k : Nat} (h : j ≤ k) :
    durationOf video j ≤ durationOf video k := by
  have htake : (video.take k).take j = video.take j := by rw [take_take, Nat.min_eq_left h]
  have hsplit : durationOf video k
      = durationOf video j + (((video.take k).drop j).map Fragment.duration).sum := by
    rw [durationOf, durationOf, ← htake, ← sum_append, ← map_append, take_append_drop]
  omega

theorem durationOf_length (front more : List Fragment) :
    durationOf (front ++ more) front.length = (front.map Fragment.duration).sum := by
  rw [durationOf, take_left]

theorem durationOf_front (front more : List Fragment) {k : Nat} (h : k ≤ front.length) :
    durationOf (front ++ more) k = durationOf front k := by
  rw [durationOf, take_append_of_le_length h, durationOf]

/-- One fragment further, the total is the `uint64` sum the loop computes. -/
theorem durationOf_step (hfit : DurationsFit (front ++ f :: more)) :
    ((front.map Fragment.duration).sum + f.duration) % 2 ^ 64
      = ((front ++ [f]).map Fragment.duration).sum := by
  rw [DurationsFit] at hfit
  simp only [map_append, map_cons, map_nil, sum_append, sum_cons, sum_nil, Nat.add_zero] at hfit ⊢
  exact Nat.mod_eq_of_lt (by omega)

theorem isBoundary_next {g : Fragment} :
    IsBoundary (front ++ f :: g :: more) (front.length + 1) ↔ g.startsWithSync = true := by
  constructor
  · rintro ⟨-, -, g', hg', hsync⟩
    have hget : (front ++ f :: g :: more)[front.length + 1]? = some g := by simp
    rw [hget] at hg'
    cases hg'
    exact hsync
  · intro hsync
    exact ⟨by omega, by simp, g, by simp, hsync⟩

end

/-! ## The loop in the normal mode -/

section

variable {target : Nat} {front video : List Fragment}

/-- The loop behind `front` finds the least boundary that reaches the target, or none does. -/
theorem selectNormal_finds (hfit : DurationsFit (front ++ video)) :
    IsLeast {k | front.length < k ∧ IsBoundary (front ++ video) k ∧ target ≤ durationOf (front ++ video) k}
        (selectNormal target video front.length (front.map Fragment.duration).sum) ∨
      selectNormal target video front.length (front.map Fragment.duration).sum = 0 ∧
        ∀ k, front.length < k → IsBoundary (front ++ video) k → durationOf (front ++ video) k < target := by
  induction video generalizing front with
  | nil =>
    refine .inr ⟨rfl, ?_⟩
    intro k hk hbound
    have hlt := hbound.2.1
    rw [append_nil] at hlt
    omega
  | cons f video ih =>
    cases video with
    | nil =>
      refine .inr ⟨rfl, ?_⟩
      intro k hk hbound
      have hlt := hbound.2.1
      rw [length_append, length_singleton] at hlt
      omega
    | cons g rest =>
      have happend : front ++ f :: g :: rest = (front ++ [f]) ++ g :: rest := by
        rw [append_assoc]
        rfl
      have hlength : (front ++ [f]).length = front.length + 1 := by rw [length_append, length_singleton]
      have htotal : durationOf (front ++ f :: g :: rest) (front.length + 1)
          = ((front ++ [f]).map Fragment.duration).sum := by
        rw [happend, ← hlength, durationOf_length]
      rw [selectNormal, durationOf_step hfit]
      by_cases hcut : target ≤ ((front ++ [f]).map Fragment.duration).sum ∧ g.startsWithSync = true
      · rw [if_pos hcut]
        refine .inl ⟨⟨by omega, isBoundary_next.2 hcut.2, by rw [htotal]; exact hcut.1⟩, ?_⟩
        intro k hk
        exact hk.1
      · rw [if_neg hcut]
        have hnext : IsBoundary (front ++ f :: g :: rest) (front.length + 1) →
            durationOf (front ++ f :: g :: rest) (front.length + 1) < target := by
          intro hbound
          rw [htotal]
          by_contra hle
          exact hcut ⟨by omega, isBoundary_next.1 hbound⟩
        have hih := @ih (front ++ [f]) (happend ▸ hfit)
        rw [← happend, hlength] at hih
        rcases hih with ⟨⟨hlt, hbound, hreach⟩, hleast⟩ | ⟨hzero, hnone⟩
        · refine .inl ⟨⟨by omega, hbound, hreach⟩, ?_⟩
          intro k hk
          apply hleast
          refine ⟨?_, hk.2⟩
          -- the next place is no candidate: were it a boundary, it would fall short of the target
          by_contra hge
          have heq : k = front.length + 1 := by
            have := hk.1
            omega
          subst heq
          have := hnext hk.2.1
          have := hk.2.2
          omega
        · refine .inr ⟨hzero, ?_⟩
          intro k hk hbound
          rcases Nat.lt_or_ge (front.length + 1) k with hlater | hge
          · exact hnone k hlater hbound
          · obtain rfl : k = front.length + 1 := by omega
            exact hnext hbound

end

/-! ## The loop when the reader lags behind -/

/-- The loop has passed `i` fragments; `selectedCount` is the largest boundary so far below the target, or 0. -/
structure Scanned (target : Nat) (video : List Fragment) (i selectedCount : Nat) : Prop where
  none : selectedCount = 0 → ∀ k, k ≤ i → ¬ IsBoundary video k
  greatest : selectedCount ≠ 0 → IsGreatest {k | k ≤ i ∧ IsBoundary video k} selectedCount
  below : selectedCount ≠ 0 → durationOf video selectedCount < target
  notPassed : selectedCount ≠ 0 → durationOf video i ≤ target

section

variable {target i selectedCount k : Nat} {front video : List Fragment}

theorem Scanned.lt_target (h : Scanned target video i selectedCount) (hk : k ≤ i)
    (hbound : IsBoundary video k) : durationOf video k < target := by
  rcases Nat.eq_zero_or_pos selectedCount with hzero | hpos
  · exact absurd hbound (h.none hzero k hk)
  · have hle : k ≤ selectedCount := (h.greatest (by omega)).2 ⟨hk, hbound⟩
    have hbelow := h.below (by omega)
    have hmono := durationOf_mono video hle
    omega

theorem Scanned.skip (h : Scanned target video i selectedCount) (hnext : ¬ IsBoundary video (i + 1))
    (htotal : selectedCount ≠ 0 → durationOf video (i + 1) ≤ target) :
    Scanned target video (i + 1) selectedCount := by
  have hwithin : ∀ k, k ≤ i + 1 → IsBoundary video k → k ≤ i := by
    intro k hk hbound
    by_contra hlt
    obtain rfl : k = i + 1 := by omega
    exact hnext hbound
  refine ⟨?_, ?_, h.below, htotal⟩
  · intro hzero k hk hbound
    exact h.none hzero k (hwithin k hk hbound) hbound
  · intro hne
    obtain ⟨⟨hle, hbound⟩, hmax⟩ := h.greatest hne
    refine ⟨⟨by omega, hbound⟩, ?_⟩
    intro k hk
    exact hmax ⟨hwithin k hk.1 hk.2, hk.2⟩

theorem Scanned.select (hnext : IsBoundary video (i + 1)) (htotal : durationOf video (i + 1) < target) :
    Scanned target video (i + 1) (i + 1) :=
  ⟨fun h => absurd h (by omega), fun _ => ⟨⟨Nat.le_refl _, hnext⟩, fun _ hk => hk.1⟩, fun _ => htotal,
    fun _ => Nat.le_of_lt htotal⟩

/-- The next place meets the target. -/
theorem Scanned.meets (h : Scanned target video i selectedCount) (hnext : IsBoundary video (i + 1))
    (htotal : durationOf video (i + 1) = target) : CatchUpCount target video (i + 1) := by
  refine .inl ⟨⟨hnext, htotal⟩, ?_⟩
  intro k hk
  by_contra hlt
  have := h.lt_target (by omega) hk.1
  have := hk.2
  omega

/-- The target is passed, and a boundary below it is remembered. -/
theorem Scanned.passes (h : Scanned target video i selectedCount) (hne : selectedCount ≠ 0)
    (htotal : target < durationOf video (i + 1)) : CatchUpCount target video selectedCount := by
  obtain ⟨⟨hle, hbound⟩, hmax⟩ := h.greatest hne
  have hlater : ∀ k, i < k → target < durationOf video k := by
    intro k hk
    have := durationOf_mono video (show i + 1 ≤ k from hk)
    omega
  refine .inr (.inl ⟨?_, ⟨hbound, h.below hne⟩, ?_⟩)
  · intro k hk heq
    rcases Nat.lt_or_ge i k with hlt | hge
    · have := hlater k hlt
      omega
    · have := h.lt_target hge hk
      omega
  · intro k hk
    refine hmax ⟨?_, hk.1⟩
    by_contra hlt
    have := hlater k (by omega)
    have := hk.2
    omega

/-- The target is passed, and the next place is the first boundary at all. -/
theorem Scanned.beyond (h : Scanned target video i 0) (hnext : IsBoundary video (i + 1))
    (htotal : target < durationOf video (i + 1)) : CatchUpCount target video (i + 1) := by
  have hlater : ∀ k, IsBoundary video k → i + 1 ≤ k := by
    intro k hk
    by_contra hlt
    exact h.none rfl k (by omega) hk
  refine .inr (.inr ⟨?_, hnext, ?_⟩)
  · intro k hk
    have := durationOf_mono video (hlater k hk)
    omega
  · intro k hk
    exact hlater k hk

/-- The loop behind `front` ends the segment, or it runs out of fragments. -/
theorem selectCatchUp_finds (hfit : DurationsFit (front ++ video)) (hne : video ≠ [])
    (h : Scanned target (front ++ video) front.length selectedCount) :
    CatchUpCount target (front ++ video)
        (selectCatchUp target video front.length (front.map Fragment.duration).sum selectedCount) ∨
      selectCatchUp target video front.length (front.map Fragment.duration).sum selectedCount = 0 ∧
        ∃ c, Scanned target (front ++ video) ((front ++ video).length - 1) c := by
  induction video generalizing front selectedCount with
  | nil => exact absurd rfl hne
  | cons f video ih =>
    cases video with
    | nil =>
      refine .inr ⟨rfl, selectedCount, ?_⟩
      rw [length_append, length_singleton, Nat.add_sub_cancel]
      exact h
    | cons g rest =>
      have happend : front ++ f :: g :: rest = (front ++ [f]) ++ g :: rest := by
        rw [append_assoc]
        rfl
      have hlength : (front ++ [f]).length = front.length + 1 := by rw [length_append, length_singleton]
      have htotal : durationOf (front ++ f :: g :: rest) (front.length + 1)
          = ((front ++ [f]).map Fragment.duration).sum := by
        rw [happend, ← hlength, durationOf_length]
      have hih := fun c => @ih c (front ++ [f]) (happend ▸ hfit) (by simp)
      simp only [← happend, hlength] at hih
      rw [selectCatchUp, durationOf_step hfit, ← htotal]
      rw [← htotal] at hih
      by_cases hsync : g.startsWithSync = true
      · have hnext := (@isBoundary_next front rest f g).2 hsync
        rw [if_pos hsync, if_pos hsync]
        split_ifs with hle heq hpos
        · exact .inl (h.meets hnext heq)
        · exact hih _ (Scanned.select hnext (by omega))
        · exact .inl (h.passes (by omega) (by omega))
        · obtain rfl : selectedCount = 0 := by omega
          exact .inl (h.beyond hnext (by omega))
      · have hnext := mt (@isBoundary_next front rest f g).1 hsync
        rw [if_neg hsync, if_neg hsync]
        split_ifs with hle hpos
        · exact hih _ (h.skip hnext (fun _ => hle))
        · exact .inl (h.passes (by omega) (by omega))
        · exact hih _ (h.skip hnext (fun hne => absurd hne (by omega)))

end

/-! ## A queue that does not decide -/

section

variable {target k : Nat} {front padding : List Fragment} {last next : Fragment} {duration : Nat}

/-- What was queued in front of the last fragment, and the beginning of that one, stays. -/
theorem isBoundary_goesOn {more : List Fragment} (hk : k ≤ front.length) :
    IsBoundary (front ++ { last with duration := duration } :: more) k ↔ IsBoundary (front ++ [last]) k := by
  have hsync : SyncAt (front ++ { last with duration := duration } :: more) k ↔ SyncAt (front ++ [last]) k := by
    rcases Nat.lt_or_ge k front.length with hlt | hge
    · rw [SyncAt, SyncAt, getElem?_append_left hlt, getElem?_append_left hlt]
    · obtain rfl : k = front.length := by omega
      simp [SyncAt]
  have hlt : k < (front ++ { last with duration := duration } :: more).length := by
    rw [length_append, length_cons]
    omega
  have hlt' : k < (front ++ [last]).length := by
    rw [length_append, length_singleton]
    omega
  simp only [IsBoundary, hsync, hlt, hlt']

/-- Behind the last fragment, only the place of the sync fragment is a boundary. -/
theorem isBoundary_padded (hpadding : ∀ f ∈ padding, f.startsWithSync = false)
    (hk : front.length < k) (h : IsBoundary (front ++ last :: (padding ++ [next])) k) :
    k = front.length + 1 + padding.length := by
  obtain ⟨-, hlt, g, hg, hsync⟩ := h
  have hlength : (front ++ last :: (padding ++ [next])).length = front.length + 1 + padding.length + 1 := by
    simp only [length_append, length_cons, length_nil]
    omega
  by_contra hne
  obtain ⟨j, rfl⟩ : ∃ j, k = front.length + (j + 1) := ⟨k - front.length - 1, by omega⟩
  have hj : j < padding.length := by omega
  rw [getElem?_append_right (by omega), Nat.add_sub_cancel_left, getElem?_cons_succ,
    getElem?_append_left hj] at hg
  rw [hpadding g (mem_of_getElem? hg)] at hsync
  cases hsync

/-- The last fragment is stretched to the target, and fragments without durations follow, up to one with a sync
sample. -/
def stretched (target : Nat) (front : List Fragment) (last : Fragment)
    (padding : List Fragment) : List Fragment :=
  front ++ { last with duration := target - (front.map Fragment.duration).sum } ::
    (padding ++ [{ last with duration := 0, startsWithSync := true }])

/-- The padding has no sync sample and no duration. -/
def Plain (padding : List Fragment) : Prop :=
  ∀ f ∈ padding, f.startsWithSync = false ∧ f.duration = 0

theorem Plain.sum_eq (h : Plain padding) : (padding.map Fragment.duration).sum = 0 := by
  apply sum_eq_zero
  intro d hd
  obtain ⟨f, hf, rfl⟩ := mem_map.1 hd
  exact (h f hf).2

theorem stretched_sum (h : Plain padding) :
    ((stretched target front last padding).map Fragment.duration).sum
      = max (front.map Fragment.duration).sum target := by
  simp only [stretched, map_append, map_cons, map_nil, sum_append, sum_cons, sum_nil, h.sum_eq]
  omega

theorem stretched_total (h : Plain padding) :
    durationOf (stretched target front last padding) (front.length + 1 + padding.length)
      = max (front.map Fragment.duration).sum target := by
  have htake : (stretched target front last padding).take (front.length + 1 + padding.length)
      = front ++ { last with duration := target - (front.map Fragment.duration).sum } :: padding := by
    have hsplit : stretched target front last padding
        = (front ++ { last with duration := target - (front.map Fragment.duration).sum } :: padding)
          ++ [{ last with duration := 0, startsWithSync := true }] := by
      simp only [stretched, append_assoc, cons_append]
    rw [hsplit]
    apply take_left'
    simp only [length_append, length_cons]
    omega
  rw [durationOf, htake]
  simp only [map_append, map_cons, sum_append, sum_cons, h.sum_eq]
  omega

theorem stretched_boundary : IsBoundary (stretched target front last padding)
    (front.length + 1 + padding.length) := by
  refine ⟨by omega, ?_, { last with duration := 0, startsWithSync := true }, ?_, rfl⟩
  · simp only [stretched, length_append, length_cons, length_nil]
    omega
  · rw [stretched, getElem?_append_right (by omega),
      show front.length + 1 + padding.length - front.length = padding.length + 1 by omega,
      getElem?_cons_succ, getElem?_append_right (Nat.le_refl _), Nat.sub_self]
    rfl

/-- A boundary of the stretched queue is one of the queue as it was, or the new one. -/
theorem stretched_cases (h : Plain padding) (hk : IsBoundary (stretched target front last padding) k) :
    k ≤ front.length ∧ IsBoundary (front ++ [last]) k ∧
        durationOf (stretched target front last padding) k = durationOf (front ++ [last]) k ∨
      k = front.length + 1 + padding.length := by
  rcases Nat.lt_or_ge front.length k with hlt | hge
  · exact .inr (isBoundary_padded (fun f hf => (h f hf).1) hlt hk)
  · refine .inl ⟨hge, (isBoundary_goesOn hge).1 hk, ?_⟩
    rw [stretched, durationOf_front _ _ hge, durationOf_front _ _ hge]

theorem normalCount_stretched (h : Plain padding)
    (hshort : ∀ k, IsBoundary (front ++ [last]) k → durationOf (front ++ [last]) k < target) :
    NormalCount target (stretched target front last padding) (front.length + 1 + padding.length) := by
  refine ⟨⟨stretched_boundary, by rw [stretched_total h]; omega⟩, ?_⟩
  rintro k ⟨hbound, hreach⟩
  rcases stretched_cases h hbound with ⟨-, hold, htotal⟩ | rfl
  · have := hshort k hold
    omega
  · exact Nat.le_refl _

theorem catchUpCount_stretched {c : Nat} (h : Plain padding)
    (hscanned : Scanned target (front ++ [last]) front.length c) :
    CatchUpCount target (stretched target front last padding) (front.length + 1 + padding.length) := by
  have hlast : durationOf (front ++ [last]) front.length = (front.map Fragment.duration).sum :=
    durationOf_length front [last]
  have htotal := @stretched_total target front padding last h
  rcases Nat.lt_or_ge target (front.map Fragment.duration).sum with hpassed | hreach
  · -- the target was passed without a boundary
    have hzero : c = 0 := by
      by_contra hne
      have := hscanned.notPassed hne
      omega
    have honly : ∀ k, IsBoundary (stretched target front last padding) k →
        k = front.length + 1 + padding.length := by
      intro k hk
      rcases stretched_cases h hk with ⟨hle, hold, -⟩ | heq
      · exact absurd hold (hscanned.none hzero k hle)
      · exact heq
    refine .inr (.inr ⟨?_, stretched_boundary, ?_⟩)
    · intro k hk
      rw [honly k hk, htotal]
      omega
    · intro k hk
      exact Nat.le_of_eq (honly k hk).symm
  · -- the new boundary meets the target
    refine .inl ⟨⟨stretched_boundary, by rw [htotal]; omega⟩, ?_⟩
    rintro k ⟨hbound, heq⟩
    rcases stretched_cases h hbound with ⟨hle, hold, hsame⟩ | rfl
    · have := hscanned.lt_target hle hold
      omega
    · exact Nat.le_refl _

/-- Two stretched queues with different paddings end the segment at different boundaries. -/
theorem undecided_of_stretched {catchUp : Bool} (hfit : DurationsFit (front ++ [last]))
    (htarget : target < 2 ^ 64)
    (hends : ∀ padding, Plain padding →
      EndsSegment catchUp target (stretched target front last padding) (front.length + 1 + padding.length)) :
    Undecided catchUp target (front ++ [last]) := by
  have hsum : (front.map Fragment.duration).sum < 2 ^ 64 := by
    rw [DurationsFit, map_append, sum_append] at hfit
    omega
  have hgoes : ∀ padding, GoesOn (front ++ [last]) (stretched target front last padding) :=
    fun padding => ⟨front, last, _, _, rfl, rfl⟩
  have hfits : ∀ padding, Plain padding → DurationsFit (stretched target front last padding) := by
    intro padding h
    rw [DurationsFit, stretched_sum h]
    omega
  have hnone : Plain [] := fun f hf => absurd hf (by simp)
  have hone : Plain [{ last with duration := 0, startsWithSync := false }] := by
    intro f hf
    cases mem_singleton.1 hf
    exact ⟨rfl, rfl⟩
  refine ⟨_, _, _, _, hgoes [], hgoes _, hfits _ hnone, hfits _ hone, hends _ hnone, hends _ hone, ?_⟩
  simp

end

/-! ## The selection -/

section

variable {cfg : Config} {r : Reader} {target : Nat}

/-- What `selectVideoCount` computes for a queue that begins with a sync sample. -/
theorem selectVideoCount_eq {first : Fragment} (hmode : cfg.cueMode = false)
    (hfirst : r.video.head? = some first) (hsync : first.startsWithSync = true)
    (htarget : cfg.targetUnits r.videoTrack.timescale.toNat = .ok target) :
    r.selectVideoCount cfg = .ok (if takeFirstSyncBoundary cfg r then selectCatchUp target r.video 0 0 0
      else selectNormal target r.video 0 0) := by
  obtain ⟨rest, hvideo⟩ : ∃ rest, r.video = first :: rest := by
    cases hvideo : r.video with
    | nil =>
      rw [hvideo] at hfirst
      cases hfirst
    | cons f rest =>
      rw [hvideo] at hfirst
      cases hfirst
      exact ⟨rest, rfl⟩
  rw [selectVideoCount, hvideo]
  dsimp only
  rw [require_bind hsync, hmode, if_neg (by simp), htarget]
  rfl

/-- The count the loop computes in either mode. -/
def countIn (catchUp : Bool) (target : Nat) (video : List Fragment) : Nat :=
  if catchUp then selectCatchUp target video 0 0 0 else selectNormal target video 0 0

theorem countIn_goesOn {catchUp : Bool} {video video' : List Fragment} (hgoes : GoesOn video video')
    (h : countIn catchUp target video ≠ 0) : countIn catchUp target video' = countIn catchUp target video := by
  obtain ⟨front, last, duration, more, rfl, rfl⟩ := hgoes
  cases catchUp with
  | true => exact selectCatchUp_goesOn h
  | false => exact selectNormal_goesOn h

theorem scanned_start (target : Nat) (video : List Fragment) : Scanned target video 0 0 := by
  refine ⟨?_, fun h => absurd rfl h, fun h => absurd rfl h, fun h => absurd rfl h⟩
  intro _ k hk hbound
  have := hbound.1
  omega

/-- The loop ends the segment where it should, or the queue does not decide. -/
theorem countIn_finds {video : List Fragment} (catchUp : Bool) (hfit : DurationsFit video)
    (hne : video ≠ []) (htarget : target < 2 ^ 64) :
    EndsSegment catchUp target video (countIn catchUp target video) ∨
      countIn catchUp target video = 0 ∧ Undecided catchUp target video := by
  obtain ⟨front, last, rfl⟩ : ∃ front last, video = front ++ [last] :=
    ⟨video.dropLast, video.getLast hne, (dropLast_append_getLast hne).symm⟩
  cases catchUp with
  | true =>
    rcases @selectCatchUp_finds target 0 [] (front ++ [last]) hfit hne (scanned_start _ _)
      with hends | ⟨hzero, c, hscanned⟩
    · exact .inl hends
    · refine .inr ⟨hzero, undecided_of_stretched hfit htarget ?_⟩
      intro padding hplain
      rw [nil_append, length_append, length_singleton, Nat.add_sub_cancel] at hscanned
      exact catchUpCount_stretched hplain hscanned
  | false =>
    rcases @selectNormal_finds target [] (front ++ [last]) hfit with ⟨⟨-, hbound, hreach⟩, hleast⟩
      | ⟨hzero, hnone⟩
    · refine .inl ⟨⟨hbound, hreach⟩, ?_⟩
      intro k hk
      exact hleast ⟨hk.1.1, hk⟩
    · refine .inr ⟨hzero, undecided_of_stretched hfit htarget ?_⟩
      intro padding hplain
      apply normalCount_stretched hplain
      intro k hk
      exact hnone k hk.1 hk

theorem EndsSegment.isBoundary {catchUp : Bool} {video : List Fragment} {k : Nat}
    (h : EndsSegment catchUp target video k) : IsBoundary video k := by
  cases catchUp with
  | false => exact h.1.1
  | true =>
    rcases h with h | ⟨-, h⟩ | ⟨-, h⟩
    · exact h.1.1
    · exact h.1.1
    · exact h.1

/-- At most one boundary ends the segment. -/
theorem EndsSegment.unique {catchUp : Bool} {video : List Fragment} {k k' : Nat}
    (h : EndsSegment catchUp target video k) (h' : EndsSegment catchUp target video k') : k = k' := by
  cases catchUp with
  | false => exact IsLeast.unique h h'
  | true =>
    rcases h with h | ⟨hne, h⟩ | ⟨habove, h⟩ <;> rcases h' with h' | ⟨hne', h'⟩ | ⟨habove', h'⟩
    · exact h.unique h'
    · exact absurd h.1.2 (hne' k h.1.1)
    · exact absurd h.1.2 (Nat.ne_of_gt (habove' k h.1.1))
    · exact absurd h'.1.2 (hne k' h'.1.1)
    · exact h.unique h'
    · exact absurd h.1.2 (Nat.lt_asymm (habove' k h.1.1))
    · exact absurd h'.1.2 (Nat.ne_of_gt (habove k' h'.1.1))
    · exact absurd h'.1.2 (Nat.lt_asymm (habove k' h'.1.1))
    · exact h.unique h'

theorem countIn_decides {catchUp : Bool} {video : List Fragment} (htarget : target < 2 ^ 64)
    (h : countIn catchUp target video ≠ 0) : ¬ Undecided catchUp target video := by
  rintro ⟨video₁, video₂, k₁, k₂, hgoes₁, hgoes₂, hfit₁, hfit₂, hends₁, hends₂, hne⟩
  have hsame : ∀ video' k, GoesOn video video' → DurationsFit video' → EndsSegment catchUp target video' k →
      k = countIn catchUp target video := by
    intro video' k hgoes hfit hends
    have heq := countIn_goesOn hgoes h
    obtain ⟨front, last, duration, more, -, rfl⟩ := hgoes
    rcases countIn_finds catchUp hfit (by simp) htarget with hends' | ⟨hzero, -⟩
    · rw [← heq]
      exact hends.unique hends'
    · exact absurd (heq.symm.trans hzero) h
  exact hne ((hsame _ _ hgoes₁ hfit₁ hends₁).trans (hsame _ _ hgoes₂ hfit₂ hends₂).symm)

/-- **How many video fragments a segment takes.** The count is 0 or a boundary, and stays whatever is queued
behind. If the durations add up to a `uint64`, it is the boundary at which the segment should end, and 0 exactly
while the queue does not decide. -/
theorem selectVideoCount_endsSegment {first : Fragment} (hmode : cfg.cueMode = false)
    (hfirst : r.video.head? = some first) (hsync : first.startsWithSync = true)
    (htarget : cfg.targetUnits r.videoTrack.timescale.toNat = .ok target) (hrange : target < 2 ^ 64) :
    ∃ k, r.selectVideoCount cfg = .ok k ∧ (k = 0 ∨ IsBoundary r.video k) ∧
      (k ≠ 0 → ∀ more, selectVideoCount cfg { r with video := r.video ++ more } = .ok k) ∧
      (DurationsFit r.video →
        (k ≠ 0 → EndsSegment (takeFirstSyncBoundary cfg r) target r.video k) ∧
        (k = 0 ↔ Undecided (takeFirstSyncBoundary cfg r) target r.video)) := by
  have hne : r.video ≠ [] := by
    intro hnil
    rw [hnil] at hfirst
    cases hfirst
  have heq := selectVideoCount_eq hmode hfirst hsync htarget
  refine ⟨countIn (takeFirstSyncBoundary cfg r) target r.video, heq, ?_, ?_, ?_⟩
  · by_cases hzero : countIn (takeFirstSyncBoundary cfg r) target r.video = 0
    · exact .inl hzero
    · obtain ⟨g, hg, hgsync⟩ := selectVideoCount_sync hmode heq hzero
      exact .inr ⟨Nat.pos_of_ne_zero hzero, (List.getElem?_eq_some_iff.1 hg).1, g, hg, hgsync⟩
  · intro hcount more
    have hgoes : GoesOn r.video (r.video ++ more) :=
      ⟨r.video.dropLast, r.video.getLast hne, (r.video.getLast hne).duration, more,
        (dropLast_append_getLast hne).symm, by
          nth_rewrite 1 [← dropLast_append_getLast hne]
          rw [append_assoc]
          rfl⟩
    have hhead : (r.video ++ more).head? = some first := by rw [head?_append, hfirst, Option.some_or]
    have hmore := @selectVideoCount_eq cfg { r with video := r.video ++ more } target first hmode hhead hsync
      htarget
    rw [hmore, ← countIn_goesOn hgoes hcount]
    rfl
  · intro hfit
    rcases countIn_finds (takeFirstSyncBoundary cfg r) hfit hne hrange with hends | ⟨hzero, hundecided⟩
    · refine ⟨fun _ => hends, ?_, ?_⟩
      · intro hzero
        have hpos := hends.isBoundary.1
        omega
      · intro hundecided
        by_contra hcount
        exact countIn_decides hrange hcount hundecided
    · exact ⟨fun h => absurd hzero h, fun _ => hundecided, fun _ => hzero⟩

end

/-! ## A reader that lags behind -/

namespace Lagging

/-- A video fragment of the given duration. -/
def fragment (duration : Nat) (startsWithSync : Bool) : Fragment :=
  { trackID := 1, timescale := 1000, decodeTime := 0, duration := duration
    startsWithSync := startsWithSync, sampleDescriptionIndex := 1, tfhd := [] }

/-- Segments of 10 seconds, with a drift of one second allowed. -/
def config : Config :=
  { cueMode := false, segmentDiff := 1, targetUnits := fun timescale => .ok (10 * timescale)
    wholeSeconds := 10, secondsWithDiff := 11 }

/-- A reader whose first segment ended at `lastVideoEndTime`; from 21 on it lags behind. -/
def reader (lastVideoEndTime : Nat) (video : List Fragment) : Reader :=
  { timeline := { units := fun _ => .ok 0, offsetNS := 0 }, video := video
    videoTrack := { id := 1, timescale := 1 }, completedVideoSegments := 1
    lastVideoEndTime := lastVideoEndTime }

/-- Boundaries after 5, 8 and 17 seconds. -/
def queue : List Fragment := [fragment 5 true, fragment 3 true, fragment 9 true, fragment 4 true]

theorem boundary_of_queue (more : List Fragment) :
    IsBoundary ([fragment 5 true, fragment 100 true] ++ more) 1 :=
  ⟨by decide, by simp, fragment 100 true, rfl, rfl⟩

/-- With 100 seconds queued behind the first 5, no other boundary is below the target. -/
theorem only_first_below (more : List Fragment) :
    IsGreatest {k | IsBoundary ([fragment 5 true, fragment 100 true] ++ more) k ∧
      durationOf ([fragment 5 true, fragment 100 true] ++ more) k ≤ 10} 1 := by
  refine ⟨⟨boundary_of_queue more, show 5 ≤ 10 by decide⟩, ?_⟩
  rintro k ⟨-, hle⟩
  by_contra hlt
  have hmono := durationOf_mono ([fragment 5 true, fragment 100 true] ++ more) (show 2 ≤ k by omega)
  have htwo : durationOf ([fragment 5 true, fragment 100 true] ++ more) 2 = 105 := rfl
  omega

end Lagging

/-- A reader that lags behind stops at 8 seconds: the next boundary is beyond the target. -/
theorem lagging_takes_two :
    selectVideoCount Lagging.config (Lagging.reader 21 Lagging.queue) = .ok 2 ∧
      EndsSegment true 10 Lagging.queue 2 := by
  obtain ⟨k, hcount, -, -, hends⟩ := @selectVideoCount_endsSegment Lagging.config
    (Lagging.reader 21 Lagging.queue) 10 (Lagging.fragment 5 true) rfl rfl rfl rfl (by decide)
  have hk : selectVideoCount Lagging.config (Lagging.reader 21 Lagging.queue) = .ok 2 := by decide +kernel
  obtain rfl : k = 2 := by
    rw [hk] at hcount
    cases hcount
    rfl
  exact ⟨hk, (hends (by unfold DurationsFit; decide)).1 (by decide)⟩

/-- **The reader that lags behind answers late, and not always with the largest count.** The first of two
boundaries that meet the target is taken; a last fragment that passes the target by itself gives 0; and
durations whose sum passes the `uint64` range count as none. -/
theorem selection_waits_and_wraps :
    (selectVideoCount Lagging.config (Lagging.reader 21
        [Lagging.fragment 10 true, Lagging.fragment 0 true, Lagging.fragment 1 true]) = .ok 1 ∧
      IsBoundary [Lagging.fragment 10 true, Lagging.fragment 0 true, Lagging.fragment 1 true] 2 ∧
      durationOf [Lagging.fragment 10 true, Lagging.fragment 0 true, Lagging.fragment 1 true] 2 = 10) ∧
    (selectVideoCount Lagging.config
        (Lagging.reader 21 [Lagging.fragment 5 true, Lagging.fragment 100 true]) = .ok 0 ∧
      ∀ more, IsGreatest {k | IsBoundary ([Lagging.fragment 5 true, Lagging.fragment 100 true] ++ more) k ∧
        durationOf ([Lagging.fragment 5 true, Lagging.fragment 100 true] ++ more) k ≤ 10} 1) ∧
    (selectVideoCount Lagging.config (Lagging.reader 10
        [Lagging.fragment (2 ^ 63) true, Lagging.fragment (2 ^ 63) false, Lagging.fragment 0 true]) = .ok 0 ∧
      IsBoundary [Lagging.fragment (2 ^ 63) true, Lagging.fragment (2 ^ 63) false, Lagging.fragment 0 true] 2 ∧
      10 ≤ durationOf [Lagging.fragment (2 ^ 63) true, Lagging.fragment (2 ^ 63) false,
        Lagging.fragment 0 true] 2) := by
  refine ⟨⟨by decide +kernel, ⟨by decide, by decide, Lagging.fragment 1 true, rfl, rfl⟩, by decide⟩,
    ⟨by decide +kernel, Lagging.only_first_below⟩,
    ⟨by decide +kernel, ⟨by decide, by decide, Lagging.fragment 0 true, rfl, rfl⟩, by decide⟩⟩

end Reader

end TorrServer.Gstreamer.Mp4
