/-
# Gstreamer.Ebml — elements of a Matroska file.

An element is an id and a size, both with a length that the leading bit tells, and that many bytes of data,
which may be elements again. Three functions of the source go over the elements inside of one with the same
loop, and give up if one has no size or reaches out of it: `eachChild`, a fold over the elements that `Fills`
the data (`eachChild_eq_some_iff`).
-/
import TorrServer.Lib.Endian
import TorrServer.Gstreamer.Playlist

namespace TorrServer.Gstreamer

open Lib (Bytes beVal)

/-! ## The model -/

/-- The header of an element: where it starts, where its data starts and how long that is. -/
structure EbmlElement where
  id : Nat
  offset : Int
  dataOffset : Int
  size : Nat
  unknownSize : Bool
  deriving DecidableEq, Repr

namespace EbmlElement

/-- The end of the data, in `uint64`. -/
def endOffset (e : EbmlElement) : Nat := (wrapUint64 e.dataOffset + e.size) % 2 ^ 64

end EbmlElement

/-- `ebmlVintLength`: one more than the number of zeros in front. -/
def ebmlVintLength (first : UInt8) (maxLength : Nat) : Option Nat :=
  ((List.range maxLength).find? fun k => first &&& (0x80 >>> UInt8.ofNat k) ≠ 0).map (· + 1)

/-- Reads the header at `offset`; `none` when it is malformed or cut off. -/
def readEBMLElement (data : Bytes) (offset : Int) : Option EbmlElement :=
  if offset < 0 ∨ data.length ≤ offset then none
  else
    match ebmlVintLength (data.getD offset.toNat 0) 4 with
    | none => none
    | some idLength =>
      if data.length - offset.toNat < idLength + 1 then none
      else
        let id := beVal ((data.drop offset.toNat).take idLength)
        let sizeOffset := offset.toNat + idLength
        match ebmlVintLength (data.getD sizeOffset 0) 8 with
        | none => none
        | some sizeLength =>
          if data.length - sizeOffset < sizeLength then none
          else
            let marker : UInt8 := 0x80 >>> UInt8.ofNat (sizeLength - 1)
            let size := beVal ((data.getD sizeOffset 0 &&& (marker - 1)) ::
              (data.drop (sizeOffset + 1)).take (sizeLength - 1))
            some
              { id, offset, size
                dataOffset := sizeOffset + sizeLength
                unknownSize := size = 2 ^ (sizeLength * 7) - 1 }

/-- An element's data as a big-endian number of at most eight bytes. -/
def readEBMLUnsigned (data : Bytes) (e : EbmlElement) : Option Nat :=
  if e.size = 0 ∨ 8 < e.size ∨ data.length < e.endOffset then none
  else some (beVal ((data.drop e.dataOffset.toNat).take (wrapInt64 e.endOffset - e.dataOffset).toNat))

/-- The loop over the elements up to `stop`; `none` if one is malformed or the body gives up. -/
def eachChild {σ : Type} (data : Bytes) (stop : Int) (body : σ → EbmlElement → Option σ) :
    Nat → Int → σ → Option σ
  | 0, offset, s => if offset < stop then none else some s
  | fuel + 1, offset, s =>
    if offset < stop then
      match readEBMLElement data offset with
      | none => none
      | some child =>
        if child.unknownSize ∨ wrapUint64 stop < child.endOffset then none
        else
          match body s child with
          | none => none
          | some s => eachChild data stop body fuel (wrapInt64 child.endOffset) s
    else some s

/-- The loop over the elements inside of one, each of which takes a byte. -/
def overChildren {σ : Type} (data : Bytes) (e : EbmlElement) (body : σ → EbmlElement → Option σ)
    (s : σ) : Option σ :=
  eachChild data (wrapInt64 e.endOffset) body data.length e.dataOffset s

/-! ## The elements inside of an element -/

/-- Elements that lie one after the other from `offset` up to `stop`. -/
inductive Fills (data : Bytes) (stop : Int) : Int → List EbmlElement → Prop
  | done {offset : Int} : stop ≤ offset → Fills data stop offset []
  | cons {offset : Int} {child : EbmlElement} {children : List EbmlElement} : offset < stop →
      readEBMLElement data offset = some child → child.unknownSize = false →
      child.endOffset ≤ wrapUint64 stop → Fills data stop (wrapInt64 child.endOffset) children →
      Fills data stop offset (child :: children)

/-- The elements inside of `e`. -/
def Children (data : Bytes) (e : EbmlElement) (children : List EbmlElement) : Prop :=
  Fills data (wrapInt64 e.endOffset) e.dataOffset children

section Reading

variable {data : Bytes} {offset : Int} {e : EbmlElement}

theorem ebmlVintLength_bounds {first : UInt8} {maxLength n : Nat}
    (h : ebmlVintLength first maxLength = some n) :
    1 ≤ n ∧ n ≤ maxLength := by
  obtain ⟨k, hk, rfl⟩ := Option.map_eq_some_iff.1 h
  have hmem := List.mem_range.1 (List.mem_of_find?_eq_some hk)
  omega

/-- A size has at most 56 bits: the others give the length. -/
theorem size_lt (first : UInt8) (rest : Bytes) {n : Nat} (hn : 1 ≤ n) (hn' : n ≤ 8) :
    beVal ((first &&& (((0x80 : UInt8) >>> UInt8.ofNat (n - 1)) - 1)) :: rest.take (n - 1)) < 2 ^ 56 := by
  have hlen : (rest.take (n - 1)).length ≤ n - 1 := List.length_take_le _ _
  rw [Lib.beVal_cons]
  have hrest := Lib.beVal_lt (rest.take (n - 1))
  by_cases height : n = 8
  · subst height
    have hzero : first &&& (((0x80 : UInt8) >>> UInt8.ofNat (8 - 1)) - 1) = 0 := by
      show first &&& 0 = 0
      exact UInt8.and_zero
    rw [hzero]
    have hpow : 256 ^ (rest.take (8 - 1)).length ≤ 256 ^ 7 := Nat.pow_le_pow_right (by decide) hlen
    have hzero' : (0 : UInt8).toNat = 0 := rfl
    rw [hzero', Nat.zero_mul]
    omega
  · have hbyte := (first &&& (((0x80 : UInt8) >>> UInt8.ofNat (n - 1)) - 1)).toNat_lt
    have hpow : 256 ^ (rest.take (n - 1)).length ≤ 256 ^ 6 := Nat.pow_le_pow_right (by decide) (by omega)
    generalize 256 ^ (rest.take (n - 1)).length = width at hrest hpow ⊢
    generalize (first &&& (((0x80 : UInt8) >>> UInt8.ofNat (n - 1)) - 1)).toNat = byte at hbyte ⊢
    have hmul : byte * width ≤ 255 * 256 ^ 6 := Nat.mul_le_mul (by omega) hpow
    omega

/-- Where the data of an element starts, and how large it can be. -/
theorem readEBMLElement_bounds (h : readEBMLElement data offset = some e) :
    0 ≤ offset ∧ offset < data.length ∧ offset + 2 ≤ e.dataOffset ∧ e.dataOffset ≤ offset + 12 ∧
      e.size < 2 ^ 56 := by
  unfold readEBMLElement at h
  split at h
  · cases h
  rename_i hoffset
  split at h
  · cases h
  rename_i idLength hid
  split at h
  · cases h
  extract_lets id sizeOffset at h
  split at h
  · cases h
  rename_i sizeLength hsize
  split at h
  · cases h
  cases h
  have hidLength := ebmlVintLength_bounds hid
  have hsizeLength := ebmlVintLength_bounds hsize
  refine ⟨by omega, by omega, ?_, ?_, size_lt _ _ hsizeLength.1 hsizeLength.2⟩
  · show offset + 2 ≤ ((sizeOffset : Int) + sizeLength)
    unfold sizeOffset
    omega
  · show ((sizeOffset : Int) + sizeLength) ≤ offset + 12
    unfold sizeOffset
    omega

/-- Below an end that is an `int`, the end of an element is where its data end. -/
theorem wrapInt64_endOffset {stop : Int} (h : readEBMLElement data offset = some e) (hoffset : offset < stop)
    (hstop : stop < 2 ^ 63) (hend : e.endOffset ≤ wrapUint64 stop) :
    wrapInt64 e.endOffset = e.dataOffset + e.size := by
  obtain ⟨hpos, -, hdata, hdata', hsize⟩ := readEBMLElement_bounds h
  have hwrap : wrapUint64 stop = stop.toNat := by
    unfold wrapUint64
    rw [Int.emod_eq_of_lt (by omega) (by omega)]
  have hdataOffset : wrapUint64 e.dataOffset = e.dataOffset.toNat := by
    unfold wrapUint64
    rw [Int.emod_eq_of_lt (by omega) (by omega)]
  have hsum : e.endOffset = e.dataOffset.toNat + e.size := by
    unfold EbmlElement.endOffset
    rw [hdataOffset]
    exact Nat.mod_eq_of_lt (by omega)
  unfold wrapInt64
  rw [Int.bmod_eq_of_le (by omega) (by omega), hsum]
  omega

end Reading

section Loop

variable {σ : Type} {data : Bytes} {stop offset : Int} {body : σ → EbmlElement → Option σ} {s s' : σ}

/-- Behind the end there is nothing. -/
theorem exists_fills_of_le (h : stop ≤ offset) :
    (∃ children, Fills data stop offset children ∧ children.foldlM body s = some s') ↔ some s = some s' := by
  constructor
  · rintro ⟨children, hfills, hfold⟩
    cases hfills with
    | done _ => exact hfold
    | cons hlt _ _ _ _ => omega
  · exact fun heq => ⟨[], .done h, heq⟩

/-- Before the end there is an element, and then the rest. -/
theorem exists_fills_of_lt (h : offset < stop) :
    (∃ children, Fills data stop offset children ∧ children.foldlM body s = some s') ↔
      ∃ child t, readEBMLElement data offset = some child ∧ child.unknownSize = false ∧
        child.endOffset ≤ wrapUint64 stop ∧ body s child = some t ∧
        ∃ children, Fills data stop (wrapInt64 child.endOffset) children ∧
          children.foldlM body t = some s' := by
  constructor
  · rintro ⟨children, hfills, hfold⟩
    cases hfills with
    | done hle => omega
    | @cons _ child children _ hread hsize hend hrest =>
      rw [List.foldlM_cons] at hfold
      obtain ⟨t, ht, hfold⟩ := Option.bind_eq_some_iff.1 hfold
      exact ⟨child, t, hread, hsize, hend, ht, children, hrest, hfold⟩
  · rintro ⟨child, t, hread, hsize, hend, ht, children, hrest, hfold⟩
    refine ⟨child :: children, .cons h hread hsize hend hrest, ?_⟩
    rw [List.foldlM_cons]
    exact Option.bind_eq_some_iff.2 ⟨t, ht, hfold⟩

/-- **The loop over elements** is a fold over the elements there are. -/
theorem eachChild_eq_some_iff (hstop : stop < 2 ^ 63) {fuel : Nat}
    (hfuel : 0 ≤ offset → (data.length : Int) ≤ offset + fuel) :
    eachChild data stop body fuel offset s = some s' ↔
      ∃ children, Fills data stop offset children ∧ children.foldlM body s = some s' := by
  induction fuel generalizing offset s with
  | zero =>
    rw [eachChild]
    by_cases hoffset : offset < stop
    · rw [if_pos hoffset, exists_fills_of_lt hoffset]
      refine ⟨fun h => (nomatch h), ?_⟩
      rintro ⟨child, t, hread, -⟩
      have hbounds := readEBMLElement_bounds hread
      have hfuel := hfuel hbounds.1
      omega
    · rw [if_neg hoffset, exists_fills_of_le (by omega)]
  | succ fuel ih =>
    rw [eachChild]
    by_cases hoffset : offset < stop
    · rw [if_pos hoffset, exists_fills_of_lt hoffset]
      cases hread : readEBMLElement data offset with
      | none =>
        refine ⟨fun h => (nomatch h), ?_⟩
        rintro ⟨child, t, hread', -⟩
        cases hread'
      | some child =>
        show (if child.unknownSize ∨ wrapUint64 stop < child.endOffset then none else _) = some s' ↔ _
        by_cases hbad : child.unknownSize ∨ wrapUint64 stop < child.endOffset
        · rw [if_pos hbad]
          refine ⟨fun h => (nomatch h), ?_⟩
          rintro ⟨child', t, hread', hsize, hend, -⟩
          cases hread'
          rcases hbad with hbad | hbad
          · rw [hsize] at hbad
            cases hbad
          · omega
        · rw [if_neg hbad]
          rw [not_or, Bool.not_eq_true, not_lt] at hbad
          -- the element is behind the last one, so one round less is enough
          have hbounds := readEBMLElement_bounds hread
          have hnext := wrapInt64_endOffset hread hoffset hstop hbad.2
          have hfuel := hfuel hbounds.1
          have hfuel' : 0 ≤ wrapInt64 child.endOffset →
              (data.length : Int) ≤ wrapInt64 child.endOffset + fuel := by omega
          cases hbody : body s child with
          | none =>
            refine ⟨fun h => (nomatch h), ?_⟩
            rintro ⟨child', t, hread', -, -, ht, -⟩
            cases hread'
            rw [hbody] at ht
            cases ht
          | some t =>
            show eachChild data stop body fuel _ t = some s' ↔ _
            rw [ih hfuel']
            constructor
            · exact fun h => ⟨child, t, rfl, hbad.1, hbad.2, hbody, h⟩
            · rintro ⟨child', t', hread', -, -, ht, h⟩
              cases hread'
              rw [hbody] at ht
              cases ht
              exact h
    · rw [if_neg hoffset, exists_fills_of_le (by omega)]

theorem overChildren_eq_some_iff {e : EbmlElement} :
    overChildren data e body s = some s' ↔ ∃ children, Children data e children ∧
      children.foldlM body s = some s' := by
  have hstop : wrapInt64 e.endOffset < 2 ^ 63 := by
    have hlt := @Int.bmod_lt (e.endOffset : Int) (2 ^ 64) (by decide)
    unfold wrapInt64
    omega
  unfold overChildren Children
  exact eachChild_eq_some_iff hstop (by omega)

/-- What a loop that never gives up finds. -/
theorem exists_overChildren_iff {e : EbmlElement} {value : List EbmlElement → σ} {P : σ → Prop}
    (h : ∀ children, children.foldlM body s = some (value children)) :
    (∃ s', overChildren data e body s = some s' ∧ P s') ↔ ∃ children, Children data e children ∧
      P (value children) := by
  simp only [overChildren_eq_some_iff, h, Option.some.injEq]
  constructor
  · rintro ⟨-, ⟨children, hchildren, rfl⟩, hP⟩
    exact ⟨children, hchildren, hP⟩
  · rintro ⟨children, hchildren, hP⟩
    exact ⟨_, ⟨children, hchildren, rfl⟩, hP⟩

end Loop

end TorrServer.Gstreamer
