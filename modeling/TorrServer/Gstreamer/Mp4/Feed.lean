/-
# Gstreamer.Mp4.Feed — the reader, byte by byte.

`processBytes` copies as much of a header or a body at once as it has. Nothing depends on how much that is: it
does the same as `feed` on one byte after the other, up to the byte that emits a segment. What is proved about
the reader for one byte therefore holds for data of any length.
-/
import TorrServer.Gstreamer.Mp4.Reader

namespace TorrServer.Gstreamer.Mp4.Reader

open Lib List

/-- A byte of the body of the current box. -/
def writeByte (r : Reader) (b : UInt8) : Reader :=
  { r.writeCurrentBoxData [b] with currentBoxRemaining := r.currentBoxRemaining - 1 }

/-- A byte goes to the header or to the body; the flag says that a box is under way. -/
def enter (r : Reader) (b : UInt8) : Except Failure (Reader × Bool) :=
  if r.boxHeader.length < r.boxHeaderRequired then
    let r := { r with boxHeader := r.boxHeader ++ [b] }
    if r.boxHeader.length < r.boxHeaderRequired then .ok (r, false) else r.openBox
  else .ok (r.writeByte b, true)

/-- A byte, and what is done about a box under way. -/
def byteStep (finish : Reader → Except String (Reader × Bool)) (r : Reader) (b : UInt8) :
    Except Failure (Reader × Bool) := do
  let (r, opened) ← r.enter b
  if opened then failAt r (finish r) else return (r, false)

/-- `processBytes` on one byte: the reader, and whether a segment was emitted. -/
def feed (cfg : Config) : Reader → UInt8 → Except Failure (Reader × Bool) := byteStep (finishBox cfg)

/-- Byte by byte, until one emits a segment: the reader, the bytes after it, and whether there is one. -/
def feedAll (cfg : Config) : Reader → Bytes → Except Failure (Reader × Bytes × Bool)
  | r, [] => .ok (r, [], false)
  | r, b :: data => do
      let (r, completed) ← r.feed cfg b
      if completed then return (r, data, true) else feedAll cfg r data

/-- The reader expects a byte: of a header or of a body. -/
def Expecting (r : Reader) : Prop :=
  r.boxHeader.length < r.boxHeaderRequired ∨ 0 < r.currentBoxRemaining

variable {cfg : Config} {r r' : Reader} {b : UInt8} {data : Bytes} {completed : Bool}

/-! ## Writing -/

theorem writeCurrentBoxData_payload (htarget : r.currentTarget = .payload) (data : Bytes) :
    r.writeCurrentBoxData data = { r with sourcePayload := r.sourcePayload ++ data } := by
  simp [writeCurrentBoxData, htarget]

theorem writeCurrentBoxData_append (r : Reader) (a b : Bytes) :
    (r.writeCurrentBoxData a).writeCurrentBoxData b = r.writeCurrentBoxData (a ++ b) := by
  cases h : r.currentTarget <;> simp [writeCurrentBoxData, h]

theorem writeCurrentBoxData_remaining (r : Reader) (a : Bytes) (n : Nat) :
    ({ r with currentBoxRemaining := n }).writeCurrentBoxData a
      = { r.writeCurrentBoxData a with currentBoxRemaining := n } := rfl

@[simp] theorem writeCurrentBoxData_boxHeader (r : Reader) (a : Bytes) :
    (r.writeCurrentBoxData a).boxHeader = r.boxHeader := rfl

@[simp] theorem writeCurrentBoxData_required (r : Reader) (a : Bytes) :
    (r.writeCurrentBoxData a).boxHeaderRequired = r.boxHeaderRequired := rfl

@[simp] theorem writeCurrentBoxData_currentBoxRemaining (r : Reader) (a : Bytes) :
    (r.writeCurrentBoxData a).currentBoxRemaining = r.currentBoxRemaining := rfl

/-! ## Rounds -/

theorem failAt_eq_ok {α : Type} {r : Reader} {x : Except String α} {a : α} :
    failAt r x = .ok a ↔ x = .ok a := by
  cases x <;> simp [failAt]

theorem finishBox_of_pos (h : 0 < r.currentBoxRemaining) : r.finishBox cfg = .ok (r, false) := by
  rw [finishBox, if_neg (by omega)]

theorem finishBox_expecting (h : r.finishBox cfg = .ok (r', completed)) : r'.Expecting := by
  rw [finishBox] at h
  split at h
  · simp only [bind_eq_ok, pure_eq_ok, Prod.exists, Prod.mk.injEq] at h
    obtain ⟨r₁, c, -, rfl, -⟩ := h
    exact .inl (by simp [resetBoxState])
  · cases h
    exact .inr (by omega)

/-- How a byte enters: the header goes on; it turns out to be the long form; a box begins with the short or the
long form; or the byte belongs to the body. -/
inductive Enters (r : Reader) (b : UInt8) : Reader → Bool → Prop
  | more (hmore : r.boxHeader.length + 1 < r.boxHeaderRequired) :
      Enters r b { r with boxHeader := r.boxHeader ++ [b] } false
  | wide (hrequired : r.boxHeaderRequired = 8) (hlen : r.boxHeader.length = 7)
      (hone : be32 (r.boxHeader ++ [b]) 0 = 1) :
      Enters r b
        { r with
          boxHeader := r.boxHeader ++ [b]
          boxHeaderRequired := 16
          currentBoxType := be32 (r.boxHeader ++ [b]) 4 } false
  | short {r₁ : Reader} (hrequired : r.boxHeaderRequired = 8) (hlen : r.boxHeader.length = 7)
      (hone : be32 (r.boxHeader ++ [b]) 0 ≠ 1)
      (hbegin : beginBox
        { r with boxHeader := r.boxHeader ++ [b], currentBoxType := be32 (r.boxHeader ++ [b]) 4 }
        (be32 (r.boxHeader ++ [b]) 0) 8 = .ok r₁) : Enters r b r₁ true
  | long {r₁ : Reader} (hrequired : r.boxHeaderRequired ≠ 8)
    (hlen : r.boxHeader.length + 1 = r.boxHeaderRequired)
      (hbegin : beginBox { r with boxHeader := r.boxHeader ++ [b] } (be64 (r.boxHeader ++ [b]) 8) 16 = .ok r₁) :
      Enters r b r₁ true
  | body (hfull : r.boxHeaderRequired ≤ r.boxHeader.length) :
      Enters r b (r.writeByte b) true

theorem enters {opened : Bool} (h : r.enter b = .ok (r', opened)) : Enters r b r' opened := by
  rw [enter] at h
  split at h
  · rename_i hheader
    dsimp only at h
    split at h
    · rename_i hmore
      cases h
      exact .more (by simpa using hmore)
    · rename_i hfull
      rw [length_append, length_singleton] at hfull
      rw [openBox] at h
      dsimp only at h
      split at h
      · rename_i hrequired
        split at h
        · rename_i hone
          cases h
          exact .wide hrequired (by omega) hone
        · rename_i hone
          simp only [bind_eq_ok, failAt_eq_ok, require_eq_ok, pure_eq_ok, Prod.mk.injEq] at h
          obtain ⟨-, -, r₁, hbegin, rfl, rfl⟩ := h
          exact .short hrequired (by omega) hone hbegin
      · rename_i hrequired
        simp only [bind_eq_ok, failAt_eq_ok, pure_eq_ok, Prod.mk.injEq] at h
        obtain ⟨r₁, hbegin, rfl, rfl⟩ := h
        exact .long hrequired (by omega) hbegin
  · cases h
    exact .body (by omega)

/-- **What a byte does**: it enters, and a box under way is finished. -/
theorem byteStep_cases {finish : Reader → Except String (Reader × Bool)} {flag : Bool}
    (h : r.byteStep finish b = .ok (r', flag)) :
    (Enters r b r' false ∧ flag = false) ∨ ∃ r₁, Enters r b r₁ true ∧ finish r₁ = .ok (r', flag) := by
  simp only [byteStep, bind_eq_ok, Prod.exists] at h
  obtain ⟨r₁, opened, henter, h⟩ := h
  cases opened with
  | false =>
    cases h
    exact .inl ⟨enters henter, rfl⟩
  | true => exact .inr ⟨r₁, enters henter, failAt_eq_ok.mp h⟩

/-- **A byte leaves the reader expecting the next.** -/
theorem feed_expecting (h : r.feed cfg b = .ok (r', completed)) : r'.Expecting := by
  rcases byteStep_cases h with ⟨henters, -⟩ | ⟨r₁, -, hfinish⟩
  · cases henters with
    | more hmore => exact .inl (by simpa using hmore)
    | wide _ hlen _ => exact .inl (by simp [hlen])
  · exact finishBox_expecting hfinish

/-- A round that takes the last missing byte of a header or a body feeds that byte. -/
theorem processRound_of_last (h : if r.boxHeader.length < r.boxHeaderRequired
      then r.boxHeader.length + 1 = r.boxHeaderRequired else r.currentBoxRemaining = 1) :
    r.processRound cfg (b :: data) = (do
      let (r, completed) ← r.feed cfg b
      return (r, data, completed)) := by
  rw [processRound, feed, byteStep, enter]
  split
  · rename_i hheader
    rw [if_pos hheader] at h
    have hcopy : min (r.boxHeaderRequired - r.boxHeader.length) (b :: data).length = 1 := by
      simp only [length_cons]
      omega
    have hfull : ¬ (r.boxHeader ++ [b]).length < r.boxHeaderRequired := by
      simp only [length_append, length_singleton]
      omega
    simp only [hcopy, take_succ_cons, take_zero, drop_succ_cons, drop_zero, if_neg hfull, completeHeader]
  · rename_i hheader
    rw [if_neg hheader] at h
    have hbody : min (b :: data).length r.currentBoxRemaining = 1 := by
      simp only [length_cons]
      omega
    simp only [hbody, take_succ_cons, take_zero, drop_succ_cons, drop_zero,
      writeCurrentBoxData_currentBoxRemaining]
    rfl

/-- The reader after a byte that is not the last missing one. -/
def afterByte (r : Reader) (b : UInt8) : Reader :=
  if r.boxHeader.length < r.boxHeaderRequired then { r with boxHeader := r.boxHeader ++ [b] }
  else r.writeByte b

theorem feed_of_not_last (h : if r.boxHeader.length < r.boxHeaderRequired
      then r.boxHeader.length + 1 < r.boxHeaderRequired else 1 < r.currentBoxRemaining) :
    r.feed cfg b = .ok (r.afterByte b, false) := by
  rw [feed, byteStep, enter, afterByte]
  split
  · rename_i hheader
    rw [if_pos hheader] at h
    dsimp only
    rw [if_pos (by simpa using h)]
    rfl
  · rename_i hheader
    rw [if_neg hheader] at h
    show failAt _ (finishBox cfg _) = _
    rw [finishBox_of_pos (show 0 < r.currentBoxRemaining - 1 by omega)]
    rfl

/-- Such a byte can be taken off a round. -/
theorem processRound_of_not_last (h : if r.boxHeader.length < r.boxHeaderRequired
      then r.boxHeader.length + 1 < r.boxHeaderRequired else 1 < r.currentBoxRemaining) :
    r.processRound cfg (b :: data) =
      if data = [] then .ok (r.afterByte b, [], false) else (r.afterByte b).processRound cfg data := by
  rw [processRound]
  split
  · rename_i hheader
    rw [if_pos hheader] at h
    -- the round copies `k` bytes more than the first
    obtain ⟨k, hk⟩ : ∃ k, min (r.boxHeaderRequired - r.boxHeader.length) (b :: data).length = k + 1 :=
      ⟨min (r.boxHeaderRequired - r.boxHeader.length) (b :: data).length - 1, by
        simp only [length_cons]
        omega⟩
    have hk' : min (r.boxHeaderRequired - (r.boxHeader ++ [b]).length) data.length = k := by
      simp only [length_cons, length_append, length_nil] at hk ⊢
      omega
    have hafter : r.afterByte b = { r with boxHeader := r.boxHeader ++ [b] } := if_pos hheader
    rw [hafter]
    have hmore : (r.boxHeader ++ [b]).length < r.boxHeaderRequired := by simpa using h
    by_cases hdata : data = []
    · subst hdata
      have hk0 : k = 0 := by simpa using hk'.symm
      subst hk0
      simp only [hk, take_succ_cons, take_zero, if_pos hmore, if_true, drop_succ_cons, drop_nil]
    · rw [if_neg hdata, processRound, if_pos hmore]
      simp only [hk, hk', take_succ_cons, drop_succ_cons, append_assoc, singleton_append]
  · rename_i hheader
    rw [if_neg hheader] at h
    obtain ⟨k, hk⟩ : ∃ k, min (b :: data).length r.currentBoxRemaining = k + 1 :=
      ⟨min (b :: data).length r.currentBoxRemaining - 1, by
        simp only [length_cons]
        omega⟩
    have hk' : min data.length (r.currentBoxRemaining - 1) = k := by
      simp only [length_cons] at hk
      omega
    have hafter : r.afterByte b = r.writeByte b := if_neg hheader
    rw [hafter, writeByte]
    by_cases hdata : data = []
    · subst hdata
      have hk0 : k = 0 := by simpa using hk'.symm
      subst hk0
      simp only [hk, take_succ_cons, take_zero, drop_succ_cons, if_true, drop_nil]
      rw [finishBox_of_pos (by simp; omega)]
      simp [failAt]
    · rw [if_neg hdata, processRound, if_neg (by simpa using hheader)]
      simp only [hk, hk', take_succ_cons, drop_succ_cons, writeCurrentBoxData_remaining,
        writeCurrentBoxData_append, singleton_append, writeCurrentBoxData_currentBoxRemaining]
      rw [show r.currentBoxRemaining - (k + 1) = r.currentBoxRemaining - 1 - k by omega]

/-! ## The loop -/

theorem processLoop_nil (n : Nat) : processLoop cfg n r [] = .ok (r, [], false) := by
  cases n <;> simp [processLoop]

theorem processLoop_cons (n : Nat) (h : r.Expecting) : processLoop cfg (n + 1) r (b :: data) = (do
    let (r, rest, completed) ← r.processRound cfg (b :: data)
    if completed then return (r, rest, true) else processLoop cfg n r rest) := by
  rw [processLoop, if_neg (by simp), if_neg (by rcases h with h | h <;> omega)]

/-- With enough rounds the loop feeds one byte after the other. -/
theorem processLoop_eq_feedAll {n : Nat} (hr : r.Expecting) (hn : data.length ≤ n) :
    processLoop cfg n r data = r.feedAll cfg data := by
  induction data generalizing r n with
  | nil => exact processLoop_nil n
  | cons b data ih =>
    obtain ⟨n, rfl⟩ : ∃ m, n = m + 1 := ⟨n - 1, by simp only [length_cons] at hn; omega⟩
    simp only [length_cons, Nat.add_le_add_iff_right] at hn
    rw [processLoop_cons n hr, feedAll]
    by_cases hlast : if r.boxHeader.length < r.boxHeaderRequired
        then r.boxHeader.length + 1 = r.boxHeaderRequired else r.currentBoxRemaining = 1
    · -- the round takes one byte
      rw [processRound_of_last hlast]
      cases hfeed : r.feed cfg b with
      | error e => rfl
      | ok res =>
        obtain ⟨r₁, completed⟩ := res
        cases completed with
        | true => rfl
        | false => exact ih (feed_expecting hfeed) hn
    · -- the first byte is taken off the round
      have hnot : if r.boxHeader.length < r.boxHeaderRequired
          then r.boxHeader.length + 1 < r.boxHeaderRequired else 1 < r.currentBoxRemaining := by
        rcases hr with hr | hr <;> split at hlast <;> split <;> omega
      have hfeed : r.feed cfg b = .ok (r.afterByte b, false) := feed_of_not_last hnot
      have hr₁ := feed_expecting hfeed
      rw [processRound_of_not_last hnot, hfeed]
      cases data with
      | nil => exact processLoop_nil n
      | cons b' data =>
        rw [if_neg (by simp), ← processLoop_cons n hr₁]
        exact ih hr₁ (by omega)

/-- **`processBytes` goes byte by byte.** -/
theorem processBytes_eq_feedAll (hr : r.Expecting) : r.processBytes cfg data = r.feedAll cfg data :=
  processLoop_eq_feedAll hr le_rfl

end TorrServer.Gstreamer.Mp4.Reader
