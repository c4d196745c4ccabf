/-
# Gstreamer.Mp4.Intake — bytes without attempts.

`takeByte` is `feed` but for the attempt that follows a completed `mdat`: a byte is taken, and an attempt may be
due. Between a `moof` and the end of its `mdat` a byte commutes with attempts, unless it belongs to a box that
goes in front of the next segment (`takes_of_window`).
-/
import TorrServer.Gstreamer.Mp4.Attempts

namespace TorrServer.Gstreamer.Mp4.Reader

open Lib List

variable {cfg : Config} {r r' r₁ t : Reader} {b : UInt8} {due : Bool} {size headerSize : Nat}

/-! ## Taking a byte -/

/-- `completeBox` but for the attempt; the flag says that one is due. -/
def takeBox (cfg : Config) (r : Reader) : Except String (Reader × Bool) :=
  if r.currentBoxType = boxMdat then do
    let r ← r.completeMdat
    return (r, true)
  else r.completeBox cfg

/-- `finishBox` but for the attempt. -/
def takeFinish (cfg : Config) (r : Reader) : Except String (Reader × Bool) :=
  if r.currentBoxRemaining = 0 then do
    let (r, due) ← r.takeBox cfg
    return (r.resetBoxState, due)
  else .ok (r, false)

/-- `feed` but for the attempt. -/
def takeByte (cfg : Config) : Reader → UInt8 → Except Failure (Reader × Bool) := byteStep (takeFinish cfg)

/-! ## The order of boxes -/

/-- Between a `moof` and the end of its `mdat` come the `mdat`, a `sidx` and prefix boxes. -/
structure Orderly (r : Reader) : Prop where
  video : Inside r.sourcePayload r.video
  audio : Inside r.sourcePayload r.audio
  pending : r.pending ≠ none → r.initDone = true
  moof : r.boxHeaderRequired ≤ r.boxHeader.length → r.currentBoxType = boxMoof → r.initDone = true
  window : r.pending ≠ none → r.boxHeaderRequired ≤ r.boxHeader.length →
    r.currentBoxType = boxMdat ∧ r.currentTarget = .payload ∨
      r.currentBoxType = boxSidx ∧ r.currentTarget = .none ∨ r.currentTarget = .prefixBox

theorem orderly_start (timeline : Timeline) : Orderly { timeline := timeline } :=
  ⟨by simp [Inside], by simp [Inside], fun h => absurd rfl h, fun h => absurd h (by simp),
    fun h => absurd rfl h⟩

theorem BeginsMedia.orderly (h : BeginsMedia r size headerSize r') (hvideo : Inside r.sourcePayload r.video)
    (haudio : Inside r.sourcePayload r.audio) (hdone : r.initDone = true)
    (htarget : r.currentTarget = .none) : Orderly r' := by
  cases h with
  | moof htype hpending =>
    exact ⟨hvideo, haudio, fun _ => hdone, fun _ _ => hdone, fun h => absurd hpending h⟩
  | mdat htype => exact ⟨hvideo, haudio, fun _ => hdone, fun _ _ => hdone, fun _ _ => .inl ⟨htype, rfl⟩⟩
  | sidx htype =>
    exact ⟨hvideo, haudio, fun _ => hdone, fun _ _ => hdone, fun _ _ => .inr (.inl ⟨htype, htarget⟩)⟩
  | styp htype hpending =>
    exact ⟨hvideo, haudio, fun _ => hdone, fun _ _ => hdone, fun h => absurd hpending h⟩
  | prefixBox htype =>
    exact ⟨hvideo, haudio, fun _ => hdone, fun _ _ => hdone, fun _ _ => .inr (.inr rfl)⟩
  | terminal htype hpending =>
    exact ⟨hvideo, haudio, fun _ => hdone, fun _ _ => hdone, fun h => absurd hpending h⟩

theorem orderly_of_begin (hvideo : Inside r.sourcePayload r.video)
    (haudio : Inside r.sourcePayload r.audio) (hpending : r.pending ≠ none → r.initDone = true)
    (hbegin : r.beginBox size headerSize = .ok r') : Orderly r' := by
  cases (beginBox_cases hbegin).2.2 with
  | init hinit hstyp hmoof hmdat =>
    have hnone : r.pending = none := by
      by_contra hne
      exact absurd ((hpending hne).symm.trans hinit) (by decide)
    exact ⟨hvideo, haudio, fun h => absurd hnone h, fun _ htype => absurd htype hmoof,
      fun h => absurd hnone h⟩
  | first _ _ _ hmedia => exact hmedia.orderly hvideo haudio rfl rfl
  | media hinit hmedia => exact hmedia.orderly hvideo haudio hinit rfl

theorem Orderly.write (h : Orderly r) (b : UInt8) : Orderly (r.writeByte b) := by
  have hinside : ∀ {fragments}, Inside r.sourcePayload fragments →
      Inside (r.writeByte b).sourcePayload fragments := by
    intro fragments hinside
    show Inside (if r.currentTarget = .payload then r.sourcePayload ++ [b] else r.sourcePayload) fragments
    split
    · exact hinside.mono [b]
    · exact hinside
  exact ⟨hinside h.video, hinside h.audio, h.pending, h.moof, h.window⟩

theorem inside_of_sameBytes {storage : Bytes} {fragments fragments' : List Fragment}
    (h : Inside storage fragments) (hsame : List.Forall₂ SameBytes fragments fragments') :
    Inside storage fragments' := by
  induction hsame with
  | nil => exact h
  | @cons f g fragments fragments' hfg _ ih =>
    rintro d (_ | ⟨_, hd⟩)
    · rw [hfg.payloadStart, hfg.payloadLen]
      exact h f (mem_cons_self ..)
    · exact ih (fun e he => h e (mem_cons_of_mem _ he)) d hd

theorem inside_of_attach {f g : Fragment} {storage : Bytes} {start : Nat} {fromMoof : Int}
    (h : attachPayload f start ((storage.length : Int) - start) fromMoof = .ok g) :
    Inside storage [g] := by
  obtain ⟨rfl, -, hlen, -⟩ := attachPayload_eq h
  intro d hd _
  rw [mem_singleton.mp hd]
  show (start : Int).toNat + ((storage.length : Int) - start).toNat ≤ storage.length
  omega

theorem Inside.append {storage : Bytes} {a b : List Fragment} (ha : Inside storage a)
    (hb : Inside storage b) : Inside storage (a ++ b) := by
  intro f hf
  rcases mem_append.mp hf with hf | hf
  · exact ha f hf
  · exact hb f hf

/-- **A completed box.** -/
theorem Orderly.takeFinish (h : Orderly r) (hfull : r.boxHeaderRequired ≤ r.boxHeader.length)
    (hfinish : r.takeFinish cfg = .ok (r', due)) : Orderly r' := by
  have hreset : ∀ {q : Reader}, Inside q.sourcePayload q.video → Inside q.sourcePayload q.audio →
      (q.pending ≠ none → q.initDone = true) → Orderly q.resetBoxState := by
    intro q hvideo haudio hpending
    exact ⟨hvideo, haudio, hpending, fun hb => absurd hb (by simp [resetBoxState]),
      fun _ hb => absurd hb (by simp [resetBoxState])⟩
  rw [Reader.takeFinish] at hfinish
  split at hfinish
  · simp only [bind_eq_ok, Prod.exists, pure_eq_ok, Prod.mk.injEq] at hfinish
    obtain ⟨r₁, due₁, hbox, rfl, rfl⟩ := hfinish
    rw [takeBox] at hbox
    split at hbox
    · simp only [bind_eq_ok, pure_eq_ok, Prod.mk.injEq] at hbox
      obtain ⟨r₁, hmdat, rfl, rfl⟩ := hbox
      -- only an `mdat` adds to the queues, a fragment inside of the payload
      obtain ⟨f, g, kind, video, audio, -, hattach, -, hqueue, rfl⟩ := completeMdat_cases hmdat
      have hg := inside_of_attach hattach
      refine hreset ?_ ?_ fun hnone => absurd rfl hnone
      · show Inside r.sourcePayload video
        rw [show video = r.video ++ if Kind.video = kind then [g] else [] from hqueue .video]
        split
        · exact Inside.append h.video hg
        · rw [append_nil]
          exact h.video
      · show Inside r.sourcePayload audio
        rw [show audio = r.audio ++ if Kind.audio = kind then [g] else [] from hqueue .audio]
        split
        · exact Inside.append h.audio hg
        · rw [append_nil]
          exact h.audio
    · rename_i hmdat
      cases completeBox_cases hbox with
      | styp => exact hreset h.video h.audio h.pending
      | other => exact hreset h.video h.audio h.pending
      | moof htype hmoof =>
        obtain ⟨f, video, audio, fromMoof, vh, vt, ah, at', -, hvideo, haudio, rfl⟩ :=
          completeMoof_cases hmoof
        exact hreset (inside_of_sameBytes h.video hvideo) (inside_of_sameBytes h.audio haudio)
          fun _ => h.moof hfull htype
      | mdat htype => exact absurd htype hmdat
  · cases hfinish
    exact h

/-- A byte enters; the header of a box under way is complete. -/
theorem Orderly.enters {opened : Bool} (h : Orderly r) (henters : Enters r b r' opened) :
    Orderly r' ∧ (opened = true → r'.boxHeaderRequired ≤ r'.boxHeader.length) := by
  cases henters with
  | more hmore =>
    have hshort : ¬ r.boxHeaderRequired ≤ (r.boxHeader ++ [b]).length := by simpa using hmore
    exact ⟨⟨h.video, h.audio, h.pending, fun hb => absurd hb hshort, fun _ hb => absurd hb hshort⟩, by simp⟩
  | wide _ hlen =>
    have hshort : ¬ 16 ≤ (r.boxHeader ++ [b]).length := by simp [hlen]
    exact ⟨⟨h.video, h.audio, h.pending, fun hb => absurd hb hshort, fun _ hb => absurd hb hshort⟩, by simp⟩
  | short hrequired hlen _ hbegin =>
    have hplace := (beginBox_cases hbegin).2.2.samePlace
    refine ⟨orderly_of_begin (by exact h.video) (by exact h.audio) (by exact h.pending) hbegin, fun _ => ?_⟩
    rw [hplace.boxHeader, hplace.boxHeaderRequired]
    simp [hrequired, hlen]
  | long _ hlen hbegin =>
    have hplace := (beginBox_cases hbegin).2.2.samePlace
    refine ⟨orderly_of_begin (by exact h.video) (by exact h.audio) (by exact h.pending) hbegin, fun _ => ?_⟩
    rw [hplace.boxHeader, hplace.boxHeaderRequired]
    simp [hlen]
  | body hfull => exact ⟨h.write b, fun _ => hfull⟩

/-- **A byte keeps the order.** -/
theorem Orderly.takeByte (h : Orderly r) (htake : r.takeByte cfg b = .ok (r', due)) : Orderly r' := by
  rcases byteStep_cases htake with ⟨henters, -⟩ | ⟨r₁, henters, hfinish⟩
  · exact (h.enters henters).1
  · obtain ⟨horderly, hfull⟩ := h.enters henters
    exact horderly.takeFinish (hfull rfl) hfinish

/-- **An attempt keeps it.** -/
theorem Orderly.attempt {completed : Bool} (h : Orderly r)
    (hbuild : r.tryBuildSegment cfg = .ok (t, completed)) : Orderly t := by
  cases tryBuildSegment_eq_ok_iff.mp hbuild with
  | nothing => exact h
  | emits n cut m segment _ _ htakes =>
    have hcut : Inside r.sourcePayload cut := htakes.elim h.audio fun hselect =>
      (selectAudioCount_inside hselect h.audio).2
    exact ⟨fun f hf => h.video f (mem_of_mem_drop hf), fun f hf => hcut f (mem_of_mem_drop hf),
      h.pending, h.moof, h.window⟩

/-! ## A byte and the attempt after it -/

theorem Grows.of_stock (hstock : r'.stock = r.stock) (hpayload : r'.sourcePayload = r.sourcePayload)
    (htimeline : r'.timeline = r.timeline) (hstyp : r'.styp = r.styp)
    (hvideo : r'.videoTrack = r.videoTrack) (haudio : r'.audioTrack = r.audioTrack) :
    Grows r r' [] [] [] := by
  refine ⟨?_, by rw [hpayload, append_nil], htimeline, hstyp, hvideo, haudio⟩
  rw [hstock, Stock.join, append_nil, append_nil]

theorem Stock.join_nil (k : Stock) : k.join [] [] = k := by rw [Stock.join, append_nil, append_nil]

/-- An attempt does not look at the place in the stream. -/
theorem attempt_of_reset {completed : Bool} (h : Orderly r.resetBoxState) (hmode : cfg.cueMode = false)
    (hbuild : r.resetBoxState.tryBuildSegment cfg = .ok (t, completed)) :
    ∃ t₁, r.tryBuildSegment cfg = .ok (t₁, completed) ∧ t₁.resetBoxState = t := by
  have hgrows : Grows r.resetBoxState r [] [] [] := .of_stock rfl rfl rfl rfl rfl rfl
  cases completed with
  | false =>
    obtain ⟨rfl, -⟩ := tryBuildSegment_eq_false_iff.mp hbuild
    exact ⟨r, hgrows.idle hmode hbuild, rfl⟩
  | true =>
    refine ⟨_, hgrows.emits hmode h.video h.audio hbuild, ?_⟩
    rw [Stock.join_nil]
    exact (attempt_eq_withStock hbuild).symm

/-- A byte fails; nothing is due; or the attempt that is due is made, or fails. -/
inductive Intake (cfg : Config) : Except Failure (Reader × Bool) → Except Failure (Reader × Bool) → Prop
  | failed (f : Failure) : Intake cfg (.error f) (.error f)
  | taken (r' : Reader) : Intake cfg (.ok (r', false)) (.ok (r', false))
  | attempted (r' t : Reader) (completed : Bool) (hbuild : r'.tryBuildSegment cfg = .ok (t, completed)) :
      Intake cfg (.ok (r', true)) (.ok (t, completed))
  | rejected (r' : Reader) (e : String) (f : Failure) (hbuild : r'.tryBuildSegment cfg = .error e)
      (hinits : f.reader.inits = r'.inits) (hsegments : f.reader.segments = r'.segments) :
      Intake cfg (.ok (r', true)) (.error f)

theorem completeBox_flag {completed : Bool} (hmdat : r.currentBoxType ≠ boxMdat)
    (h : r.completeBox cfg = .ok (r', completed)) : completed = false := by
  cases completeBox_cases h with
  | styp => rfl
  | other => rfl
  | moof => rfl
  | mdat htype => exact absurd htype hmdat

theorem completeBox_mdat (htype : r.currentBoxType = boxMdat) :
    r.completeBox cfg = (do
      let r ← r.completeMdat
      r.tryBuildSegment cfg) := by
  rw [completeBox, if_neg (by rw [htype]; decide), if_neg (by rw [htype]; decide),
    if_neg (by rw [htype]; decide), if_neg (by rw [htype]; decide), if_pos htype]

theorem intake_of_finish (h : Orderly r) (hfull : r.boxHeaderRequired ≤ r.boxHeader.length)
    (hmode : cfg.cueMode = false) :
    Intake cfg (failAt r (r.takeFinish cfg)) (failAt r (r.finishBox cfg)) := by
  have hnext := fun {r' : Reader} {due : Bool} => @Orderly.takeFinish cfg r r' due h hfull
  rw [takeFinish] at hnext ⊢
  rw [finishBox]
  split
  · rename_i hzero
    rw [if_pos hzero, takeBox] at hnext
    rw [takeBox]
    split
    · rename_i hmdat
      rw [if_pos hmdat] at hnext
      rw [completeBox_mdat hmdat]
      cases hcomplete : r.completeMdat with
      | error e => exact .failed ⟨r, e⟩
      | ok r₁ =>
        have horderly : Orderly r₁.resetBoxState := by
          refine @hnext _ true ?_
          rw [hcomplete]
          rfl
        have hsame : r₁.inits = r.inits ∧ r₁.segments = r.segments := by
          obtain ⟨f, g, kind, video, audio, -, -, -, -, rfl⟩ := completeMdat_cases hcomplete
          exact ⟨rfl, rfl⟩
        simp only [ok_bind]
        cases hbuild : r₁.resetBoxState.tryBuildSegment cfg with
        | error e =>
          -- an attempt does not look at the box that was completed
          have hgrows : Grows r₁.resetBoxState r₁ [] [] [] := .of_stock rfl rfl rfl rfl rfl rfl
          rw [hgrows.fails hmode horderly.video horderly.audio hbuild]
          exact .rejected _ e ⟨r, e⟩ hbuild hsame.1.symm hsame.2.symm
        | ok result =>
          obtain ⟨t, completed⟩ := result
          obtain ⟨t₁, hattempt, rfl⟩ := attempt_of_reset horderly hmode hbuild
          rw [hattempt]
          exact .attempted _ _ completed hbuild
    · rename_i hmdat
      cases hbox : r.completeBox cfg with
      | error e => exact .failed ⟨r, e⟩
      | ok result =>
        obtain ⟨r₁, completed⟩ := result
        obtain rfl := completeBox_flag hmdat hbox
        exact .taken _
  · exact .taken r

/-- **A byte is taken, and the attempt that is due follows.** -/
theorem intake (h : Orderly r) (hmode : cfg.cueMode = false) (b : UInt8) :
    Intake cfg (r.takeByte cfg b) (r.feed cfg b) := by
  rw [takeByte, feed, byteStep, byteStep]
  cases henter : r.enter b with
  | error f => exact .failed f
  | ok result =>
    obtain ⟨r₁, _ | _⟩ := result
    · exact .taken r₁
    · obtain ⟨horderly, hfull⟩ := h.enters (Reader.enters henter)
      exact intake_of_finish horderly (hfull rfl) hmode

/-! ## Between a `moof` and the end of its `mdat` -/

/-- A step adds these fragments and this payload, whatever the stock. -/
structure Takes (step : Reader → Except Failure (Reader × Bool)) (r r' : Reader) (due : Bool)
    (video audio : List Fragment) (payload : Bytes) : Prop where
  grows : Grows r r' video audio payload
  quiet : due = false → video = [] ∧ audio = []
  inits : r'.inits = r.inits
  any : ∀ k : Stock, step (r.withStock k) = .ok (r'.withStock (k.join video audio), due)

theorem Grows.trans {r₂ : Reader} {v₁ v₂ a₁ a₂ : List Fragment} {p₁ p₂ : Bytes}
    (h₁ : Grows r r₁ v₁ a₁ p₁) (h₂ : Grows r₁ r₂ v₂ a₂ p₂) :
    Grows r r₂ (v₁ ++ v₂) (a₁ ++ a₂) (p₁ ++ p₂) := by
  refine ⟨?_, ?_, h₂.timeline.trans h₁.timeline, h₂.styp.trans h₁.styp,
    h₂.videoTrack.trans h₁.videoTrack, h₂.audioTrack.trans h₁.audioTrack⟩
  · rw [h₂.stock, h₁.stock]
    simp only [Stock.join, append_assoc]
  · rw [h₂.sourcePayload, h₁.sourcePayload, append_assoc]

/-- A box begins in the window: the `mdat`, a `sidx`, or a prefix box. -/
theorem beginBox_window (hdone : r.initDone = true) (hpending : r.pending ≠ none)
    (hbegin : r.beginBox size headerSize = .ok r₁) :
    (r₁.prefixBuf = r.prefixBuf ++ r.boxHeader ∧ r₁.currentTarget = .prefixBox) ∨
      ((r₁.currentBoxType = boxMdat ∨ r₁.currentBoxType = boxSidx) ∧ r₁.currentTarget ≠ .prefixBox ∧
        Grows r r₁ [] [] [] ∧ r₁.inits = r.inits ∧
          ∀ k : Stock, (r.withStock k).beginBox size headerSize = .ok (r₁.withStock k)) := by
  have hend : ∀ q : Reader, q.initDone = true → q.endInit = .ok q := by
    intro q hq
    rw [endInit, if_neg (by simp [hq])]
  simp only [beginBox, bind_eq_ok, require_eq_ok] at hbegin
  obtain ⟨-, hle, -, hmax, r₀, hr₀, hmedia⟩ := hbegin
  rw [hend _ (by exact hdone)] at hr₀
  cases hr₀
  rw [if_neg (by simp [hdone])] at hmedia
  have hcases := beginMediaBox_cases hmedia
  simp only [beginMediaBox, bind_eq_ok, require_eq_ok] at hmedia
  obtain ⟨-, hfinal, -, hmfra, -⟩ := hmedia
  have hany : ∀ {k : Stock} {q : Reader},
      ({ r.withStock k with currentBoxRemaining := size - headerSize, currentTarget := .none }).beginMediaBox
        size headerSize = .ok q → (r.withStock k).beginBox size headerSize = .ok q := by
    intro k q hq
    simp only [beginBox, bind_eq_ok, require_eq_ok]
    refine ⟨(), hle, (), hmax, _, hend _ (by exact hdone), ?_⟩
    rw [if_neg (by simp [withStock, hdone])]
    exact hq
  have hmfra' : r.currentBoxType ≠ boxMoov → r.sourceMfraDone = false := by
    intro hne
    by_contra htrue
    exact hne (hmfra (by simpa using htrue))
  cases hcases with
  -- a second `moof`, a `styp` or a terminal box is refused while one waits
  | moof _ hnone => exact absurd hnone hpending
  | mdat htype _ =>
    have htype : r.currentBoxType = boxMdat := htype
    refine .inr ⟨.inl htype, fun h => (by cases h), .of_stock rfl rfl rfl rfl rfl rfl, rfl, fun k => hany ?_⟩
    exact beginMediaBox_mdat (by exact hfinal) (by exact hmfra' (htype ▸ by decide)) (by exact htype)
      (by exact hpending) size headerSize
  | sidx htype =>
    have htype : r.currentBoxType = boxSidx := htype
    refine .inr ⟨.inr htype, fun h => (by cases h), .of_stock rfl rfl rfl rfl rfl rfl, rfl, fun k => hany ?_⟩
    exact beginMediaBox_sidx (by exact hfinal) (by exact hmfra' (htype ▸ by decide)) (by exact htype)
      size headerSize
  | styp _ hnone => exact absurd hnone hpending
  | prefixBox htype =>
    exact .inl ⟨rfl, rfl⟩
  | terminal _ hnone => exact absurd hnone hpending

/-- The fragment of an `mdat` joins its queue, whatever is in it. -/
theorem completeMdat_any (h : r.completeMdat = .ok r') :
    ∃ video audio, Grows r r' video audio [] ∧ r'.inits = r.inits ∧
      ∀ k : Stock, (r.withStock k).completeMdat = .ok (r'.withStock (k.join video audio)) := by
  rw [completeMdat] at h
  split at h
  · cases h
  · rename_i f hf
    simp only [bind_eq_ok, pure_eq_ok] at h
    obtain ⟨g, hattach, r₁, henqueue, rfl⟩ := h
    have hany : ∀ {k : Stock} {q : Reader}, (r.withStock k).enqueue g = .ok q →
        (r.withStock k).completeMdat = .ok { q with
          pending := none, sourcePayloadFromMoof := 0, currentPayloadStart := 0, sourceMoof := [] } := by
      intro k q hq
      rw [completeMdat]
      split
      · rename_i hnone
        exact absurd (hf.symm.trans hnone) (by simp)
      · rename_i f' hf'
        obtain rfl : f = f' := Option.some.inj (hf.symm.trans hf')
        simp only [bind_eq_ok, pure_eq_ok]
        exact ⟨g, hattach, q, hq, rfl⟩
    rw [enqueue] at henqueue
    split at henqueue
    · rename_i hid
      cases henqueue
      refine ⟨[g], [], ⟨?_, (append_nil _).symm, rfl, rfl, rfl, rfl⟩, rfl, fun k => ?_⟩
      · simp only [stock, Stock.join, append_nil]
      · refine (hany (if_pos hid)).trans ?_
        simp only [withStock, Stock.join, append_nil]
    · rename_i hid
      split at henqueue
      · rename_i haudio
        cases henqueue
        refine ⟨[], [g], ⟨?_, (append_nil _).symm, rfl, rfl, rfl, rfl⟩, rfl, fun k => ?_⟩
        · simp only [stock, Stock.join, append_nil]
        · refine (hany ((if_neg hid).trans (if_pos haudio))).trans ?_
          simp only [withStock, Stock.join, append_nil]
      · cases henqueue

/-- The end of an `mdat` or a `sidx`. -/
theorem takeFinish_window (htype : r.currentBoxType = boxMdat ∨ r.currentBoxType = boxSidx)
    (hfinish : r.takeFinish cfg = .ok (r', due)) :
    ∃ video audio, Grows r r' video audio [] ∧ (due = false → video = [] ∧ audio = []) ∧
      r'.inits = r.inits ∧
      ∀ k : Stock, (r.withStock k).takeFinish cfg = .ok (r'.withStock (k.join video audio), due) := by
  rw [takeFinish] at hfinish
  split at hfinish
  · rename_i hzero
    simp only [bind_eq_ok, Prod.exists, pure_eq_ok, Prod.mk.injEq] at hfinish
    obtain ⟨r₁, due₁, hbox, rfl, rfl⟩ := hfinish
    have hany : ∀ {k : Stock} {q : Reader} {d : Bool}, (r.withStock k).takeBox cfg = .ok (q, d) →
        (r.withStock k).takeFinish cfg = .ok (q.resetBoxState, d) := by
      intro k q d hq
      rw [takeFinish, if_pos (show (r.withStock k).currentBoxRemaining = 0 from hzero), hq]
      rfl
    rw [takeBox] at hbox
    rcases htype with htype | htype
    · rw [if_pos htype] at hbox
      simp only [bind_eq_ok, pure_eq_ok, Prod.mk.injEq] at hbox
      obtain ⟨r₁, hmdat, rfl, rfl⟩ := hbox
      obtain ⟨video, audio, hgrows, hinits, hk⟩ := completeMdat_any hmdat
      have hreset : Grows r₁ r₁.resetBoxState [] [] [] := .of_stock rfl rfl rfl rfl rfl rfl
      refine ⟨video, audio, ?_, by simp, hinits, fun k => ?_⟩
      · simpa using hgrows.trans hreset
      · refine @hany k (r₁.withStock (k.join video audio)) true ?_
        rw [takeBox, if_pos (show (r.withStock k).currentBoxType = boxMdat from htype), hk k]
        rfl
    · have hne : r.currentBoxType ≠ boxMdat := htype ▸ by decide
      have hskip : ∀ q : Reader, q.currentBoxType = boxSidx → q.completeBox cfg = .ok (q, false) := by
        intro q hq
        rw [completeBox, if_neg (by rw [hq]; decide), if_neg (by rw [hq]; decide),
          if_neg (by rw [hq]; decide), if_neg (by rw [hq]; decide), if_neg (by rw [hq]; decide)]
      rw [if_neg hne, hskip r htype] at hbox
      cases hbox
      refine ⟨[], [], .of_stock rfl rfl rfl rfl rfl rfl, fun _ => ⟨rfl, rfl⟩, rfl, fun k => ?_⟩
      rw [Stock.join_nil]
      refine @hany k (r.withStock k) false ?_
      rw [takeBox, if_neg (show (r.withStock k).currentBoxType ≠ boxMdat from hne)]
      exact hskip _ htype
  · rename_i hpos
    cases hfinish
    refine ⟨[], [], .of_stock rfl rfl rfl rfl rfl rfl, fun _ => ⟨rfl, rfl⟩, rfl, fun k => ?_⟩
    rw [Stock.join_nil, takeFinish, if_neg (show (r.withStock k).currentBoxRemaining ≠ 0 from hpos)]

theorem prefixBuf_of_takeFinish (hfinish : r.takeFinish cfg = .ok (r', due)) : r'.prefixBuf = r.prefixBuf := by
  rw [takeFinish] at hfinish
  split at hfinish
  · simp only [bind_eq_ok, Prod.exists, pure_eq_ok, Prod.mk.injEq] at hfinish
    obtain ⟨r₁, due₁, hbox, rfl, rfl⟩ := hfinish
    show r₁.prefixBuf = r.prefixBuf
    rw [takeBox] at hbox
    split at hbox
    · simp only [bind_eq_ok, pure_eq_ok, Prod.mk.injEq] at hbox
      obtain ⟨r₁, hmdat, rfl, rfl⟩ := hbox
      obtain ⟨video, audio, hgrows, -⟩ := completeMdat_any hmdat
      exact congrArg Stock.prefixBuf hgrows.stock
    · rename_i hmdat
      cases completeBox_cases hbox with
      | styp => rfl
      | other => rfl
      | moof htype hmoof =>
        obtain ⟨f, video, audio, fromMoof, vh, vt, ah, at', -, -, -, rfl⟩ := completeMoof_cases hmoof
        rfl
      | mdat htype => exact absurd htype hmdat
  · cases hfinish
    rfl

theorem Enters.enter {opened : Bool} (h : Enters r b r' opened) : r.enter b = .ok (r', opened) := by
  have hheader : r.boxHeader.length < r.boxHeaderRequired → r.enter b =
      if r.boxHeader.length + 1 < r.boxHeaderRequired then
        .ok ({ r with boxHeader := r.boxHeader ++ [b] }, false)
      else openBox { r with boxHeader := r.boxHeader ++ [b] } := by
    intro hshort
    rw [Reader.enter, if_pos hshort]
    simp only [length_append, length_singleton]
  cases h with
  | more hmore => rw [hheader (by omega), if_pos hmore]
  | wide hrequired hlen hone =>
    rw [hheader (by omega), if_neg (by omega), openBox, if_pos hrequired]
    exact if_pos hone
  | short hrequired hlen hone hbegin =>
    have hsize := (beginBox_cases hbegin).1
    rw [hheader (by omega), if_neg (by omega), openBox, if_pos hrequired]
    refine (if_neg hone).trans ?_
    rw [require_of _ (show be32 (r.boxHeader ++ [b]) 0 ≠ 0 by omega), hbegin]
    rfl
  | long hrequired hlen hbegin =>
    rw [hheader (by omega), if_neg (by omega), openBox, if_neg hrequired, hbegin]
    rfl
  | body hfull => rw [Reader.enter, if_neg (by omega)]

/-- A byte enters in the window: it is of a prefix box, and shows in the buffer in front of the next segment, or
it adds payload at most, whatever the stock, and a box under way is the `mdat` or a `sidx`. -/
theorem enters_window {opened : Bool} (h : Orderly r) (hpending : r.pending ≠ none)
    (henters : Enters r b r₁ opened) :
    (opened = true ∧ r₁.currentTarget = .prefixBox ∧ r₁.prefixBuf ≠ r.prefixBuf) ∨
      (opened = true → (r₁.currentBoxType = boxMdat ∨ r₁.currentBoxType = boxSidx) ∧
        r₁.currentTarget ≠ .prefixBox) ∧
        r₁.inits = r.inits ∧
        ∃ payload, Grows r r₁ [] [] payload ∧
          ∀ k : Stock, Enters (r.withStock k) b (r₁.withStock k) opened := by
  have hdone := h.pending hpending
  cases henters with
  | more hmore => exact .inr ⟨by simp, rfl, [], .of_stock rfl rfl rfl rfl rfl rfl, fun k => .more hmore⟩
  | wide hrequired hlen hone =>
    exact .inr ⟨by simp, rfl, [], .of_stock rfl rfl rfl rfl rfl rfl, fun k => .wide hrequired hlen hone⟩
  | short hrequired hlen hone hbegin =>
    have hsame : Grows r
        { r with boxHeader := r.boxHeader ++ [b], currentBoxType := be32 (r.boxHeader ++ [b]) 4 } [] [] [] :=
      .of_stock rfl rfl rfl rfl rfl rfl
    rcases beginBox_window (by exact hdone) (by exact hpending) hbegin with
      ⟨hfront, htarget⟩ | ⟨htype, htarget, hgrows, hinits, hany⟩
    · exact .inl ⟨rfl, htarget, by simp [hfront]⟩
    · exact .inr ⟨fun _ => ⟨htype, htarget⟩, hinits, [], by simpa using hsame.trans hgrows,
        fun k => .short hrequired hlen hone (hany k)⟩
  | long hrequired hlen hbegin =>
    have hsame : Grows r { r with boxHeader := r.boxHeader ++ [b] } [] [] [] :=
      .of_stock rfl rfl rfl rfl rfl rfl
    rcases beginBox_window (by exact hdone) (by exact hpending) hbegin with
      ⟨hfront, htarget⟩ | ⟨htype, htarget, hgrows, hinits, hany⟩
    · exact .inl ⟨rfl, htarget, by simp [hfront]⟩
    · exact .inr ⟨fun _ => ⟨htype, htarget⟩, hinits, [], by simpa using hsame.trans hgrows,
        fun k => .long hrequired hlen (hany k)⟩
  | body hfull =>
    by_cases htarget : r.currentTarget = .prefixBox
    · refine .inl ⟨rfl, htarget, fun hsame => ?_⟩
      simpa using (if_pos htarget).symm.trans hsame
    · have htype : r.currentBoxType = boxMdat ∨ r.currentBoxType = boxSidx := by
        rcases h.window hpending hfull with ⟨htype, -⟩ | ⟨htype, -⟩ | hprefix
        · exact .inl htype
        · exact .inr htype
        · exact absurd hprefix htarget
      -- what is written depends on the target only
      have hcommutes (k : Stock) : (r.withStock k).writeByte b = (r.writeByte b).withStock k :=
        congrArg (fun buffer => { (r.writeByte b).withStock k with prefixBuf := buffer }) (if_neg htarget)
      refine .inr ⟨fun _ => ⟨htype, htarget⟩, rfl, if r.currentTarget = .payload then [b] else [],
        ⟨?_, ?_, rfl, rfl, rfl, rfl⟩, fun k => ?_⟩
      · simp [stock, Stock.join, writeByte, writeCurrentBoxData, htarget]
      · show (if r.currentTarget = .payload then r.sourcePayload ++ [b] else r.sourcePayload) = _
        split <;> simp
      · rw [← hcommutes k]
        exact .body hfull

/-- **Between a `moof` and the end of its `mdat`** a byte that is not of a prefix box is taken the same way,
whatever attempts there were. -/
theorem takes_of_window (h : Orderly r) (hpending : r.pending ≠ none)
    (htake : r.takeByte cfg b = .ok (r', due)) (hbuf : r'.prefixBuf = r.prefixBuf) :
    ∃ video audio payload, Takes (·.takeByte cfg b) r r' due video audio payload := by
  rcases byteStep_cases htake with ⟨henters, rfl⟩ | ⟨r₁, henters, hfinish⟩
  · rcases enters_window h hpending henters with ⟨hopen, -⟩ | ⟨-, hinits, payload, hgrows, hany⟩
    · cases hopen
    · refine ⟨[], [], payload, ⟨hgrows, fun _ => ⟨rfl, rfl⟩, hinits, fun k => ?_⟩⟩
      show byteStep (takeFinish cfg) (r.withStock k) b = _
      rw [byteStep, (hany k).enter, Stock.join_nil]
      rfl
  · rcases enters_window h hpending henters with ⟨-, -, hne⟩ | ⟨htype, hinits, payload, hgrows, hany⟩
    · exact absurd ((prefixBuf_of_takeFinish hfinish).symm.trans hbuf) hne
    · obtain ⟨video, audio, hgrows₁, hquiet, hinits₁, hany₁⟩ := takeFinish_window (htype rfl).1 hfinish
      refine ⟨video, audio, payload,
        ⟨by simpa using hgrows.trans hgrows₁, hquiet, hinits₁.trans hinits, fun k => ?_⟩⟩
      show byteStep (takeFinish cfg) (r.withStock k) b = _
      rw [byteStep, (hany k).enter]
      exact failAt_eq_ok.mpr (hany₁ k)

end TorrServer.Gstreamer.Mp4.Reader
