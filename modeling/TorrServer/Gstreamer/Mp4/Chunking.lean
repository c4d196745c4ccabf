/-
# Gstreamer.Mp4.Chunking — a stream in chunks.

`Push` attempts a segment before it looks at its chunk, so the chunks decide at which bytes there are attempts
besides the one at the end of every `mdat`. The reader is a `Polled` machine: its polls are the attempts, its
inputs the bytes.

An attempt in between finds something only after a `moof` that has re-timed the last fragment of the audio.
Until the `mdat` of that `moof` is complete, `Harmless` bytes may come (`harmless_iff`); in a `Calm` stream no
others do, as in one with explicit durations (`calm_of_good`).
-/
import TorrServer.Lib.Polling
import TorrServer.Gstreamer.Mp4.Intake
import TorrServer.Gstreamer.Mp4.EndOfStream
import TorrServer.Gstreamer.Mp4.Delivery

namespace TorrServer.Gstreamer.Mp4

open Lib

namespace Reader

variable {cfg : Config} {r r' t : Reader} {b : UInt8} {due completed : Bool} {data : Bytes}

/-- What a reader has given: the initialization and the segments. -/
def given (r : Reader) : List Bytes × List Segment := (r.inits, r.segments)

/-- The reader as a machine that is polled by attempts. -/
def machine (cfg : Config) : Polled Reader UInt8 (List Bytes × List Segment) where
  out := given
  poll r := (r.tryBuildSegment cfg).toOption
  take r b :=
    match r.takeByte cfg b with
    | .ok result => .ok result
    | .error f => .error f.reader.given
  size r := r.video.length
  poll_false := by
    intro r t hpoll
    exact (tryBuildSegment_eq_false_iff.mp (toOption_eq_some.mp hpoll)).1
  poll_lt := by
    intro r t hpoll
    exact video_length_of_attempt (toOption_eq_some.mp hpoll)

/-- The byte goes on with the `mdat` that is due, or with a `sidx` before it, and without an error. -/
def Harmless (cfg : Config) (r : Reader) (b : UInt8) : Prop :=
  r.pending ≠ none ∧
    match r.takeByte cfg b with
    | .ok (r', _) => r'.prefixBuf = r.prefixBuf
    | .error _ => False

instance (cfg : Config) (r : Reader) (b : UInt8) : Decidable (Harmless cfg r b) := by
  unfold Harmless
  split <;> infer_instance

theorem poll_eq_some : (machine cfg).poll r = some (t, completed) ↔
    r.tryBuildSegment cfg = .ok (t, completed) := toOption_eq_some

theorem poll_eq_none : (machine cfg).poll r = none ↔ ∃ e, r.tryBuildSegment cfg = .error e :=
  toOption_eq_none

theorem take_eq_ok : (machine cfg).take r b = .ok (r', due) ↔ r.takeByte cfg b = .ok (r', due) := by
  show (match r.takeByte cfg b with
    | .ok result => Except.ok result
    | .error f => .error f.reader.given) = _ ↔ _
  split <;> rename_i h <;> simp [h]

theorem Harmless.takes (h : Harmless cfg r b) : ∃ r' due, r.takeByte cfg b = .ok (r', due) ∧
    r'.prefixBuf = r.prefixBuf := by
  obtain ⟨-, hmatch⟩ := h
  split at hmatch
  · rename_i r' due htake
    exact ⟨r', due, htake, hmatch⟩
  · exact hmatch.elim

theorem harmless_of_takes (hpending : r.pending ≠ none) (htake : r.takeByte cfg b = .ok (r', due))
    (hbuf : r'.prefixBuf = r.prefixBuf) : Harmless cfg r b := by
  refine ⟨hpending, ?_⟩
  rw [htake]
  exact hbuf

/-- **A byte that is taken in the window is harmless unless it is of a prefix box**: it completes the header of
one, or it is in its body. -/
theorem harmless_iff (hgood : Orderly r) (hpending : r.pending ≠ none)
    (htake : r.takeByte cfg b = .ok (r', due)) :
    Harmless cfg r b ↔ ∀ r₁, Enters r b r₁ true → r₁.currentTarget ≠ .prefixBox := by
  rcases byteStep_cases htake with ⟨henters, rfl⟩ | ⟨r₁, henters, hfinish⟩
  · refine iff_of_true (harmless_of_takes hpending htake ?_) fun r₁ hopens => ?_
    · rcases enters_window hgood hpending henters with ⟨hopen, -⟩ | ⟨-, -, payload, hgrows, -⟩
      · cases hopen
      · exact congrArg Stock.prefixBuf hgrows.stock
    · cases henters.enter.symm.trans hopens.enter
  · have hbuf := prefixBuf_of_takeFinish hfinish
    have honly : (∀ r₂, Enters r b r₂ true → r₂.currentTarget ≠ .prefixBox) ↔
        r₁.currentTarget ≠ .prefixBox := by
      refine ⟨fun h => h r₁ henters, fun h r₂ hopens => ?_⟩
      cases henters.enter.symm.trans hopens.enter
      exact h
    rw [honly]
    rcases enters_window hgood hpending henters with ⟨-, htarget, hne⟩ | ⟨htype, -, payload, hgrows, -⟩
    · refine iff_of_false (fun h => ?_) fun h => h htarget
      obtain ⟨t, due₁, htake₁, hsame⟩ := h.takes
      cases htake₁.symm.trans htake
      exact hne (hbuf.symm.trans hsame)
    · refine iff_of_true (harmless_of_takes hpending htake ?_) (htype rfl).2
      exact hbuf.trans (congrArg Stock.prefixBuf hgrows.stock)

/-- What a harmless byte does. -/
theorem Harmless.window (hgood : Orderly r) (h : Harmless cfg r b)
    (htake : r.takeByte cfg b = .ok (r', due)) :
    ∃ video audio payload, Takes (·.takeByte cfg b) r r' due video audio payload := by
  obtain ⟨r₁, due₁, htake₁, hbuf⟩ := h.takes
  cases htake₁.symm.trans htake
  exact takes_of_window hgood h.1 htake hbuf

/-- **Harmless bytes commute with attempts.** -/
theorem machine_commutes (hmode : cfg.cueMode = false) :
    (machine cfg).Commutes Orderly (Harmless cfg) where
  good_poll hgood hpoll := hgood.attempt (poll_eq_some.mp hpoll)
  good_take hgood htake := hgood.takeByte (take_eq_ok.mp htake)
  takes h := by
    obtain ⟨r', due, htake, -⟩ := h.takes
    exact ⟨r', due, take_eq_ok.mpr htake⟩
  gives := by
    intro r r' t b due hgood h htake hpoll
    have hbuild := poll_eq_some.mp hpoll
    obtain ⟨video, audio, payload, htakes⟩ := h.window hgood (take_eq_ok.mp htake)
    have hpolled := htakes.grows.emits hmode hgood.video hgood.audio hbuild
    -- the attempt changes the stock and nothing else
    have ht : t = r.withStock t.stock := attempt_eq_withStock hbuild
    have htaken : t.takeByte cfg b = .ok (r'.withStock (t.stock.join video audio), due) := by
      rw [ht]
      exact htakes.any t.stock
    refine ⟨_, poll_eq_some.mpr hpolled, take_eq_ok.mpr htaken, harmless_of_takes ?_ htaken rfl⟩
    rw [ht]
    exact h.1
  fails := by
    intro r r' b due hgood h htake hpoll
    obtain ⟨video, audio, payload, htakes⟩ := h.window hgood (take_eq_ok.mp htake)
    obtain ⟨e, hbuild⟩ := poll_eq_none.mp hpoll
    refine ⟨poll_eq_none.mpr ⟨e, htakes.grows.fails hmode hgood.video hgood.audio hbuild⟩, ?_⟩
    exact Prod.ext htakes.inits (congrArg Stock.segments htakes.grows.stock)
  idle := by
    intro r r' b hgood h htake hidle
    obtain ⟨video, audio, payload, htakes⟩ := h.window hgood (take_eq_ok.mp htake)
    obtain ⟨rfl, rfl⟩ := htakes.quiet rfl
    have hbuild := poll_eq_some.mp (Polled.idle_iff.mp hidle)
    exact Polled.idle_iff.mpr (poll_eq_some.mpr (htakes.grows.idle hmode hbuild))

/-! ## On the course of the canonical run -/

variable {o : (List Bytes × List Segment) × Bool} {q : Bytes}

/-- The canonical run goes on from here with `q`, and comes to `o`. -/
structure OnCourse (cfg : Config) (o : (List Bytes × List Segment) × Bool) (q : Bytes) (r : Reader) :
    Prop where
  orderly : Orderly r
  expecting : r.Expecting
  calm : (machine cfg).Calm (Harmless cfg) r q
  comes : (machine cfg).canon r q = o

/-- It does after attempts. -/
structure Tracks (cfg : Config) (o : (List Bytes × List Segment) × Bool) (q : Bytes) (r : Reader) :
    Prop where
  orderly : Orderly r
  expecting : r.Expecting
  calm : (machine cfg).CalmAfter (Harmless cfg) r q
  comes : (machine cfg).predict r q = o

theorem OnCourse.tracks (h : OnCourse cfg o q r) (hmode : cfg.cueMode = false) : Tracks cfg o q r := by
  obtain ⟨hsame, hafter⟩ := (machine_commutes hmode).canon_eq_predict h.orderly h.calm
  exact ⟨h.orderly, h.expecting, hafter, hsame.symm.trans h.comes⟩

theorem Tracks.given (h : Tracks cfg o q r) (hbuild : r.tryBuildSegment cfg = .ok (t, true)) :
    Tracks cfg o q t := by
  have hpoll := poll_eq_some.mpr hbuild
  exact ⟨h.orderly.attempt hbuild, (samePlace_of_attempt hbuild).expecting h.expecting,
    Polled.calmAfter_of_some hpoll h.calm, (Polled.predict_of_some hpoll q).symm.trans h.comes⟩

theorem Tracks.onCourse (h : Tracks cfg o q r) (hbuild : r.tryBuildSegment cfg = .ok (r, false)) :
    OnCourse cfg o q r := by
  have hidle : (machine cfg).Idle r := Polled.idle_iff.mpr (poll_eq_some.mpr hbuild)
  exact ⟨h.orderly, h.expecting, h.calm.calm hidle, (Polled.predict_of_idle hidle q).symm.trans h.comes⟩

theorem Tracks.failed {e : String} (h : Tracks cfg o q r) (hbuild : r.tryBuildSegment cfg = .error e) :
    o = (r.given, false) :=
  h.comes.symm.trans (Polled.predict_of_none (poll_eq_none.mpr ⟨e, hbuild⟩) q)

/-- What bytes can come to: an error, a segment, or neither. -/
def AfterBytes (cfg : Config) (o : (List Bytes × List Segment) × Bool) (q : Bytes) :
    Except Failure (Reader × Bytes × Bool) → Prop
  | .error f => o = (f.reader.given, false)
  | .ok (r, rest, true) => Tracks cfg o (rest ++ q) r
  | .ok (r, rest, false) => rest = [] ∧ OnCourse cfg o q r

/-- **One byte.** -/
theorem OnCourse.feed (h : OnCourse cfg o (b :: q) r) (hmode : cfg.cueMode = false) :
    match r.feed cfg b with
    | .error f => o = (f.reader.given, false)
    | .ok (r', true) => Tracks cfg o q r'
    | .ok (r', false) => OnCourse cfg o q r' := by
  obtain ⟨-, hrest⟩ := h.calm
  have hcomes := h.comes
  rw [Polled.canon] at hcomes
  have hexpecting : ∀ {r' completed}, r.feed cfg b = .ok (r', completed) → r'.Expecting :=
    fun hfeed => feed_expecting hfeed
  have hgood : ∀ {r' due}, r.takeByte cfg b = .ok (r', due) → Orderly r' :=
    fun htake => h.orderly.takeByte htake
  have htakes : ∀ {r' due}, r.takeByte cfg b = .ok (r', due) → (machine cfg).take r b = .ok (r', due) :=
    fun htake => take_eq_ok.mpr htake
  have hintake := intake h.orderly hmode b
  generalize htake : r.takeByte cfg b = taken at hintake
  generalize hfeed : r.feed cfg b = fed at hintake
  cases hintake with
  | failed f =>
    have hfails : (machine cfg).take r b = .error f.reader.given := by
      show (match r.takeByte cfg b with
        | .ok result => Except.ok result
        | .error f => .error f.reader.given) = _
      rw [htake]
    rw [hfails] at hcomes
    exact hcomes.symm
  | taken r' =>
    rw [htakes htake] at hcomes hrest
    exact ⟨hgood htake, hexpecting hfeed, hrest, hcomes⟩
  | attempted r' t completed hbuild =>
    -- the end of an `mdat`: the attempt is the poll that is due
    rw [htakes htake] at hcomes hrest
    cases completed with
    | false =>
      obtain ⟨rfl, -⟩ := tryBuildSegment_eq_false_iff.mp hbuild
      have hidle : (machine cfg).Idle t := Polled.idle_iff.mpr (poll_eq_some.mpr hbuild)
      simp only [Polled.settle_of_idle hidle] at hcomes hrest
      exact ⟨hgood htake, hexpecting hfeed, hrest, hcomes⟩
    | true =>
      have hsettle := Polled.settle_of_some (poll_eq_some.mpr hbuild)
      simp only [hsettle] at hcomes hrest
      refine ⟨(hgood htake).attempt hbuild, hexpecting hfeed, fun u hu => ?_, ?_⟩
      · simp only [hu] at hrest
        exact hrest
      · rw [Polled.predict]
        exact hcomes
  | rejected r' e f hbuild hinits hsegments =>
    rw [htakes htake] at hcomes
    simp only [Polled.settle_of_none (poll_eq_none.mpr ⟨e, hbuild⟩)] at hcomes
    have hgiven : f.reader.given = r'.given := Prod.ext hinits hsegments
    show o = (f.reader.given, false)
    rw [hgiven]
    exact hcomes.symm

/-- **Bytes, one after the other.** -/
theorem OnCourse.feedAll (h : OnCourse cfg o (data ++ q) r) (hmode : cfg.cueMode = false) :
    AfterBytes cfg o q (r.feedAll cfg data) := by
  induction data generalizing r with
  | nil => exact ⟨rfl, h⟩
  | cons b data ih =>
    have hbyte := OnCourse.feed h hmode
    rw [Reader.feedAll]
    cases hfeed : r.feed cfg b with
    | error f =>
      rw [hfeed] at hbyte
      exact hbyte
    | ok result =>
      obtain ⟨r', completed⟩ := result
      rw [hfeed] at hbyte
      rw [ok_bind]
      cases completed with
      | true => exact hbyte
      | false => exact ih hbyte

theorem OnCourse.processBytes (h : OnCourse cfg o (data ++ q) r) (hmode : cfg.cueMode = false) :
    AfterBytes cfg o q (r.processBytes cfg data) := by
  rw [processBytes_eq_feedAll h.expecting]
  exact h.feedAll hmode

/-! ## Calm streams -/

theorem idle_of_described {s : Bytes} (h : AtBoxes (Described cfg) true s r)
    (hgood : Good (topBoxes (s ++ q))) :
    (machine cfg).Idle r := by
  obtain ⟨boxes, cur, hframing, hdescribed⟩ := h
  obtain ⟨more, hmore⟩ := hframing.topBoxes_more q
  rw [hmore] at hgood
  have hnothing := (hdescribed.content hgood.of_append).2 (.inl rfl)
  exact Polled.idle_iff.mpr (poll_eq_some.mpr (tryBuildSegment_eq_false_iff.mpr ⟨rfl, hnothing⟩))

/-- Attempts until nothing is ready. -/
theorem described_settle {quiet : Bool} {s : Bytes} (h : AtBoxes (Described cfg) quiet s r) (hgood : Orderly r)
    (hsettle : (machine cfg).settle r = (t, true)) : AtBoxes (Described cfg) true s t ∧ Orderly t := by
  induction r using (machine cfg).poll_induction generalizing quiet with
  | hnone r hpoll =>
    rw [Polled.settle_of_none hpoll] at hsettle
    cases hsettle
  | hidle r hidle =>
    rw [Polled.settle_of_idle hidle] at hsettle
    cases hsettle
    exact ⟨described_kept.kept.attempt h (poll_eq_some.mp (Polled.idle_iff.mp hidle)), hgood⟩
  | hsome r u hpoll ih =>
    have hbuild := poll_eq_some.mp hpoll
    rw [Polled.settle_of_some hpoll] at hsettle
    exact ih (described_kept.kept.attempt h hbuild) (hgood.attempt hbuild) hsettle

/-- Where nothing is ready, the rest of a stream is calm. -/
theorem calm_of_described {s : Bytes} (hmode : cfg.cueMode = false) (h : AtBoxes (Described cfg) true s r)
    (horderly : Orderly r) (hgood : Good (topBoxes (s ++ q))) : (machine cfg).Calm (Harmless cfg) r q := by
  induction q generalizing s r with
  | nil => exact idle_of_described h hgood
  | cons b q ih =>
    have hgood' : Good (topBoxes (s ++ [b] ++ q)) := by rwa [List.append_assoc]
    have hintake := intake horderly hmode b
    generalize hfeed : r.feed cfg b = fed at hintake
    refine ⟨.inl (idle_of_described h hgood), ?_⟩
    split
    · trivial
    · rename_i t htake
      have htaken := take_eq_ok.mp htake
      rw [htaken] at hintake
      cases hintake with
      | taken => exact ih (described_kept.kept.feed h hfeed) (horderly.takeByte htaken) hgood'
    · rename_i t htake
      have htaken := take_eq_ok.mp htake
      rw [htaken] at hintake
      split
      · rename_i u hsettle
        cases hintake with
        | attempted _ t' completed hbuild =>
          have hfed := described_kept.kept.feed h hfeed
          have hsettle' : (machine cfg).settle t' = (u, true) := by
            cases completed with
            | false => rwa [(tryBuildSegment_eq_false_iff.mp hbuild).1]
            | true => rwa [← Polled.settle_of_some (poll_eq_some.mpr hbuild)]
          obtain ⟨hat, hsettled⟩ := described_settle hfed ((horderly.takeByte htaken).attempt hbuild) hsettle'
          exact ih hat hsettled hgood'
        | rejected _ e f hbuild =>
          rw [Polled.settle_of_none (poll_eq_none.mpr ⟨e, hbuild⟩)] at hsettle
          cases hsettle
      · trivial

/-- **Explicit durations make a stream calm**: every `moof` can be parsed without a hint, so that nothing is
re-timed, and every `mdat` has the bytes of its samples. -/
theorem calm_of_good {timeline : Timeline} {stream : Bytes} (hmode : cfg.cueMode = false)
    (hgood : Good (topBoxes stream)) : (machine cfg).Calm (Harmless cfg) { timeline := timeline } stream := by
  have hidle : Reader.tryBuildSegment cfg { timeline := timeline } = .ok ({ timeline := timeline }, false) :=
    tryBuildSegment_eq_false_iff.mpr ⟨rfl, nothingReady_of_video rfl⟩
  have hstart := described_kept.kept.attempt (described_start cfg timeline) hidle
  exact calm_of_described hmode hstart (orderly_start timeline) hgood

end Reader

namespace BoxReader

open Reader

variable {cfg : Config} {r r' : BoxReader} {o : (List Bytes × List Segment) × Bool} {q data : Bytes}

/-! ## Calls -/

/-- `TryProcessDeferred` until it gives no segment; `none` if the last call still gave one. -/
def tryProcessAllDeferred (cfg : Config) : Nat → BoxReader → Except Failure (Option BoxReader)
  | 0, _ => .ok none
  | calls + 1, r => do
      let (r, completed) ← r.tryProcessDeferred cfg
      if completed then tryProcessAllDeferred cfg calls r else return some r

/-- What a new reader gives for a stream in chunks, and whether it does so without an error. -/
def produced (cfg : Config) (timeline : Timeline)
    (chunks : List Bytes) : Option ((List Bytes × List Segment) × Bool) :=
  let result := do
    let r ← chunks.foldlM (push cfg) (⟨{ timeline := timeline }, []⟩ : BoxReader)
    r.tryProcessAllDeferred cfg (r.reader.video.length + r.deferred.length + 1)
  match result with
  | .error f => some (f.reader.given, false)
  | .ok none => none
  | .ok (some r) => some (r.reader.given, true)

/-- What a call can come to: an error, a segment, or neither. -/
def AfterCall (cfg : Config) (o : (List Bytes × List Segment) × Bool) (q : Bytes) :
    Except Failure (BoxReader × Bool) → Prop
  | .error f => o = (f.reader.given, false)
  | .ok (r, true) => Tracks cfg o (r.deferred ++ q) r.reader
  | .ok (r, false) => r.deferred = [] ∧ OnCourse cfg o q r.reader

/-- **`TryProcessDeferred`.** -/
theorem tryProcessDeferred_of_tracks (h : Tracks cfg o (r.deferred ++ q) r.reader)
    (hmode : cfg.cueMode = false) : AfterCall cfg o q (r.tryProcessDeferred cfg) := by
  obtain ⟨reader, deferred⟩ := r
  rw [BoxReader.tryProcessDeferred]
  cases hbuild : reader.tryBuildSegment cfg with
  | error e =>
    show o = (reader.given, false)
    exact h.failed hbuild
  | ok result =>
    obtain ⟨t, completed⟩ := result
    cases completed with
    | true =>
      show Tracks cfg o (deferred ++ q) t
      exact h.given hbuild
    | false =>
      obtain ⟨rfl, -⟩ := tryBuildSegment_eq_false_iff.mp hbuild
      have hcourse := h.onCourse hbuild
      rw [failAt, ok_bind]
      dsimp only at hcourse ⊢
      rw [if_neg (by simp)]
      split
      · rename_i hempty
        subst hempty
        exact ⟨rfl, hcourse⟩
      · have hbytes := hcourse.processBytes hmode
        cases hprocess : t.processBytes cfg deferred with
        | error f =>
          rw [hprocess] at hbytes
          exact hbytes
        | ok result =>
          obtain ⟨t', rest, completed⟩ := result
          rw [hprocess] at hbytes
          rw [ok_bind]
          cases completed with
          | true => exact hbytes
          | false =>
            obtain ⟨rfl, hcourse'⟩ := hbytes
            exact ⟨rfl, hcourse'⟩

/-- **`Push`.** -/
theorem push_of_tracks (h : Tracks cfg o (r.deferred ++ (data ++ q)) r.reader) (hmode : cfg.cueMode = false)
    (hdata : data ≠ []) :
    match r.push cfg data with
    | .error f => o = (f.reader.given, false)
    | .ok r' => Tracks cfg o (r'.deferred ++ q) r'.reader := by
  have hcall := tryProcessDeferred_of_tracks h hmode
  rw [BoxReader.push, if_neg hdata]
  cases hdeferred : r.tryProcessDeferred cfg with
  | error f =>
    rw [hdeferred] at hcall
    exact hcall
  | ok result =>
    obtain ⟨r₁, completed⟩ := result
    rw [hdeferred] at hcall
    rw [ok_bind]
    cases completed with
    | true =>
      show Tracks cfg o ((r₁.deferred ++ data) ++ q) r₁.reader
      rw [List.append_assoc]
      exact hcall
    | false =>
      obtain ⟨hempty, hcourse⟩ := hcall
      have hbytes := hcourse.processBytes hmode
      dsimp only
      rw [if_neg (by simp)]
      cases hprocess : r₁.reader.processBytes cfg data with
      | error f =>
        rw [hprocess] at hbytes
        exact hbytes
      | ok result =>
        obtain ⟨t, rest, completed⟩ := result
        rw [hprocess] at hbytes
        rw [ok_bind]
        cases completed with
        | true =>
          show Tracks cfg o ((r₁.deferred ++ rest) ++ q) t
          rw [hempty]
          exact hbytes
        | false =>
          show Tracks cfg o (r₁.deferred ++ q) t
          rw [hempty]
          exact hbytes.2.tracks hmode

/-- **All chunks**, one after the other. -/
theorem pushAll_of_tracks {chunks : List Bytes} (h : Tracks cfg o (r.deferred ++ chunks.flatten) r.reader)
    (hmode : cfg.cueMode = false) (hchunks : ∀ data ∈ chunks, data ≠ []) :
    match chunks.foldlM (push cfg) r with
    | .error f => o = (f.reader.given, false)
    | .ok r' => Tracks cfg o r'.deferred r'.reader := by
  induction chunks generalizing r with
  | nil =>
    show Tracks cfg o r.deferred r.reader
    simpa using h
  | cons data chunks ih =>
    rw [List.flatten_cons] at h
    have hpush := push_of_tracks h hmode (hchunks data (List.mem_cons_self ..))
    rw [List.foldlM_cons]
    cases hcall : r.push cfg data with
    | error f =>
      rw [hcall] at hpush
      exact hpush
    | ok r₁ =>
      rw [hcall] at hpush
      rw [ok_bind]
      exact ih hpush fun data hdata => hchunks data (List.mem_cons_of_mem _ hdata)

/-- **The calls after the last chunk** end, and come to what the canonical run comes to. -/
theorem tryProcessAllDeferred_of_tracks {n : Nat} (h : Tracks cfg o r.deferred r.reader)
    (hmode : cfg.cueMode = false) (hn : r.reader.video.length + r.deferred.length < n) :
    match r.tryProcessAllDeferred cfg n with
    | .error f => o = (f.reader.given, false)
    | .ok none => False
    | .ok (some r') => o = (r'.reader.given, true) := by
  induction n generalizing r with
  | zero => omega
  | succ n ih =>
    have hcall := tryProcessDeferred_of_tracks (q := []) (by rw [List.append_nil]; exact h) hmode
    rw [BoxReader.tryProcessAllDeferred]
    cases hdeferred : r.tryProcessDeferred cfg with
    | error f =>
      rw [hdeferred] at hcall
      exact hcall
    | ok result =>
      obtain ⟨r₁, completed⟩ := result
      rw [hdeferred] at hcall
      rw [ok_bind]
      cases completed with
      | true =>
        have htracks : Tracks cfg o (r₁.deferred ++ []) r₁.reader := hcall
        rw [List.append_nil] at htracks
        obtain ⟨-, hless, -⟩ := tryProcessDeferred_progress h.expecting hdeferred
        have hlt := hless rfl
        exact ih htracks (by omega)
      | false =>
        -- nothing is ready at the end of a calm stream
        obtain ⟨-, hcourse⟩ := hcall
        exact hcourse.comes.symm

/-- What a calm stream gives. -/
theorem produced_eq_canon {timeline : Timeline} {chunks : List Bytes} (hmode : cfg.cueMode = false)
    (hchunks : ∀ data ∈ chunks, data ≠ [])
    (hcalm : (machine cfg).Calm (Harmless cfg) { timeline := timeline } chunks.flatten) :
    produced cfg timeline chunks = some ((machine cfg).canon { timeline := timeline } chunks.flatten) := by
  have hcourse : OnCourse cfg ((machine cfg).canon { timeline := timeline } chunks.flatten) chunks.flatten
      { timeline := timeline } :=
    ⟨orderly_start timeline, .inl (by simp), hcalm, rfl⟩
  have hpush := pushAll_of_tracks (r := ⟨{ timeline := timeline }, []⟩) (hcourse.tracks hmode) hmode hchunks
  rw [produced]
  cases hpushed : chunks.foldlM (push cfg) (⟨{ timeline := timeline }, []⟩ : BoxReader) with
  | error f =>
    rw [hpushed] at hpush
    exact congrArg some hpush.symm
  | ok r =>
    rw [hpushed] at hpush
    have hall := tryProcessAllDeferred_of_tracks hpush hmode (Nat.lt_succ_self _)
    simp only [ok_bind]
    cases hlast : r.tryProcessAllDeferred cfg (r.reader.video.length + r.deferred.length + 1) with
    | error f =>
      rw [hlast] at hall
      exact congrArg some hall.symm
    | ok last =>
      rw [hlast] at hall
      cases last with
      | none => exact hall.elim
      | some r' => exact congrArg some hall.symm

/-- **The chunks do not matter**: in a calm stream the calls end, and two ways of cutting it give the same
output and fail together. -/
theorem produced_independent_of_chunks {timeline : Timeline} {stream : Bytes} (chunks₁ chunks₂ : List Bytes)
    (hmode : cfg.cueMode = false) (hcalm : (machine cfg).Calm (Harmless cfg) { timeline := timeline } stream)
    (hchunks₁ : ∀ data ∈ chunks₁, data ≠ []) (hstream₁ : chunks₁.flatten = stream)
    (hchunks₂ : ∀ data ∈ chunks₂, data ≠ []) (hstream₂ : chunks₂.flatten = stream) :
    ∃ o, produced cfg timeline chunks₁ = some o ∧ produced cfg timeline chunks₂ = some o := by
  refine ⟨(machine cfg).canon { timeline := timeline } stream, ?_, ?_⟩
  · rw [← hstream₁] at hcalm ⊢
    exact produced_eq_canon hmode hchunks₁ hcalm
  · rw [← hstream₂] at hcalm ⊢
    exact produced_eq_canon hmode hchunks₂ hcalm

namespace Source

/-- A `moof` with one sample of the expected duration, and its `mdat` so many bytes further on. -/
def inferredMoof (id time size gap : Nat) : Bytes :=
  box boxMoof (box boxTraf (buildCanonicalTfhd id 1 ++ writeTfdt time ++
    box boxTrun (put32 0x00000601 ++ put32 1 ++ put32 (8 + 8 + 20 + 20 + 28 + gap + 8) ++
      (put32 size ++ put32 0x02000000))))

/-- The audio of the first second is complete when the last `moof` tells its duration. -/
def retimed (gap : Nat) : Bytes :=
  moov ++ pair 1 2000 [1] ++ pair 1 3000 [2] ++ pair 2 0 [3] ++
    (inferredMoof 2 1000 1 0 ++ box boxMdat [4]) ++ inferredMoof 2 3000 1 gap

end Source

/-- A stream that is cut behind such a `moof`, or is not. -/
theorem retimed_same : ∃ o,
    produced Source.config Source.fresh.reader.timeline [Source.retimed 0 ++ box boxMdat [5]] = some o ∧
      produced Source.config Source.fresh.reader.timeline [Source.retimed 0, box boxMdat [5]] = some o ∧
      o.1.2.length = 1 ∧ o.2 = true := by
  have hcalm : (machine Source.config).Calm (Harmless Source.config)
      { timeline := Source.fresh.reader.timeline } (Source.retimed 0 ++ box boxMdat [5]) := by
    decide +kernel
  have hone : (produced Source.config Source.fresh.reader.timeline
      [Source.retimed 0 ++ box boxMdat [5]]).map (fun o => (o.1.2.length, o.2)) = some (1, true) := by
    decide +kernel
  obtain ⟨o, h₁, h₂⟩ := produced_independent_of_chunks [Source.retimed 0 ++ box boxMdat [5]]
    [Source.retimed 0, box boxMdat [5]] rfl hcalm (by decide +kernel) (by simp) (by decide +kernel) (by simp)
  rw [h₁] at hone
  refine ⟨o, h₁, h₂, ?_⟩
  simpa using hone

/-- A `free` box between `moof` and `mdat` goes in front of this segment or of the next. -/
theorem cut_before_free_differs :
    [Source.retimed 9, box boxFree [9] ++ box boxMdat [5]].flatten
        = [Source.retimed 9 ++ (box boxFree [9] ++ box boxMdat [5])].flatten ∧
      (produced Source.config Source.fresh.reader.timeline
        [Source.retimed 9 ++ (box boxFree [9] ++ box boxMdat [5])]).map
          (fun o => (o.1.2.map fun segment => be32 segment.header 4, o.2)) = some ([boxFree], true) ∧
      (produced Source.config Source.fresh.reader.timeline
        [Source.retimed 9, box boxFree [9] ++ box boxMdat [5]]).map
          (fun o => (o.1.2.map fun segment => be32 segment.header 4, o.2)) = some ([boxMoof], true) ∧
      produced Source.config Source.fresh.reader.timeline
          [Source.retimed 9, box boxFree [9] ++ box boxMdat [5]]
        ≠ produced Source.config Source.fresh.reader.timeline
          [Source.retimed 9 ++ (box boxFree [9] ++ box boxMdat [5])] := by
  refine ⟨by simp, ?_⟩
  decide +kernel

end BoxReader

end TorrServer.Gstreamer.Mp4
