/-
# Gstreamer.Mp4.Calls — runs of calls, and what they keep.

`Push`, `TryProcessDeferred` and `ReleaseSegment` may come in any order. All they do to the parsing is to feed
bytes, to attempt a segment and to release payload. `Reader.Kept` asks a property for these three; `kept_run`
then has it after every run of calls that meets no error. The first argument of the property says whether the
last attempt failed, as it has when bytes are fed.

`Reader.KeptByBoxes` asks for what a byte can do in terms of boxes: continue a header, begin a box, continue its
body, complete it.
-/
import TorrServer.Lib.Runs
import TorrServer.Gstreamer.Mp4.Framing
import TorrServer.Gstreamer.Mp4.Selection

namespace TorrServer.Gstreamer.Mp4

open Lib

/-! ## Properties of the parsing -/

/-- A property of the reader after the bytes `s` that calls keep, if payload is released only where `mayRelease`
holds. -/
structure Reader.Kept (cfg : Config) (mayRelease : Reader → Prop)
    (I : Bool → Bytes → Reader → Prop) : Prop where
  expecting : ∀ {quiet : Bool} {s : Bytes} {r : Reader}, I quiet s r → r.Expecting
  feed : ∀ {s : Bytes} {r r' : Reader} {b : UInt8} {completed : Bool}, I true s r →
    r.feed cfg b = .ok (r', completed) → I (!completed) (s ++ [b]) r'
  attempt : ∀ {quiet : Bool} {s : Bytes} {r r' : Reader} {completed : Bool}, I quiet s r →
    r.tryBuildSegment cfg = .ok (r', completed) → I (!completed) s r'
  release : ∀ {quiet : Bool} {s : Bytes} {r : Reader}, I quiet s r → mayRelease r →
    I quiet s r.reclaimPayloads

namespace Reader.Kept

variable {cfg : Config} {mayRelease : Reader → Prop} {I : Bool → Bytes → Reader → Prop}
  {r r' : Reader} {s data rest : Bytes} {completed : Bool}

/-- **Bytes**, up to the next segment. -/
theorem feedAll (hI : Kept cfg mayRelease I) (h : I true s r)
    (hfeed : r.feedAll cfg data = .ok (r', rest, completed)) :
    ∃ used, data = used ++ rest ∧ I (!completed) (s ++ used) r' ∧ (completed = false → rest = []) := by
  induction data generalizing s r with
  | nil =>
    cases hfeed
    exact ⟨[], rfl, by simpa using h, fun _ => rfl⟩
  | cons b data ih =>
    simp only [Reader.feedAll, bind_eq_ok, Prod.exists] at hfeed
    obtain ⟨r₁, completed₁, hbyte, hrest⟩ := hfeed
    have h₁ := hI.feed h hbyte
    cases completed₁ with
    | true =>
      cases hrest
      exact ⟨[b], rfl, h₁, fun h => by cases h⟩
    | false =>
      obtain ⟨used, hdata, hused, hdone⟩ := ih h₁ hrest
      exact ⟨b :: used, by rw [hdata]; rfl, by simpa using hused, hdone⟩

theorem processBytes (hI : Kept cfg mayRelease I) (h : I true s r)
    (hprocess : r.processBytes cfg data = .ok (r', rest, completed)) :
    ∃ used, data = used ++ rest ∧ I (!completed) (s ++ used) r' ∧ (completed = false → rest = []) := by
  rw [processBytes_eq_feedAll (hI.expecting h)] at hprocess
  exact hI.feedAll h hprocess

end Reader.Kept

/-! ## Properties of the boxes -/

/-- The same for a property after the complete boxes `boxes`, inside the box `cur`. -/
structure Reader.KeptByBoxes (cfg : Config) (mayRelease : Reader → Prop)
    (J : Bool → List Child → Option Child → Reader → Prop) : Prop where
  header : ∀ {boxes : List Child} {r : Reader} (header : Bytes) (required boxType : Nat),
    J true boxes none r → J true boxes none
      { r with boxHeader := header, boxHeaderRequired := required, currentBoxType := boxType }
  begins : ∀ {boxes : List Child} {r r' : Reader} {c : Child} {size : Nat}, J true boxes none r →
    r.boxHeader = c.bytes → r.currentBoxType = c.boxType → c.bytes.length = c.headerSize →
    ((c.boxType = boxMoof ∨ c.boxType = boxMdat) → c.bytes.length + (size - c.headerSize) ≤ maxInt32) →
    Begins r size c.headerSize r' → J true boxes (some c) r'
  write : ∀ {boxes : List Child} {r : Reader} {c : Child} (b : UInt8), J true boxes (some c) r →
    0 < r.currentBoxRemaining → J true boxes (some { c with bytes := c.bytes ++ [b] }) (r.writeByte b)
  complete : ∀ {boxes : List Child} {r r' : Reader} {c : Child} {completed : Bool},
    J true boxes (some c) r → c.IsTop → r.currentBoxType = c.boxType → r.currentBoxRemaining = 0 →
    Completes cfg r r' completed → J (!completed) (boxes ++ [c]) none r'.resetBoxState
  attempt : ∀ {quiet : Bool} {s : Bytes} {boxes : List Child} {cur : Option Child} {r r' : Reader}
    {completed : Bool}, J quiet boxes cur r → Framing s boxes cur r →
    r.tryBuildSegment cfg = .ok (r', completed) → J (!completed) boxes cur r'
  release : ∀ {quiet : Bool} {boxes : List Child} {cur : Option Child} {r : Reader},
    J quiet boxes cur r → mayRelease r → J quiet boxes cur r.reclaimPayloads

namespace Reader

variable {cfg : Config} {mayRelease : Reader → Prop} {r r' : Reader} {completed : Bool}

/-- An attempt does not change the place in the stream. -/
theorem samePlace_of_attempt (hbuild : r.tryBuildSegment cfg = .ok (r', completed)) : SamePlace r r' := by
  cases tryBuildSegment_eq_ok_iff.mp hbuild with
  | nothing => exact ⟨rfl, rfl, rfl, rfl⟩
  | emits => exact ⟨rfl, rfl, rfl, rfl⟩

/-- The reader without the first `delta` bytes of its payload. -/
def dropPayload (r : Reader) (delta : Nat) : Reader :=
  { r with
    sourcePayload := r.sourcePayload.drop delta
    video := r.video.map (shiftFragmentPayloadStarts delta)
    audio := r.audio.map (shiftFragmentPayloadStarts delta)
    pending := r.pending.map (shiftFragmentPayloadStarts delta)
    currentPayloadStart := r.currentPayloadStart - delta }

/-- **A release** drops bytes in front of all payload that is queued; all bytes if there is none. -/
theorem exists_reclaimPayloads_eq (r : Reader) : ∃ delta, r.reclaimPayloads = r.dropPayload delta ∧
    (∀ f ∈ r.video ++ r.audio ++ r.pending.toList, 0 < f.payloadLen → delta ≤ f.payloadStart) ∧
    (r.minQueuedPayloadStart = none → r.sourcePayload.drop delta = []) := by
  have hsame : ∀ delta, (∀ f ∈ r.video ++ r.audio ++ r.pending.toList, delta = 0 ∨ f.payloadLen = 0) →
      { r with
        sourcePayload := r.sourcePayload.drop delta
        currentPayloadStart := r.currentPayloadStart - delta } = r.dropPayload delta := by
    intro delta hnone
    have hid : ∀ f ∈ r.video ++ r.audio ++ r.pending.toList, shiftFragmentPayloadStarts delta f = f := by
      intro f hf
      rw [shiftFragmentPayloadStarts]
      rcases hnone f hf with rfl | hzero
      · split <;> rfl
      · rw [if_neg (by omega)]
    have hmap : ∀ {fragments : List Fragment}, fragments ⊆ r.video ++ r.audio ++ r.pending.toList →
        fragments.map (shiftFragmentPayloadStarts delta) = fragments :=
      fun hsub => (List.map_congr_left fun f hf => hid f (hsub hf)).trans (List.map_id' _)
    rw [dropPayload, hmap (by simp), hmap (by simp)]
    cases hpending : r.pending with
    | none => rfl
    | some g => rw [Option.map_some, hid g (by simp [hpending])]
  have hkeep : r = r.dropPayload 0 := hsame 0 fun _ _ => .inl rfl
  rw [reclaimPayloads]
  split
  · rename_i hempty
    exact ⟨0, hkeep, fun _ _ _ => Nat.zero_le _, fun _ => hempty⟩
  · split
    · rename_i hmin
      have hnone : ∀ f ∈ r.video ++ r.audio ++ r.pending.toList, f.payloadLen = 0 := by
        rw [minQueuedPayloadStart, List.min?_eq_none_iff, List.map_eq_nil_iff, List.filter_eq_nil_iff] at hmin
        simpa using hmin
      refine ⟨r.sourcePayload.length + r.currentPayloadStart, ?_, fun f hf hpos => ?_, fun _ => ?_⟩
      · rw [← hsame _ fun f hf => .inr (hnone f hf), List.drop_eq_nil_of_le (by omega),
          Nat.sub_eq_zero_of_le (by omega)]
      · rw [hnone f hf] at hpos
        cases hpos
      · exact List.drop_eq_nil_of_le (by omega)
    · rename_i minStart hmin
      split
      · exact ⟨0, hkeep, fun _ _ _ => Nat.zero_le _, fun h => by cases hmin.symm.trans h⟩
      · refine ⟨minStart, rfl, fun f hf hpos => ?_, fun h => by cases hmin.symm.trans h⟩
        exact (List.min?_eq_some_iff.mp hmin).2 _
          (List.mem_map_of_mem (List.mem_filter.mpr ⟨hf, decide_eq_true hpos⟩))

theorem samePlace_reclaimPayloads (r : Reader) : SamePlace r r.reclaimPayloads := by
  obtain ⟨delta, heq, -⟩ := r.exists_reclaimPayloads_eq
  rw [heq]
  exact ⟨rfl, rfl, rfl, rfl⟩

/-- The reader is after the bytes `s`, and `J` holds for the boxes of `s`. -/
def AtBoxes (J : Bool → List Child → Option Child → Reader → Prop) (quiet : Bool) (s : Bytes)
    (r : Reader) : Prop :=
  ∃ boxes cur, Framing s boxes cur r ∧ J quiet boxes cur r

variable {J : Bool → List Child → Option Child → Reader → Prop} {s : Bytes} {boxes : List Child}
  {cur : Option Child} {c : Child} {b : UInt8}

/-- The box under way goes on, or is complete. -/
theorem KeptByBoxes.finish (hJ : KeptByBoxes cfg mayRelease J) (htop : ∀ b ∈ boxes, b.IsTop)
    (hs : s = boxBytes boxes ++ c.bytes) (hbody : InBody r c) (h : J true boxes (some c) r)
    (hfinish : r.finishBox cfg = .ok (r', completed)) : AtBoxes J (!completed) s r' := by
  rcases finishBox_cases htop hs hbody hfinish with ⟨rfl, rfl, hframing⟩ |
    ⟨hzero, hc, hframing, r₂, hcomplete, rfl⟩
  · exact ⟨boxes, some c, hframing, h⟩
  · exact ⟨boxes ++ [c], none, hframing,
      hJ.complete h hc hbody.type hzero (completeBox_cases hcomplete)⟩

/-- **From boxes to bytes.** -/
theorem KeptByBoxes.kept (hJ : KeptByBoxes cfg mayRelease J) : Kept cfg mayRelease (AtBoxes J) := by
  refine ⟨?_, ?_, ?_, ?_⟩
  · rintro quiet s r ⟨boxes, cur, hframing, -⟩
    exact hframing.expecting
  · rintro s r r' b completed ⟨boxes, cur, hframing, h⟩ hfeed
    cases feed_cases hframing hfeed with
    | header hcur hplace =>
      subst hcur
      exact ⟨boxes, none, hplace, hJ.header _ _ _ h⟩
    | @opened c size r₁ _ _ hcur hbytes hlen hmax hbegins hs hbody hsize hfinish =>
      subst hcur
      refine hJ.finish hframing.top hs hbody ?_ hfinish
      refine hJ.begins (hJ.header (r.boxHeader ++ [b]) r.boxHeaderRequired c.boxType h) hbytes.symm rfl
        hlen (fun htype => ?_) hbegins
      have hle := hmax htype
      omega
    | body hcur hs hbody hpos hfinish =>
      subst hcur
      exact hJ.finish hframing.top hs hbody (hJ.write b h hpos) hfinish
  · rintro quiet s r r' completed ⟨boxes, cur, hframing, h⟩ hbuild
    exact ⟨boxes, cur, (samePlace_of_attempt hbuild).framing hframing, hJ.attempt h hframing hbuild⟩
  · rintro quiet s r ⟨boxes, cur, hframing, h⟩ hmay
    exact ⟨boxes, cur, r.samePlace_reclaimPayloads.framing hframing, hJ.release h hmay⟩

end Reader

namespace BoxReader

open Reader

variable {cfg : Config} {mayRelease : Reader → Prop} {I : Bool → Bytes → Reader → Prop}
  {r r' : BoxReader} {completed quiet : Bool} {stream data : Bytes}

/-! ## The calls -/

/-- The calls that feed the reader and take its segments. -/
inductive Call
  | push (data : Bytes)
  | tryProcessDeferred
  | releaseSegment

/-- The bytes a call brings. -/
def Call.bytes : Call → Bytes
  | .push data => data
  | .tryProcessDeferred => []
  | .releaseSegment => []

/-- One call; `none` if it fails. -/
def call (cfg : Config) (r : BoxReader) : Call → Option BoxReader
  | .push data => (r.push cfg data).toOption
  | .tryProcessDeferred => ((r.tryProcessDeferred cfg).map Prod.fst).toOption
  | .releaseSegment => some r.releaseSegment

/-- The bytes the reader has parsed: those pushed, without those deferred. -/
def consumed (calls : List Call) (r : BoxReader) : Bytes :=
  let pushed := calls.flatMap Call.bytes
  pushed.take (pushed.length - r.deferred.length)

/-- A release comes only where it may. -/
def Releases (mayRelease : Reader → Prop) (r : BoxReader) : Call → Prop
  | .releaseSegment => mayRelease r.reader
  | _ => True

instance [DecidablePred mayRelease] (r : BoxReader) :
    ∀ c : Call, Decidable (Releases mayRelease r c)
  | .push _ => isTrue trivial
  | .tryProcessDeferred => isTrue trivial
  | .releaseSegment => inferInstanceAs (Decidable (mayRelease r.reader))

/-! ## What they keep -/

/-- The bytes the reader has parsed, after which `I` holds, and those deferred. -/
def After (I : Bool → Bytes → Reader → Prop) (quiet : Bool) (stream : Bytes) (r : BoxReader) : Prop :=
  ∃ s, stream = s ++ r.deferred ∧ I quiet s r.reader

theorem After.tryProcessDeferred (hI : Kept cfg mayRelease I) (h : After I quiet stream r)
    (hcall : r.tryProcessDeferred cfg = .ok (r', completed)) :
    After I (!completed) stream r' ∧ (completed = false → r'.deferred = []) := by
  obtain ⟨s, rfl, hs⟩ := h
  simp only [BoxReader.tryProcessDeferred, bind_eq_ok, Prod.exists, failAt_eq_ok] at hcall
  obtain ⟨reader, completed₁, hattempt, hcall⟩ := hcall
  have h₁ := hI.attempt hs hattempt
  cases completed₁ with
  | true =>
    cases hcall
    exact ⟨⟨s, rfl, h₁⟩, fun h => by cases h⟩
  | false =>
    rw [if_neg (by simp)] at hcall
    split at hcall
    · rename_i hempty
      cases hcall
      exact ⟨⟨s, rfl, h₁⟩, fun _ => hempty⟩
    · simp only [bind_eq_ok, Prod.exists] at hcall
      obtain ⟨reader₂, rest, completed₂, hprocess, hcall⟩ := hcall
      obtain ⟨used, hused, h₂, hrest⟩ := hI.processBytes h₁ hprocess
      cases completed₂ with
      | true =>
        cases hcall
        exact ⟨⟨s ++ used, by rw [hused, List.append_assoc], h₂⟩, fun h => by cases h⟩
      | false =>
        obtain rfl := hrest rfl
        cases hcall
        exact ⟨⟨s ++ used, by rw [hused, List.append_assoc], h₂⟩, fun _ => rfl⟩

theorem After.push (hI : Kept cfg mayRelease I) (h : After I quiet stream r)
    (hcall : r.push cfg data = .ok r') : ∃ quiet, After I quiet (stream ++ data) r' := by
  rw [BoxReader.push] at hcall
  split at hcall
  · rename_i hempty
    cases hcall
    exact ⟨quiet, by rwa [hempty, List.append_nil]⟩
  · simp only [bind_eq_ok, Prod.exists] at hcall
    obtain ⟨r₁, completed₁, hdeferred, hcall⟩ := hcall
    obtain ⟨⟨s, rfl, h₁⟩, hempty⟩ := h.tryProcessDeferred hI hdeferred
    cases completed₁ with
    | true =>
      -- a segment is ready: all of the data waits
      cases hcall
      exact ⟨_, s, List.append_assoc _ _ _, h₁⟩
    | false =>
      simp only [Bool.false_eq_true, if_false, bind_eq_ok, Prod.exists] at hcall
      obtain ⟨reader, rest, completed₂, hprocess, hcall⟩ := hcall
      obtain ⟨used, rfl, h₂, hrest⟩ := hI.processBytes h₁ hprocess
      rw [hempty rfl, List.append_nil]
      cases completed₂ with
      | true =>
        cases hcall
        exact ⟨_, s ++ used, by simp [hempty rfl], h₂⟩
      | false =>
        obtain rfl := hrest rfl
        cases hcall
        exact ⟨_, s ++ used, by simp [hempty rfl], h₂⟩

theorem After.call {c : Call} (hI : Kept cfg mayRelease I) (h : After I quiet stream r)
    (hok : Releases mayRelease r c) (hcall : r.call cfg c = some r') :
    ∃ quiet, After I quiet (stream ++ c.bytes) r' := by
  cases c with
  | push data =>
    rw [BoxReader.call] at hcall
    cases hpush : r.push cfg data with
    | error e => simp [hpush, Except.toOption] at hcall
    | ok r₁ =>
      simp only [hpush, Except.toOption, Option.some.injEq] at hcall
      exact hcall ▸ h.push hI hpush
  | tryProcessDeferred =>
    rw [BoxReader.call] at hcall
    cases hdeferred : r.tryProcessDeferred cfg with
    | error e => simp [hdeferred, Except.toOption, Except.map] at hcall
    | ok result =>
      obtain ⟨r₁, completed⟩ := result
      simp only [hdeferred, Except.toOption, Except.map, Option.some.injEq] at hcall
      rw [Call.bytes, List.append_nil]
      exact ⟨_, hcall ▸ (h.tryProcessDeferred hI hdeferred).1⟩
  | releaseSegment =>
    cases hcall
    obtain ⟨s, hs, hr⟩ := h
    exact ⟨quiet, s, by rw [Call.bytes, List.append_nil, hs]; rfl, hI.release hr hok⟩

/-- **Runs of calls**, by induction on the calls. -/
theorem After.run {calls : List Call} (hI : Kept cfg mayRelease I) (h : After I quiet stream r)
    (hok : Each (BoxReader.call cfg) (Releases mayRelease) r calls)
    (hrun : Lib.run (BoxReader.call cfg) r calls = some r') :
    ∃ quiet, After I quiet (stream ++ calls.flatMap Call.bytes) r' := by
  induction calls generalizing quiet stream r with
  | nil =>
    cases hrun
    exact ⟨quiet, by simpa using h⟩
  | cons c calls ih =>
    obtain ⟨r₁, hcall, hrun⟩ := (run_cons_eq_some (BoxReader.call cfg)).mp hrun
    obtain ⟨hfirst, hrest⟩ := (each_cons_some hcall).mp hok
    obtain ⟨quiet₁, h₁⟩ := h.call hI hfirst hcall
    obtain ⟨quiet₂, h₂⟩ := ih h₁ hrest hrun
    exact ⟨quiet₂, by simpa using h₂⟩

/-- Where every release may come there is no condition on a run. -/
theorem each_releases (r : BoxReader) (calls : List Call) :
    Each (BoxReader.call cfg) (Releases fun _ => True) r calls := by
  have hall : ∀ (r : BoxReader) (c : Call), Releases (fun _ => True) r c := by
    intro r c
    cases c <;> trivial
  exact (each_true r calls).imp (I := fun _ => True) (fun _ _ _ _ _ _ => trivial)
    (fun r c _ _ => hall r c) trivial

/-- **A kept property holds after every run** of a fresh reader, for the bytes parsed. -/
theorem kept_run {reader : Reader} {calls : List Call}
    (hI : Kept cfg mayRelease I) (h : I quiet [] reader)
    (hok : Each (BoxReader.call cfg) (Releases mayRelease) { reader := reader } calls)
    (hrun : Lib.run (BoxReader.call cfg) { reader := reader } calls = some r) :
    ∃ quiet, I quiet (consumed calls r) r.reader := by
  have hstart : After I quiet [] { reader := reader } := ⟨[], rfl, h⟩
  obtain ⟨quiet, s, hs, hr⟩ := hstart.run hI hok hrun
  rw [List.nil_append] at hs
  have hconsumed : consumed calls r = s := by simp [consumed, hs]
  exact ⟨quiet, hconsumed ▸ hr⟩

/-! ## A source to run on -/

namespace Source

/-- A `trak` with the timescale 1000. -/
def trak (id handler : Nat) : Bytes :=
  box boxTrak (box boxTkhd (List.replicate 12 0 ++ put32 id) ++
    box boxMdia (box boxMdhd (List.replicate 12 0 ++ put32 1000) ++
      box boxHdlr (List.replicate 8 0 ++ put32 handler)))

/-- An initialization with a video and an audio track. -/
def moov : Bytes := box boxMoov (trak 1 handlerVideo ++ trak 2 handlerAudio)

/-- A `moof` with one sample of a second. -/
def moof (id time size : Nat) : Bytes :=
  box boxMoof (box boxTraf (buildCanonicalTfhd id 1 ++ writeTfdt time ++
    box boxTrun (put32 0x00000701 ++ put32 1 ++ put32 (8 + 8 + 20 + 20 + 32 + 8) ++
      (put32 1000 ++ put32 size ++ put32 0x02000000))))

/-- A `moof` and its `mdat`. -/
def pair (id time : Nat) (payload : Bytes) : Bytes := moof id time payload.length ++ box boxMdat payload

/-- A fresh reader. -/
def fresh : BoxReader := { reader := { timeline := ⟨fun _ => .ok 7, 0⟩ } }

/-- A configuration without catching up, for segments of a second. -/
def config : Config := ⟨false, 0, fun timescale => .ok timescale, 0, 0⟩

end Source

end BoxReader

end TorrServer.Gstreamer.Mp4
