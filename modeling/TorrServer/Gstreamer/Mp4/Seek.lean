/-
# Gstreamer.Mp4.Seek — a reader after a seek.

`SeekReset` takes the reader back to where a new one stands, field by field. `seekReset_fresh` says that no
field is forgotten: only the callbacks already made tell it from a new reader on which `SeekReset` was called.
So every later sequence of calls shows the same in both (`seekReset_forgets`).

The calls go on after an error. How a failed call leaves the reader, and what it has passed on, the code
determines from the reader and the call; the result holds whatever it is (`Aftermath`).
-/
import TorrServer.Gstreamer.Mp4.Reader

namespace TorrServer.Gstreamer.Mp4.BoxReader

open Lib

/-! ## Calls and what they show -/

/-- A call on the reader. -/
inductive Request
  | push (data : Bytes)
  | tryProcessDeferred
  | tryBuildEndOfStreamRemainder
  | endOfStreamError
  | releaseSegment
  | setTimelineOffsetNS (offsetNS : Nat)
  | setTargetSegment (startNS endNS toleranceNS : Nat)

/-- What a call returns. -/
inductive Reply
  | done
  | completed (emitted : Bool)
  | verdict (error : Option String)
  | failed (message : String)

/-- What a call shows: the callbacks it makes, and what it returns. -/
structure Shown where
  inits : List Bytes
  segments : List Segment
  reply : Reply

/-- What a failed call has passed on, and how it leaves the reader. -/
abbrev Aftermath := BoxReader → Request → List Bytes × List Segment × BoxReader

/-- The reader, with the callbacks so far out of sight. -/
def forget (r : BoxReader) : BoxReader := { r with reader := { r.reader with inits := [], segments := [] } }

/-- The call itself. -/
def request (cfg : Config) (clock : Clock) (r : BoxReader) : Request → Except String (BoxReader × Reply)
  | .push data => ((r.push cfg data).mapError Failure.message).map fun r => (r, .done)
  | .tryProcessDeferred =>
    ((r.tryProcessDeferred cfg).mapError Failure.message).map fun (r, emitted) => (r, .completed emitted)
  | .tryBuildEndOfStreamRemainder =>
    (r.reader.tryBuildEndOfStreamRemainder cfg).map fun (reader, emitted) =>
      ({ r with reader := reader }, .completed emitted)
  | .endOfStreamError => .ok (r, .verdict r.endOfStreamError)
  | .releaseSegment => .ok (r.releaseSegment, .done)
  | .setTimelineOffsetNS offsetNS => .ok (r.setTimelineOffsetNS clock offsetNS, .done)
  | .setTargetSegment startNS endNS toleranceNS =>
    (r.setTargetSegment cfg startNS endNS toleranceNS).map fun r => (r, .done)

variable (cfg : Config) (clock : Clock) (after : Aftermath)

/-- One call: what it shows, and the reader it leaves. -/
def exec (r : BoxReader) (q : Request) : Shown × BoxReader :=
  match r.forget.request cfg clock q with
  | .ok (r', reply) => (⟨r'.reader.inits, r'.reader.segments, reply⟩, r')
  | .error message =>
    let (inits, segments, r') := after r.forget q
    (⟨inits, segments, .failed message⟩, r')

/-- What a sequence of calls shows. -/
def trace (r : BoxReader) : List Request → List Shown
  | [] => []
  | q :: requests => (r.exec cfg clock after q).1 :: (r.exec cfg clock after q).2.trace requests

/-! ## After a seek -/

/-- `Mp4BoxReader`: a new reader. -/
def new : BoxReader := { reader := { timeline := clock.timeline clock.zero } }

/-- **`SeekReset` forgets everything** but the callbacks. -/
theorem seekReset_fresh (r : BoxReader) (seconds : clock.Seconds) :
    (r.seekReset clock seconds).forget = ((new clock).seekReset clock seconds).forget := rfl

/-- The callbacks already made do not show. -/
theorem trace_of_forget_eq {r r' : BoxReader} (h : r.forget = r'.forget) (requests : List Request) :
    r.trace cfg clock after requests = r'.trace cfg clock after requests := by
  cases requests with
  | nil => rfl
  | cons q requests =>
    have hexec : r.exec cfg clock after q = r'.exec cfg clock after q := by rw [exec, exec, h]
    rw [trace, trace, hexec]

/-- **After `SeekReset` every reader is as good as new**: all later calls show what they show on a new one. -/
theorem seekReset_forgets (r : BoxReader) (seconds : clock.Seconds) (requests : List Request) :
    (r.seekReset clock seconds).trace cfg clock after requests =
      ((new clock).seekReset clock seconds).trace cfg clock after requests :=
  trace_of_forget_eq cfg clock after (seekReset_fresh clock r seconds) requests

end TorrServer.Gstreamer.Mp4.BoxReader
