/-
# Lib.JsonStream — `json.Decoder` over a text that ends.

The decoder reads values one after the other. `readValue` runs the scanner of `encoding/json` over the unread
bytes until it reports the end of a value; a value that does not close itself ends one byte later, or with the
text. After `Token` has opened an array, `Decode` wants a comma in front of every value but the first.

An error of the scanner or of the reader is kept and returned by every later `Decode`; the unread bytes stay
where they are. A value of the wrong type is consumed.
-/
import TorrServer.Lib.Strconv

namespace TorrServer.Lib.JsonStream

/-! ## The scanner -/

/-- What an enclosing object or array waits for. -/
inductive Enclosing where
  | objectKey
  | objectValue
  | arrayValue
  deriving DecidableEq

/-- The step functions; a word that is being read keeps the letters it still needs. -/
inductive Mode where
  | beginValueOrEmpty
  | beginValue
  | beginStringOrEmpty
  | beginString
  | endValue
  | inString
  | inStringEsc
  | inStringEscU (digits : Nat)
  | neg
  | digit1
  | digit0
  | dot
  | dot0
  | exp
  | expSign
  | exp0
  | word (letters : Bytes)
  deriving DecidableEq

/-- The scanner: what it expects next, and the arrays and objects it is in. -/
structure Scanner where
  mode : Mode := .beginValue
  parseState : List Enclosing := []

/-- What a step says. -/
inductive Code where
  | continue (s : Scanner)
  /-- The value ended before this byte. -/
  | ended
  /-- The value ends with this byte. -/
  | closed
  | error

/-- White space between tokens. -/
def isSpace (c : UInt8) : Bool := c == 32 || c == 9 || c == 13 || c == 10

/-- A hexadecimal digit. -/
def isHex (c : UInt8) : Bool := isDigit c || (97 ≤ c && c ≤ 102) || (65 ≤ c && c ≤ 70)

/-- Deeper nesting is an error. -/
def maxNestingDepth : Nat := 10000

namespace Scanner

/-- `pushParseState`, with the next step. -/
def push (s : Scanner) (mode : Mode) (e : Enclosing) : Code :=
  if s.parseState.length + 1 ≤ maxNestingDepth then .continue { mode, parseState := e :: s.parseState }
  else .error

/-- `popParseState`: the outermost value is read to its end. -/
def pop (outer : List Enclosing) : Code :=
  if outer = [] then .closed else .continue { mode := .endValue, parseState := outer }

/-- At the start of a value. -/
def stateBeginValue (s : Scanner) (c : UInt8) : Code :=
  if isSpace c then .continue s
  else if c = 123 then s.push .beginStringOrEmpty .objectKey
  else if c = 91 then s.push .beginValueOrEmpty .arrayValue
  else if c = 34 then .continue { s with mode := .inString }
  else if c = 45 then .continue { s with mode := .neg }
  else if c = 48 then .continue { s with mode := .digit0 }
  else if c = 116 then .continue { s with mode := .word [114, 117, 101] }
  else if c = 102 then .continue { s with mode := .word [97, 108, 115, 101] }
  else if c = 110 then .continue { s with mode := .word [117, 108, 108] }
  else if isDigit c then .continue { s with mode := .digit1 }
  else .error

/-- At the start of a key. -/
def stateBeginString (s : Scanner) (c : UInt8) : Code :=
  if isSpace c then .continue s
  else if c = 34 then .continue { s with mode := .inString }
  else .error

/-- After a value: what follows depends on what it stands in. -/
def stateEndValue (s : Scanner) (c : UInt8) : Code :=
  match s.parseState with
  | [] => .ended
  | e :: outer =>
    if isSpace c then .continue { s with mode := .endValue }
    else
      match e with
      | .objectKey =>
        if c = 58 then .continue { mode := .beginValue, parseState := .objectValue :: outer } else .error
      | .objectValue =>
        if c = 44 then .continue { mode := .beginString, parseState := .objectKey :: outer }
        else if c = 125 then pop outer
        else .error
      | .arrayValue =>
        if c = 44 then .continue { s with mode := .beginValue }
        else if c = 93 then pop outer
        else .error

/-- After an opening brace. -/
def stateBeginStringOrEmpty (s : Scanner) (c : UInt8) : Code :=
  if isSpace c then .continue s
  else if c = 125 then stateEndValue { s with parseState := .objectValue :: s.parseState.tail } c
  else s.stateBeginString c

/-- Inside a string. -/
def stateInString (s : Scanner) (c : UInt8) : Code :=
  if c = 34 then .continue { s with mode := .endValue }
  else if c = 92 then .continue { s with mode := .inStringEsc }
  else if c < 32 then .error
  else .continue s

/-- After a backslash. -/
def stateInStringEsc (s : Scanner) (c : UInt8) : Code :=
  if c ∈ ([98, 102, 110, 114, 116, 92, 47, 34] : Bytes) then .continue { s with mode := .inString }
  else if c = 117 then .continue { s with mode := .inStringEscU 4 }
  else .error

/-- After a leading zero. -/
def state0 (s : Scanner) (c : UInt8) : Code :=
  if c = 46 then .continue { s with mode := .dot }
  else if c = 101 ∨ c = 69 then .continue { s with mode := .exp }
  else s.stateEndValue c

/-- A digit must follow. -/
def needDigit (s : Scanner) (mode : Mode) (c : UInt8) : Code :=
  if isDigit c then .continue { s with mode } else .error

/-- One byte. -/
def step (s : Scanner) (c : UInt8) : Code :=
  match s.mode with
  | .beginValueOrEmpty =>
    if isSpace c then .continue s
    else if c = 93 then s.stateEndValue c
    else s.stateBeginValue c
  | .beginValue => s.stateBeginValue c
  | .beginStringOrEmpty => s.stateBeginStringOrEmpty c
  | .beginString => s.stateBeginString c
  | .endValue => s.stateEndValue c
  | .inString => s.stateInString c
  | .inStringEsc => s.stateInStringEsc c
  | .inStringEscU digits =>
    if isHex c then
      .continue { s with mode := if digits ≤ 1 then .inString else .inStringEscU (digits - 1) }
    else .error
  | .neg => if c = 48 then .continue { s with mode := .digit0 } else s.needDigit .digit1 c
  | .digit1 => if isDigit c then .continue s else s.state0 c
  | .digit0 => s.state0 c
  | .dot => s.needDigit .dot0 c
  | .dot0 =>
    if isDigit c then .continue s
    else if c = 101 ∨ c = 69 then .continue { s with mode := .exp }
    else s.stateEndValue c
  | .exp => if c = 43 ∨ c = 45 then .continue { s with mode := .expSign } else s.needDigit .exp0 c
  | .expSign => s.needDigit .exp0 c
  | .exp0 => if isDigit c then .continue s else s.stateEndValue c
  | .word letters =>
    if letters.head? = some c then
      .continue { s with mode := if letters.tail = [] then .endValue else .word letters.tail }
    else .error

end Scanner

/-! ## The decoder -/

/-- How the reader ends behind the last byte. -/
inductive Ending where
  | eof
  | broken
  deriving DecidableEq

/-- `readValue`: the length of the next value with the space in front of it, or an error. -/
def readValue (ending : Ending) : Scanner → Bytes → Option Nat
  | s, [] =>
    match ending, s.step 32 with
    | .eof, .ended => some 0
    | _, _ => none
  | s, c :: rest =>
    match s.step c with
    | .continue s' => (readValue ending s' rest).map (· + 1)
    | .ended => some 0
    | .closed => some 1
    | .error => none

/-- The token states `Decode` and one call of `Token` lead to. -/
inductive TokenState where
  | topValue
  | arrayStart
  | arrayValue
  | arrayComma
  | objectStart
  deriving DecidableEq

/-- The unread bytes, the token state, and whether an error is kept. -/
structure Decoder where
  rest : Bytes
  tokenState : TokenState := .topValue
  failed : Bool := false

/-- What is left after white space. -/
def skipSpace (rest : Bytes) : Bytes := rest.dropWhile isSpace

namespace Decoder

/-- `peek` goes over the space up to the next byte, if there is one. -/
def peek (d : Decoder) : Option UInt8 × Decoder :=
  match skipSpace d.rest with
  | [] => (none, d)
  | c :: rest => (some c, { d with rest := c :: rest })

/-- `More`: whether another element follows. -/
def more (d : Decoder) : Bool × Decoder :=
  match d.peek with
  | (some c, d) => (c ≠ 93 ∧ c ≠ 125, d)
  | (none, d) => (false, d)

/-- `tokenPrepareForDecode`, and whether it went without an error. -/
def prepare (d : Decoder) : Bool × Decoder :=
  if d.tokenState = .arrayComma then
    match d.peek with
    | (none, d) => (false, d)
    | (some c, d) =>
      if c ≠ 44 then (false, d) else (true, { d with rest := d.rest.tail, tokenState := .arrayValue })
  else (true, d)

/-- The state after a value. -/
def tokenValueEnd : TokenState → TokenState
  | .arrayStart | .arrayValue => .arrayComma
  | s => s

/-- `Decode` up to `unmarshal`: the bytes of the value. -/
def decode (ending : Ending) (d : Decoder) : Option Bytes × Decoder :=
  if d.failed then (none, d)
  else
    match d.prepare with
    | (false, d) => (none, d)
    | (true, d) =>
      -- `tokenValueAllowed`
      if d.tokenState = .objectStart ∨ d.tokenState = .arrayComma then (none, d)
      else
        match readValue ending {} d.rest with
        | none => (none, { d with failed := true })
        | some n =>
          (some (d.rest.take n), { d with rest := d.rest.drop n, tokenState := tokenValueEnd d.tokenState })

/-- `Token` of a new decoder; `none` is an error. `toAny` says for which values decoding into an `any` succeeds:
it can only fail for a number out of range. -/
def token (ending : Ending) (toAny : Bytes → Bool) (d : Decoder) : Option Decoder :=
  match d.peek with
  | (none, _) => none
  | (some c, d) =>
    if c = 91 then some { d with rest := d.rest.tail, tokenState := .arrayStart }
    else if c = 123 then some { d with rest := d.rest.tail, tokenState := .objectStart }
    else if c = 93 ∨ c = 125 ∨ c = 58 ∨ c = 44 then none
    else
      match d.decode ending with
      | (none, _) => none
      | (some value, d) => if toAny value then some d else none

end Decoder

/-! ## What is left to read -/

/-- What is left when the next value is read. -/
def afterValue (ending : Ending) (rest : Bytes) : Option Bytes := (readValue ending {} rest).map rest.drop

/-- Nothing is left, or a closing bracket comes next: `More` is false. -/
def closes (rest : Bytes) : Bool :=
  match skipSpace rest with
  | [] => true
  | c :: _ => c = 93 ∨ c = 125

theorem skipSpace_cons_of_isSpace {c : UInt8} (h : isSpace c = true) (rest : Bytes) :
    skipSpace (c :: rest) = skipSpace rest :=
  List.dropWhile_cons_of_pos h

theorem skipSpace_cons_of_not_isSpace {c : UInt8} (h : isSpace c = false) (rest : Bytes) :
    skipSpace (c :: rest) = c :: rest :=
  List.dropWhile_cons_of_neg (by rw [h]; exact Bool.false_ne_true)

theorem isSpace_of_skipSpace {rest tail : Bytes} {c : UInt8} (h : skipSpace rest = c :: tail) :
    isSpace c = false := by
  have hne : skipSpace rest ≠ [] := fun hnil => List.cons_ne_nil _ _ (h.symm.trans hnil)
  have hhead := List.head_dropWhile_not isSpace hne
  unfold skipSpace at h
  simpa only [h, List.head_cons] using hhead

theorem skipSpace_skipSpace (rest : Bytes) : skipSpace (skipSpace rest) = skipSpace rest := by
  cases h : skipSpace rest with
  | nil => rfl
  | cons c tail => exact skipSpace_cons_of_not_isSpace (isSpace_of_skipSpace h) tail

theorem closes_skipSpace (rest : Bytes) : closes (skipSpace rest) = closes rest := by
  unfold closes
  rw [skipSpace_skipSpace]

/-- Space in front of a value does not matter. -/
theorem afterValue_skipSpace (ending : Ending) (rest : Bytes) :
    afterValue ending (skipSpace rest) = afterValue ending rest := by
  induction rest with
  | nil => rfl
  | cons c rest ih =>
    by_cases hspace : isSpace c = true
    · rw [skipSpace_cons_of_isSpace hspace, ih]
      have hstep : ({} : Scanner).step c = .continue {} := if_pos hspace
      unfold afterValue
      rw [readValue, hstep, Option.map_map]
      rfl
    · rw [skipSpace_cons_of_not_isSpace (Bool.eq_false_iff.2 hspace)]

/-- No value starts where `More` is false. -/
theorem afterValue_of_closes {ending : Ending} {rest : Bytes} (h : closes rest = true) :
    afterValue ending rest = none := by
  rw [← afterValue_skipSpace]
  unfold closes at h
  unfold afterValue
  split at h
  · rename_i hnil
    rw [hnil]
    cases ending <;> rfl
  · rename_i c tail hcons
    have hstep : ({} : Scanner).step c = .error := by
      rcases of_decide_eq_true h with rfl | rfl <;> rfl
    rw [hcons, readValue, hstep]
    rfl

namespace Decoder

theorem more_eq (d : Decoder) : d.more.1 = !closes d.rest := by
  unfold more peek closes
  cases skipSpace d.rest with
  | nil => rfl
  | cons c rest => simp

/-- Where `More` is true it has gone over the space. -/
theorem more_of_not_closes {d : Decoder} (h : closes d.rest = false) :
    d.more = (true, { d with rest := skipSpace d.rest }) := by
  have hmore := d.more_eq
  unfold closes at h
  unfold more peek at hmore ⊢
  cases hskip : skipSpace d.rest with
  | nil => simp [hskip] at h
  | cons c rest => simpa [hskip] using h

theorem decode_of_failed {d : Decoder} (ending : Ending) (h : d.failed = true) : d.decode ending = (none, d) :=
  if_pos h

theorem decode_objectStart {d : Decoder} (ending : Ending) (h : d.tokenState = .objectStart) :
    (d.decode ending).2 = d := by
  have hprepare : d.prepare = (true, d) := if_neg (by rw [h]; exact TokenState.noConfusion)
  unfold decode
  rw [hprepare]
  split
  · rfl
  · show (if d.tokenState = .objectStart ∨ d.tokenState = .arrayComma then _
      else _ : Option Bytes × Decoder).2 = d
    rw [if_pos (.inl h)]

/-- Where a value may come, `Decode` reads it or keeps the error. -/
theorem decode_value {d : Decoder} (ending : Ending) (hfailed : d.failed = false)
    (hcomma : d.tokenState ≠ .arrayComma) (hobject : d.tokenState ≠ .objectStart) :
    (d.decode ending).2 =
      match afterValue ending d.rest with
      | some tail => { d with rest := tail, tokenState := tokenValueEnd d.tokenState }
      | none => { d with failed := true } := by
  have hprepare : d.prepare = (true, d) := if_neg hcomma
  unfold decode afterValue
  rw [hprepare]
  simp only [hfailed, Bool.false_eq_true, if_false, hcomma, hobject, or_self]
  cases readValue ending {} d.rest <;> rfl

/-- Behind a value of an array, `Decode` wants a comma. -/
theorem decode_noComma {d : Decoder} (ending : Ending) (hstate : d.tokenState = .arrayComma) {c : UInt8}
    {tail : Bytes} (hskip : skipSpace d.rest = c :: tail) (hc : c ≠ 44) :
    (d.decode ending).2 = if d.failed then d else { d with rest := c :: tail } := by
  have hprepare : d.prepare = (false, { d with rest := c :: tail }) := by
    unfold prepare peek
    rw [if_pos hstate, hskip]
    exact if_pos hc
  unfold decode
  rw [hprepare]
  split <;> rfl

theorem decode_comma {d : Decoder} (ending : Ending) (hfailed : d.failed = false)
    (hstate : d.tokenState = .arrayComma) {tail : Bytes} (hskip : skipSpace d.rest = 44 :: tail) :
    d.decode ending = ({ d with rest := tail, tokenState := .arrayValue } : Decoder).decode ending := by
  have hprepare : d.prepare = (true, { d with rest := tail, tokenState := .arrayValue }) := by
    unfold prepare peek
    rw [if_pos hstate, hskip]
    rfl
  have hprepare' : ({ d with rest := tail, tokenState := .arrayValue } : Decoder).prepare =
      (true, { d with rest := tail, tokenState := .arrayValue }) := rfl
  unfold decode
  rw [hprepare, hprepare']
  simp only [hfailed, Bool.false_eq_true, if_false]

theorem token_of_blank {text : Bytes} (ending : Ending) (toAny : Bytes → Bool) (h : skipSpace text = []) :
    ({ rest := text } : Decoder).token ending toAny = none := by
  unfold token peek
  simp only [h]

/-- The first token, by the first byte. -/
theorem token_of_cons {text rest : Bytes} {c : UInt8} (ending : Ending) (toAny : Bytes → Bool)
    (h : skipSpace text = c :: rest) :
    ({ rest := text } : Decoder).token ending toAny =
      if c = 91 then some { rest, tokenState := .arrayStart }
      else if c = 123 then some { rest, tokenState := .objectStart }
      else if c = 93 ∨ c = 125 ∨ c = 58 ∨ c = 44 then none
      else
        match readValue ending {} (c :: rest) with
        | none => none
        | some n => if toAny ((c :: rest).take n) then some { rest := (c :: rest).drop n } else none := by
  unfold token peek
  simp only [h]
  have hdecode : ({ rest := c :: rest } : Decoder).decode ending =
      match readValue ending {} (c :: rest) with
      | none => (none, { rest := c :: rest, failed := true })
      | some n => (some ((c :: rest).take n), { rest := (c :: rest).drop n }) := rfl
  rw [hdecode]
  cases readValue ending {} (c :: rest) <;> rfl

end Decoder

end TorrServer.Lib.JsonStream
