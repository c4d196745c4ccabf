/-
# Rutor.Load — reading the rutor database.

`loadDB` opens an array with `Token` and decodes entries while there are more. An error of `Decode` is not
looked at. If `Decode` fails without having read anything, the next round finds the decoder as it was, and the
loop goes on for ever; it ends only if what is left then closes.

`Loadable` is the texts for which the loop ends, as a grammar over whole values.
-/
import TorrServer.Lib.JsonStream

namespace TorrServer.Rutor

open Lib (Bytes)
open Lib.JsonStream

variable {rounds : Nat} {rest tail : Bytes}

/-! ## The model -/

section Model

variable {T : Type} (ending : Ending) (unmarshal : Bytes → Option T)

/-- One round: what `Decode` returned, if there was no error, and the decoder behind it. -/
def round (d : Decoder) : Option T × Decoder :=
  let (value, d) := d.more.2.decode ending
  (value.bind unmarshal, d)

/-- `for dec.More() { … }` with the entries so far; `none` if it needs more rounds. -/
def decodeLoop : Nat → Decoder → List T → Option (List T)
  | 0, _, _ => none
  | rounds + 1, d, ftorrs =>
    if d.more.1 then
      let (torr, d) := round ending unmarshal d
      decodeLoop rounds d (ftorrs ++ torr.toList)
    else some ftorrs

/-- `loadDB` over the inflated text: the torrents, or `some none` if there is no first token. -/
def loadDB (toAny : Bytes → Bool) (rounds : Nat) (text : Bytes) : Option (Option (List T)) :=
  match ({ rest := text } : Decoder).token ending toAny with
  | none => some none
  | some d => (decodeLoop ending unmarshal rounds d []).map some

end Model

/-! ## The texts that load -/

section Texts

variable (ending : Ending)

/-- Values with commas between them up to where the array closes; a comma may stand before the end. -/
inductive Elements : Bytes → Prop
  | close {rest : Bytes} : closes rest = true → Elements rest
  | last {rest tail : Bytes} : afterValue ending rest = some tail → closes tail = true → Elements rest
  | cons {rest tail tail' : Bytes} : afterValue ending rest = some tail → skipSpace tail = 44 :: tail' →
      Elements tail' → Elements rest

/-- The text behind a value that is no array: values one after the other. -/
inductive Values : Bytes → Prop
  | close {rest : Bytes} : closes rest = true → Values rest
  | cons {rest tail : Bytes} : afterValue ending rest = some tail → Values tail → Values rest

/-- The texts for which the loop ends: an array, an object that closes at once, values one after the other, or
no first token. -/
def Loadable (toAny : Bytes → Bool) (text : Bytes) : Prop :=
  match skipSpace text with
  | [] => True
  | c :: rest =>
    if c = 91 then Elements ending rest
    else if c = 123 then closes rest = true
    else ∀ n, readValue ending {} (c :: rest) = some n → toAny ((c :: rest).take n) = true →
      Values ending ((c :: rest).drop n)

end Texts

/-! ## Rounds -/

section Rounds

variable {T : Type} {ending : Ending} {unmarshal : Bytes → Option T} {d : Decoder}

/-- The loop ends within a number of rounds. -/
def EndsIn (ending : Ending) (unmarshal : Bytes → Option T) (rounds : Nat) (d : Decoder) : Prop :=
  (decodeLoop ending unmarshal rounds d []).isSome = true

theorem isSome_decodeLoop (rounds : Nat) (d : Decoder) (ftorrs ftorrs' : List T) :
    (decodeLoop ending unmarshal rounds d ftorrs).isSome
      = (decodeLoop ending unmarshal rounds d ftorrs').isSome := by
  induction rounds generalizing d ftorrs ftorrs' with
  | zero => rfl
  | succ rounds ih =>
    rw [decodeLoop, decodeLoop]
    split
    · apply ih
    · rfl

theorem endsIn_of_closes (h : closes d.rest = true) (rounds : Nat) :
    EndsIn ending unmarshal (rounds + 1) d := by
  unfold EndsIn
  rw [decodeLoop, d.more_eq, h]
  rfl

theorem endsIn_succ_iff (h : closes d.rest = false) :
    EndsIn ending unmarshal (rounds + 1) d ↔ EndsIn ending unmarshal rounds (round ending unmarshal d).2 := by
  unfold EndsIn
  rw [decodeLoop, d.more_eq, h, Bool.not_false, if_pos rfl]
  show (decodeLoop ending unmarshal rounds (round ending unmarshal d).2 _).isSome = true ↔ _
  rw [isSome_decodeLoop]

/-- A round of a decoder that goes on: `More` has gone over the space. -/
theorem round_eq (h : closes d.rest = false) :
    (round ending unmarshal d).2 = (({ d with rest := skipSpace d.rest } : Decoder).decode ending).2 := by
  unfold round
  rw [Decoder.more_of_not_closes h]

theorem round_value (hfailed : d.failed = false) (hcomma : d.tokenState ≠ .arrayComma)
    (hobject : d.tokenState ≠ .objectStart) (h : closes d.rest = false) :
    (round ending unmarshal d).2 =
      match afterValue ending d.rest with
      | some tail => { d with rest := tail, tokenState := Decoder.tokenValueEnd d.tokenState }
      | none => { d with rest := skipSpace d.rest, failed := true } := by
  rw [round_eq h]
  have hdecode := @Decoder.decode_value { d with rest := skipSpace d.rest } ending hfailed hcomma hobject
  rw [afterValue_skipSpace] at hdecode
  exact hdecode

theorem round_array (hfailed : d.failed = false)
    (hstate : d.tokenState = .arrayStart ∨ d.tokenState = .arrayValue) (h : closes d.rest = false) :
    (round ending unmarshal d).2 =
      match afterValue ending d.rest with
      | some tail => { rest := tail, tokenState := .arrayComma, failed := false }
      | none => { d with rest := skipSpace d.rest, failed := true } := by
  have hround := @round_value T ending unmarshal d hfailed
  rw [hfailed] at hround
  rcases hstate with hstate | hstate <;> rw [hstate] at hround ⊢ <;>
    exact hround TokenState.noConfusion TokenState.noConfusion h

/-- A decoder that `Decode` leaves as it is, but for the space in front. -/
def Stuck (d : Decoder) : Prop :=
  closes d.rest = false ∧ (d.failed = true ∨ d.tokenState = .objectStart ∨
    d.tokenState = .arrayComma ∧ (skipSpace d.rest).head? ≠ some 44)

theorem Stuck.round (h : Stuck d) : Stuck (round ending unmarshal d).2 := by
  obtain ⟨hcloses, hstuck⟩ := h
  have hsame : (Rutor.round ending unmarshal d).2 = { d with rest := skipSpace d.rest } := by
    rw [round_eq hcloses]
    rcases hstuck with hfailed | hobject | ⟨hcomma, hhead⟩
    · exact congrArg Prod.snd (@Decoder.decode_of_failed { d with rest := skipSpace d.rest } ending hfailed)
    · exact Decoder.decode_objectStart ending hobject
    · cases hskip : skipSpace d.rest with
      | nil =>
        unfold closes at hcloses
        rw [hskip] at hcloses
        cases hcloses
      | cons c tail =>
        have hc : c ≠ 44 := fun heq => hhead (by rw [hskip, heq]; rfl)
        have hskip' : skipSpace ({ d with rest := c :: tail } : Decoder).rest = c :: tail :=
          skipSpace_cons_of_not_isSpace (isSpace_of_skipSpace hskip) tail
        have hdecode := @Decoder.decode_noComma { d with rest := c :: tail } ending hcomma c tail hskip' hc
        rwa [ite_self] at hdecode
  rw [hsame]
  refine ⟨(closes_skipSpace d.rest).trans hcloses, ?_⟩
  simpa only [skipSpace_skipSpace] using hstuck

/-- A loop that is stuck does not end. -/
theorem Stuck.not_endsIn (h : Stuck d) (rounds : Nat) : ¬ EndsIn ending unmarshal rounds d := by
  induction rounds generalizing d with
  | zero => exact fun hends => Bool.false_ne_true hends
  | succ rounds ih =>
    rw [endsIn_succ_iff h.1]
    exact ih h.round

theorem closes_of_endsIn_of_failed (hfailed : d.failed = true) (h : EndsIn ending unmarshal rounds d) :
    closes d.rest = true := by
  by_contra hcloses
  exact Stuck.not_endsIn ⟨Bool.eq_false_iff.2 hcloses, .inl hfailed⟩ rounds h

theorem closes_of_comma (h : skipSpace rest = 44 :: tail) : closes rest = false := by
  unfold closes
  rw [h]
  rfl

theorem round_comma (hfailed : d.failed = false) (hstate : d.tokenState = .arrayComma)
    (hskip : skipSpace d.rest = 44 :: tail) :
    (round ending unmarshal d).2 =
      match afterValue ending tail with
      | some tail' => { rest := tail', tokenState := .arrayComma, failed := false }
      | none => { rest := tail, tokenState := .arrayValue, failed := true } := by
  have hdecode := @Decoder.decode_comma { d with rest := skipSpace d.rest } ending hfailed hstate tail
    ((skipSpace_skipSpace d.rest).trans hskip)
  have hvalue := @Decoder.decode_value { d with rest := tail, tokenState := .arrayValue } ending hfailed
    TokenState.noConfusion TokenState.noConfusion
  rw [hfailed] at hvalue
  exact (round_eq (closes_of_comma hskip)).trans
    ((congrArg Prod.snd hdecode).trans (by rw [hfailed]; exact hvalue))

/-- A comma is as good as an opening bracket. -/
theorem endsIn_comma_iff (hfailed : d.failed = false) (hstate : d.tokenState = .arrayComma)
    (hskip : skipSpace d.rest = 44 :: tail) (htail : closes tail = false) :
    EndsIn ending unmarshal rounds d ↔
      EndsIn ending unmarshal rounds { d with rest := tail, tokenState := .arrayValue } := by
  cases rounds with
  | zero => rfl
  | succ rounds =>
    rw [endsIn_succ_iff (closes_of_comma hskip), endsIn_succ_iff htail, round_comma hfailed hstate hskip,
      @round_array T ending unmarshal { d with rest := tail, tokenState := .arrayValue } hfailed
        (.inr rfl) htail]
    cases hvalue : afterValue ending tail with
    | some tail' => rfl
    | none =>
      -- both keep the error, with a byte in front that does not close
      have hstuck : Stuck { rest := tail, tokenState := .arrayValue, failed := true } := ⟨htail, .inl rfl⟩
      have hstuck' : Stuck { rest := skipSpace tail, tokenState := .arrayValue, failed := true } :=
        ⟨(closes_skipSpace tail).trans htail, .inl rfl⟩
      exact iff_of_false (hstuck.not_endsIn rounds) (hstuck'.not_endsIn rounds)

/-! ## Which texts load -/

/-- The rounds of an array read its elements. -/
theorem elements_of_endsIn (hfailed : d.failed = false)
    (hstate : d.tokenState = .arrayStart ∨ d.tokenState = .arrayValue) (h : EndsIn ending unmarshal rounds d) :
    Elements ending d.rest := by
  induction rounds generalizing d with
  | zero => exact absurd h Bool.false_ne_true
  | succ rounds ih =>
    by_cases hcloses : closes d.rest = true
    · exact .close hcloses
    · have hcloses := Bool.eq_false_iff.2 hcloses
      rw [endsIn_succ_iff hcloses, round_array hfailed hstate hcloses] at h
      cases hvalue : afterValue ending d.rest with
      | none =>
        rw [hvalue] at h
        have hskip := closes_of_endsIn_of_failed rfl h
        rw [closes_skipSpace] at hskip
        exact .close hskip
      | some tail =>
        rw [hvalue] at h
        by_cases htail : closes tail = true
        · exact .last hvalue htail
        · obtain ⟨tail', hskip⟩ : ∃ tail', skipSpace tail = 44 :: tail' := by
            by_contra hnone
            refine Stuck.not_endsIn ⟨Bool.eq_false_iff.2 htail, .inr (.inr ⟨rfl, fun hhead => ?_⟩)⟩ rounds h
            exact hnone (List.head?_eq_some_iff.1 hhead)
          refine .cons hvalue hskip ?_
          by_cases htail' : closes tail' = true
          · exact .close htail'
          · rw [endsIn_comma_iff rfl rfl hskip (Bool.eq_false_iff.2 htail')] at h
            exact @ih { rest := tail', tokenState := .arrayValue, failed := false } rfl (.inr rfl) h

/-- A value in front: `More` is true. -/
theorem closes_of_afterValue (h : afterValue ending rest = some tail) : closes rest = false := by
  apply Bool.eq_false_iff.2
  intro hcloses
  rw [afterValue_of_closes hcloses] at h
  cases h

theorem exists_endsIn_of_elements (h : Elements ending rest) {d : Decoder} (hrest : d.rest = rest)
    (hfailed : d.failed = false) (hstate : d.tokenState = .arrayStart ∨ d.tokenState = .arrayValue) :
    ∃ rounds, EndsIn ending unmarshal rounds d := by
  induction h generalizing d with
  | close hcloses => exact ⟨1, endsIn_of_closes (hrest ▸ hcloses) 0⟩
  | last hvalue htail =>
    subst hrest
    refine ⟨2, (endsIn_succ_iff (closes_of_afterValue hvalue)).2 ?_⟩
    rw [round_array hfailed hstate (closes_of_afterValue hvalue), hvalue]
    exact endsIn_of_closes htail 0
  | @cons rest tail tail' hvalue hskip _ ih =>
    subst hrest
    by_cases htail : closes tail' = true
    · -- the comma is the last thing before the end: an error is kept, but nothing is left to read
      refine ⟨3, (endsIn_succ_iff (closes_of_afterValue hvalue)).2 ?_⟩
      rw [round_array hfailed hstate (closes_of_afterValue hvalue), hvalue,
        endsIn_succ_iff (closes_of_comma hskip), round_comma rfl rfl hskip, afterValue_of_closes htail]
      exact endsIn_of_closes htail 0
    · obtain ⟨rounds, hrounds⟩ :=
        @ih { rest := tail', tokenState := .arrayValue, failed := false } rfl rfl (.inr rfl)
      refine ⟨rounds + 1, (endsIn_succ_iff (closes_of_afterValue hvalue)).2 ?_⟩
      rw [round_array hfailed hstate (closes_of_afterValue hvalue), hvalue]
      exact (endsIn_comma_iff rfl rfl hskip (Bool.eq_false_iff.2 htail)).2 hrounds

theorem round_topValue (hfailed : d.failed = false) (hstate : d.tokenState = .topValue)
    (h : closes d.rest = false) :
    (round ending unmarshal d).2 =
      match afterValue ending d.rest with
      | some tail => { d with rest := tail }
      | none => { d with rest := skipSpace d.rest, failed := true } := by
  have hround := @round_value T ending unmarshal d hfailed (by rw [hstate]; exact TokenState.noConfusion)
    (by rw [hstate]; exact TokenState.noConfusion) h
  rwa [show Decoder.tokenValueEnd d.tokenState = d.tokenState by rw [hstate]; rfl] at hround

/-- The rounds outside of arrays and objects read values. -/
theorem exists_endsIn_iff_values (hfailed : d.failed = false) (hstate : d.tokenState = .topValue) :
    (∃ rounds, EndsIn ending unmarshal rounds d) ↔ Values ending d.rest := by
  constructor
  · rintro ⟨rounds, h⟩
    induction rounds generalizing d with
    | zero => exact absurd h Bool.false_ne_true
    | succ rounds ih =>
      by_cases hcloses : closes d.rest = true
      · exact .close hcloses
      · have hcloses := Bool.eq_false_iff.2 hcloses
        rw [endsIn_succ_iff hcloses, round_topValue hfailed hstate hcloses] at h
        cases hvalue : afterValue ending d.rest with
        | none =>
          rw [hvalue] at h
          have hskip := closes_of_endsIn_of_failed rfl h
          rw [closes_skipSpace] at hskip
          exact .close hskip
        | some tail =>
          rw [hvalue] at h
          exact .cons hvalue (@ih { d with rest := tail } hfailed hstate h)
  · intro h
    generalize hrest : d.rest = rest at h
    induction h generalizing d with
    | close hcloses => exact ⟨1, endsIn_of_closes (hrest ▸ hcloses) 0⟩
    | @cons rest tail hvalue _ ih =>
      subst hrest
      obtain ⟨rounds, hrounds⟩ := @ih { d with rest := tail } hfailed hstate rfl
      refine ⟨rounds + 1, (endsIn_succ_iff (closes_of_afterValue hvalue)).2 ?_⟩
      rw [round_topValue hfailed hstate (closes_of_afterValue hvalue), hvalue]
      exact hrounds

/-- In an object nothing is read. -/
theorem exists_endsIn_iff_closes (hstate : d.tokenState = .objectStart) :
    (∃ rounds, EndsIn ending unmarshal rounds d) ↔ closes d.rest = true := by
  constructor
  · rintro ⟨rounds, h⟩
    by_contra hcloses
    exact Stuck.not_endsIn ⟨Bool.eq_false_iff.2 hcloses, .inr (.inl hstate)⟩ rounds h
  · exact fun hcloses => ⟨1, endsIn_of_closes hcloses 0⟩

theorem exists_endsIn_iff_elements (hfailed : d.failed = false) (hstate : d.tokenState = .arrayStart) :
    (∃ rounds, EndsIn ending unmarshal rounds d) ↔ Elements ending d.rest := by
  constructor
  · rintro ⟨rounds, h⟩
    exact elements_of_endsIn hfailed (.inl hstate) h
  · exact fun h => exists_endsIn_of_elements h rfl hfailed (.inl hstate)

end Rounds

section Load

variable {T : Type} {ending : Ending} {unmarshal : Bytes → Option T} {toAny : Bytes → Bool} {text : Bytes}

theorem returns_of_noToken (h : ({ rest := text } : Decoder).token ending toAny = none) :
    ∃ rounds torrs, loadDB ending unmarshal toAny rounds text = some torrs := by
  refine ⟨0, none, ?_⟩
  unfold loadDB
  rw [h]

theorem returns_iff_endsIn {d : Decoder} (h : ({ rest := text } : Decoder).token ending toAny = some d) :
    (∃ rounds torrs, loadDB ending unmarshal toAny rounds text = some torrs) ↔
      ∃ rounds, EndsIn ending unmarshal rounds d := by
  unfold loadDB EndsIn
  rw [h]
  simp only [← Option.isSome_iff_exists, Option.isSome_map]

end Load

/-- **`loadDB` returns exactly for the texts that load**, whatever the entries are. -/
theorem loadDB_returns_iff {T : Type} (ending : Ending) (unmarshal : Bytes → Option T) (toAny : Bytes → Bool)
    (text : Bytes) :
    (∃ rounds torrs, loadDB ending unmarshal toAny rounds text = some torrs) ↔ Loadable ending toAny text := by
  unfold Loadable
  cases hskip : skipSpace text with
  | nil => exact iff_of_true (returns_of_noToken (Decoder.token_of_blank ending toAny hskip)) trivial
  | cons c rest =>
    have htoken := Decoder.token_of_cons ending toAny hskip
    show _ ↔ if c = 91 then Elements ending rest else _
    by_cases harray : c = 91
    · rw [if_pos harray] at htoken ⊢
      exact (returns_iff_endsIn htoken).trans (exists_endsIn_iff_elements rfl rfl)
    rw [if_neg harray] at htoken ⊢
    by_cases hobject : c = 123
    · rw [if_pos hobject] at htoken ⊢
      exact (returns_iff_endsIn htoken).trans (exists_endsIn_iff_closes rfl)
    rw [if_neg hobject] at htoken ⊢
    by_cases hpunct : c = 93 ∨ c = 125 ∨ c = 58 ∨ c = 44
    · -- no value starts with one of these
      rw [if_pos hpunct] at htoken
      refine iff_of_true (returns_of_noToken htoken) fun n hn => ?_
      have hstep : ({} : Scanner).step c = .error := by
        rcases hpunct with rfl | rfl | rfl | rfl <;> rfl
      rw [readValue, hstep] at hn
      cases hn
    rw [if_neg hpunct] at htoken
    cases hvalue : readValue ending {} (c :: rest) with
    | none =>
      rw [hvalue] at htoken
      exact iff_of_true (returns_of_noToken htoken) fun n hn => by cases hn
    | some n =>
      simp only [hvalue] at htoken
      by_cases hany : toAny ((c :: rest).take n) = true
      · rw [if_pos hany] at htoken
        refine (returns_iff_endsIn htoken).trans ((exists_endsIn_iff_values rfl rfl).trans ?_)
        constructor
        · rintro h n' hn' -
          cases hn'
          exact h
        · exact fun h => h n rfl hany
      · rw [if_neg hany] at htoken
        refine iff_of_true (returns_of_noToken htoken) fun n' hn' hany' => ?_
        cases hn'
        exact absurd hany' hany

/-- A database that is cut off in its first entry: the loop does not end. -/
theorem loadDB_cutOff_never_returns : ¬ ∃ (ending : Ending) (rounds : Nat),
    (loadDB ending (some : Bytes → Option Bytes) (fun _ => true) rounds [91, 123]).isSome = true := by
  rintro ⟨ending, rounds, hsome⟩
  have htoken : ({ rest := [91, 123] } : Decoder).token ending (fun _ => true) =
      some { rest := [123], tokenState := .arrayStart } := rfl
  unfold loadDB at hsome
  rw [htoken] at hsome
  have hends := (Option.isSome_map ..).symm.trans hsome
  cases rounds with
  | zero => exact Bool.false_ne_true hends
  | succ rounds =>
    have hround : (round ending (some : Bytes → Option Bytes) { rest := [123], tokenState := .arrayStart }).2 =
        { rest := [123], tokenState := .arrayStart, failed := true } := by cases ending <;> rfl
    have hends := (endsIn_succ_iff rfl).1 hends
    rw [hround] at hends
    exact Stuck.not_endsIn ⟨rfl, .inl rfl⟩ rounds hends

end TorrServer.Rutor
