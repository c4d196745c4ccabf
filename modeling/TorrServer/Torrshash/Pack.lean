/-
# Torrshash.Pack — tokens for a torrent hash with its fields.

A token is a hash and a list of tagged fields, written one after the other, compressed, and turned into base 62.
The only framing is the tag byte and, for text, a 16-bit length; `TagSize` is eight bytes of binary.
`Field.write` drops empty fields and the size `0`.

Two things are written that `ReadField` cannot read back. A size spelled as another zero (`00`, `+0`, `-0`)
writes its tag and no value, and a text longer than 65535 bytes has its length cut to 16 bits.

`compress/zlib` is a parameter with its round trip as hypothesis. A Go reader may deliver the end of the stream
together with the last byte or after it, and `ReadField` can tell the difference when it reads a tag.
-/
import TorrServer.Torrshash.Base62

namespace TorrServer.Torrshash

open Lib List

variable {v body : Bytes} {fuel j : Nat}

/-! ## Fields -/

/-- `Tag`; `other` is any byte that is none of the five constants. -/
inductive Tag
  | title
  | poster
  | tracker
  | category
  | size
  | other (b : UInt8)
  deriving DecidableEq, Repr

/-- `byte(tag)`. -/
def Tag.toByte : Tag → UInt8
  | .title => 0
  | .poster => 1
  | .tracker => 2
  | .category => 3
  | .size => 4
  | .other b => b

/-- `Tag(b)`. -/
def Tag.ofByte (b : UInt8) : Tag :=
  if b = 0 then .title
  else if b = 1 then .poster
  else if b = 2 then .tracker
  else if b = 3 then .category
  else if b = 4 then .size
  else .other b

/-- One of the five tags. -/
def Tag.Named (t : Tag) : Prop := ∀ b, t ≠ .other b

/-- Whether the value is a number of eight bytes. -/
def Tag.isBinary (t : Tag) : Bool := t = .size

/-- A tagged value. -/
structure Field where
  tag : Tag
  value : Bytes
  deriving DecidableEq, Repr

/-- A torrent's hash with what is known about it. -/
structure TorrsHash where
  hash : Bytes
  fields : List Field
  deriving DecidableEq, Repr

/-- The eight bytes `binary.Write` gives for an `int64`. -/
def int64Bytes (n : Int) : Bytes := leBytes 8 (n % 2 ^ 64).toNat

/-- The `int64` that `binary.Read` makes of eight bytes. -/
def int64Val (bs : Bytes) : Int :=
  if leVal bs < 2 ^ 63 then leVal bs else leVal bs - 2 ^ 64

/-- `Field.write`: the bytes written, or `none` for the error of `ParseInt`. -/
def Field.write (f : Field) : Option Bytes :=
  let value := trimSpace f.value
  if value = [] then some []
  else if f.tag.isBinary && value == [48] then some []
  else if f.tag.isBinary then
    (parseInt value).map fun n => f.tag.toByte :: (if n = 0 then [] else int64Bytes n)
  else some (f.tag.toByte :: (leBytes 2 value.length ++ value))

/-! ## Reading -/

/-- What a reader still has to give: bytes, how it ends, and whether the end comes with the last byte. -/
structure Stream where
  data : Bytes
  clean : Bool
  withLast : Bool
  deriving DecidableEq, Repr

/-- The error of a read. -/
inductive ReadErr
  | eof
  | broken
  deriving DecidableEq, Repr

/-- The error at the end of the stream. -/
def Stream.ending (s : Stream) : ReadErr := if s.clean then .eof else .broken

/-- `reader.Read` into a buffer of one byte, which keeps its zero if nothing is read. -/
def Stream.read1 (s : Stream) : UInt8 × Option ReadErr × Stream :=
  match s.data with
  | [] => (0, some s.ending, s)
  | [b] => (b, if s.withLast then some s.ending else none, { s with data := [] })
  | b :: c :: rest => (b, none, { s with data := c :: rest })

/-- `io.ReadFull`; `none` is any error. -/
def Stream.readFull (s : Stream) (n : Nat) : Option (Bytes × Stream) :=
  if n ≤ s.data.length then some (s.data.take n, { s with data := s.data.drop n }) else none

/-- What `ReadField` returns: a field, the end, or an error. -/
inductive Step
  | field (f : Field) (rest : Stream)
  | done
  | error
  deriving DecidableEq, Repr

/-- Reads one field; a stream that ends before it is done. -/
def readField (s : Stream) : Step :=
  let (b, err, s) := s.read1
  if err = some .eof then .done
  else
    let tag := Tag.ofByte b
    if tag.isBinary then
      match s.readFull 8 with
      | none => .error
      | some (v, s) => .field ⟨tag, formatInt (int64Val v)⟩ s
    else
      match s.readFull 2 with
      | none => .error
      | some (l, s) =>
        match s.readFull (leVal l) with
        | none => .error
        | some (v, s) => .field ⟨tag, v⟩ s

/-- The loop of `unpack`: the fields, and whether it ended without an error. A field takes a byte, which bounds
`fuel`. -/
def readFields : Nat → Stream → List Field × Bool
  | 0, _ => ([], false)
  | fuel + 1, s =>
    match readField s with
    | .done => ([], true)
    | .error => ([], false)
    | .field f rest =>
      let r := readFields fuel rest
      (f :: r.1, r.2)

/-! ## Packing and unpacking -/

/-- The value of a hex digit. -/
def hexVal (b : UInt8) : Option Nat :=
  if 48 ≤ b && b ≤ 57 then some (b.toNat - 48)
  else if 97 ≤ b && b ≤ 102 then some (b.toNat - 87)
  else if 65 ≤ b && b ≤ 70 then some (b.toNat - 55)
  else none

/-- The lower-case hex digit of a value below sixteen. -/
def hexDigit (n : Nat) : UInt8 := if n < 10 then UInt8.ofNat (48 + n) else UInt8.ofNat (87 + n)

/-- `hex.DecodeString`, which returns what it decoded before an error. -/
def hexDecode : Bytes → Bytes
  | a :: b :: rest =>
    match hexVal a, hexVal b with
    | some x, some y => UInt8.ofNat (16 * x + y) :: hexDecode rest
    | _, _ => []
  | _ => []

/-- `hex.EncodeToString`. -/
def hexEncode (bs : Bytes) : Bytes :=
  bs.flatMap fun b => [hexDigit (b.toNat / 16), hexDigit (b.toNat % 16)]

/-- The lower-case form of a letter. -/
def lowerByte (b : UInt8) : UInt8 := if 65 ≤ b && b ≤ 90 then b + 32 else b

/-- `compress/zlib`: the compressed form of a string, and the reader of a compressed one. -/
structure Zlib where
  compress : Bytes → Bytes
  newReader : Bytes → Option Stream

/-- zlib round-trips bytes, and its output begins with a byte that is not zero. -/
structure Zlib.RoundTrips (z : Zlib) : Prop where
  newReader_compress : ∀ d, ∃ withLast, z.newReader (z.compress d) = some ⟨d, true, withLast⟩
  compress_head : ∀ d, ∃ b rest, z.compress d = b :: rest ∧ b ≠ 0

variable (z : Zlib)

/-- The loop of `pack` over the fields. -/
def writeAll : List Field → Option Bytes
  | [] => some []
  | f :: fs => f.write.bind fun w => (writeAll fs).map fun rest => w ++ rest

/-- What `pack` writes to the compressor. -/
def plain (t : TorrsHash) : Option Bytes :=
  (writeAll t.fields).map fun body => hexDecode (trimSpace t.hash) ++ body

/-- The compressed record. -/
def pack (t : TorrsHash) : Option Bytes := (plain t).map z.compress

/-- `Pack`. -/
def packToken (t : TorrsHash) : Option Bytes := (pack z t).map encode62

/-- `unpack`: the result, which may be partial, and whether there was no error. -/
def unpack (data : Bytes) : Option TorrsHash × Bool :=
  match z.newReader data with
  | none => (none, false)
  | some s =>
    match s.readFull 20 with
    | none => (none, false)
    | some (hash, s) =>
      let r := readFields (s.data.length + 1) s
      (some ⟨hexEncode hash, r.1⟩, r.2)

/-- `Unpack`. -/
def unpackToken (token : Bytes) : Option TorrsHash × Bool := unpack z (decode62 (trimSpace token))

/-! ## What should come back -/

/-- The field that should come back: none for an empty value or a size of zero, else trimmed, in canonical
decimal. -/
def Field.expected (f : Field) : Option Field :=
  let value := trimSpace f.value
  if value = [] then none
  else if f.tag.isBinary then
    match parseInt value with
    | some n => if n = 0 then none else some ⟨f.tag, formatInt n⟩
    | none => none
  else some ⟨f.tag, value⟩

/-- A size of zero that is not spelled `0`: its tag is written and no value. -/
def Field.ZeroSize (f : Field) : Prop :=
  f.tag = .size ∧ trimSpace f.value ≠ [48] ∧ parseInt (trimSpace f.value) = some 0

/-- A text whose length does not fit in 16 bits. -/
def Field.TooLong (f : Field) : Prop := f.tag ≠ .size ∧ 2 ^ 16 ≤ (trimSpace f.value).length

instance (f : Field) : Decidable f.ZeroSize := inferInstanceAs (Decidable (_ ∧ _ ∧ _))

instance (f : Field) : Decidable f.TooLong := inferInstanceAs (Decidable (_ ∧ _))

/-- The size whose eight bytes are all equal to the tag byte of a size. -/
def fours : Int := 289360691352306692

/-- The fields after a `ZeroSize` that hide it: none, or sizes that look the same one byte on. -/
def Field.Hides (f : Field) : Prop :=
  ¬ f.ZeroSize ∧ (f.expected = none ∨ f.expected = some ⟨.size, formatInt fours⟩)

/-- The condition under which the fields come back. In the second case a single bare tag byte is the last byte
that `ReadField` can see, and the end comes with it. -/
def ReadsBack (withLast : Bool) (fs : List Field) : Prop :=
  (∀ f ∈ fs, ¬ f.TooLong) ∧
    ((∀ f ∈ fs, ¬ f.ZeroSize) ∨
      withLast = true ∧ ∃ pre f post, fs = pre ++ f :: post ∧ (∀ g ∈ pre, ¬ g.ZeroSize) ∧
        f.ZeroSize ∧ ∀ g ∈ post, g.Hides)

/-- The four ways a field is written, with what should come back of it. -/
inductive Shape (f : Field) : Bytes → Option Field → Prop
  | skip : ¬ f.ZeroSize → ¬ f.TooLong → Shape f [] none
  | zero : f.ZeroSize → Shape f [4] none
  | size (n : Int) : f.tag = .size → -2 ^ 63 ≤ n → n < 2 ^ 63 → ¬ f.ZeroSize →
      Shape f (4 :: int64Bytes n) (some ⟨.size, formatInt n⟩)
  | text (v : Bytes) : f.tag ≠ .size → v = trimSpace f.value →
      Shape f (f.tag.toByte :: (leBytes 2 v.length ++ v)) (some ⟨f.tag, v⟩)

variable {f : Field}

theorem Field.shape {w : Bytes} (h : f.write = some w) : Shape f w f.expected := by
  simp only [Field.write] at h
  simp only [Field.expected]
  split at h
  · -- an empty value
    rename_i hv
    cases h
    rw [if_pos hv]
    refine .skip ?_ ?_
    · rintro ⟨-, -, h0⟩
      rw [hv] at h0
      exact absurd h0 (by decide)
    · rintro ⟨-, hlen⟩
      simp [hv] at hlen
  · rename_i hv
    rw [if_neg hv]
    split at h
    · -- the size `0`
      rename_i h0
      cases h
      simp only [Bool.and_eq_true, beq_iff_eq] at h0
      have hexp : parseInt [48] = some 0 := by decide
      rw [if_pos h0.1, h0.2, hexp]
      refine .skip ?_ ?_
      · rintro ⟨-, hne, -⟩
        exact hne h0.2
      · rintro ⟨ht, -⟩
        exact ht (by simpa [Tag.isBinary] using h0.1)
    · rename_i h0
      split at h
      · rename_i hbin
        have htag : f.tag = .size := by simpa [Tag.isBinary] using hbin
        obtain ⟨n, hn, rfl⟩ := Option.map_eq_some_iff.mp h
        have hne : trimSpace f.value ≠ [48] := by
          intro heq
          simp [hbin, heq] at h0
        rw [if_pos hbin, hn, htag]
        by_cases hz : n = 0
        · subst hz
          exact .zero ⟨htag, hne, hn⟩
        · obtain ⟨hlo, hhi⟩ := parseInt_range hn
          simp only [if_neg hz]
          refine .size n htag hlo hhi ?_
          rintro ⟨-, -, hn0⟩
          rw [hn, Option.some.injEq] at hn0
          exact hz hn0
      · rename_i hbin
        cases h
        rw [if_neg hbin]
        exact .text _ (by simpa [Tag.isBinary] using hbin) rfl

/-! ## Reading one field -/

@[simp] theorem int64Bytes_length (n : Int) : (int64Bytes n).length = 8 := leBytes_length 8 _

theorem int64Val_int64Bytes {n : Int} (hlo : -2 ^ 63 ≤ n) (hhi : n < 2 ^ 63) : int64Val (int64Bytes n) = n := by
  have hval : leVal (int64Bytes n) = (n % 2 ^ 64).toNat := leVal_leBytes_of_lt (by omega)
  rw [int64Val, hval]
  split <;> omega

theorem int64Bytes_int64Val (h : v.length = 8) : int64Bytes (int64Val v) = v := by
  have hlt : leVal v < 2 ^ 64 := by simpa [h] using leVal_lt v
  have hmod : (int64Val v % 2 ^ 64).toNat = leVal v := by
    rw [int64Val]
    split <;> omega
  rw [int64Bytes, hmod, ← h, leBytes_leVal]

theorem int64Val_range (h : v.length = 8) : -2 ^ 63 ≤ int64Val v ∧ int64Val v < 2 ^ 63 := by
  have hlt : leVal v < 2 ^ 64 := by simpa [h] using leVal_lt v
  rw [int64Val]
  split <;> omega

/-- Printing tells two `int64` apart. -/
theorem formatInt_inj {m n : Int} (hm : -2 ^ 63 ≤ m ∧ m < 2 ^ 63) (hn : -2 ^ 63 ≤ n ∧ n < 2 ^ 63)
    (h : formatInt m = formatInt n) : m = n := by
  have hp := parseInt_formatInt hm.1 hm.2
  rw [h, parseInt_formatInt hn.1 hn.2] at hp
  exact (Option.some.inj hp).symm

theorem Tag.ofByte_toByte {t : Tag} (h : t.Named) : Tag.ofByte t.toByte = t := by
  cases t with
  | other b => exact absurd rfl (h b)
  | title | poster | tracker | category | size => rfl

/-- A read that leaves bytes behind has no error. -/
theorem Stream.read1_cons {b : UInt8} {rest : Bytes} (clean withLast : Bool) (h : rest ≠ []) :
    Stream.read1 ⟨b :: rest, clean, withLast⟩ = (b, none, ⟨rest, clean, withLast⟩) := by
  cases rest with
  | nil => exact absurd rfl h
  | cons c rest => rfl

theorem Stream.readFull_append (v rest : Bytes) (clean withLast : Bool) :
    Stream.readFull ⟨v ++ rest, clean, withLast⟩ v.length = some (v, ⟨rest, clean, withLast⟩) := by
  simp [Stream.readFull]

/-- **Reading at a size tag**: the end if the tag came with it, otherwise whatever the next eight bytes are. -/
theorem readField_four (rest : Bytes) (withLast : Bool) :
    readField ⟨4 :: rest, true, withLast⟩ =
      if rest = [] ∧ withLast = true then .done
      else if 8 ≤ rest.length then
        .field ⟨.size, formatInt (int64Val (rest.take 8))⟩ ⟨rest.drop 8, true, withLast⟩
      else .error := by
  have htag : Tag.ofByte 4 = .size := rfl
  cases rest with
  | nil => cases withLast <;> rfl
  | cons c rest =>
    rw [if_neg (by simp), readField, Stream.read1_cons _ _ (by simp)]
    simp only [htag, Tag.isBinary, Stream.readFull, decide_true, if_true, reduceCtorEq, if_false]
    by_cases h8 : 8 ≤ (c :: rest).length
    · simp only [if_pos h8]
    · simp only [if_neg h8]

theorem readField_size (hv : v.length = 8) (rest : Bytes) (withLast : Bool) :
    readField ⟨4 :: (v ++ rest), true, withLast⟩ =
      .field ⟨.size, formatInt (int64Val v)⟩ ⟨rest, true, withLast⟩ := by
  have hne : v ++ rest ≠ [] := by
    intro h
    simp_all
  rw [readField_four, if_neg (fun h => hne h.1), if_pos (by simp [hv]), take_left' hv, drop_left' hv]

theorem readField_text {t : Tag} (hn : t.Named) (ht : t ≠ .size) (hv : v.length < 2 ^ 16) (rest : Bytes)
    (withLast : Bool) :
    readField ⟨t.toByte :: (leBytes 2 v.length ++ v ++ rest), true, withLast⟩ =
      .field ⟨t, v⟩ ⟨rest, true, withLast⟩ := by
  have hne : leBytes 2 v.length ++ v ++ rest ≠ [] := by simp [leBytes]
  have hlen : leVal (leBytes 2 v.length) = v.length := leVal_leBytes_of_lt (by omega)
  have hfull := Stream.readFull_append (leBytes 2 v.length) (v ++ rest) true withLast
  rw [leBytes_length] at hfull
  rw [readField, Stream.read1_cons _ _ hne]
  simp only [reduceCtorEq, if_false, Tag.ofByte_toByte hn, Tag.isBinary, decide_eq_true_eq, ht,
    append_assoc, hfull, hlen, Stream.readFull_append]

/-- A text that was read is at most 65535 bytes long. -/
theorem readField_short {s rest : Stream} (h : readField s = .field f rest) :
    f.tag ≠ .size → f.value.length < 2 ^ 16 := by
  intro hf
  rw [readField] at h
  generalize s.read1 = r at h
  obtain ⟨b, err, s⟩ := r
  dsimp only at h
  split at h
  · cases h
  · split at h
    · rename_i hbin
      split at h
      · cases h
      · cases h
        exact absurd (by simpa [Tag.isBinary] using hbin) hf
    · split at h
      · cases h
      · rename_i l s₂ hl
        split at h
        · cases h
        · rename_i v s₃ hv
          cases h
          simp only [Stream.readFull] at hl hv
          split at hl
          · cases hl
            split at hv
            · cases hv
              have := leVal_lt (s.data.take 2)
              have hlen : (s.data.take 2).length = 2 := by simp; omega
              rw [hlen] at this
              simp only [length_take]
              omega
            · cases hv
          · cases hl

theorem readFields_short {s : Stream} :
    ∀ f ∈ (readFields fuel s).1, f.tag ≠ .size → f.value.length < 2 ^ 16 := by
  induction fuel generalizing s with
  | zero => simp [readFields]
  | succ fuel ih =>
    intro f hf
    rw [readFields] at hf
    split at hf
    · simp at hf
    · simp at hf
    · rename_i g rest hg
      rcases mem_cons.mp hf with rfl | hf
      · exact readField_short hg
      · exact ih f hf

/-! ## Reading behind a bare tag -/

variable {fs : List Field}

theorem writeAll_cons_eq_some (h : writeAll (f :: fs) = some body) :
    ∃ w rest, f.write = some w ∧ writeAll fs = some rest ∧ body = w ++ rest := by
  obtain ⟨w, hw, h⟩ := Option.bind_eq_some_iff.mp h
  obtain ⟨rest, hrest, rfl⟩ := Option.map_eq_some_iff.mp h
  exact ⟨w, rest, hw, hrest, rfl⟩

/-- A string that looks the same some fours further on is made of fours. -/
theorem eq_replicate_of_shift {b : Bytes} (hj : 1 ≤ j) (h : (List.replicate j 4 ++ b).take b.length = b) :
    b = List.replicate b.length 4 := by
  have hall : ∀ i, i < b.length → b[i]? = some 4 := by
    intro i
    induction i using Nat.strongRecOn with
    | ind i ih =>
      intro hi
      rw [← h, getElem?_take_of_lt hi]
      by_cases hij : i < j
      · rw [getElem?_append_left (by simpa using hij), getElem?_replicate_of_lt hij]
      · rw [getElem?_append_right (by simp; omega), length_replicate]
        exact ih (i - j) (by omega) (by omega)
  apply ext_getElem?
  intro i
  by_cases hi : i < b.length
  · rw [hall i hi, getElem?_replicate_of_lt hi]
  · rw [getElem?_eq_none (by omega), getElem?_eq_none (by simp; omega)]

theorem int64Bytes_fours : int64Bytes fours = List.replicate 8 4 := by decide

/-- At a size tag the loop ends, fails, or gives a size first. -/
theorem readFields_four (fuel : Nat) (rest : Bytes) (withLast : Bool) :
    readFields (fuel + 1) ⟨4 :: rest, true, withLast⟩ =
      if rest = [] ∧ withLast = true then ([], true)
      else if 8 ≤ rest.length then
        (⟨.size, formatInt (int64Val (rest.take 8))⟩ ::
          (readFields fuel ⟨rest.drop 8, true, withLast⟩).1,
          (readFields fuel ⟨rest.drop 8, true, withLast⟩).2)
      else ([], false) := by
  rw [readFields, readField_four]
  by_cases hend : rest = [] ∧ withLast = true
  · simp only [if_pos hend]
  · by_cases h8 : 8 ≤ rest.length
    · simp only [if_neg hend, if_pos h8]
    · simp only [if_neg hend, if_neg h8]

/-- A size behind bare tags comes back only if it looks the same one byte on. -/
theorem readFields_misaligned_size {n : Int} (hlo : -2 ^ 63 ≤ n) (hhi : n < 2 ^ 63) (rest : Bytes) (hj : 1 ≤ j)
    (fuel : Nat) (withLast : Bool) (fs : List Field) :
    readFields (fuel + 1) ⟨List.replicate j 4 ++ (4 :: int64Bytes n ++ rest), true, withLast⟩ =
        (⟨.size, formatInt n⟩ :: fs, true) ↔
      n = fours ∧ readFields fuel ⟨List.replicate j 4 ++ rest, true, withLast⟩ = (fs, true) := by
  have hstream : List.replicate j (4 : UInt8) ++ (4 :: int64Bytes n ++ rest) =
      4 :: (List.replicate j 4 ++ (int64Bytes n ++ rest)) := by
    rw [cons_append, ← singleton_append, ← append_assoc, ← replicate_succ', replicate_succ, cons_append]
  have hlen : 8 ≤ (List.replicate j (4 : UInt8) ++ (int64Bytes n ++ rest)).length := by
    simp only [length_append, int64Bytes_length]
    omega
  have hlen8 : ((List.replicate j (4 : UInt8) ++ (int64Bytes n ++ rest)).take 8).length = 8 := by
    rw [length_take]
    omega
  have hne : ¬ (List.replicate j (4 : UInt8) ++ (int64Bytes n ++ rest) = [] ∧
      withLast = true) := by
    rintro ⟨h, -⟩
    simp [h] at hlen
  rw [hstream, readFields_four, if_neg hne, if_pos hlen]
  by_cases hn : n = fours
  · have hfours : List.replicate j (4 : UInt8) ++ (int64Bytes n ++ rest) =
        List.replicate 8 4 ++ (List.replicate j 4 ++ rest) := by
      rw [hn, int64Bytes_fours, ← append_assoc, ← append_assoc,
        replicate_append_replicate, replicate_append_replicate, Nat.add_comm]
    have hval : int64Val (List.replicate 8 4) = n := by
      rw [hn]
      decide
    rw [hfours, take_left' (by simp), drop_left' (by simp), hval]
    simp only [Prod.mk.injEq, List.cons.injEq, true_and, hn]
    rw [Prod.ext_iff]
  · -- the eight bytes read are those of `n` only if `n` is made of fours
    simp only [hn, false_and, iff_false, Prod.mk.injEq, List.cons.injEq, Field.mk.injEq, true_and]
    rintro ⟨⟨h, -⟩, -⟩
    have hval := formatInt_inj (int64Val_range hlen8) ⟨hlo, hhi⟩ h
    have hbytes := int64Bytes_int64Val hlen8
    rw [hval, ← append_assoc, take_append_of_le_length (by simp)] at hbytes
    have hrep := eq_replicate_of_shift hj (by rw [int64Bytes_length]; exact hbytes.symm)
    rw [int64Bytes_length, ← int64Bytes_fours] at hrep
    have hback := int64Val_int64Bytes hlo hhi
    rw [hrep, int64Val_int64Bytes (by decide) (by decide)] at hback
    exact hn hback.symm

/-- **Reading behind bare tags.** Behind `j ≥ 1` of them the fields come back only if `j = 1`, the end comes
with the last byte, and all fields look the same one byte on. -/
theorem readFields_misaligned (withLast : Bool) (hw : writeAll fs = some body) (hj : 1 ≤ j)
    (hfuel : j + body.length < fuel) :
    readFields fuel ⟨List.replicate j 4 ++ body, true, withLast⟩ =
        (fs.filterMap Field.expected, true) ↔
      j = 1 ∧ withLast = true ∧ ∀ g ∈ fs, g.Hides := by
  induction fs generalizing body j fuel with
  | nil =>
    cases hw
    obtain ⟨j, rfl⟩ : ∃ i, j = i + 1 := ⟨j - 1, by omega⟩
    obtain ⟨fuel, rfl⟩ : ∃ i, fuel = i + 1 := ⟨fuel - 1, by omega⟩
    rw [append_nil, replicate_succ, readFields_four]
    cases j with
    | zero => cases withLast <;> simp
    | succ j =>
      have hne : ¬ (List.replicate (j + 1) (4 : UInt8) = [] ∧ withLast = true) := by simp
      rw [if_neg hne]
      split <;> simp
  | cons f fs ih =>
    obtain ⟨w, rest, hfw, hrest, rfl⟩ := writeAll_cons_eq_some hw
    have hshape := Field.shape hfw
    rw [forall_mem_cons, filterMap_cons]
    generalize hexp : f.expected = e at hshape ⊢
    rw [length_append] at hfuel
    cases hshape with
    | skip hz _ =>
      have hhides : f.Hides := ⟨hz, .inl hexp⟩
      rw [nil_append, ih hrest hj (by simpa using hfuel)]
      simp [hhides]
    | zero hz =>
      -- one more bare tag in front
      have hhides : ¬ f.Hides := fun h => h.1 hz
      have hshift : List.replicate j (4 : UInt8) ++ ([4] ++ rest) =
          List.replicate (j + 1) 4 ++ rest := by
        rw [replicate_succ', append_assoc]
      rw [hshift]
      rw [ih hrest (by omega) (by simp at hfuel; omega)]
      simp [hhides]
      omega
    | text v ht hv =>
      have hhides : ¬ f.Hides := by
        rintro ⟨-, h | h⟩
        · rw [hexp] at h
          cases h
        · rw [hexp, Option.some.injEq, Field.mk.injEq] at h
          exact ht h.1
      have hne : ∀ (l : List Field) (c : Bool),
          readFields fuel ⟨List.replicate j 4 ++ (f.tag.toByte :: (leBytes 2 v.length ++ v) ++
            rest), true, withLast⟩ ≠ (⟨f.tag, v⟩ :: l, c) := by
        intro l c
        obtain ⟨j, rfl⟩ : ∃ i, j = i + 1 := ⟨j - 1, by omega⟩
        obtain ⟨fuel, rfl⟩ : ∃ i, fuel = i + 1 := ⟨fuel - 1, by omega⟩
        rw [replicate_succ, cons_append, readFields_four]
        split
        · simp
        · split
          · simp only [ne_eq, Prod.mk.injEq, List.cons.injEq, Field.mk.injEq, not_and]
            intro h
            exact absurd h.1.1.symm ht
          · simp
      simp only [hhides, false_and, and_false, iff_false]
      exact hne _ _
    | size n ht hlo hhi hz =>
      obtain ⟨fuel, rfl⟩ : ∃ i, fuel = i + 1 := ⟨fuel - 1, by omega⟩
      have hhides : f.Hides ↔ n = fours := by
        constructor
        · rintro ⟨-, h | h⟩
          · rw [hexp] at h
            cases h
          · rw [hexp, Option.some.injEq, Field.mk.injEq] at h
            exact formatInt_inj ⟨hlo, hhi⟩ (by decide) h.2
        · rintro rfl
          exact ⟨hz, .inr hexp⟩
      have hfuel' : j + rest.length < fuel := by
        simp only [length_cons, int64Bytes_length] at hfuel
        omega
      rw [readFields_misaligned_size hlo hhi rest hj, ih hrest hj hfuel', hhides]
      constructor
      · rintro ⟨hn, h1, hl, hfs⟩
        exact ⟨h1, hl, hn, hfs⟩
      · rintro ⟨h1, hl, hn, hfs⟩
        exact ⟨hn, h1, hl, hfs⟩

/-! ## Which tokens come back -/

theorem readsBack_nil (withLast : Bool) : ReadsBack withLast [] := by simp [ReadsBack]

theorem readsBack_cons_zero (hz : f.ZeroSize) (fs : List Field) (withLast : Bool) :
    ReadsBack withLast (f :: fs) ↔ withLast = true ∧ ∀ g ∈ fs, g.Hides := by
  constructor
  · rintro ⟨-, hnone | ⟨hl, pre, g, post, heq, hpre, hg, hpost⟩⟩
    · exact absurd hz (hnone f mem_cons_self)
    · cases pre with
      | nil =>
        cases heq
        exact ⟨hl, hpost⟩
      | cons p pre =>
        cases heq
        exact absurd hz (hpre f mem_cons_self)
  · rintro ⟨hl, hfs⟩
    refine ⟨?_, .inr ⟨hl, [], f, fs, rfl, by simp, hz, hfs⟩⟩
    -- a field that hides a bare tag is no text
    rintro g hg ⟨ht, hlen⟩
    rcases mem_cons.mp hg with rfl | hg
    · exact ht hz.1
    · have hv : trimSpace g.value ≠ [] := by
        intro hv
        simp [hv] at hlen
      have hexp : g.expected = some ⟨g.tag, trimSpace g.value⟩ := by simp [Field.expected, hv, Tag.isBinary, ht]
      rcases (hfs g hg).2 with h | h
      · rw [hexp] at h
        cases h
      · rw [hexp, Option.some.injEq, Field.mk.injEq] at h
        exact ht h.1

theorem readsBack_cons_of_not_zero (hz : ¬ f.ZeroSize) (fs : List Field) (withLast : Bool) :
    ReadsBack withLast (f :: fs) ↔ ¬ f.TooLong ∧ ReadsBack withLast fs := by
  constructor
  · rintro ⟨hlong, hz'⟩
    refine ⟨hlong f mem_cons_self, fun g hg => hlong g (mem_cons_of_mem f hg), ?_⟩
    rcases hz' with hnone | ⟨hl, pre, g, post, heq, hpre, hg, hpost⟩
    · exact .inl fun g hg => hnone g (mem_cons_of_mem f hg)
    · cases pre with
      | nil =>
        cases heq
        exact absurd hg hz
      | cons p pre =>
        cases heq
        exact .inr ⟨hl, pre, g, post, rfl, fun p hp => hpre p (mem_cons_of_mem _ hp), hg,
          hpost⟩
  · rintro ⟨hf, hlong, hz'⟩
    refine ⟨forall_mem_cons.mpr ⟨hf, hlong⟩, ?_⟩
    rcases hz' with hnone | ⟨hl, pre, g, post, rfl, hpre, hg, hpost⟩
    · exact .inl (forall_mem_cons.mpr ⟨hz, hnone⟩)
    · exact .inr ⟨hl, f :: pre, g, post, rfl, forall_mem_cons.mpr ⟨hz, hpre⟩, hg, hpost⟩

/-- **Reading what was written** gives the expected fields exactly under `ReadsBack`. -/
theorem readFields_iff (withLast : Bool) (hw : writeAll fs = some body) (hnamed : ∀ f ∈ fs, f.tag.Named)
    (hfuel : body.length < fuel) :
    readFields fuel ⟨body, true, withLast⟩ = (fs.filterMap Field.expected, true) ↔
      ReadsBack withLast fs := by
  induction fs generalizing body fuel with
  | nil =>
    cases hw
    obtain ⟨fuel, rfl⟩ : ∃ i, fuel = i + 1 := ⟨fuel - 1, by omega⟩
    exact iff_of_true rfl (readsBack_nil withLast)
  | cons f fs ih =>
    obtain ⟨w, rest, hfw, hrest, rfl⟩ := writeAll_cons_eq_some hw
    have hnamed' : ∀ g ∈ fs, g.tag.Named := fun g hg => hnamed g (mem_cons_of_mem f hg)
    have hshape := Field.shape hfw
    rw [filterMap_cons]
    generalize hexp : f.expected = e at hshape ⊢
    rw [length_append] at hfuel
    cases hshape with
    | skip hz hlong =>
      rw [nil_append, ih hrest hnamed' (by simpa using hfuel), readsBack_cons_of_not_zero hz]
      simp [hlong]
    | zero hz =>
      -- a bare tag: all that follows is read one byte off
      have hone : [4] ++ rest = List.replicate 1 (4 : UInt8) ++ rest := rfl
      rw [hone, readFields_misaligned withLast hrest le_rfl hfuel, readsBack_cons_zero hz]
      simp
    | size n ht hlo hhi hz =>
      obtain ⟨fuel, rfl⟩ : ∃ i, fuel = i + 1 := ⟨fuel - 1, by omega⟩
      have hlong : ¬ f.TooLong := fun h => h.1 ht
      have hfuel' : rest.length < fuel := by
        simp only [length_cons, int64Bytes_length] at hfuel
        omega
      rw [readsBack_cons_of_not_zero hz, ← ih hrest hnamed' hfuel', readFields,
        cons_append, readField_size (int64Bytes_length n), int64Val_int64Bytes hlo hhi]
      simp only [Prod.mk.injEq, List.cons.injEq, true_and, hlong, not_false_eq_true]
      rw [Prod.ext_iff]
    | text v ht hv =>
      have hz : ¬ f.ZeroSize := fun h => ht h.1
      have hlong : f.TooLong ↔ 2 ^ 16 ≤ v.length := by
        rw [Field.TooLong, ← hv]
        exact and_iff_right ht
      rw [readsBack_cons_of_not_zero hz, hlong]
      by_cases hlen : v.length < 2 ^ 16
      · obtain ⟨fuel, rfl⟩ : ∃ i, fuel = i + 1 := ⟨fuel - 1, by omega⟩
        have hfuel' : rest.length < fuel := by
          simp only [length_cons] at hfuel
          omega
        rw [← ih hrest hnamed' hfuel', readFields, cons_append, readField_text (hnamed f mem_cons_self) ht hlen]
        simp only [Prod.mk.injEq, List.cons.injEq, true_and, not_le.mpr hlen, not_false_eq_true]
        rw [Prod.ext_iff]
      · -- no text as long as this one can be read
        simp only [not_lt.mp hlen, not_true_eq_false, false_and, iff_false]
        intro hread
        have hmem : (⟨f.tag, v⟩ : Field) ∈
            (readFields fuel ⟨f.tag.toByte :: (leBytes 2 v.length ++ v) ++ rest, true,
              withLast⟩).1 := by
          rw [hread]
          exact mem_cons_self
        exact hlen (readFields_short _ hmem ht)

/-! ## The hash -/

/-- A hash of 40 hex digits. -/
def IsHash (h : Bytes) : Prop := h.length = 40 ∧ ∀ b ∈ h, (hexVal b).isSome = true

theorem hexVal_spec_ofNat : ∀ n < 256, ∀ x ∈ hexVal (UInt8.ofNat n),
    x < 16 ∧ hexDigit x = lowerByte (UInt8.ofNat n) ∧ isAlnum (UInt8.ofNat n) = true := by
  decide +kernel

theorem hexVal_spec {b : UInt8} {x : Nat} (h : hexVal b = some x) :
    x < 16 ∧ hexDigit x = lowerByte b ∧ isAlnum b = true := by
  have hspec := hexVal_spec_ofNat b.toNat b.toNat_lt x
  rw [UInt8.ofNat_toNat] at hspec
  exact hspec h

/-- Two hex digits make a byte that prints as the same two digits in lower case. -/
theorem hexDecode_spec {h : Bytes} (hhex : ∀ b ∈ h, (hexVal b).isSome = true) :
    ∀ n, h.length = 2 * n →
      (hexDecode h).length = n ∧ hexEncode (hexDecode h) = h.map lowerByte := by
  intro n
  induction n generalizing h with
  | zero =>
    intro hn
    rw [eq_nil_of_length_eq_zero hn]
    exact ⟨rfl, rfl⟩
  | succ n ih =>
    intro hn
    match h, hn with
    | a :: b :: rest, hn =>
      obtain ⟨x, hx⟩ := Option.isSome_iff_exists.mp (hhex a (by simp))
      obtain ⟨y, hy⟩ := Option.isSome_iff_exists.mp (hhex b (by simp))
      obtain ⟨hx16, hxd, -⟩ := hexVal_spec hx
      obtain ⟨hy16, hyd, -⟩ := hexVal_spec hy
      have hrest : rest.length = 2 * n := by
        simp only [length_cons] at hn
        omega
      obtain ⟨hlen, henc⟩ := ih (fun c hc => hhex c (by simp [hc])) hrest
      have hbyte : (UInt8.ofNat (16 * x + y)).toNat = 16 * x + y := by
        rw [UInt8.toNat_ofNat']
        omega
      have hdiv : (16 * x + y) / 16 = x := by omega
      have hmod : (16 * x + y) % 16 = y := by omega
      simp only [hexDecode, hx, hy]
      refine ⟨by rw [length_cons, hlen], ?_⟩
      rw [hexEncode, flatMap_cons, hbyte, hdiv, hmod, hxd, hyd, ← hexEncode, henc]
      rfl

/-! ## Tokens -/

/-- Whether the reader of the packed form says the end together with the last byte. -/
def endsWithLast (t : TorrsHash) : Bool :=
  ((plain t).bind fun d => z.newReader (z.compress d)).any (·.withLast)

/-- **Exactly which tokens come back.** On a hash of 40 hex digits with fields of the five tags, `Unpack` gives
the lower-cased hash and the expected fields if and only if the fields read back. -/
theorem unpack_pack_iff (hz : z.RoundTrips) (t : TorrsHash) (hhash : IsHash t.hash)
    (hnamed : ∀ f ∈ t.fields, f.tag.Named) (token : Bytes) (hpack : packToken z t = some token) :
    unpackToken z token = (some ⟨t.hash.map lowerByte, t.fields.filterMap Field.expected⟩, true) ↔
      ReadsBack (endsWithLast z t) t.fields := by
  obtain ⟨data, hdata, rfl⟩ := Option.map_eq_some_iff.mp hpack
  obtain ⟨d, hd, rfl⟩ := Option.map_eq_some_iff.mp hdata
  obtain ⟨body, hbody, rfl⟩ := Option.map_eq_some_iff.mp hd
  -- the text layers: trimming does nothing, and base 62 gives the compressed bytes back
  have htrim : trimSpace t.hash = t.hash := by
    apply trimSpace_of_alnum
    intro b hb
    obtain ⟨x, hx⟩ := Option.isSome_iff_exists.mp (hhash.2 b hb)
    exact (hexVal_spec hx).2.2
  rw [htrim] at hd
  obtain ⟨hlen, henc⟩ := hexDecode_spec hhash.2 20 hhash.1
  obtain ⟨b, rest, hcomp, hb⟩ := hz.compress_head (hexDecode t.hash ++ body)
  have hdecode : decode62 (trimSpace (encode62 (z.compress (hexDecode t.hash ++ body)))) =
      z.compress (hexDecode t.hash ++ body) := by
    rw [trimSpace_of_alnum fun c hc => (encode62_alnum _ c hc).1]
    apply decode62_of_encode62
    rw [hcomp]
    simpa using hb
  obtain ⟨withLast, hreader⟩ := hz.newReader_compress (hexDecode t.hash ++ body)
  have hends : endsWithLast z t = withLast := by simp [endsWithLast, hd, hreader]
  have hfull := Stream.readFull_append (hexDecode t.hash) body true withLast
  rw [hlen] at hfull
  rw [htrim, unpackToken, hdecode, unpack, hreader]
  simp only [hfull, henc]
  rw [hends, ← readFields_iff withLast hbody hnamed (Nat.lt_succ_self body.length), Prod.ext_iff, Prod.ext_iff]
  simp

/-- A compressor that stores: one header byte, and the end comes with the last byte. -/
def storing : Zlib where
  compress d := 120 :: d
  newReader data := if data.head? = some 120 then some ⟨data.tail, true, true⟩ else none

theorem storing_roundTrips : storing.RoundTrips :=
  ⟨fun _ => ⟨true, rfl⟩, fun d => ⟨120, d, rfl, by decide⟩⟩

/-- A title with spaces around it, a size with a sign, and a size of zero. -/
def spelledOut : TorrsHash :=
  { hash := List.replicate 40 65
    fields := [⟨.title, [32, 97, 10]⟩, ⟨.size, [43, 53]⟩, ⟨.size, [48]⟩] }

theorem spelledOut_reads_back :
    ∃ token, packToken storing spelledOut = some token ∧
      unpackToken storing token =
        (some ⟨List.replicate 40 97, [⟨.title, [97]⟩, ⟨.size, [53]⟩]⟩, true) := by
  obtain ⟨token, htoken⟩ : ∃ token, packToken storing spelledOut = some token := ⟨_, rfl⟩
  have hiff := unpack_pack_iff storing storing_roundTrips spelledOut
    ⟨by decide, by decide +kernel⟩ (by simp [spelledOut, Tag.Named]) token htoken
  have hlong : ∀ f ∈ spelledOut.fields, ¬ f.TooLong := by decide +kernel
  have hzero : ∀ f ∈ spelledOut.fields, ¬ f.ZeroSize := by decide +kernel
  exact ⟨token, htoken, hiff.mpr ⟨hlong, .inl hzero⟩⟩

/-- A size spelled `00` in front of a title. -/
def bareTag : TorrsHash :=
  { hash := List.replicate 40 65, fields := [⟨.size, [48, 48]⟩, ⟨.title, [97]⟩] }

/-- `Pack` accepts it and `Unpack` fails: the title is read as part of a size. -/
theorem bareTag_not_read_back :
    ∃ token, storing.RoundTrips ∧ packToken storing bareTag = some token ∧
      bareTag.fields.filterMap Field.expected = [⟨.title, [97]⟩] ∧
      unpackToken storing token = (some ⟨List.replicate 40 97, []⟩, false) := by
  refine ⟨_, storing_roundTrips, rfl, by decide, ?_⟩
  decide +kernel

end TorrServer.Torrshash
