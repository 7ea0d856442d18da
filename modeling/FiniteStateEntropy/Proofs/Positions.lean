import FiniteStateEntropy.Proofs.Converse

/-!
# Streams by position

The plain encoder and decoder swap their lanes after every symbol and never say at which position
they are. Here the position is what everything goes by: the first lane codes the symbols at even
positions of the input and the second lane those at odd positions, and a symbol is coded from, and
leads to, the state of its own lane. A decoder goes up from position zero and an encoder down to
it, each over all positions but the last two, whose symbols the states stand for.

Nothing here knows of windows, containers, pairs or quartets, and no step looks at more than one
position. A swapped pair is the lanes seen from a position, so each of the two is the plain one,
and with it the one that is scheduled for speed.

A stream is seen by its two readers differently. For a decoder it is the bits below the highest
set bit of its last byte, and one of three things goes wrong with it: there is no such bit, the
bits run out, or some are left. For an encoder it is one little-endian number, in which each field
lies above those before it.

## Main definitions

* `Lanes.state`, `Lanes.put`: the lane of a position
* `Stream.Positional.upTo`, `Stream.Positional.decode`: decoding by position
* `Stream.Positional.RunsOut`, `Stream.Positional.Verdict`: how it ends
* `Stream.Positional.fieldsBelow`, `Stream.Positional.fields`: the fields of an input by position
* `Stream.Plain.packed`, `Stream.Plain.Packs`: fields as one little-endian number

## Main results

* `Stream.decode_by_position`: a stream, well formed or not, is decoded position by position
* `Stream.encode_by_position`: an input is encoded position by position, on every schedule
-/

namespace FiniteStateEntropy

open Stream.Plain (Turn Field)

variable {distribution : Distribution}

/-! ### The lane of a position -/

namespace Lanes

/-- The state of the lane that codes the symbol at `position`. -/
def state (lanes : Lanes) (position : ℕ) : ℕ :=
  if position % 2 = 0 then lanes.first else lanes.second

/-- The lanes with the lane of `position` in another state. -/
def put (lanes : Lanes) (position next : ℕ) : Lanes :=
  if position % 2 = 0 then ⟨next, lanes.second⟩ else ⟨lanes.first, next⟩

/-- What is put into one lane is found at every other position. -/
theorem state_put (lanes : Lanes) (position next other : ℕ) :
    (lanes.put position next).state other =
      if other % 2 = position % 2 then next else lanes.state other := by
  rcases Nat.mod_two_eq_zero_or_one position with h | h <;>
    rcases Nat.mod_two_eq_zero_or_one other with h' | h' <;> simp [put, state, h, h']

end Lanes

namespace Stream

/-! ### A turn is the lanes seen from a position -/

theorem lanes_add_two (turn : Turn) (taken : ℕ) : turn.lanes (taken + 2) = turn.lanes taken := by
  rw [Plain.Turn.lanes, Plain.Turn.lanes, Nat.add_mod_right]

/-- The position to come is coded by the lane at turn. -/
theorem state_lanes (turn : Turn) (taken : ℕ) : (turn.lanes taken).state taken = turn.now := by
  rcases Nat.mod_two_eq_zero_or_one taken with h | h <;> simp [Plain.Turn.lanes, Lanes.state, h]

theorem state_lanes_succ (turn : Turn) (taken : ℕ) :
    (turn.lanes taken).state (taken + 1) = turn.other := by
  rcases Nat.mod_two_eq_zero_or_one taken with h | h <;>
    simp [Plain.Turn.lanes, Lanes.state, h, Nat.add_mod]

/-- Moving the lane at turn to its next state gives the turn to the other one. -/
theorem put_lanes (turn : Turn) (taken next : ℕ) :
    (turn.lanes taken).put taken next = Turn.lanes ⟨turn.other, next⟩ (taken + 1) := by
  rcases Nat.mod_two_eq_zero_or_one taken with h | h <;>
    simp [Plain.Turn.lanes, Lanes.put, h, Nat.add_mod]

/-! ### Decoding by position -/

namespace Positional

open Plain (take takeSymbol takeSymbols unmark)

/-- The bits below the highest set bit of the last byte: last byte first, each from its highest bit
down. There have to be a last byte and a set bit in it. -/
def belowMark (stream : List UInt8) : Except Error (List Bool) :=
  match stream.reverse with
  | [] => .error (.corruptStream .missingEndMark)
  | last :: before =>
    if last = 0 then
      .error (.corruptStream .missingEndMark)
    else
      .ok ((Bits.low last.toNat.log2 last.toNat).reverse ++
        before.flatMap fun byte => (Bits.low 8 byte.toNat).reverse)

/-- What a decoder has before it comes to a position. -/
structure Progress where
  /-- The symbols at the positions before. -/
  symbols : List UInt8
  /-- The states of the lanes. -/
  lanes : Lanes
  /-- The bits not read yet, the next one first. -/
  rest : List Bool

/-- Decodes the symbols before a position: reads the states of the two lanes, and then at each
position takes the symbol of the lane's state and the bits that lead to the lane's next state. -/
def upTo (table : DecodeTable) (bits : List Bool) : ℕ → Except Error Progress
  | 0 => do
    let (first, rest) ← take table.tableLog bits
    let (second, rest) ← take table.tableLog rest
    return ⟨[], ⟨first, second⟩, rest⟩
  | position + 1 => do
    let progress ← upTo table bits position
    let ((symbol, next), rest) ←
      takeSymbol table (progress.lanes.state position) progress.rest
    return ⟨progress.symbols ++ [symbol], progress.lanes.put position next, rest⟩

/-- The `body + 2` symbols of a stream. The last two are those of the states that are left, and no
bit may be left then. -/
def decode (table : DecodeTable) (body : ℕ) (stream : List UInt8) :
    Except Error (List UInt8) := do
  let bits ← belowMark stream
  let progress ← upTo table bits body
  let earlier ← table.symbol (progress.lanes.state body)
  let later ← table.symbol (progress.lanes.state (body + 1))
  if progress.rest = [] then
    return progress.symbols ++ [earlier, later]
  else
    throw (.corruptStream .trailingBits)

/-- The bits do not last for the symbols before `body`. -/
inductive RunsOut (table : DecodeTable) (body : ℕ) (bits : List Bool) : Prop
  /-- They end before the states of the two lanes are read. -/
  | states (short : bits.length < 2 * table.tableLog)
  /-- They last up to a position, whose state asks for more than there are left. -/
  | symbol {position : ℕ} {progress : Progress} {entry : DecodeEntry} (before : position < body)
    (reached : upTo table bits position = .ok progress)
    (found : table.entry (progress.lanes.state position) = .ok entry)
    (short : progress.rest.length < entry.width.toNat)

/-- How decoding `body + 2` symbols ends: in each of four ways exactly when there is a reason. -/
structure Verdict (table : DecodeTable) (body : ℕ) (stream : List UInt8)
    (result : Except Error (List UInt8)) : Prop where
  /-- There is no end mark. -/
  unmarked : result = .error (.corruptStream .missingEndMark) ↔
    stream = [] ∨ stream.getLast? = some 0
  /-- The bits run out at some read. -/
  short : result = .error (.corruptStream .readPastStart) ↔
    ∃ bits, belowMark stream = .ok bits ∧ RunsOut table body bits
  /-- All reads succeed, and a bit is left. -/
  long : result = .error (.corruptStream .trailingBits) ↔
    ∃ bits progress, belowMark stream = .ok bits ∧ upTo table bits body = .ok progress ∧
      progress.rest ≠ []
  /-- All reads succeed, and no bit is left. -/
  exact (out : List UInt8) : result = .ok out ↔
    ∃ bits symbols lanes earlier later, belowMark stream = .ok bits ∧
      upTo table bits body = .ok ⟨symbols, lanes, []⟩ ∧
      table.symbol (lanes.state body) = .ok earlier ∧
      table.symbol (lanes.state (body + 1)) = .ok later ∧ out = symbols ++ [earlier, later]
  /-- There is no other way. -/
  only (e : Error) : result = .error e → ∃ fault, e = .corruptStream fault

/-! #### It is the plain decoder -/

theorem belowMark_eq_unmark (stream : List UInt8) : belowMark stream = unmark stream := by
  rcases List.eq_nil_or_concat stream with rfl | ⟨before, last, rfl⟩
  · rfl
  rw [List.concat_eq_append]
  by_cases hlast : last = 0
  · simp [belowMark, unmark, hlast]
  obtain ⟨hspelled, hlog⟩ := Plain.exists_mark before hlast
  rw [Plain.unmark_of_ofBytes_eq (by omega) hspelled, Bits.ofBytes, List.reverse_append,
    List.reverse_flatMap]
  simp only [belowMark, List.reverse_append, List.reverse_singleton, List.singleton_append,
    if_neg hlast]
  rfl

/-- The symbols before a position are those that the lanes give in turn. -/
theorem upTo_eq (table : DecodeTable) (bits : List Bool) (position : ℕ) :
    upTo table bits position = (do
      let (first, rest) ← take table.tableLog bits
      let (second, rest) ← take table.tableLog rest
      (takeSymbols table position ⟨first, second⟩ rest).map fun (symbols, turn, rest) =>
        ⟨symbols, turn.lanes position, rest⟩) := by
  induction position with
  | zero => rfl
  | succ position ih =>
    rw [upTo, ih]
    simp only [Plain.takeSymbols_add table position 1, Plain.takeSymbols_one, exceptMap_eq,
      map_eq_pure_bind, bind_assoc, pure_bind, state_lanes, put_lanes]

theorem decode_eq_plain (table : DecodeTable) (body : ℕ) (stream : List UInt8) :
    decode table body stream = Plain.decode table (body + 2) stream := by
  simp only [decode, Plain.decode, belowMark_eq_unmark, upTo_eq, exceptMap_eq, map_eq_pure_bind,
    bind_assoc, pure_bind, state_lanes, state_lanes_succ, Nat.add_sub_cancel]

/-! #### How it ends -/

theorem take_of_lt {width : ℕ} {bits : List Bool} (h : bits.length < width) :
    take width bits = .error (.corruptStream .readPastStart) := by
  rw [take, if_neg (by omega)]

theorem take_of_le {width : ℕ} {bits : List Bool} (h : width ≤ bits.length) :
    ∃ low < 2 ^ width, take width bits = .ok (low, bits.drop width) := by
  have htake : take width bits =
      .ok (Bits.value (bits.take width).reverse, bits.drop width) := if_pos h
  exact ⟨_, (Plain.exists_of_take htake).1, htake⟩

/-- One step leads to a state of the table, or the bits run out at it. -/
theorem takeSymbol_ok_or_short {state : ℕ} (hstate : state < distribution.size)
    (bits : List Bool) :
    (∃ symbol next rest, next < distribution.size ∧
      takeSymbol distribution.decodeTable state bits = .ok ((symbol, next), rest)) ∨
    ∃ entry, distribution.decodeTable.entry state = .ok entry ∧
      bits.length < entry.width.toNat := by
  obtain ⟨entry, hentry, -⟩ := Distribution.exists_entry hstate
  by_cases hwidth : entry.width.toNat ≤ bits.length
  · obtain ⟨low, -, htake⟩ := take_of_le hwidth
    have hstep : takeSymbol distribution.decodeTable state bits =
        .ok ((entry.symbol, entry.baseline.toNat + low), bits.drop entry.width.toNat) := by
      simp only [takeSymbol, hentry, htake, bind, Except.bind, pure, Except.pure]
    exact .inl ⟨_, _, _, (Plain.exists_of_takeSymbol hstate hstep).2.1, hstep⟩
  · exact .inr ⟨entry, hentry, by omega⟩

theorem RunsOut.mono {table : DecodeTable} {body more : ℕ} {bits : List Bool}
    (h : RunsOut table body bits) (hle : body ≤ more) : RunsOut table more bits := by
  cases h with
  | states short => exact .states short
  | symbol before reached found short =>
    exact .symbol (Nat.lt_of_lt_of_le before hle) reached found short

/-- What stops a decoder before a position stops it before every later one. -/
theorem upTo_of_le {table : DecodeTable} {bits : List Bool} {position later : ℕ} {e : Error}
    (h : upTo table bits position = .error e) (hle : position ≤ later) :
    upTo table bits later = .error e := by
  induction later, hle using Nat.le_induction with
  | base => exact h
  | succ later _ ih =>
    rw [upTo, ih]
    rfl

/-- **Bits that run out are an error.** -/
theorem RunsOut.upTo_eq_error {table : DecodeTable} {body : ℕ} {bits : List Bool}
    (h : RunsOut table body bits) :
    upTo table bits body = .error (.corruptStream .readPastStart) := by
  cases h with
  | states short =>
    refine upTo_of_le ?_ (Nat.zero_le body)
    by_cases hfirst : table.tableLog ≤ bits.length
    · obtain ⟨first, -, htake⟩ := take_of_le hfirst
      have hsecond : (bits.drop table.tableLog).length < table.tableLog := by
        rw [List.length_drop]
        omega
      simp only [upTo, htake, take_of_lt hsecond, bind, Except.bind]
    · rw [upTo, take_of_lt (by omega)]
      rfl
  | symbol before reached found short =>
    refine upTo_of_le ?_ before
    rw [upTo, reached]
    simp only [takeSymbol, found, take_of_lt short, bind, Except.bind]

/-- **The symbols before a position** are decoded and leave both lanes in the table, or the bits
run out. -/
theorem upTo_ok_or_runsOut (distribution : Distribution) (bits : List Bool) (position : ℕ) :
    (∃ progress, upTo distribution.decodeTable bits position = .ok progress ∧
      ∀ other, progress.lanes.state other < distribution.size) ∨
    RunsOut distribution.decodeTable position bits := by
  induction position with
  | zero =>
    by_cases hshort : bits.length < 2 * distribution.decodeTable.tableLog
    · exact .inr (.states hshort)
    · obtain ⟨first, hfirst, htake⟩ :=
        take_of_le (show distribution.decodeTable.tableLog ≤ bits.length by omega)
      obtain ⟨second, hsecond, htake'⟩ :=
        take_of_le (show distribution.decodeTable.tableLog ≤
          (bits.drop distribution.decodeTable.tableLog).length by rw [List.length_drop]; omega)
      have hstart : upTo distribution.decodeTable bits 0 = .ok ⟨[], ⟨first, second⟩,
          (bits.drop distribution.decodeTable.tableLog).drop
            distribution.decodeTable.tableLog⟩ := by
        simp only [upTo, htake, htake', bind, Except.bind, pure, Except.pure]
      refine .inl ⟨_, hstart, ?_⟩
      intro other
      rw [Lanes.state]
      split
      · exact hfirst
      · exact hsecond
  | succ position ih =>
    rcases ih with ⟨progress, hprogress, hlanes⟩ | hshort
    · rcases takeSymbol_ok_or_short (hlanes position) progress.rest with
        ⟨symbol, next, rest, hnext, hstep⟩ | ⟨entry, hentry, hshort⟩
      · refine .inl ⟨⟨progress.symbols ++ [symbol], progress.lanes.put position next, rest⟩,
          ?_, ?_⟩
        · rw [upTo, hprogress]
          simp only [bind, Except.bind, hstep]
          rfl
        · intro other
          rw [Lanes.state_put]
          split
          · exact hnext
          · exact hlanes other
      · exact .inr (.symbol (Nat.lt_succ_self position) hprogress hentry hshort)
    · exact .inr (hshort.mono (Nat.le_succ position))

/-- A stream has an end mark unless it is empty or its last byte is zero. -/
theorem belowMark_ok_or_unmarked (stream : List UInt8) :
    ((∃ bits, belowMark stream = .ok bits) ∧ ¬(stream = [] ∨ stream.getLast? = some 0)) ∨
    (belowMark stream = .error (.corruptStream .missingEndMark) ∧
      (stream = [] ∨ stream.getLast? = some 0)) := by
  rcases List.eq_nil_or_concat stream with rfl | ⟨before, last, rfl⟩
  · exact .inr ⟨rfl, .inl rfl⟩
  · by_cases hlast : last = 0
    · exact .inr (by simp [belowMark, hlast])
    · exact .inl (by simp [belowMark, hlast])

/-- A state of the table yields a symbol. -/
theorem exists_ok_symbol {state : ℕ} (h : state < distribution.size) :
    ∃ symbol, distribution.decodeTable.symbol state = .ok symbol := by
  obtain ⟨entry, hentry, -⟩ := Distribution.exists_entry h
  exact ⟨entry.symbol, by rw [DecodeTable.symbol, hentry]; rfl⟩

/-- **How decoding ends.** -/
theorem verdict_decode (distribution : Distribution) (body : ℕ) (stream : List UInt8) :
    Verdict distribution.decodeTable body stream (decode distribution.decodeTable body stream) := by
  rcases belowMark_ok_or_unmarked stream with ⟨⟨bits, hbits⟩, hmark⟩ | ⟨hbits, hmark⟩
  swap
  · have hresult : decode distribution.decodeTable body stream =
        .error (.corruptStream .missingEndMark) := by
      rw [decode, hbits]
      rfl
    constructor <;> simp [hresult, hbits, hmark]
  rcases upTo_ok_or_runsOut distribution bits body with
    ⟨⟨symbols, lanes, rest⟩, hupTo, hlanes⟩ | hshort
  swap
  · have hresult : decode distribution.decodeTable body stream =
        .error (.corruptStream .readPastStart) := by
      rw [decode, hbits]
      simp only [bind, Except.bind, hshort.upTo_eq_error]
    constructor <;> simp [hresult, hbits, hmark, hshort, hshort.upTo_eq_error]
  have hlasts : ¬ RunsOut distribution.decodeTable body bits := by
    intro hshort
    rw [hshort.upTo_eq_error] at hupTo
    cases hupTo
  obtain ⟨earlier, hearlier⟩ := exists_ok_symbol (hlanes body)
  obtain ⟨later, hlater⟩ := exists_ok_symbol (hlanes (body + 1))
  have hresult : decode distribution.decodeTable body stream =
      if rest = [] then .ok (symbols ++ [earlier, later])
      else .error (.corruptStream .trailingBits) := by
    rw [decode, hbits]
    simp only [bind, Except.bind, hupTo, hearlier, hlater]
    rfl
  by_cases hrest : rest = []
  · rw [if_pos hrest] at hresult
    subst hrest
    constructor <;> simp [hresult, hbits, hmark, hupTo, hlasts, hearlier, hlater, eq_comm]
  · rw [if_neg hrest] at hresult
    constructor <;> simp [hresult, hbits, hmark, hupTo, hlasts, hrest]

end Positional

/-- **Decoding by position.** A stream, well formed or not, is decoded to what its bits below the
end mark give position by position, and fails as they do: for want of a mark, for want of bits at
some position, or for bits that are left. -/
theorem decode_by_position (distribution : Distribution) (body : ℕ) (stream : List UInt8) :
    decode distribution.decodeTable (body + 2) stream =
        Positional.decode distribution.decodeTable body stream ∧
      Positional.Verdict distribution.decodeTable body stream
        (decode distribution.decodeTable (body + 2) stream) := by
  have heq : decode distribution.decodeTable (body + 2) stream =
      Positional.decode distribution.decodeTable body stream := by
    rw [decode_eq distribution.narrow_decodeTable, Positional.decode_eq_plain]
  exact ⟨heq, heq ▸ Positional.verdict_decode distribution body stream⟩

/-- Bits that last for five symbols, with one more symbol asked for and one fewer. -/
example :
    decode Distribution.skewed.decodeTable 5 [195, 54, 3] = .ok [0, 3, 1, 0, 3] ∧
      decode Distribution.skewed.decodeTable 6 [195, 54, 3] =
        .error (.corruptStream .readPastStart) ∧
      decode Distribution.skewed.decodeTable 4 [195, 54, 3] =
        .error (.corruptStream .trailingBits) := by
  decide +kernel

/-! ### Encoding by position -/

namespace Positional

open Plain (step symbolFields)

/-- The fields of the symbols before a position of the input, from the last to the first, with the
states that the lanes end in. Each is written from the state of its position's lane, which moves
on to the next state. -/
def fieldsBelow (table : EncodeTable) (input : List UInt8) :
    ℕ → Lanes → Except Error (List Field × Lanes)
  | 0, lanes => .ok ([], lanes)
  | position + 1, lanes => do
    let (field, next) ← step table (input.getD position 0) (lanes.state position)
    let (fields, lanes) ← fieldsBelow table input position (lanes.put position next)
    return (field :: fields, lanes)

/-- The fields of an input of at least two symbols. The last two seed the lanes of their positions;
the states that the lanes end in are written after all the others, and then the end mark. -/
def fields (table : EncodeTable) (input : List UInt8) : Except Error (List Field) := do
  let body := input.length - 2
  let last ← table.seed (input.getD (body + 1) 0)
  let before ← table.seed (input.getD body 0)
  let seeded := ((⟨0, 0⟩ : Lanes).put (body + 1) last).put body before
  let (fields, lanes) ← fieldsBelow table input body seeded
  return fields ++ [⟨lanes.second, table.tableLog⟩, ⟨lanes.first, table.tableLog⟩, ⟨1, 1⟩]

/-- Both lanes seeded, whatever they held. -/
theorem put_put (lanes : Lanes) (body last before : ℕ) :
    (lanes.put (body + 1) last).put body before = Turn.lanes ⟨last, before⟩ (body + 1) := by
  rcases Nat.mod_two_eq_zero_or_one body with h | h <;>
    simp [Lanes.put, Plain.Turn.lanes, h, Nat.add_mod]

/-- The symbols before a position are those that the plain encoder takes from there. -/
theorem fieldsBelow_eq (table : EncodeTable) {input : List UInt8} {position : ℕ}
    (h : position ≤ input.length) (turn : Turn) :
    fieldsBelow table input position (turn.lanes (position + 1)) =
      (symbolFields table (input.take position).reverse turn).map fun (fields, last) =>
        (fields, last.lanes 1) := by
  induction position generalizing turn with
  | zero => rfl
  | succ position ih =>
    have hlast : (input.take (position + 1)).reverse =
        input.getD position 0 :: (input.take position).reverse := by
      rw [List.getD_eq_getElem?_getD, List.take_add_one, List.getElem?_eq_getElem h]
      simp
    rw [hlast, symbolFields, fieldsBelow, lanes_add_two, state_lanes]
    simp only [put_lanes, ih (Nat.le_of_succ_le h), exceptMap_eq, map_eq_pure_bind, bind_assoc,
      pure_bind]

/-- The fields of an input are those of the plain encoder. -/
theorem fields_eq_plain (table : EncodeTable) {input : List UInt8} (h : 2 ≤ input.length) :
    fields table input = Plain.fields table input := by
  obtain ⟨last, before, rest, hreverse⟩ := exists_reverse_eq_cons h
  have hinput : input = rest.reverse ++ [before, last] := by
    rw [← List.reverse_reverse input, hreverse]
    simp
  have hbody : input.length - 2 = rest.length := by simp [hinput]
  have htake : (input.take rest.length).reverse = rest := by simp [hinput]
  have hlast : input.getD (rest.length + 1) 0 = last := by simp [hinput]
  have hbefore : input.getD rest.length 0 = before := by simp [hinput]
  simp only [fields, Plain.fields, hreverse, hbody, hlast, hbefore, put_put,
    fieldsBelow_eq table (show rest.length ≤ input.length by omega), htake, exceptMap_eq,
    map_eq_pure_bind, bind_assoc, pure_bind]
  rfl

end Positional

/-! ### Fields as one number -/

namespace Plain

/-- The number that fields spell, each above those before it. -/
def packed : List Field → ℕ
  | [] => 0
  | field :: fields => field.value % 2 ^ field.width + 2 ^ field.width * packed fields

/-- A stream is the little-endian spelling of its fields, in as few bytes as they fit. -/
structure Packs (fields : List Field) (stream : List UInt8) : Prop where
  /-- Its bytes are digits of what the fields spell. -/
  spelled : Nat.ofDigits 256 (stream.map UInt8.toNat) = packed fields
  /-- The last byte has one of their bits. -/
  length_eq : stream.length = ((fields.map Field.width).sum + 7) / 8

theorem value_flatMap_bits (fields : List Field) :
    Bits.value (fields.flatMap Field.bits) = packed fields := by
  induction fields with
  | nil => rfl
  | cons field fields ih =>
    rw [List.flatMap_cons, Bits.value_append, ih, Field.bits, Bits.value_low, Bits.length_low,
      packed]

theorem length_flatMap_bits (fields : List Field) :
    (fields.flatMap Field.bits).length = (fields.map Field.width).sum := by
  rw [List.length_flatMap]
  simp only [Field.bits, Bits.length_low]

/-- Fields have one packing. -/
theorem Packs.unique {fields : List Field} {stream stream' : List UInt8}
    (h : Packs fields stream) (h' : Packs fields stream') : stream = stream' := by
  have hdigit : ∀ bytes : List UInt8, ∀ digit ∈ bytes.map UInt8.toNat, digit < 256 := by
    intro bytes digit hmem
    obtain ⟨byte, -, rfl⟩ := List.mem_map.mp hmem
    exact byte.toNat_lt
  have hlength : (stream.map UInt8.toNat).length = (stream'.map UInt8.toNat).length := by
    rw [List.length_map, List.length_map, h.length_eq, h'.length_eq]
  have hdigits := Nat.ofDigits_inj_of_len_eq (by decide : 1 < 256) hlength (hdigit stream)
    (hdigit stream') (h.spelled.trans h'.spelled.symm)
  exact List.map_injective_iff.mpr (fun _ _ => UInt8.toNat.inj) hdigits

/-- **The bits of fields, cut into bytes, are their packing.** -/
theorem packs_toBytes (fields : List Field) :
    Packs fields (Bits.toBytes (fields.flatMap Field.bits)) := by
  constructor
  · rw [Bits.ofDigits_toBytes, value_flatMap_bits]
  · rw [Bits.length_toBytes, length_flatMap_bits]

end Plain

/-- **Encoding by position.** Every input of at least two present symbols has fields by position,
and what an encoder appends is their packing. A table of up to 14 bits has the symbols taken by
fours and a larger one by twos, and it is the same for both. -/
theorem encode_by_position {input : List UInt8} (hlength : 2 ≤ input.length)
    (hinput : ∀ symbol ∈ input, distribution.slots symbol.toNat ≠ 0) :
    (fitsQuartet distribution.encodeTable.tableLog = true ↔ distribution.tableLog ≤ 14) ∧
      ∃ fields stream, Positional.fields distribution.encodeTable input = .ok fields ∧
        Plain.Packs fields stream ∧
        ∀ out : Array UInt8,
          encode distribution.encodeTable input out = .ok (out ++ stream.toArray) := by
  constructor
  · show decide (4 * distribution.tableLog + 7 < containerBits) = true ↔ _
    rw [decide_eq_true_iff, containerBits]
    omega
  obtain ⟨stream, hstream, hencode⟩ := exists_encode hlength hinput
  rw [Plain.encode, exceptBind_eq_ok_iff] at hstream
  obtain ⟨fields, hfields, hstream⟩ := hstream
  cases hstream
  refine ⟨fields, _, ?_, Plain.packs_toBytes fields, hencode⟩
  rw [Positional.fields_eq_plain _ hlength, hfields]

/-- Five symbols, so that the last one seeds the first lane. The three fields of the other symbols
are followed by those of the states and of the mark. -/
theorem encode_by_position_skewed :
    2 ≤ ([0, 3, 1, 0, 3] : List UInt8).length ∧
      (∀ symbol ∈ ([0, 3, 1, 0, 3] : List UInt8),
        Distribution.skewed.slots symbol.toNat ≠ 0) ∧
      Positional.fields Distribution.skewed.encodeTable [0, 3, 1, 0, 3] =
        .ok [⟨35, 5⟩, ⟨32, 1⟩, ⟨63, 1⟩, ⟨45, 5⟩, ⟨51, 5⟩, ⟨1, 1⟩] ∧
      Plain.Packs [⟨35, 5⟩, ⟨32, 1⟩, ⟨63, 1⟩, ⟨45, 5⟩, ⟨51, 5⟩, ⟨1, 1⟩] [195, 54, 3] ∧
      ∀ out : Array UInt8,
        encode Distribution.skewed.encodeTable [0, 3, 1, 0, 3] out =
          .ok (out ++ #[195, 54, 3]) := by
  have hpresent : ∀ symbol ∈ ([0, 3, 1, 0, 3] : List UInt8),
      Distribution.skewed.slots symbol.toNat ≠ 0 := by decide +kernel
  have hfields : Positional.fields Distribution.skewed.encodeTable [0, 3, 1, 0, 3] =
      .ok [⟨35, 5⟩, ⟨32, 1⟩, ⟨63, 1⟩, ⟨45, 5⟩, ⟨51, 5⟩, ⟨1, 1⟩] := by decide +kernel
  have hpacking : Plain.Packs [⟨35, 5⟩, ⟨32, 1⟩, ⟨63, 1⟩, ⟨45, 5⟩, ⟨51, 5⟩, ⟨1, 1⟩]
      [195, 54, 3] := ⟨by decide, by decide⟩
  obtain ⟨-, fields, stream, hfound, hpacks, hencode⟩ :=
    encode_by_position (by decide) hpresent
  rw [hfields, Except.ok.injEq] at hfound
  subst hfound
  obtain rfl := hpacks.unique hpacking
  exact ⟨by decide, hpresent, hfields, hpacking, hencode⟩

end Stream

end FiniteStateEntropy
