import FiniteStateEntropy.Stream.Decode

/-!
# Streams without containers

What a stream is, apart from how fast it is made. Encoding gives a list of fields, one per symbol
and three at the end; the stream is their bits, cut into bytes. Decoding works on a bit list, next
bit first, with neither window nor pairs.

The two lanes are one pair here that is swapped after every symbol, so that the lane whose turn it
is always stands first, whatever the parity of the position.

## Main definitions

* `Stream.Plain.Field`: a number and its width
* `Stream.Plain.fields`: the fields of an input in the order of writing
* `Stream.Plain.encode`: the stream that the fields spell
* `Stream.Plain.decode`: the symbols of a stream, read as a bit list
-/

namespace FiniteStateEntropy

namespace Stream

namespace Plain

/-- A number written with a given width. -/
structure Field where
  /-- The number; only its lowest bits are written. -/
  value : Nat
  /-- How many bits are written. -/
  width : Nat
  deriving DecidableEq, Repr

/-- The bits of a field, lowest first. -/
def Field.bits (field : Field) : List Bool := Bits.low field.width field.value

/-- The states of the lane at turn and of the other one. -/
structure Turn where
  /-- The state of the lane at turn. -/
  now : Nat
  /-- The state of the lane that follows. -/
  other : Nat
  deriving DecidableEq, Repr

/-- One encoding step without a writer: the field to be written and the next state. -/
def step (table : EncodeTable) (symbol : UInt8) (state : Nat) : Except Error (Field × Nat) := do
  let transform ← table.transform symbol
  let width := transform.width state
  let next ← table.next transform (state >>> width)
  return (⟨state, width⟩, next)

/-- The fields of symbols given from the last to the first, and the states at the end. -/
def symbolFields (table : EncodeTable) : List UInt8 → Turn → Except Error (List Field × Turn)
  | [], turn => .ok ([], turn)
  | symbol :: rest, turn => do
    let (field, state) ← step table symbol turn.now
    let (fields, turn) ← symbolFields table rest ⟨turn.other, state⟩
    return (field :: fields, turn)

/-- The fields of an input of at least two symbols: the bits of every symbol but the last two,
from the last to the first, then the states of the lane of odd positions and the lane of even
positions, and the end mark. The symbol before the first has an odd position. -/
def fields (table : EncodeTable) (input : List UInt8) : Except Error (List Field) :=
  match input.reverse with
  | last :: before :: rest => do
    let now ← table.seed last
    let other ← table.seed before
    let (fields, turn) ← symbolFields table rest ⟨now, other⟩
    return fields ++ [⟨turn.now, table.tableLog⟩, ⟨turn.other, table.tableLog⟩, ⟨1, 1⟩]
  | _ => .error (.inputTooShort input.length)

/-- The stream that the fields of an input spell. -/
def encode (table : EncodeTable) (input : List UInt8) : Except Error (List UInt8) := do
  return Bits.toBytes ((← fields table input).flatMap Field.bits)

/-! ### Decoding -/

/-- The bits below the end mark of a stream, the one next to the mark first. -/
def unmark (stream : List UInt8) : Except Error (List Bool) :=
  if stream.getLast?.getD 0 = 0 then
    .error (.corruptStream .missingEndMark)
  else
    .ok (((Bits.ofBytes stream).reverse.dropWhile (· = false)).drop 1)

/-- Takes a number of `width` bits, the highest first, from the front of a bit list. -/
def take (width : Nat) (bits : List Bool) : Except Error (Nat × List Bool) :=
  if width ≤ bits.length then
    .ok (Bits.value (bits.take width).reverse, bits.drop width)
  else
    .error (.corruptStream .readPastStart)

/-- Takes symbols from the lanes in turn, and gives them with the states and the bits left. -/
def takeSymbols (table : DecodeTable) :
    Nat → Turn → List Bool → Except Error (List UInt8 × Turn × List Bool)
  | 0, turn, bits => .ok ([], turn, bits)
  | count + 1, turn, bits => do
    let entry ← table.entry turn.now
    let (low, bits) ← take entry.width.toNat bits
    let (symbols, turn, bits) ←
      takeSymbols table count ⟨turn.other, entry.baseline.toNat + low⟩ bits
    return (entry.symbol :: symbols, turn, bits)

/-- The `count` symbols of a stream, at least two. -/
def decode (table : DecodeTable) (count : Nat) (stream : List UInt8) :
    Except Error (List UInt8) := do
  let bits ← unmark stream
  let (first, bits) ← take table.tableLog bits
  let (second, bits) ← take table.tableLog bits
  let (symbols, turn, bits) ← takeSymbols table (count - 2) ⟨first, second⟩ bits
  let earlier ← table.symbol turn.now
  let later ← table.symbol turn.other
  if bits = [] then
    return symbols ++ [earlier, later]
  else
    throw (.corruptStream .trailingBits)

end Plain

end Stream

end FiniteStateEntropy
