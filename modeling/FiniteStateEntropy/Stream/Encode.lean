import FiniteStateEntropy.EncodeTable

/-!
# Encoding a stream

A decoder has to see the symbols in order, and every step of an encoder is undone by a step of
the decoder, so the encoder works from the last symbol to the first. Two states take turns, which
lets a processor work on both at once. Here they are the two *lanes*: the first lane codes the
symbols at even positions of the input and the second lane those at odd positions.

The last two symbols seed the lanes and write nothing. Both states close the stream, first the
second lane's and then the first lane's, and one set bit marks its end.

The container of the writer is flushed once per four symbols where the widest four fields surely
fit on top of a partial byte, and once per two symbols for larger tables. A first pair makes the
number of remaining symbols divisible by four in the former case.

## Main definitions

* `Lanes`: the states of the two lanes, by turn
* `Stream.Run`: lanes and writer
* `Stream.start`, `Stream.body`, `Stream.close`: the parts of an encoding
* `Stream.encode`: the stream of an input, appended to some bytes
-/

namespace FiniteStateEntropy

/-- The states of two lanes. -/
structure Lanes where
  /-- The state that codes the symbols at even positions. -/
  first : Nat
  /-- The state that codes the symbols at odd positions. -/
  second : Nat
  deriving DecidableEq, Repr

namespace Stream

/-- An encoding under way. -/
structure Run where
  /-- The states reached. -/
  lanes : Lanes
  /-- What is written. -/
  writer : Writer
  deriving DecidableEq, Repr

namespace Run

/-- Encodes a symbol on the first lane. -/
def onFirst (run : Run) (table : EncodeTable) (symbol : UInt8) : Except Error Run := do
  let (state, writer) ← table.encode symbol run.lanes.first run.writer
  return ⟨⟨state, run.lanes.second⟩, writer⟩

/-- Encodes a symbol on the second lane. -/
def onSecond (run : Run) (table : EncodeTable) (symbol : UInt8) : Except Error Run := do
  let (state, writer) ← table.encode symbol run.lanes.second run.writer
  return ⟨⟨run.lanes.first, state⟩, writer⟩

/-- Encodes two neighbouring symbols, given from the later to the earlier one. -/
def pair (run : Run) (table : EncodeTable) (odd even : UInt8) : Except Error Run := do
  let run ← run.onSecond table odd
  run.onFirst table even

/-- Drains the writer. -/
def flush (run : Run) : Run := ⟨run.lanes, run.writer.flush⟩

end Run

/-- Four fields of a table of this log fit the container on top of a partial byte. -/
def fitsQuartet (tableLog : Nat) : Bool :=
  decide (4 * tableLog + 7 < containerBits)

/-- Encodes symbols given from the last to the first, two between flushes. -/
def pairs (table : EncodeTable) : List UInt8 → Run → Except Error Run
  | a :: b :: rest, run => do
    let run ← run.pair table a b
    pairs table rest run.flush
  | _, run => .ok run

/-- Encodes symbols given from the last to the first, four between flushes. -/
def quartets (table : EncodeTable) : List UInt8 → Run → Except Error Run
  | a :: b :: c :: d :: rest, run => do
    let run ← run.pair table a b
    let run ← run.pair table c d
    quartets table rest run.flush
  | _, run => .ok run

/-- Encodes an even number of symbols, given from the last to the first, in the rhythm that the
table allows. -/
def body (table : EncodeTable) (symbols : List UInt8) (run : Run) : Except Error Run :=
  if fitsQuartet table.tableLog then
    match symbols with
    | a :: b :: rest =>
      if symbols.length % 4 = 2 then do
        let run ← run.pair table a b
        quartets table rest run.flush
      else
        quartets table symbols run
    | _ => quartets table symbols run
  else
    pairs table symbols run

/-- Writes both states and the end mark. -/
def close (table : EncodeTable) (run : Run) : Except Error (Array UInt8) := do
  let writer ← run.writer.add run.lanes.second table.tableLog
  let writer ← writer.add run.lanes.first table.tableLog
  let writer ← writer.add 1 1
  return writer.finish

/-- Seeds the lanes with the last two symbols and, if the number of the other ones is odd, encodes
one of them. Gives the symbols still to be encoded, an even number from the last to the first. -/
def start (table : EncodeTable) (last before : UInt8) (rest : List UInt8) (writer : Writer) :
    Except Error (Run × List UInt8) :=
  if rest.length % 2 = 0 then do
    let second ← table.seed last
    let first ← table.seed before
    return (⟨⟨first, second⟩, writer⟩, rest)
  else do
    let first ← table.seed last
    let second ← table.seed before
    match rest with
    | [] => return (⟨⟨first, second⟩, writer⟩, [])
    | symbol :: rest =>
      let run ← (Run.mk ⟨first, second⟩ writer).onFirst table symbol
      return (run.flush, rest)

/-- Appends the stream of `input`, which has at least two symbols, to the bytes of `out`. -/
def encode (table : EncodeTable) (input : List UInt8) (out : Array UInt8) :
    Except Error (Array UInt8) :=
  match input.reverse with
  | last :: before :: rest => do
    let (run, rest) ← start table last before rest (Writer.onto out)
    let run ← body table rest run
    close table run
  | _ => .error (.inputTooShort input.length)

end Stream

end FiniteStateEntropy
