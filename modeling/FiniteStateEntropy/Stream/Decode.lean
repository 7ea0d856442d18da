import FiniteStateEntropy.DecodeTable
import FiniteStateEntropy.Stream.Encode

/-!
# Decoding a stream

The number of symbols is not in the stream; a decoder is told. It reads the states of the two
lanes, takes symbols from them in turn, each with the bits that lead to the lane's next state, and
takes the last two symbols from the states that are left, which are those the encoder started
with. Then no bit may be left.

## Main definitions

* `Stream.decodePairs`, `Stream.decodeSymbols`: the symbols that advance a lane
* `Stream.decodeLanes`: the symbols of a stream, and the states it ends in
* `Stream.decode`: the symbols of a stream
-/

namespace FiniteStateEntropy

namespace Stream

/-- Decodes a symbol on the first lane. -/
def takeFirst (table : DecodeTable) (lanes : Lanes) (out : Array UInt8) :
    ReadM (Lanes × Array UInt8) := do
  let (symbol, state) ← table.decode lanes.first
  return (⟨state, lanes.second⟩, out.push symbol)

/-- Decodes a symbol on the second lane. -/
def takeSecond (table : DecodeTable) (lanes : Lanes) (out : Array UInt8) :
    ReadM (Lanes × Array UInt8) := do
  let (symbol, state) ← table.decode lanes.second
  return (⟨lanes.first, state⟩, out.push symbol)

/-- Decodes pairs of symbols, one on each lane, and tops up the window after each pair. -/
def decodePairs (table : DecodeTable) : Nat → Lanes → Array UInt8 → ReadM (Lanes × Array UInt8)
  | 0, lanes, out => return (lanes, out)
  | pairs + 1, lanes, out => do
    let (lanes, out) ← takeFirst table lanes out
    let (lanes, out) ← takeSecond table lanes out
    modify Reader.reload
    decodePairs table pairs lanes out

/-- Decodes the symbols of a stream of `count` symbols from a reader at its end, and gives the
states that it ends in. -/
def decodeSymbols (table : DecodeTable) (count : Nat) : ReadM (Lanes × Array UInt8) := do
  let first ← Reader.read table.tableLog
  let second ← Reader.read table.tableLog
  let body := count - 2
  let (lanes, out) ← decodePairs table (body / 2) ⟨first, second⟩ #[]
  if body % 2 = 1 then
    let (lanes, out) ← takeFirst table lanes out
    let earlier ← ReadM.ofExcept (table.symbol lanes.second)
    let later ← ReadM.ofExcept (table.symbol lanes.first)
    return (lanes, (out.push earlier).push later)
  else
    let earlier ← ReadM.ofExcept (table.symbol lanes.first)
    let later ← ReadM.ofExcept (table.symbol lanes.second)
    return (lanes, (out.push earlier).push later)

/-- The `count` symbols of a stream, at least two, and the states that it ends in. -/
def decodeLanes (table : DecodeTable) (count : Nat) (stream : List UInt8) :
    Except Error (Lanes × List UInt8) := do
  let reader ← Reader.ofBytes stream
  match decodeSymbols table count reader with
  | .ok (lanes, out) reader =>
    if reader.exhausted then
      return (lanes, out.toList)
    else
      throw (.corruptStream .trailingBits)
  | .error e _ => throw e

/-- The `count` symbols of a stream, at least two. -/
def decode (table : DecodeTable) (count : Nat) (stream : List UInt8) :
    Except Error (List UInt8) :=
  (decodeLanes table count stream).map Prod.snd

end Stream

end FiniteStateEntropy
