import FiniteStateEntropy.Apportionment
import FiniteStateEntropy.Header
import FiniteStateEntropy.Stream.Decode

/-!
# Blocks

A block is a byte string that describes itself: a header, and behind it the stream of the input
under the header's distribution.

`compress` validates the limits before it looks at the input. `Packing` keeps what a compression
found out on its way, for those who want to report on it.

## Main definitions

* `Packing`, `Block.pack`: a compression with its intermediate results
* `compress`, `decompress`: input to block and back
-/

namespace FiniteStateEntropy

/-- A compressed input, and what was found out on the way. -/
structure Packing where
  /-- The count of the input. -/
  histogram : Histogram
  /-- The header of the block. -/
  header : Header
  /-- The number of bytes of the header. -/
  headerLength : Nat
  /-- The block. -/
  block : List UInt8
  deriving DecidableEq, Repr

/-- A block whose header is read. -/
structure Opened where
  /-- The header of the block. -/
  header : Header
  /-- The decoding automaton of its distribution. -/
  table : DecodeTable
  /-- The bytes behind the header. -/
  stream : List UInt8
  deriving DecidableEq, Repr

namespace Block

/-- Compresses `input` under limits that are taken to be valid. -/
def pack (limits : Limits) (input : List UInt8) : Except Error Packing :=
  if input.length < 2 then
    .error (.inputTooShort input.length)
  else do
    let histogram ← Histogram.ofBytes input limits.symbolCeiling
    let tableLog := limits.tableLog input.length histogram.distinct
    let distribution ← histogram.apportion tableLog
    let header : Header := ⟨distribution, input.length⟩
    let bytes ← header.bytes
    let block ← Stream.encode distribution.encodeTable input bytes.toArray
    return ⟨histogram, header, bytes.length, block.toList⟩

/-- Reads the header of `block`. -/
def read (block : List UInt8) : Except Error Opened := do
  let (header, stream) ← Header.parse block
  return ⟨header, header.distribution.decodeTable, stream⟩

/-- Decodes the stream of a block whose header is read. -/
def unpack (opened : Opened) : Except Error (List UInt8) :=
  Stream.decode opened.table opened.header.symbolCount opened.stream

end Block

/-- Compresses `input` to a block. -/
def compress (limits : Limits) (input : List UInt8) : Except Error (List UInt8) := do
  limits.validate
  return (← Block.pack limits input).block

/-- The input that `block` was compressed from. -/
def decompress (block : List UInt8) : Except Error (List UInt8) := do
  Block.unpack (← Block.read block)

end FiniteStateEntropy
