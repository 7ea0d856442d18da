import FiniteStateEntropy.Bits.Reader
import FiniteStateEntropy.Spread

/-!
# Decode tables

The decoding automaton of a distribution has one state per slot. A state yields the symbol of its
slot, and the next state is the entry's `baseline` plus a number read from the stream, of as many
bits as the entry says.

The slots of a symbol, in slot order, are numbered `slots, slots + 1, …, 2 * slots - 1`. An entry
shifts its number up until it reaches the size of the table; the shift is the number of bits to
read, and the excess over the size is the baseline.

## Main definitions

* `DecodeEntry`, `DecodeEntry.ofRank`
* `DecodeTable`, `Distribution.decodeTable`
* `DecodeTable.symbol`, `DecodeTable.decode`: what a state yields, and one step
-/

namespace FiniteStateEntropy

-- powers are those of the core library, also where monoids have their own
attribute [local instance (high)] instPowNat

/-- What a decoder does in one state. -/
structure DecodeEntry where
  /-- The smallest state that may follow. -/
  baseline : UInt16
  /-- The number of bits to read, which are added to the baseline. -/
  width : UInt8
  /-- The symbol of the state. -/
  symbol : UInt8
  deriving DecidableEq, Repr

namespace DecodeEntry

/-- The entry for the slot of `symbol` with the given rank, a number between the slots of the
symbol and twice as many. -/
def ofRank (tableLog : Nat) (symbol : UInt8) (rank : Nat) : DecodeEntry :=
  let width := tableLog - rank.log2
  ⟨((rank <<< width) - 2 ^ tableLog).toUInt16, width.toUInt8, symbol⟩

end DecodeEntry

/-- The decoding automaton of a distribution. -/
structure DecodeTable where
  /-- Exponent of the number of states. -/
  tableLog : Nat
  /-- The entries, by state. -/
  entries : Array DecodeEntry
  deriving DecidableEq, Repr

namespace DecodeTable

/-- The entries for a run of slots, when `ranks` has the rank of each symbol's next slot. -/
def entriesFrom (tableLog : Nat) : List UInt8 → Array Nat → Array DecodeEntry → Array DecodeEntry
  | [], _, entries => entries
  | symbol :: rest, ranks, entries =>
    let entry := DecodeEntry.ofRank tableLog symbol (ranks.getD symbol.toNat 0)
    entriesFrom tableLog rest (ranks.modify symbol.toNat (· + 1)) (entries.push entry)

/-- The entry of a state. -/
def entry (table : DecodeTable) (state : Nat) : Except Error DecodeEntry :=
  match table.entries[state]? with
  | some entry => .ok entry
  | none => .error (.misuse .stateOutsideTable)

/-- The symbol that `state` yields. -/
def symbol (table : DecodeTable) (state : Nat) : Except Error UInt8 :=
  (table.entry state).map DecodeEntry.symbol

/-- Yields the symbol of `state` and reads the bits that lead to the next state. -/
def decode (table : DecodeTable) (state : Nat) : ReadM (UInt8 × Nat) := do
  let entry ← ReadM.ofExcept (table.entry state)
  let low ← Reader.read entry.width.toNat
  return (entry.symbol, entry.baseline.toNat + low)

end DecodeTable

namespace Distribution

/-- The decoding automaton. -/
def decodeTable (distribution : Distribution) : DecodeTable where
  tableLog := distribution.tableLog
  entries :=
    DecodeTable.entriesFrom distribution.tableLog distribution.spread.toList
      (distribution.shares.map Share.slots).toArray #[]

end Distribution

end FiniteStateEntropy
