import FiniteStateEntropy.Bits.Writer
import FiniteStateEntropy.Spread

/-!
# Encode tables

The encoding automaton of a distribution has the states `size, …, 2 * size - 1`, one per slot. To
encode a symbol from a state, some low bits of the state are written out, as many as bring what is
left into the range `slots, …, 2 * slots - 1` of the symbol, and that number selects one of the
symbol's own states.

The states are therefore kept grouped by symbol, each group in slot order, and a symbol needs two
numbers: `bias`, which turns a state into a bit count by one addition and one shift, and `offset`,
which turns the reduced state into an index of the state list.

## Main definitions

* `Transform`, `Transform.width`: the constants of a symbol, and the bits to write from a state
* `EncodeTable`, `Distribution.encodeTable`
* `EncodeTable.seed`: the state that stands for a symbol without any bit written
* `EncodeTable.encode`: one step
-/

namespace FiniteStateEntropy

/-- What a symbol does to the states of an encoder. -/
structure Transform where
  /-- `maxWidth * 2 ^ 16 - threshold`: the sum with a state has the bit count above bit 16. -/
  bias : Nat
  /-- Bits written from states at or above the threshold; one fewer below it. -/
  maxWidth : Nat
  /-- The slots of the symbol shifted up by `maxWidth`. -/
  threshold : Nat
  /-- Added to a reduced state, it gives the index of the next state. -/
  offset : Int
  deriving DecidableEq, Repr

namespace Transform

/-- The transform of a symbol without slots. -/
def absent : Transform := ⟨0, 0, 0, 0⟩

/-- The transform of a symbol with `slots` slots, the first of which is number `start` in the
state list. -/
def ofSlots (tableLog start slots : Nat) : Transform :=
  if slots = 0 then
    absent
  else
    let maxWidth := tableLog - (slots - 1).log2
    let threshold := slots <<< maxWidth
    ⟨(maxWidth <<< 16) - threshold, maxWidth, threshold, (start : Int) - (slots : Int)⟩

/-- The number of bits to write from `state`. -/
def width (transform : Transform) (state : Nat) : Nat :=
  (state + transform.bias) >>> 16

end Transform

/-- The encoding automaton of a distribution. -/
structure EncodeTable where
  /-- Exponent of the number of states. -/
  tableLog : Nat
  /-- The states, grouped by the symbol that leads to them. -/
  states : Array UInt16
  /-- The transforms, by symbol. -/
  transforms : Array Transform
  deriving DecidableEq, Repr

namespace EncodeTable

/-- The slots of a table grouped by symbol: one group per symbol of an alphabet, each in the order
of `symbols`, which begins at slot number `slot`. -/
def group : List UInt8 → Nat → Array (Array Nat) → Array (Array Nat)
  | [], _, groups => groups
  | symbol :: rest, slot, groups =>
    group rest (slot + 1) (groups.modify symbol.toNat (·.push slot))

/-- The transforms of shares, the first of which has its slots from `start` on. -/
def transformsFrom (tableLog : Nat) : Nat → List Share → List Transform
  | _, [] => []
  | start, share :: rest =>
    Transform.ofSlots tableLog start share.slots ::
      transformsFrom tableLog (start + share.slots) rest

/-- The last symbol of the alphabet. -/
def maxSymbol (table : EncodeTable) : UInt8 := (table.transforms.size - 1).toUInt8

/-- The transform of a symbol of the alphabet. -/
def transform (table : EncodeTable) (symbol : UInt8) : Except Error Transform :=
  match table.transforms[symbol.toNat]? with
  | some transform => .ok transform
  | none => .error (.misuse .symbolOutsideAlphabet)

/-- The state that a reduced state leads to. -/
def next (table : EncodeTable) (transform : Transform) (reduced : Nat) : Except Error Nat :=
  match (reduced : Int) + transform.offset with
  | .ofNat index =>
    match table.states[index]? with
    | some state => .ok state.toNat
    | none => .error (.misuse .stateOutsideTable)
  | .negSucc _ => .error (.misuse .stateOutsideTable)

/-- The state that stands for `symbol` when nothing is written yet: the symbol's first. -/
def seed (table : EncodeTable) (symbol : UInt8) : Except Error Nat := do
  let transform ← table.transform symbol
  table.next transform (transform.threshold >>> transform.maxWidth)

/-- Encodes `symbol` from `state`: writes the low bits of the state and goes on to the next. -/
def encode (table : EncodeTable) (symbol : UInt8) (state : Nat) (writer : Writer) :
    Except Error (Nat × Writer) := do
  let transform ← table.transform symbol
  let width := transform.width state
  let writer ← writer.add state width
  let state ← table.next transform (state >>> width)
  return (state, writer)

@[simp] theorem length_transformsFrom (tableLog start : Nat) (shares : List Share) :
    (transformsFrom tableLog start shares).length = shares.length := by
  induction shares generalizing start with
  | nil => rfl
  | cons share rest ih => simp [transformsFrom, ih]

end EncodeTable

namespace Distribution

/-- The encoding automaton. -/
def encodeTable (distribution : Distribution) : EncodeTable where
  tableLog := distribution.tableLog
  states :=
    let groups := EncodeTable.group distribution.spread.toList 0
      (Array.replicate distribution.shares.length #[])
    groups.flatten.map fun slot => (distribution.size + slot).toUInt16
  transforms := (EncodeTable.transformsFrom distribution.tableLog 0 distribution.shares).toArray

end Distribution

end FiniteStateEntropy
