import FiniteStateEntropy.Error

/-!
# Histograms

A `Histogram` counts how often each byte occurs, up to the largest byte that occurs at all. The
type carries that shape: the list of counts is never empty, never longer than the byte alphabet,
and ends in a nonzero count unless there was nothing to count.

There are two ways to count. Short inputs are counted directly, one byte after the other, and
the first byte above the ceiling ends the count. From `stripedLength` bytes on, the input is dealt
out over four tallies, which breaks the chain of dependent increments that a run of equal bytes
would cause. The tallies are merged at the end, and only then is the ceiling looked at, so the
byte that gets named is the smallest one above it.

## Main definitions

* `Tally`, `Tally.bump`: counters, one per symbol
* `Histogram`, `Histogram.ofTally`: a tally without the zeros on its far end
* `Histogram.tallyDirect`, `Histogram.tallyStriped`: the two ways to count
* `Histogram.ofBytes`: the histogram of an input
-/

namespace FiniteStateEntropy

-- sums are those of the core library, also where monoids have their own
attribute [local instance (high)] Zero.ofOfNat0

/-- Counters for the symbols below `n`. -/
abbrev Tally (n : Nat) := Vector Nat n

namespace Tally

/-- All counters at zero. -/
def zero (n : Nat) : Tally n := Vector.replicate n 0

/-- One more occurrence of `symbol`. -/
def bump {n : Nat} (tally : Tally n) (symbol : Nat) (h : symbol < n) : Tally n :=
  tally.set symbol (tally[symbol] + 1)

/-- One more occurrence of `byte`. -/
def bumpByte (tally : Tally 256) (byte : UInt8) : Tally 256 :=
  tally.bump byte.toNat byte.toNat_lt

end Tally

/-- How often each byte occurs, from `0` up to the largest byte that does. -/
structure Histogram where
  /-- The number of occurrences, by symbol. -/
  counts : List Nat
  /-- There is a count for symbol `0`. -/
  counts_ne_nil : counts ≠ []
  /-- Symbols are bytes. -/
  length_counts_le : counts.length ≤ 256
  /-- The last symbol occurs, if any does. -/
  trimmed : counts = [0] ∨ counts.getLast? ≠ some 0
  deriving DecidableEq, Repr

namespace Histogram

/-- The number of bytes counted. -/
def total (histogram : Histogram) : Nat := histogram.counts.sum

/-- The number of different bytes that occur. -/
def distinct (histogram : Histogram) : Nat := histogram.counts.countP (0 < ·)

/-- The largest number of occurrences of one byte. -/
def maxCount (histogram : Histogram) : Nat := histogram.counts.foldl max 0

/-- The largest byte that occurs; zero if none does. -/
def maxSymbol (histogram : Histogram) : UInt8 := (histogram.counts.length - 1).toUInt8

/-- The bytes that occur, with their numbers of occurrences, in ascending order. -/
def present (histogram : Histogram) : List (Nat × Nat) :=
  histogram.counts.zipIdx.filterMap fun (count, symbol) =>
    if count = 0 then none else some (symbol, count)

/-! ### Trimming -/

/-- The counts without the zeros on the far end; one zero stays if there is nothing else. -/
def trim (counts : List Nat) : List Nat :=
  match (counts.reverse.dropWhile (· == 0)).reverse with
  | [] => [0]
  | kept => kept

theorem trim_ne_nil (counts : List Nat) : trim counts ≠ [] := by
  rw [trim]
  split
  · simp
  · assumption

theorem length_trim_le (counts : List Nat) : (trim counts).length ≤ max 1 counts.length := by
  rw [trim]
  split
  · exact Nat.le_max_left 1 _
  · have := (List.dropWhile_sublist (fun n : Nat => n == 0) (l := counts.reverse)).length_le
    simp at this ⊢
    omega

theorem trim_trimmed (counts : List Nat) : trim counts = [0] ∨ (trim counts).getLast? ≠ some 0 := by
  rw [trim]
  split
  · exact .inl rfl
  · right
    rw [List.getLast?_reverse]
    have := List.head?_dropWhile_not (fun n : Nat => n == 0) counts.reverse
    intro h
    rw [h] at this
    simp at this

/-- The histogram of a tally. -/
def ofTally {n : Nat} (tally : Tally n) (h : n ≤ 256) : Histogram where
  counts := trim tally.toList
  counts_ne_nil := trim_ne_nil _
  length_counts_le := by
    have := length_trim_le tally.toList
    simp at this
    omega
  trimmed := trim_trimmed _

/-! ### Counting directly -/

/-- Adds the bytes of an input to a tally, up to the first byte above the ceiling. -/
def addBytes (ceiling : UInt8) :
    List UInt8 → Tally (ceiling.toNat + 1) → Except Error (Tally (ceiling.toNat + 1))
  | [], tally => .ok tally
  | byte :: rest, tally =>
    if h : byte ≤ ceiling then
      addBytes ceiling rest
        (tally.bump byte.toNat (Nat.lt_succ_of_le (UInt8.le_iff_toNat_le.mp h)))
    else
      .error (.symbolAboveCeiling byte ceiling)

/-- Counts one byte after the other. The first byte above the ceiling is the one named. -/
def tallyDirect (input : List UInt8) (ceiling : UInt8) :
    Except Error (Tally (ceiling.toNat + 1)) :=
  addBytes ceiling input (Tally.zero _)

/-! ### Counting in stripes -/

/-- Four tallies that share the bytes of one input. -/
structure Stripes where
  /-- The bytes at positions divisible by four, and those after the last group of four. -/
  first : Tally 256
  /-- The bytes one past those. -/
  second : Tally 256
  /-- The bytes two past those. -/
  third : Tally 256
  /-- The bytes three past those. -/
  fourth : Tally 256

namespace Stripes

/-- Nothing counted yet. -/
def zero : Stripes := ⟨Tally.zero _, Tally.zero _, Tally.zero _, Tally.zero _⟩

/-- Deals the bytes of an input out over the stripes, four at a time. -/
def deal : List UInt8 → Stripes → Stripes
  | a :: b :: c :: d :: rest, ⟨first, second, third, fourth⟩ =>
    deal rest ⟨first.bumpByte a, second.bumpByte b, third.bumpByte c, fourth.bumpByte d⟩
  | rest, ⟨first, second, third, fourth⟩ =>
    ⟨rest.foldl Tally.bumpByte first, second, third, fourth⟩

/-- The four tallies as one. -/
def merge (stripes : Stripes) : Tally 256 :=
  Vector.ofFn fun symbol =>
    stripes.first[symbol] + stripes.second[symbol] + stripes.third[symbol] + stripes.fourth[symbol]

end Stripes

/-- Counts in four stripes. The smallest byte above the ceiling is the one named. -/
def tallyStriped (input : List UInt8) (ceiling : UInt8) :
    Except Error (Tally (ceiling.toNat + 1)) :=
  let merged := (Stripes.zero.deal input).merge
  match (merged.toList.drop (ceiling.toNat + 1)).findIdx? (0 < ·) with
  | some above => .error (.symbolAboveCeiling (ceiling.toNat + 1 + above).toUInt8 ceiling)
  | none => .ok (Vector.ofFn fun symbol =>
      merged.get ⟨symbol.val, Nat.lt_of_lt_of_le symbol.isLt ceiling.toNat_lt⟩)

/-! ### The histogram of an input -/

/-- The length from which on an input is counted in stripes. -/
def stripedLength : Nat := 1500

/-- Counts the bytes of `input`, none of which may lie above `ceiling`. -/
def ofBytes (input : List UInt8) (ceiling : UInt8) : Except Error Histogram := do
  let tally ←
    if input.length < stripedLength then tallyDirect input ceiling
    else tallyStriped input ceiling
  return ofTally tally ceiling.toNat_lt

end Histogram

end FiniteStateEntropy
