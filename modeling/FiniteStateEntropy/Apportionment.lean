import FiniteStateEntropy.Histogram
import FiniteStateEntropy.Distribution

/-!
# Apportionment

Divides the `2 ^ tableLog` slots of a table among the symbols of a histogram in proportion to
their counts. The first division rounds every common symbol down, through a fixed-point
reciprocal of the total, and rounds every rare symbol up to one slot; so the slots given out need
not fill the table, and one correction follows:

* slots left over all go to the first symbol of greatest weight;
* slots given out in excess are taken back one by one, each from the symbol that is first of
  greatest weight at that moment.

A symbol is *rare* when its exact share of the table is at most one slot.

## Main definitions

* `Apportionment.initialShare`, `Apportionment.initial`: the first division
* `Apportionment.leftover`: what it leaves, negative if it gave out too much
* `Apportionment.enlarge`, `Apportionment.repay`: the two corrections
* `Histogram.apportion`: the distribution of a histogram
-/

namespace FiniteStateEntropy

-- powers and sums are those of the core library, also where monoids have their own
attribute [local instance (high)] instPowNat Zero.ofOfNat0

namespace Apportionment

/-- Number of fractional bits of the reciprocal of a total. -/
def precision : Nat := 62

/-- The share of a symbol with `count` occurrences among `total`. -/
def initialShare (tableLog total count : Nat) : Share :=
  if count = 0 then
    .absent
  else if count ≤ total >>> tableLog then
    .rare
  else
    .ofSlots (max 1 ((count * (2 ^ precision / total)) >>> (precision - tableLog)))

/-- The first division. -/
def initial (tableLog : Nat) (histogram : Histogram) : List Share :=
  histogram.counts.map (initialShare tableLog histogram.total)

/-- Slots of the table that `shares` leave over. -/
def leftover (tableLog : Nat) (shares : List Share) : Int :=
  (2 ^ tableLog : Nat) - ((shares.map Share.slots).sum : Nat)

/-- The greatest weight among `shares`. -/
def greatestWeight (shares : List Share) : Nat :=
  (shares.map Share.weight).foldl max 0

/-- The first symbol of greatest weight. -/
def favourite (shares : List Share) : Nat :=
  shares.findIdx (·.weight == greatestWeight shares)

/-- Gives `extra` slots to the first symbol of greatest weight, if some symbol is common. -/
def enlarge (extra : Nat) (shares : List Share) : Option (List Share) :=
  if greatestWeight shares = 0 then
    none
  else
    some (shares.modify (favourite shares) fun share => .ofSlots (share.weight + extra))

/-- Takes back `excess` slots, each from the first symbol of greatest weight at that moment. A
symbol keeps its last slot. -/
def repay : Nat → List Share → Option (List Share)
  | 0, shares => some shares
  | excess + 1, shares =>
    if greatestWeight shares ≤ 1 then
      none
    else
      repay excess
        (shares.modify (favourite shares) fun share => .ofSlots (share.weight - 1))

/-- The correction that a leftover calls for. -/
def settle (leftover : Int) (shares : List Share) : Option (List Share) :=
  match leftover with
  | .ofNat 0 => some shares
  | .ofNat (extra + 1) => enlarge (extra + 1) shares
  | .negSucc excess => repay (excess + 1) shares

end Apportionment

namespace Histogram

open Apportionment

/-- Divides a table among the symbols of a histogram. -/
def apportion (histogram : Histogram) (tableLog : Nat) : Except Error Distribution :=
  if tableLog < minTableLog ∨ maxTableLog < tableLog then
    .error (.tableLogOutOfRange tableLog)
  else if histogram.total = 0 then
    .error (.inputTooShort 0)
  else if 2 ^ tableLog < histogram.distinct then
    .error (.tableTooSmall histogram.distinct tableLog)
  else
    let shares := initial tableLog histogram
    match settle (leftover tableLog shares) shares with
    | some settled => Distribution.ofShares tableLog settled
    | none => .error (.tableTooSmall histogram.distinct tableLog)

end Histogram

end FiniteStateEntropy
