import FiniteStateEntropy.Limits

/-!
# Distributions

A `Distribution` divides the `2 ^ tableLog` slots of a table among the symbols of an alphabet.
Every symbol has a `Share`: none, the single slot of a *rare* symbol, or a positive number of
slots. Rare symbols are kept apart from common symbols with one slot because their slot lies
elsewhere in the table and because a header writes them differently.

The conditions on a distribution are proof fields, so whatever is built from one may rely on
them: the table log is one of the format, the alphabet is made of bytes and ends in a present
symbol, and the slots fill the table exactly.

Written as a number, a share is its slots, with `-1` for rare; `Distribution.ofProbabilities`
reads that form.

## Main definitions

* `Share`, `Share.slots`, `Share.weight`, `Share.toInt`, `Share.ofInt?`
* `Distribution`, `Distribution.ofShares`, `Distribution.ofProbabilities`
* `Distribution.present`: the present symbols in ascending order
-/

namespace FiniteStateEntropy

-- powers and sums are those of the core library, also where monoids have their own
attribute [local instance (high)] instPowNat Zero.ofOfNat0

/-- What a symbol owns of a table. -/
inductive Share where
  /-- No slot: the symbol does not occur. -/
  | absent
  /-- The one slot of a symbol too rare to earn a slot by proportion. -/
  | rare
  /-- A positive number of slots. -/
  | common (slots : Nat) (pos : 0 < slots)
  deriving DecidableEq, Repr

namespace Share

/-- The number of slots owned. -/
def slots : Share → Nat
  | absent => 0
  | rare => 1
  | common n _ => n

/-- The slots owned as a common symbol: none for a rare one. -/
def weight : Share → Nat
  | absent => 0
  | rare => 0
  | common n _ => n

/-- The share of a common symbol with `n` slots; no share if that is zero. -/
def ofSlots (n : Nat) : Share :=
  if h : 0 < n then common n h else absent

/-- The share as a number: the slots, or `-1` for rare. -/
def toInt : Share → Int
  | absent => 0
  | rare => -1
  | common n _ => n

/-- The share that a number stands for; none below `-1`. -/
def ofInt? : Int → Option Share
  | .ofNat n => some (ofSlots n)
  | .negSucc 0 => some rare
  | .negSucc (_ + 1) => none

@[simp] theorem slots_ofSlots (n : Nat) : (ofSlots n).slots = n := by
  rw [ofSlots]
  split
  · rfl
  · simp only [slots]; omega

theorem slots_eq_zero_iff (share : Share) : share.slots = 0 ↔ share = absent := by
  cases share with
  | absent => simp [slots]
  | rare => simp [slots]
  | common n pos => simp [slots]; omega

/-- Shares and the numbers from `-1` up are the same thing. -/
@[simp] theorem ofInt?_toInt (share : Share) : ofInt? share.toInt = some share := by
  cases share with
  | absent => rfl
  | rare => rfl
  | common n pos => simp [toInt, ofInt?, ofSlots, pos]

end Share

/-- A division of the slots of a table among the symbols. -/
structure Distribution where
  /-- Exponent of the number of slots. -/
  tableLog : Nat
  /-- The shares, by symbol. -/
  shares : List Share
  /-- The table log is one of the format. -/
  tableLog_mem : minTableLog ≤ tableLog ∧ tableLog ≤ maxTableLog
  /-- There is a symbol. -/
  shares_ne_nil : shares ≠ []
  /-- Symbols are bytes. -/
  length_shares_le : shares.length ≤ 256
  /-- The last symbol is present. -/
  last_present : shares.getLast? ≠ some .absent
  /-- The slots fill the table. -/
  sum_slots : (shares.map Share.slots).sum = 2 ^ tableLog
  deriving DecidableEq, Repr

namespace Distribution

/-- The number of slots, and of states. -/
def size (distribution : Distribution) : Nat := 2 ^ distribution.tableLog

/-- The last symbol of the alphabet. -/
def maxSymbol (distribution : Distribution) : UInt8 := (distribution.shares.length - 1).toUInt8

/-- The share of a symbol of the alphabet. -/
def share? (distribution : Distribution) (symbol : Nat) : Option Share :=
  distribution.shares[symbol]?

/-- The slots of a symbol; none outside the alphabet. -/
def slots (distribution : Distribution) (symbol : Nat) : Nat :=
  ((distribution.share? symbol).map Share.slots).getD 0

/-- The present symbols and their shares, in ascending order. -/
def present (distribution : Distribution) : List (UInt8 × Share) :=
  distribution.shares.zipIdx.filterMap fun (share, symbol) =>
    if share = .absent then none else some (symbol.toUInt8, share)

/-- The shares as numbers. -/
def probabilities (distribution : Distribution) : List Int :=
  distribution.shares.map Share.toInt

/-- Checks that shares divide a table of the given log. Of several faults the first in the order
table log, alphabet, last symbol, sum is the one named. -/
def ofShares (tableLog : Nat) (shares : List Share) : Except Error Distribution :=
  if tableLog_mem : minTableLog ≤ tableLog ∧ tableLog ≤ maxTableLog then
    if length : shares ≠ [] ∧ shares.length ≤ 256 then
      if last_present : shares.getLast? ≠ some .absent then
        if sum_slots : (shares.map Share.slots).sum = 2 ^ tableLog then
          .ok ⟨tableLog, shares, tableLog_mem, length.1, length.2, last_present, sum_slots⟩
        else
          .error (.corruptHeader .slotsMismatch)
      else
        .error (.corruptHeader .lastSymbolAbsent)
    else
      .error (.corruptHeader .alphabetSize)
  else
    .error (.tableLogOutOfRange tableLog)

/-- The same for shares given as numbers. A number that is no share is named after the faults of
log, alphabet and last symbol, and before a wrong sum. -/
def ofProbabilities (tableLog : Nat) (probabilities : List Int) : Except Error Distribution :=
  match probabilities.mapM Share.ofInt? with
  | some shares => ofShares tableLog shares
  | none =>
    if tableLog < minTableLog ∨ maxTableLog < tableLog then
      .error (.tableLogOutOfRange tableLog)
    else if 256 < probabilities.length then
      .error (.corruptHeader .alphabetSize)
    else if probabilities.getLast? = some 0 then
      .error (.corruptHeader .lastSymbolAbsent)
    else
      .error (.corruptHeader .negativeShare)

theorem size_pos (distribution : Distribution) : 0 < distribution.size :=
  Nat.two_pow_pos _

/-- A distribution passes its own check. -/
@[simp] theorem ofShares_shares (distribution : Distribution) :
    ofShares distribution.tableLog distribution.shares = .ok distribution := by
  simp [ofShares, distribution.tableLog_mem, distribution.shares_ne_nil,
    distribution.length_shares_le, distribution.last_present, distribution.sum_slots]

/-- Shares that pass the check are those of the distribution. -/
theorem eq_of_ofShares {tableLog : Nat} {shares : List Share} {distribution : Distribution}
    (h : ofShares tableLog shares = .ok distribution) :
    distribution.tableLog = tableLog ∧ distribution.shares = shares := by
  rw [ofShares] at h
  repeat' split at h
  all_goals cases h
  exact ⟨rfl, rfl⟩

end Distribution

end FiniteStateEntropy
