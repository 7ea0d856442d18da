import FiniteStateEntropy.Error

/-!
# Limits of a compression

The caller of a compression may lower the largest byte accepted and set bounds for the *table
log*, the exponent of the number of states. Within those bounds the coder chooses by itself:
`Limits.tableLog` gives a short input a small table, because a table with more slots than the
input has bytes costs more in the header than it saves, and gives a wide alphabet at least one
slot per symbol if the bounds allow.

## Main definitions

* `minTableLog`, `maxTableLog`: the table logs that the format can express
* `Limits`, `Limits.validate`
* `Limits.tableLog`: the choice
-/

namespace FiniteStateEntropy

/-- The smallest table log of the format; a header stores the excess over it. -/
def minTableLog : Nat := 5

/-- The largest table log of the format: states fit 16 bits. -/
def maxTableLog : Nat := 15

/-- The largest table log used when the caller does not ask for another. -/
def defaultTableLog : Nat := 11

/-- What a compression may do. -/
structure Limits where
  /-- The largest byte accepted. -/
  symbolCeiling : UInt8 := 255
  /-- The largest table log that may be chosen. -/
  greatestTableLog : Nat := defaultTableLog
  /-- The smallest table log that may be chosen. -/
  leastTableLog : Nat := minTableLog
  deriving DecidableEq, Repr

/-- The least `k` with `n ≤ 2 ^ k`. -/
def ceilLog2 (n : Nat) : Nat :=
  if n ≤ 1 then 0 else (n - 1).log2 + 1

namespace Limits

/-- The standard limits: every byte, and table logs from 5 to 11. -/
def standard : Limits := {}

/-- Both bounds are table logs of the format and in order. The lower bound is checked first, and
is the one named when they are out of order. -/
def validate (limits : Limits) : Except Error Unit :=
  if limits.leastTableLog < minTableLog ∨ maxTableLog < limits.leastTableLog then
    .error (.tableLogOutOfRange limits.leastTableLog)
  else if limits.greatestTableLog < minTableLog ∨ maxTableLog < limits.greatestTableLog then
    .error (.tableLogOutOfRange limits.greatestTableLog)
  else if limits.greatestTableLog < limits.leastTableLog then
    .error (.tableLogOutOfRange limits.leastTableLog)
  else
    .ok ()

/-- The table log for an input of `length` bytes with `distinct` different ones: what the length
deserves and the lower bound, what the alphabet needs, and never more than the upper bound. -/
def tableLog (limits : Limits) (length distinct : Nat) : Nat :=
  min limits.greatestTableLog
    (max (max (length - 1).log2 limits.leastTableLog) (ceilLog2 distinct))

theorem tableLog_le (limits : Limits) (length distinct : Nat) :
    limits.tableLog length distinct ≤ limits.greatestTableLog :=
  Nat.min_le_left _ _

end Limits

end FiniteStateEntropy
