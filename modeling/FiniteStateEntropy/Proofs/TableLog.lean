import FiniteStateEntropy.Proofs.Block
import Mathlib.Data.Nat.Log
import Mathlib.Order.Bounds.Defs

/-!
# The table log is the least that suffices

A table log suffices for an input if it lies within the limits, if it is what the length of the
input deserves, or as much of that as the limits allow, and if the table has a slot for every
symbol. The choice is the least one that does; where even the largest table allowed has too few
slots, no table log suffices, and the choice is the largest.

The choice can be found by going up. What the length deserves is brought within the limits, and from
there the log grows, one at a time, as long as the table is too small for the alphabet and may be
larger. Every log that is passed has too few slots, so the first one at which the growth stops is
the least one, or the largest.

## Main definitions

* `Limits.deserved`: what the length of an input deserves
* `Limits.Suffices`: a table log suffices for an input
* `Limits.opening`, `Limits.grow`: going up

## Main results

* `Limits.grow_eq`: where the growth stops
* `Limits.suffices_iff`: which table logs suffice
* `Limits.tableLog_least`: the choice is the least that suffices
-/

namespace FiniteStateEntropy

namespace Limits

variable {limits : Limits} {length distinct log : ℕ}

/-- What the length of an input deserves: the binary logarithm, rounded down, of one byte less.
Inputs of at most one byte deserve nothing. -/
def deserved (length : ℕ) : ℕ := if length ≤ 1 then 0 else Nat.log 2 (length - 1)

/-- A table log suffices for an input of `length` bytes with `distinct` different ones. -/
structure Suffices (limits : Limits) (length distinct log : ℕ) : Prop where
  /-- It is within the lower bound. -/
  least_le : limits.leastTableLog ≤ log
  /-- It is within the upper bound. -/
  le_greatest : log ≤ limits.greatestTableLog
  /-- It is what the length deserves, unless that is above the upper bound. -/
  deserved_le : min limits.greatestTableLog (deserved length) ≤ log
  /-- There is a slot for every symbol. -/
  distinct_le : distinct ≤ 2 ^ log

/-! ### Going up -/

/-- What the length of an input deserves, brought within the limits. -/
def opening (limits : Limits) (length : ℕ) : ℕ :=
  min (max (if deserved length < limits.greatestTableLog then deserved length
    else limits.greatestTableLog) limits.leastTableLog) limits.greatestTableLog

/-- Makes a table larger as long as it has too few slots and may be larger. -/
def grow (limits : Limits) (distinct log : ℕ) : ℕ :=
  if 2 ^ log < distinct ∧ log < limits.greatestTableLog then limits.grow distinct (log + 1) else log
termination_by limits.greatestTableLog - log

theorem log2_pred_eq_deserved (length : ℕ) : (length - 1).log2 = deserved length := by
  rw [deserved, Nat.log2_eq_log_two]
  split
  · rw [Nat.sub_eq_zero_of_le ‹_›, Nat.log_zero_right]
  · rfl

/-- **Where the growth stops**: at the first log that has enough slots, or at the largest one. -/
theorem grow_eq (h : log ≤ limits.greatestTableLog) (distinct : ℕ) :
    limits.grow distinct log = min limits.greatestTableLog (max log (ceilLog2 distinct)) := by
  fun_induction limits.grow distinct log with
  | case1 log hgrow ih =>
    -- this log has too few slots, so the least that has enough lies above it
    have hceil := ceilLog2_le_iff distinct log
    rw [ih (by omega)]
    omega
  | case2 log hstop =>
    have hceil := ceilLog2_le_iff distinct log
    omega

/-- **The choice** is where going up ends. -/
theorem tableLog_eq_grow (limits : Limits) (length distinct : ℕ) :
    limits.tableLog length distinct = limits.grow distinct (limits.opening length) := by
  have hopening : limits.opening length ≤ limits.greatestTableLog := Nat.min_le_right _ _
  rw [grow_eq hopening, tableLog, log2_pred_eq_deserved, opening]
  split <;> omega

/-! ### What suffices -/

/-- **Which table logs suffice**: those from the choice up to the largest one allowed, unless that
has too few slots. -/
theorem suffices_iff (h : limits.Valid) :
    limits.Suffices length distinct log ↔ distinct ≤ 2 ^ limits.greatestTableLog ∧
      limits.tableLog length distinct ≤ log ∧ log ≤ limits.greatestTableLog := by
  have hle := h.le
  have hceil := ceilLog2_le_iff distinct
  rw [tableLog, log2_pred_eq_deserved]
  constructor
  · rintro ⟨hleast, hgreatest, hdeserved, hdistinct⟩
    rw [← hceil] at hdistinct ⊢
    omega
  · rintro ⟨hdistinct, hchoice, hgreatest⟩
    rw [← hceil] at hdistinct
    exact ⟨by omega, hgreatest, by omega, (hceil log).mp (by omega)⟩

theorem deserved_mono {length' : ℕ} (h : length ≤ length') :
    deserved length ≤ deserved length' := by
  rw [← log2_pred_eq_deserved, ← log2_pred_eq_deserved, Nat.log2_eq_log_two, Nat.log2_eq_log_two]
  exact Nat.log_mono_right (Nat.sub_le_sub_right h 1)

/-- **The choice grows** with the length of an input and with its alphabet. -/
theorem tableLog_mono {length' distinct' : ℕ} (hlength : length ≤ length')
    (hdistinct : distinct ≤ distinct') :
    limits.tableLog length distinct ≤ limits.tableLog length' distinct' := by
  have hdeserved := deserved_mono hlength
  have hceil : ceilLog2 distinct ≤ ceilLog2 distinct' :=
    (ceilLog2_le_iff _ _).mpr (Nat.le_trans hdistinct (le_two_pow_ceilLog2 distinct'))
  rw [tableLog, tableLog, log2_pred_eq_deserved, log2_pred_eq_deserved]
  omega

/-- **The choice is the least table log that suffices**, for every length of an input and every
number of different bytes, and the largest one allowed if none suffices. It is where a table that
begins with what the length deserves ends if it grows as long as it is too small and may be larger.
So it is within the limits, it grows with the length and with the number of different bytes, and it
leaves a symbol without a slot only if the largest table allowed does too. -/
theorem tableLog_least (h : limits.Valid) (length distinct : ℕ) :
    ((∃ log, limits.Suffices length distinct log) →
      IsLeast {log | limits.Suffices length distinct log} (limits.tableLog length distinct)) ∧
    ((¬∃ log, limits.Suffices length distinct log) →
      limits.tableLog length distinct = limits.greatestTableLog) ∧
    limits.tableLog length distinct = limits.grow distinct (limits.opening length) ∧
    (limits.leastTableLog ≤ limits.tableLog length distinct ∧
      limits.tableLog length distinct ≤ limits.greatestTableLog) ∧
    (∀ length' distinct', length ≤ length' → distinct ≤ distinct' →
      limits.tableLog length distinct ≤ limits.tableLog length' distinct') ∧
    (2 ^ limits.tableLog length distinct < distinct → 2 ^ limits.greatestTableLog < distinct) := by
  have hgreatest := limits.tableLog_le length distinct
  refine ⟨?_, ?_, tableLog_eq_grow limits length distinct, ⟨?_, hgreatest⟩, ?_, ?_⟩
  · rintro ⟨log, hlog⟩
    have hdistinct := ((suffices_iff h).mp hlog).1
    exact ⟨(suffices_iff h).mpr ⟨hdistinct, Nat.le_refl _, hgreatest⟩,
      fun other hother => ((suffices_iff h).mp hother).2.1⟩
  · intro hnone
    refine tableLog_eq_greatest (Nat.lt_of_not_le ?_)
    intro hdistinct
    exact hnone ⟨_, (suffices_iff h).mpr ⟨hdistinct, hgreatest, Nat.le_refl _⟩⟩
  · have hle := h.le
    rw [tableLog]
    omega
  · intro length' distinct' hlength hdistinct
    exact tableLog_mono hlength hdistinct
  · intro hfew
    refine Nat.lt_of_not_le ?_
    intro hdistinct
    exact absurd (le_two_pow_tableLog hdistinct) (Nat.not_le.mpr hfew)

/-- A hundred bytes deserve a table of sixty-four slots, and seventy symbols need the next one. -/
theorem tableLog_least_short :
    (⟨255, 9, 6⟩ : Limits).Valid ∧
      (⟨255, 9, 6⟩ : Limits).Suffices 100 70 7 ∧
      (⟨255, 9, 6⟩ : Limits).tableLog 100 70 = 7 ∧
      IsLeast {log | (⟨255, 9, 6⟩ : Limits).Suffices 100 70 log} 7 := by
  have hvalid : (⟨255, 9, 6⟩ : Limits).Valid := ⟨by decide, by decide, by decide⟩
  have hsuffices : (⟨255, 9, 6⟩ : Limits).Suffices 100 70 7 :=
    ⟨by decide, by decide, by decide +kernel, by decide⟩
  have hchoice : (⟨255, 9, 6⟩ : Limits).tableLog 100 70 = 7 := by decide +kernel
  exact ⟨hvalid, hsuffices, hchoice, hchoice ▸ (tableLog_least hvalid 100 70).1 ⟨7, hsuffices⟩⟩

end Limits

end FiniteStateEntropy
