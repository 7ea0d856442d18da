import FiniteStateEntropy.Proofs.EncoderSafety

/-!
# What dividing a table comes to

The histogram of an input is divided, or it is refused for a reason that its caller can check: a
table log that is none of the format, an input without a byte, or more symbols than slots. That
the corrections find nobody to give a slot to or to take one from, or that the shares they leave do
not fill the table, does not happen.

What a division leaves as it is are the kinds of the symbols. A symbol is absent, rare or common by
its count alone, whatever the first division rounds and a correction changes; the number of its
slots, if it is common, is what has to give.

## Main definitions

* `Histogram.IsDividedBy`: a distribution that a histogram asks for
* `Histogram.ApportionOutcome`: what dividing a table comes to

## Main results

* `Histogram.isDividedBy_of_kinds`: the kinds of the symbols are enough
* `Histogram.apportion_outcome`: the exact outcome of a division, and its safety
-/

namespace FiniteStateEntropy

namespace Histogram

open Apportionment (expectedKind initial leftover)

variable {histogram : Histogram} {input : List UInt8}

/-- A distribution divides a table of the given log as the counts of a histogram ask for. -/
structure IsDividedBy (histogram : Histogram) (tableLog : ℕ) (distribution : Distribution) :
    Prop where
  /-- The table is the one that was to be divided. -/
  tableLog_eq : distribution.tableLog = tableLog
  /-- All of it is given out. -/
  sum_slots_eq : (distribution.shares.map Share.slots).sum = 2 ^ tableLog
  /-- The alphabet is that of the histogram. -/
  length_eq : distribution.shares.length = histogram.counts.length
  /-- The symbols with slots are those that occur. -/
  slots_ne_zero_iff : ∀ symbol,
    distribution.slots symbol ≠ 0 ↔ histogram.counts.getD symbol 0 ≠ 0
  /-- The rare symbols are those that occur, and no more often than a slot stands for. -/
  share?_eq_rare_iff : ∀ symbol,
    distribution.share? symbol = some .rare ↔ 0 < histogram.counts.getD symbol 0 ∧
      histogram.counts.getD symbol 0 ≤ histogram.total >>> tableLog

/-- What dividing a table of the given log among the symbols of an input comes to. Of several
reasons to refuse it the first one is named. -/
def ApportionOutcome (input : List UInt8) (histogram : Histogram) (tableLog : ℕ)
    (result : Except Error Distribution) : Prop :=
  if tableLog < minTableLog ∨ maxTableLog < tableLog then
    result = .error (.tableLogOutOfRange tableLog)
  else if input = [] then
    result = .error (.inputTooShort 0)
  else if 2 ^ tableLog < histogram.distinct then
    result = .error (.tableTooSmall histogram.distinct tableLog)
  else
    ∃ distribution, result = .ok distribution ∧ histogram.IsDividedBy tableLog distribution

/-- **The kinds of the symbols** decide who is present and who is rare. -/
theorem isDividedBy_of_kinds {distribution : Distribution}
    (hkind : distribution.shares.map Share.kind =
      histogram.counts.map (expectedKind distribution.tableLog histogram.total)) :
    histogram.IsDividedBy distribution.tableLog distribution where
  tableLog_eq := rfl
  sum_slots_eq := distribution.sum_slots
  length_eq := by
    have hlength := congrArg List.length hkind
    rwa [List.length_map, List.length_map] at hlength
  slots_ne_zero_iff := slots_ne_zero_iff hkind
  share?_eq_rare_iff := share?_eq_rare_iff hkind

/-- A histogram that counts an input is divided, or refused for what input and table are. -/
theorem outcome_of_counts (h : histogram.Counts input) (tableLog : ℕ) :
    ApportionOutcome input histogram tableLog (histogram.apportion tableLog) := by
  have htotal : histogram.total = 0 ↔ input = [] := by
    rw [h.total_eq, List.length_eq_zero_iff]
  rw [ApportionOutcome]
  split
  · rename_i hlog
    exact if_pos hlog
  rename_i hlog
  split
  · rename_i hempty
    rw [apportion, if_neg hlog, if_pos (htotal.mpr hempty)]
  rename_i hempty
  split
  · rename_i hmany
    rw [apportion, if_neg hlog, if_neg (mt htotal.mp hempty), if_pos hmany]
  rename_i hmany
  obtain ⟨distribution, happortion, rfl, hkind⟩ :=
    exists_apportion (show minTableLog ≤ tableLog ∧ tableLog ≤ maxTableLog by omega)
      (mt htotal.mp hempty) (Nat.not_lt.mp hmany)
  exact ⟨distribution, happortion, isDividedBy_of_kinds hkind⟩

/-- What is left over of a table is less than a number of 31 bits can be. -/
theorem leftover_lt {tableLog : ℕ} (hlog : tableLog ≤ maxTableLog) (shares : List Share) :
    leftover tableLog shares < 2 ^ 31 := by
  have hsize : 2 ^ tableLog ≤ 2 ^ maxTableLog := Nat.pow_le_pow_right (by decide) hlog
  rw [maxTableLog] at hsize
  rw [leftover]
  omega

/-- **The exact outcome of dividing a table** among the symbols of an input, whatever ceiling the
input was counted under and whatever the table log. A table is divided unless there are more symbols
than slots, and the division gives out every slot, to the symbols that occur and to no others, one
slot and no more to those that are rare. And it is safe for an input whose length is a number of 32
bits: the counts are such numbers, the scaled counts are numbers of 64, and the shares, before a
correction and after it, as well as what is left over, are numbers of 31. -/
theorem apportion_outcome {ceiling : UInt8} (hhistogram : ofBytes input ceiling = .ok histogram)
    (hlength : input.length < 2 ^ 32) (tableLog : ℕ) :
    ApportionOutcome input histogram tableLog (histogram.apportion tableLog) ∧
      Checked.count input ceiling = .ok histogram ∧
      Checked.apportion histogram tableLog = Checked.lift (histogram.apportion tableLog) ∧
      (tableLog ≤ maxTableLog → leftover tableLog (initial tableLog histogram) < 2 ^ 31) := by
  have halike := Checked.alike_count hlength ceiling
  have hcounts := halike.post_of_eq_ok hhistogram
  refine ⟨outcome_of_counts hcounts tableLog, ?_, Checked.apportion_eq histogram tableLog,
    fun hlog => leftover_lt hlog _⟩
  rw [halike.eq, hhistogram]
  rfl

/-- One byte seventy times, and two others once each. -/
def overshotInput : List UInt8 := List.replicate 70 0 ++ [1, 2]

/-- Among thirty-two slots the two others are rare. The first one, which has a share of thirty-one,
gives up a slot for them. -/
theorem apportion_outcome_overshot :
    ∃ histogram, ofBytes overshotInput 255 = .ok histogram ∧ overshotInput.length < 2 ^ 32 ∧
      ApportionOutcome overshotInput histogram 5 (histogram.apportion 5) ∧
      Checked.apportion histogram 5 = Checked.lift (histogram.apportion 5) ∧
      (histogram.apportion 5).map Distribution.shares =
        .ok [.common 30 (by decide), .rare, .rare] := by
  have hhistogram : ofBytes overshotInput 255 =
      .ok ⟨[70, 1, 1], by decide, by decide, by decide⟩ := by decide +kernel
  obtain ⟨houtcome, -, hchecked, -⟩ := apportion_outcome hhistogram (by decide) 5
  exact ⟨_, hhistogram, by decide, houtcome, hchecked, by decide +kernel⟩

end Histogram

end FiniteStateEntropy
