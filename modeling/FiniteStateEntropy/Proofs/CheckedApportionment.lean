import FiniteStateEntropy.Proofs.Apportionment
import FiniteStateEntropy.Proofs.Checks
import Mathlib.Algebra.Order.BigOperators.Group.List
import Mathlib.Algebra.Order.Group.Nat

/-!
# Tables are divided safely

An apportionment with its checks. A share is the high end of a product of 64 bits and has 31 bits
itself, a correction changes the share of a symbol that exists, and what it leaves is a number of 31
bits that is not below zero.

The product fits because no symbol occurs more often than all together, and the reciprocal of the
total has its bits below those of the total. The share that slots left over make larger is no more
than the table, since it was among the shares that left them over.

## Main definitions

* `Checked.initialShare`: the first division
* `Checked.enlarge`, `Checked.repay`: the two corrections
* `Checked.apportion`: the distribution of a histogram

## Main results

* `Checked.initialShare_eq`: products and shares fit
* `Checked.apportion_eq`: a histogram is apportioned safely, or refused as it is without checks
-/

namespace FiniteStateEntropy

namespace Checked

open Apportionment (precision greatestWeight favourite leftover)

/-! ### Dividing with checks -/

/-- The share of a symbol with `count` occurrences among `total`. -/
def initialShare (tableLog total count : ℕ) : Except Stop Share :=
  if count = 0 then
    return .absent
  else if count ≤ total >>> tableLog then
    return .rare
  else do
    let scaled ← fit 64 (count * (2 ^ precision / total))
    let scale ← sub precision tableLog
    let slots ← fit 31 (max 1 (scaled >>> scale))
    return .ofSlots slots

/-- Gives the first symbol of greatest weight another number of slots. The symbol has to be one of
the alphabet. -/
def exchange (change : ℕ → Except Stop ℕ) (shares : List Share) : Except Stop (List Share) := do
  let share ← lookup shares.toArray (favourite shares)
  let slots ← change share.weight
  return shares.set (favourite shares) (.ofSlots slots)

/-- Gives `extra` slots to the first symbol of greatest weight, if some symbol is common. -/
def enlarge (extra : ℕ) (shares : List Share) : Except Stop (Option (List Share)) :=
  if greatestWeight shares = 0 then
    return none
  else do
    let shares ← exchange (fun weight => fit 31 (weight + extra)) shares
    return some shares

/-- Takes back `excess` slots, each from the first symbol of greatest weight at that moment. -/
def repay : ℕ → List Share → Except Stop (Option (List Share))
  | 0, shares => return some shares
  | excess + 1, shares =>
    if greatestWeight shares ≤ 1 then
      return none
    else do
      let shares ← exchange (fun weight => sub weight 1) shares
      repay excess shares

/-- The correction that a leftover calls for. -/
def settle (leftover : ℤ) (shares : List Share) : Except Stop (Option (List Share)) :=
  match leftover with
  | .ofNat 0 => return some shares
  | .ofNat (extra + 1) => enlarge (extra + 1) shares
  | .negSucc excess => repay (excess + 1) shares

/-- Divides a table among the symbols of a histogram. -/
def apportion (histogram : Histogram) (tableLog : ℕ) : Except Stop Distribution :=
  if tableLog < minTableLog ∨ maxTableLog < tableLog then
    refuse (.tableLogOutOfRange tableLog)
  else if histogram.total = 0 then
    refuse (.inputTooShort 0)
  else if 2 ^ tableLog < histogram.distinct then
    refuse (.tableTooSmall histogram.distinct tableLog)
  else do
    let shares ← histogram.counts.mapM (initialShare tableLog histogram.total)
    match ← settle (leftover tableLog shares) shares with
    | some settled => lift (Distribution.ofShares tableLog settled)
    | none => refuse (.tableTooSmall histogram.distinct tableLog)

/-! ### No check of the first division fails -/

/-- **Products and shares fit**: a symbol occurs at most as often as all together. -/
theorem initialShare_eq {tableLog total count : ℕ} (hlog : tableLog ≤ maxTableLog)
    (hcount : count ≤ total) :
    initialShare tableLog total count = .ok (Apportionment.initialShare tableLog total count) := by
  rw [initialShare, Apportionment.initialShare]
  split
  · rfl
  split
  · rfl
  have hproduct : count * (2 ^ precision / total) ≤ 2 ^ precision :=
    Nat.le_trans (Nat.mul_le_mul_right _ hcount) (Nat.mul_div_le _ _)
  have hprecision : tableLog ≤ precision := Nat.le_trans hlog (by decide)
  have hslots : (count * (2 ^ precision / total)) >>> (precision - tableLog) ≤ 2 ^ maxTableLog := by
    rw [Nat.shiftRight_eq_div_pow]
    refine Nat.div_le_of_le_mul (Nat.le_trans hproduct ?_)
    calc 2 ^ precision = 2 ^ (precision - tableLog) * 2 ^ tableLog := by
          rw [← Nat.pow_add, Nat.sub_add_cancel hprecision]
      _ ≤ 2 ^ (precision - tableLog) * 2 ^ maxTableLog :=
          Nat.mul_le_mul_left _ (Nat.pow_le_pow_right (by decide) hlog)
  have hwide : 2 ^ precision < 2 ^ 64 := by decide
  have hshare : 2 ^ maxTableLog < 2 ^ 31 := by decide
  exact pass (fit_eq (Nat.lt_of_le_of_lt hproduct hwide)) (pass (sub_eq hprecision)
    (pass (fit_eq (by omega)) rfl))

theorem mapM_initialShare_eq {tableLog : ℕ} (hlog : tableLog ≤ maxTableLog)
    (histogram : Histogram) :
    histogram.counts.mapM (initialShare tableLog histogram.total) =
      .ok (Apportionment.initial tableLog histogram) :=
  mapM_eq_ok fun _ hcount => initialShare_eq hlog (List.le_sum_of_mem hcount)

/-! ### No check of a correction fails -/

variable {shares : List Share}

/-- **The symbol that a correction is made at exists.** -/
theorem exchange_eq {change : ℕ → Except Stop ℕ} (plain : ℕ → ℕ)
    (h : greatestWeight shares ≠ 0)
    (hchange : change (greatestWeight shares) = .ok (plain (greatestWeight shares))) :
    exchange change shares =
      .ok (shares.modify (favourite shares) fun share => .ofSlots (plain share.weight)) := by
  obtain ⟨pos, hfavourite⟩ := Apportionment.getElem?_favourite h
  refine pass (lookup_eq (by rwa [List.getElem?_toArray])) ?_
  refine pass (by rwa [Share.weight_common]) ?_
  rw [List.modify_eq_set_getElem?, hfavourite]
  rfl

/-- No symbol has more slots than all together. -/
theorem greatestWeight_le_sum_slots (shares : List Share) :
    greatestWeight shares ≤ (shares.map Share.slots).sum := by
  induction shares with
  | nil => exact Nat.le_refl 0
  | cons share rest ih =>
    have hweight := share.weight_le_slots
    rw [Apportionment.greatestWeight_cons, List.map_cons, List.sum_cons]
    omega

/-- **Slots left over** make no share larger than the table. -/
theorem enlarge_eq {extra : ℕ} (h : (shares.map Share.slots).sum + extra < 2 ^ 31) :
    enlarge extra shares = .ok (Apportionment.enlarge extra shares) := by
  rw [enlarge, Apportionment.enlarge]
  split
  · rfl
  · rename_i hcommon
    have := greatestWeight_le_sum_slots shares
    exact pass (exchange_eq (· + extra) hcommon (fit_eq (by omega))) rfl

/-- **Slots given out in excess** are taken from symbols that have them. -/
theorem repay_eq (excess : ℕ) (shares : List Share) :
    repay excess shares = .ok (Apportionment.repay excess shares) := by
  induction excess generalizing shares with
  | zero => rfl
  | succ excess ih =>
    rw [repay, Apportionment.repay]
    split
    · rfl
    · rename_i hmore
      exact pass (exchange_eq (· - 1) (by omega) (sub_eq (by omega))) (ih _)

theorem settle_eq {tableLog : ℕ} (hlog : tableLog ≤ maxTableLog) (shares : List Share) :
    settle (leftover tableLog shares) shares =
      .ok (Apportionment.settle (leftover tableLog shares) shares) := by
  have hsize : 2 ^ tableLog < 2 ^ 31 :=
    Nat.pow_lt_pow_right (by decide) (Nat.lt_of_le_of_lt hlog (by decide))
  have hextra : ∀ extra : ℕ, leftover tableLog shares = extra →
      (shares.map Share.slots).sum + extra < 2 ^ 31 := by
    intro extra h
    rw [leftover] at h
    omega
  generalize leftover tableLog shares = left at hextra ⊢
  cases left with
  | ofNat extra =>
    cases extra with
    | zero => rfl
    | succ extra => exact enlarge_eq (hextra (extra + 1) rfl)
  | negSucc excess => exact repay_eq (excess + 1) shares

/-- **A histogram is apportioned safely**, or it is refused as it is without checks. -/
theorem apportion_eq (histogram : Histogram) (tableLog : ℕ) :
    apportion histogram tableLog = lift (histogram.apportion tableLog) := by
  rw [apportion, Histogram.apportion]
  split
  · rfl
  rename_i hlog
  have hle : tableLog ≤ maxTableLog := by omega
  split
  · rfl
  split
  · rfl
  refine pass (mapM_initialShare_eq hle histogram) (pass (settle_eq hle _) ?_)
  dsimp only
  generalize Apportionment.settle (leftover tableLog _) _ = settled
  cases settled <;> rfl

end Checked

end FiniteStateEntropy
