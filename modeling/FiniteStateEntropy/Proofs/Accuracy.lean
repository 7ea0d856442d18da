import FiniteStateEntropy.Proofs.Corrections
import Mathlib.Algebra.BigOperators.Ring.List
import Mathlib.Algebra.Order.BigOperators.Group.List
import Mathlib.Algebra.Order.Group.Nat
import Mathlib.Tactic.Ring

/-!
# How close to its quota a symbol comes

The quota of a symbol is its exact part of the table, rounded down. The first division does not
compute it: it multiplies a count with a reciprocal of the total that is rounded down itself, and
rounds the product down once more. Rounding twice costs at most one slot, because a reciprocal has
so many bits that its own error, multiplied with any count, is less than a slot as long as totals
are numbers of 32 bits.

How much is left over follows by adding up what single symbols lose, which is less than a slot for
a common symbol, but for errors of the reciprocal that add up to less than a slot as well; and how
much is missing by adding up what rare symbols gain, which is less than a slot each. Both sums are
taken over products with the total, so that nothing is rounded in them.

## Main definitions

* `Apportionment.scaled`: the slots that a count amounts to by the reciprocal
* `Histogram.quota`, `Histogram.IsCommon`, `Histogram.commons`, `Histogram.rares`
* `Histogram.IsAccurate`: a distribution keeps to the quotas of a histogram

## Main results

* `Apportionment.scaled_mul_le`, `Apportionment.lt_scaled_mul`: what rounding twice costs
* `Histogram.quota_le_slots_assigned`: a common symbol is at most one slot below its quota
* `Histogram.remainder_le`, `Histogram.lt_rares`: what is left over, and what is missing
* `Histogram.apportion_accurate`: a division keeps to the quotas
-/

namespace FiniteStateEntropy

namespace Apportionment

/-! ### Rounding twice -/

/-- The slots that a count amounts to, by the rounded reciprocal of the total. -/
def scaled (tableLog total count : ℕ) : ℕ :=
  (count * (2 ^ precision / total)) >>> (precision - tableLog)

variable {tableLog total count : ℕ}

theorem two_pow_precision (hlog : tableLog ≤ maxTableLog) :
    2 ^ precision = 2 ^ tableLog * 2 ^ (precision - tableLog) := by
  rw [← Nat.pow_add, Nat.add_sub_cancel' (Nat.le_trans hlog (by decide))]

/-- **Rounding down** gives no slot too many. -/
theorem scaled_mul_le (hlog : tableLog ≤ maxTableLog) (total count : ℕ) :
    scaled tableLog total count * total ≤ count * 2 ^ tableLog := by
  rw [scaled, Nat.shiftRight_eq_div_pow]
  have hprecision := two_pow_precision hlog
  refine Nat.le_of_mul_le_mul_right ?_ (Nat.two_pow_pos (precision - tableLog))
  generalize 2 ^ (precision - tableLog) = unit at *
  calc count * (2 ^ precision / total) / unit * total * unit
      = count * (2 ^ precision / total) / unit * unit * total := by ring
    _ ≤ count * (2 ^ precision / total) * total :=
        Nat.mul_le_mul_right _ (Nat.div_mul_le_self _ _)
    _ = count * (2 ^ precision / total * total) := by ring
    _ ≤ count * 2 ^ precision := Nat.mul_le_mul_left _ (Nat.div_mul_le_self _ _)
    _ = count * 2 ^ tableLog * unit := by rw [hprecision]; ring

/-- **Rounding twice** costs less than a slot, and what an error of the reciprocal amounts to. -/
theorem lt_scaled_mul (tableLog : ℕ) (htotal : 0 < total) (count : ℕ) :
    count * 2 ^ precision <
      (scaled tableLog total count + 1) * (2 ^ (precision - tableLog) * total) + count * total := by
  rw [scaled, Nat.shiftRight_eq_div_pow]
  have hreciprocal : 2 ^ precision ≤ total * (2 ^ precision / total + 1) :=
    Nat.le_of_lt (Nat.lt_mul_div_succ _ htotal)
  have hproduct := Nat.lt_mul_div_succ (count * (2 ^ precision / total))
    (Nat.two_pow_pos (precision - tableLog))
  generalize 2 ^ precision / total = reciprocal at *
  generalize 2 ^ (precision - tableLog) = unit at *
  calc count * 2 ^ precision ≤ count * (total * (reciprocal + 1)) :=
        Nat.mul_le_mul_left _ hreciprocal
    _ = count * reciprocal * total + count * total := by ring
    _ < unit * (count * reciprocal / unit + 1) * total + count * total :=
        Nat.add_lt_add_right (Nat.mul_lt_mul_of_pos_right hproduct htotal) _
    _ = (count * reciprocal / unit + 1) * (unit * total) + count * total := by ring

/-! ### One symbol -/

/-- A rare symbol is worth at most a slot. -/
theorem mul_le_of_le_shiftRight (h : count ≤ total >>> tableLog) :
    count * 2 ^ tableLog ≤ total := by
  rw [Nat.shiftRight_eq_div_pow] at h
  exact (Nat.le_div_iff_mul_le (Nat.two_pow_pos tableLog)).mp h

/-- A common symbol is worth more than a slot. -/
theorem lt_mul_of_shiftRight_lt (h : total >>> tableLog < count) :
    total < count * 2 ^ tableLog := by
  rw [Nat.shiftRight_eq_div_pow] at h
  exact (Nat.div_lt_iff_lt_mul (Nat.two_pow_pos tableLog)).mp h

theorem slots_initialShare_of_common (h : total >>> tableLog < count) :
    (initialShare tableLog total count).slots = max 1 (scaled tableLog total count) := by
  rw [initialShare, if_neg (Nat.ne_zero_of_lt h), if_neg (Nat.not_le_of_lt h), Share.slots_ofSlots,
    scaled]

theorem slots_initialShare_of_rare (hpos : 0 < count) (h : count ≤ total >>> tableLog) :
    (initialShare tableLog total count).slots = 1 := by
  rw [initialShare, if_neg (Nat.ne_zero_of_lt hpos), if_pos h]
  rfl

theorem slots_initialShare_zero (tableLog total : ℕ) :
    (initialShare tableLog total 0).slots = 0 := by
  rw [initialShare, if_pos rfl]
  rfl

/-- **No common symbol gains.** -/
theorem slots_mul_le_of_common (hlog : tableLog ≤ maxTableLog) (h : total >>> tableLog < count) :
    (initialShare tableLog total count).slots * total ≤ count * 2 ^ tableLog := by
  rw [slots_initialShare_of_common h]
  rcases Nat.le_total 1 (scaled tableLog total count) with hle | hle
  · rw [Nat.max_eq_right hle]
    exact scaled_mul_le hlog total count
  · rw [Nat.max_eq_left hle, Nat.one_mul]
    exact Nat.le_of_lt (lt_mul_of_shiftRight_lt h)

/-- **A rare symbol gains** less than a slot. -/
theorem slots_mul_le (hlog : tableLog ≤ maxTableLog) (total count : ℕ) :
    (initialShare tableLog total count).slots * total ≤ count * 2 ^ tableLog +
      if 0 < count ∧ count ≤ total >>> tableLog then total - 1 else 0 := by
  rcases Nat.eq_zero_or_pos count with rfl | hpos
  · rw [slots_initialShare_zero, Nat.zero_mul]
    exact Nat.zero_le _
  by_cases hrare : count ≤ total >>> tableLog
  · rw [slots_initialShare_of_rare hpos hrare, if_pos ⟨hpos, hrare⟩]
    have := Nat.mul_pos hpos (Nat.two_pow_pos tableLog)
    omega
  · rw [if_neg fun h => hrare h.2]
    exact slots_mul_le_of_common hlog (Nat.not_le.mp hrare)

/-- **A common symbol loses** less than a slot, and what an error of the reciprocal amounts to. -/
theorem mul_le_slots (hlog : tableLog ≤ maxTableLog) (htotal : 0 < total) (count : ℕ) :
    count * 2 ^ precision ≤
      (initialShare tableLog total count).slots * (2 ^ (precision - tableLog) * total) +
        count * total +
        if total >>> tableLog < count then 2 ^ (precision - tableLog) * total else 0 := by
  rcases Nat.eq_zero_or_pos count with rfl | hpos
  · rw [Nat.zero_mul]
    exact Nat.zero_le _
  by_cases hrare : count ≤ total >>> tableLog
  · rw [if_neg (Nat.not_lt.mpr hrare), slots_initialShare_of_rare hpos hrare, Nat.one_mul]
    calc count * 2 ^ precision = count * 2 ^ tableLog * 2 ^ (precision - tableLog) := by
          rw [two_pow_precision hlog, Nat.mul_assoc]
      _ ≤ total * 2 ^ (precision - tableLog) :=
          Nat.mul_le_mul_right _ (mul_le_of_le_shiftRight hrare)
      _ = 2 ^ (precision - tableLog) * total := Nat.mul_comm _ _
      _ ≤ 2 ^ (precision - tableLog) * total + count * total + 0 := by omega
  · rw [if_pos (Nat.not_le.mp hrare), slots_initialShare_of_common (Nat.not_le.mp hrare)]
    have hscaled := lt_scaled_mul tableLog htotal count
    have hmax := Nat.mul_le_mul_right (2 ^ (precision - tableLog) * total)
      (Nat.le_max_right 1 (scaled tableLog total count))
    rw [Nat.add_mul, Nat.one_mul] at hscaled
    omega

end Apportionment

namespace Histogram

open Apportionment (precision initial initialShare slots_initialShare_of_common)

/-! ### Quotas -/

/-- The exact part of the table that a symbol is worth, rounded down. -/
def quota (histogram : Histogram) (tableLog symbol : ℕ) : ℕ :=
  histogram.counts.getD symbol 0 * 2 ^ tableLog / histogram.total

/-- A symbol occurs, and too often to be rare. -/
def IsCommon (histogram : Histogram) (tableLog symbol : ℕ) : Prop :=
  histogram.total >>> tableLog < histogram.counts.getD symbol 0

/-- The number of common symbols. -/
def commons (histogram : Histogram) (tableLog : ℕ) : ℕ :=
  histogram.counts.countP (histogram.total >>> tableLog < ·)

/-- The number of rare symbols. -/
def rares (histogram : Histogram) (tableLog : ℕ) : ℕ :=
  histogram.counts.countP fun count => 0 < count ∧ count ≤ histogram.total >>> tableLog

variable {histogram : Histogram} {tableLog symbol : ℕ}

/-- **No common symbol is above its quota.** -/
theorem slots_assigned_le_quota (hlog : tableLog ≤ maxTableLog) (htotal : 0 < histogram.total)
    (h : histogram.IsCommon tableLog symbol) :
    (histogram.assigned tableLog symbol).slots ≤ histogram.quota tableLog symbol :=
  (Nat.le_div_iff_mul_le htotal).mpr (Apportionment.slots_mul_le_of_common hlog h)

theorem getD_counts_le_total (histogram : Histogram) (symbol : ℕ) :
    histogram.counts.getD symbol 0 ≤ histogram.total := by
  rw [List.getD_eq_getElem?_getD]
  cases hcount : histogram.counts[symbol]? with
  | none => exact Nat.zero_le _
  | some count => exact List.le_sum_of_mem (List.mem_of_getElem? hcount)

/-- A total of 32 bits is less than what one slot stands for in the scaled counts. -/
theorem total_lt_unit (hlog : tableLog ≤ maxTableLog) (htotal : histogram.total < 2 ^ 32) :
    histogram.total < 2 ^ (precision - tableLog) :=
  Nat.lt_of_lt_of_le htotal
    (Nat.pow_le_pow_right (by decide) (by rw [maxTableLog] at hlog; rw [precision]; omega))

/-- **A common symbol is at most one slot below its quota.** -/
theorem quota_le_slots_assigned (hlog : tableLog ≤ maxTableLog) (hpos : 0 < histogram.total)
    (htotal : histogram.total < 2 ^ 32) (h : histogram.IsCommon tableLog symbol) :
    histogram.quota tableLog symbol ≤ (histogram.assigned tableLog symbol).slots + 1 := by
  rw [assigned, slots_initialShare_of_common h, quota]
  have hprecision := Apportionment.two_pow_precision hlog
  have hscaled := Apportionment.lt_scaled_mul tableLog hpos (histogram.counts.getD symbol 0)
  have hcount : histogram.counts.getD symbol 0 ≤ 2 ^ (precision - tableLog) :=
    Nat.le_trans (histogram.getD_counts_le_total symbol)
      (Nat.le_of_lt (total_lt_unit hlog htotal))
  have hmax := Nat.le_max_right 1
    (Apportionment.scaled tableLog histogram.total (histogram.counts.getD symbol 0))
  generalize Apportionment.scaled tableLog histogram.total (histogram.counts.getD symbol 0) =
    scaled at *
  generalize histogram.counts.getD symbol 0 = count at *
  refine Nat.le_trans (Nat.le_of_lt_succ ?_) (Nat.succ_le_succ hmax)
  rw [Nat.div_lt_iff_lt_mul hpos]
  refine Nat.lt_of_mul_lt_mul_right (a := 2 ^ (precision - tableLog)) ?_
  generalize 2 ^ (precision - tableLog) = unit at *
  calc count * 2 ^ tableLog * unit = count * 2 ^ precision := by rw [hprecision]; ring
    _ < (scaled + 1) * (unit * histogram.total) + count * histogram.total := hscaled
    _ ≤ (scaled + 1) * (unit * histogram.total) + unit * histogram.total :=
        Nat.add_le_add_left (Nat.mul_le_mul_right _ hcount) _
    _ = (scaled + 1 + 1) * histogram.total * unit := by ring

/-! ### All symbols together -/

theorem sum_slots_initial (histogram : Histogram) (tableLog : ℕ) :
    ((initial tableLog histogram).map Share.slots).sum =
      (histogram.counts.map fun count =>
        (initialShare tableLog histogram.total count).slots).sum := by
  rw [initial, List.map_map]
  rfl

/-- **What is left over** is at most a slot for every common symbol. -/
theorem remainder_le (hlog : tableLog ≤ maxTableLog) (hpos : 0 < histogram.total)
    (htotal : histogram.total < 2 ^ 32) :
    histogram.remainder tableLog ≤ histogram.commons tableLog := by
  have hsum : (histogram.counts.map fun count => count * 2 ^ precision).sum ≤
      (histogram.counts.map fun count => (initialShare tableLog histogram.total count).slots *
        (2 ^ (precision - tableLog) * histogram.total) + count * histogram.total).sum +
      histogram.commons tableLog * (2 ^ (precision - tableLog) * histogram.total) := by
    refine Apportionment.sum_map_le_add_countP_mul ?_
    intro count _
    simpa only [decide_eq_true_eq] using Apportionment.mul_le_slots hlog hpos count
  rw [List.sum_map_add, List.sum_map_mul_right, List.sum_map_mul_right, List.sum_map_mul_right,
    List.map_id', ← sum_slots_initial, ← total, Apportionment.two_pow_precision hlog] at hsum
  have hunit := total_lt_unit hlog htotal
  rw [remainder, Apportionment.leftover]
  generalize ((initial tableLog histogram).map Share.slots).sum = assigned at *
  generalize histogram.commons tableLog = commons at *
  generalize 2 ^ (precision - tableLog) = unit at *
  have hslots : 2 ^ tableLog * (unit * histogram.total) <
      (assigned + commons + 1) * (unit * histogram.total) := by
    calc 2 ^ tableLog * (unit * histogram.total) = histogram.total * (2 ^ tableLog * unit) := by
          ring
      _ ≤ assigned * (unit * histogram.total) + histogram.total * histogram.total +
            commons * (unit * histogram.total) := hsum
      _ < assigned * (unit * histogram.total) + unit * histogram.total +
            commons * (unit * histogram.total) :=
          Nat.add_lt_add_right (Nat.add_lt_add_left (Nat.mul_lt_mul_of_pos_right hunit hpos) _) _
      _ = (assigned + commons + 1) * (unit * histogram.total) := by ring
  have hlt := Nat.lt_of_mul_lt_mul_right hslots
  omega

/-- **What is missing** is less than a slot for every rare symbol, and nothing without one. -/
theorem lt_rares (hlog : tableLog ≤ maxTableLog) (hpos : 0 < histogram.total)
    (h : histogram.remainder tableLog < 0) :
    -histogram.remainder tableLog < histogram.rares tableLog := by
  have hsum : (histogram.counts.map fun count =>
        (initialShare tableLog histogram.total count).slots * histogram.total).sum ≤
      (histogram.counts.map fun count => count * 2 ^ tableLog).sum +
      histogram.rares tableLog * (histogram.total - 1) := by
    refine Apportionment.sum_map_le_add_countP_mul ?_
    intro count _
    simpa only [decide_eq_true_eq] using Apportionment.slots_mul_le hlog histogram.total count
  rw [List.sum_map_mul_right, List.sum_map_mul_right, List.map_id', ← sum_slots_initial,
    ← total] at hsum
  rw [remainder, Apportionment.leftover] at h ⊢
  generalize ((initial tableLog histogram).map Share.slots).sum = assigned at *
  generalize histogram.rares tableLog = rares at *
  generalize 2 ^ tableLog = size at *
  have hmissing : assigned < size + rares := by
    refine Nat.lt_of_mul_lt_mul_right (a := histogram.total) ?_
    have hrares : rares ≠ 0 := by
      rintro rfl
      rw [Nat.zero_mul, Nat.add_zero, Nat.mul_comm] at hsum
      have := Nat.le_of_mul_le_mul_left hsum hpos
      omega
    calc assigned * histogram.total ≤ histogram.total * size + rares * (histogram.total - 1) := hsum
      _ < histogram.total * size + rares * histogram.total :=
          Nat.add_lt_add_left (Nat.mul_lt_mul_of_pos_left (Nat.sub_one_lt hpos.ne')
            (Nat.pos_of_ne_zero hrares)) _
      _ = (size + rares) * histogram.total := by ring
  omega

/-! ### Quotas and corrections -/

/-- A distribution keeps to the quotas of a histogram. -/
structure IsAccurate (histogram : Histogram) (tableLog : ℕ) (distribution : Distribution) :
    Prop where
  /-- The first division gives a common symbol its quota or one slot less. -/
  assigned_bounds : ∀ symbol, histogram.IsCommon tableLog symbol →
    max 1 (histogram.quota tableLog symbol - 1) ≤ (histogram.assigned tableLog symbol).slots ∧
      (histogram.assigned tableLog symbol).slots ≤ histogram.quota tableLog symbol
  /-- What it leaves over is at most a slot for every common symbol. -/
  remainder_le : histogram.remainder tableLog ≤ histogram.commons tableLog
  /-- One symbol receives that. -/
  exists_receives : 0 < histogram.remainder tableLog →
    ∃ recipient, histogram.Receives tableLog distribution recipient
  /-- What is missing is less than a slot for every rare symbol, and nothing without one. -/
  lt_rares : histogram.remainder tableLog < 0 →
    -histogram.remainder tableLog < histogram.rares tableLog
  /-- No other common symbol ends up above its quota. -/
  slots_le : ∀ symbol, histogram.IsCommon tableLog symbol →
    ¬histogram.Receives tableLog distribution symbol →
      distribution.slots symbol ≤ histogram.quota tableLog symbol
  /-- No common symbol ends up more than one slot below it, unless slots are taken back. -/
  le_slots : 0 ≤ histogram.remainder tableLog → ∀ symbol, histogram.IsCommon tableLog symbol →
    max 1 (histogram.quota tableLog symbol - 1) ≤ distribution.slots symbol

variable {distribution : Distribution}

/-- Only who receives slots ends up with more than the first division assigned. -/
theorem slots_le_assigned (h : histogram.apportion tableLog = .ok distribution)
    (hsymbol : ¬histogram.Receives tableLog distribution symbol) :
    distribution.slots symbol ≤ (histogram.assigned tableLog symbol).slots := by
  rcases correction h with ⟨-, hslots⟩ | ⟨recipient, hreceives⟩ | ⟨-, excess, hrepay⟩
  · exact Nat.le_of_eq (hslots symbol)
  · refine Nat.le_of_eq (hreceives.slots_of_ne symbol ?_)
    rintro rfl
    exact hsymbol hreceives
  · rw [Apportionment.slots_eq_slots_shareAt, ← shareAt_initial]
    exact Apportionment.slots_shareAt_le_of_repay hrepay symbol

/-- Nobody ends up with fewer, unless slots are taken back. -/
theorem assigned_le_slots (h : histogram.apportion tableLog = .ok distribution)
    (hremainder : 0 ≤ histogram.remainder tableLog) (symbol : ℕ) :
    (histogram.assigned tableLog symbol).slots ≤ distribution.slots symbol := by
  rcases correction h with ⟨-, hslots⟩ | ⟨recipient, hreceives⟩ | ⟨hneg, -⟩
  · exact Nat.le_of_eq (hslots symbol).symm
  · exact hreceives.assigned_le_slots symbol
  · omega

/-- **A division keeps to the quotas**, for every histogram of a total of 32 bits. -/
theorem apportion_accurate (hlog : minTableLog ≤ tableLog ∧ tableLog ≤ maxTableLog)
    (hpos : 0 < histogram.total) (htotal : histogram.total < 2 ^ 32)
    (hdistinct : histogram.distinct ≤ 2 ^ tableLog) :
    ∃ distribution, histogram.apportion tableLog = .ok distribution ∧
      histogram.IsAccurate tableLog distribution := by
  obtain ⟨distribution, happortion, -, -⟩ := exists_apportion hlog hpos.ne' hdistinct
  have hbounds : ∀ symbol, histogram.IsCommon tableLog symbol →
      max 1 (histogram.quota tableLog symbol - 1) ≤ (histogram.assigned tableLog symbol).slots ∧
        (histogram.assigned tableLog symbol).slots ≤ histogram.quota tableLog symbol := by
    intro symbol hcommon
    refine ⟨?_, slots_assigned_le_quota hlog.2 hpos hcommon⟩
    have hquota := quota_le_slots_assigned hlog.2 hpos htotal hcommon
    have hone : 1 ≤ (histogram.assigned tableLog symbol).slots := by
      rw [assigned, slots_initialShare_of_common hcommon]
      exact Nat.le_max_left _ _
    omega
  refine ⟨distribution, happortion, hbounds, remainder_le hlog.2 hpos htotal, ?_,
    lt_rares hlog.2 hpos, ?_, ?_⟩
  · intro hleft
    rcases correction happortion with ⟨hzero, -⟩ | hreceives | ⟨hneg, -⟩
    · omega
    · exact hreceives
    · omega
  · intro symbol hcommon hsymbol
    exact Nat.le_trans (slots_le_assigned happortion hsymbol) (hbounds symbol hcommon).2
  · intro hremainder symbol hcommon
    exact Nat.le_trans (hbounds symbol hcommon).1 (assigned_le_slots happortion hremainder symbol)

/-- Two symbols that occur equally often, and a total that is no power of two. -/
def halves : Histogram := ⟨[24, 24], by decide, by decide, by decide⟩

/-- Each of them is worth sixteen slots exactly and gets fifteen, since the reciprocal of their
total is rounded down. Both slots left over go to the first one. -/
theorem apportion_accurate_halves :
    0 < halves.total ∧ halves.total < 2 ^ 32 ∧ halves.distinct ≤ 2 ^ 5 ∧
      ∃ distribution, halves.apportion 5 = .ok distribution ∧
        halves.IsAccurate 5 distribution ∧ halves.commons 5 = 2 ∧ halves.remainder 5 = 2 ∧
        (halves.quota 5 0 = 16 ∧ distribution.slots 0 = 17) ∧
        (halves.quota 5 1 = 16 ∧ distribution.slots 1 = 15) := by
  have hslots : (halves.apportion 5).map (fun distribution =>
      (distribution.slots 0, distribution.slots 1)) = .ok (17, 15) := by decide +kernel
  obtain ⟨distribution, happortion, haccurate⟩ :=
    @apportion_accurate halves 5 (by decide) (by decide) (by decide) (by decide)
  rw [happortion] at hslots
  obtain ⟨hfirst, hsecond⟩ := Prod.mk.inj (Except.ok.inj hslots)
  exact ⟨by decide, by decide, by decide, distribution, happortion, haccurate, by decide,
    by decide +kernel, ⟨by decide, hfirst⟩, ⟨by decide, hsecond⟩⟩

end Histogram

end FiniteStateEntropy
