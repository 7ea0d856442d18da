import FiniteStateEntropy.Proofs.Corrections

/-!
# Frequent symbols have more slots

The first division is monotone: a symbol that occurs at least as often as another one gets at least
as many slots, whether the two are rare or common. The corrections disturb that, but not by much.
Slots left over reach one symbol, which may get ahead of others that occur as often. Slots taken
back leave no symbol more than one slot behind another one that is no more frequent: whoever gives
one up has as many as anybody else at that moment.

A slack of one slot is needed. Of two symbols that occur equally often, the first one gives up a
slot before the second one does.

## Main results

* `Apportionment.slots_initialShare_mono`: the first division is monotone
* `Apportionment.slots_le_takeBack`: a slot taken back leaves a slack of one
* `Histogram.slots_le_of_count_le`: what is left of the order of frequencies
-/

namespace FiniteStateEntropy

namespace Apportionment

/-- **The first division is monotone.** -/
theorem slots_initialShare_mono (tableLog total : ℕ) {count count' : ℕ} (h : count ≤ count') :
    (initialShare tableLog total count).slots ≤ (initialShare tableLog total count').slots := by
  have hscaled : (count * (2 ^ precision / total)) >>> (precision - tableLog) ≤
      (count' * (2 ^ precision / total)) >>> (precision - tableLog) := by
    rw [Nat.shiftRight_eq_div_pow, Nat.shiftRight_eq_div_pow]
    exact Nat.div_le_div_right (Nat.mul_le_mul_right _ h)
  rw [initialShare, initialShare]
  split
  · exact Nat.zero_le _
  · rw [if_neg (show count' ≠ 0 by omega)]
    split
    · -- a rare symbol has one slot, and no present symbol has less
      split
      · exact Nat.le_refl 1
      · rw [Share.slots_ofSlots]
        exact Nat.le_max_left _ _
    · rw [if_neg (by omega), Share.slots_ofSlots, Share.slots_ofSlots]
      omega

/-- **A slot taken back** leaves nobody more than one slot behind. -/
theorem slots_le_takeBack {shares : List Share} {symbol other : ℕ}
    (hmore : 1 < greatestWeight shares)
    (h : (shareAt shares symbol).slots ≤ (shareAt shares other).slots + 1) :
    (shareAt (takeBack shares) symbol).slots ≤
      (shareAt (takeBack shares) other).slots + 1 := by
  have hsymbol : (shareAt shares symbol).slots ≤ greatestWeight shares := by
    have hweight := weight_shareAt_le shares symbol
    have hslots := (shareAt shares symbol).slots_le_max_weight
    omega
  rw [slots_shareAt_takeBack hmore, slots_shareAt_takeBack hmore]
  split
  · rename_i hgives
    obtain ⟨pos, hfavourite⟩ := shareAt_favourite (show greatestWeight shares ≠ 0 by omega)
    have hgreatest : (shareAt shares symbol).slots = greatestWeight shares := by
      rw [hgives, hfavourite]
      rfl
    split <;> omega
  · split <;> omega

end Apportionment

namespace Histogram

variable {histogram : Histogram} {distribution : Distribution} {tableLog : ℕ}

/-- **What is left of the order of frequencies.** A symbol that occurs no more often than another
one has no more slots, but for one slot where slots are taken back, and but for the slots that it
receives itself. -/
theorem slots_le_of_count_le (h : histogram.apportion tableLog = .ok distribution)
    {symbol other : ℕ}
    (hcount : histogram.counts.getD symbol 0 ≤ histogram.counts.getD other 0) :
    (histogram.remainder tableLog < 0 →
      distribution.slots symbol ≤ distribution.slots other + 1) ∧
    (histogram.remainder tableLog = 0 →
      distribution.slots symbol ≤ distribution.slots other) ∧
    (0 < histogram.remainder tableLog →
      ∃ recipient, histogram.Receives tableLog distribution recipient ∧
        (symbol ≠ recipient → distribution.slots symbol ≤ distribution.slots other) ∧
        (symbol = recipient → (distribution.slots symbol : ℤ) ≤
          distribution.slots other + histogram.remainder tableLog)) := by
  have hassigned : (histogram.assigned tableLog symbol).slots ≤
      (histogram.assigned tableLog other).slots :=
    Apportionment.slots_initialShare_mono tableLog histogram.total hcount
  rcases correction h with ⟨hzero, hslots⟩ | ⟨recipient, hreceives⟩ | ⟨hneg, excess, hrepay⟩
  · refine ⟨fun hneg => absurd hzero (by omega), fun _ => ?_, fun hpos => absurd hzero (by omega)⟩
    rwa [hslots, hslots]
  · have hpos := hreceives.pos
    refine ⟨fun hneg => absurd hpos (by omega), fun hzero => absurd hpos (by omega),
      fun _ => ⟨recipient, hreceives, ?_, ?_⟩⟩
    · intro hne
      rw [hreceives.slots_of_ne symbol hne]
      exact Nat.le_trans hassigned (hreceives.assigned_le_slots other)
    · rintro rfl
      have hslots := hreceives.slots_eq
      have hother := hreceives.assigned_le_slots other
      omega
  · refine ⟨fun _ => ?_, fun hzero => absurd hneg (by omega), fun hpos => absurd hneg (by omega)⟩
    rw [Apportionment.slots_eq_slots_shareAt, Apportionment.slots_eq_slots_shareAt]
    refine Apportionment.repay_induction (P := fun shares =>
      (Apportionment.shareAt shares symbol).slots ≤
        (Apportionment.shareAt shares other).slots + 1) hrepay ?_ ?_
    · rw [shareAt_initial, shareAt_initial]
      exact Nat.le_succ_of_le hassigned
    · intro shares hmore hle
      exact Apportionment.slots_le_takeBack hmore hle

/-- Two symbols that occur equally often, and three that are rare. -/
def twins : Histogram := ⟨[40, 40, 1, 1, 1], by decide, by decide, by decide⟩

/-- The two would have fifteen slots each, but only twenty-nine are left for them, and the second
one ends up with the one slot more that there may be. -/
theorem slots_le_of_count_le_twins :
    ∃ distribution, twins.apportion 5 = .ok distribution ∧
      twins.counts.getD 1 0 ≤ twins.counts.getD 0 0 ∧ twins.remainder 5 < 0 ∧
      distribution.slots 1 = 15 ∧ distribution.slots 0 = 14 ∧
      distribution.slots 1 ≤ distribution.slots 0 + 1 := by
  have hslots : (twins.apportion 5).map (fun distribution =>
      (distribution.slots 1, distribution.slots 0)) = .ok (15, 14) := by decide +kernel
  obtain ⟨distribution, happortion, hboth⟩ := exceptMap_eq_ok_iff.mp hslots
  obtain ⟨hsecond, hfirst⟩ := Prod.mk.inj hboth
  have hcount : twins.counts.getD 1 0 ≤ twins.counts.getD 0 0 := by decide
  have hneg : twins.remainder 5 < 0 := by decide +kernel
  exact ⟨distribution, happortion, hcount, hneg, hsecond, hfirst,
    (slots_le_of_count_le happortion hcount).1 hneg⟩

end Histogram

end FiniteStateEntropy
