import FiniteStateEntropy.Histogram
import Mathlib.Algebra.BigOperators.Group.Finset.Basic
import Mathlib.Data.Finset.Lattice.Fold
import Mathlib.Data.List.GetD
import Mathlib.Data.List.TakeWhile
import Mathlib.Order.Lattice.Nat

/-!
# Both ways to count give the numbers of occurrences

Counting directly and counting in stripes are compared with one reference, the number of
occurrences of a symbol in the input, rather than with each other. Each is an induction over the
input from an arbitrary tally: the bytes already counted are in the tally, the others are yet to
come.

Where bytes lie above the ceiling, counting directly names the first of them and counting in stripes
the smallest.

## Main results

* `Histogram.addBytes_of_le`, `Histogram.Stripes.merge_deal`: what counting adds to a tally
* `Histogram.addBytes_of_head`, `Histogram.tallyStriped_of_min`: the byte that is named
* `Histogram.exists_ofBytes`, `Histogram.exists_ofBytes_error`: the histogram of an input
* `Histogram.Counts.length_eq`, `Histogram.Counts.total_eq`, `Histogram.Counts.distinct_eq`: what a
  histogram says of its input
* `Histogram.Counts.unique`: counts determine a histogram
-/

namespace FiniteStateEntropy

namespace Histogram

/-- How often a symbol occurs in an input. -/
def occurrences (input : List UInt8) (symbol : ℕ) : ℕ := (input.map UInt8.toNat).count symbol

@[simp] theorem occurrences_nil (symbol : ℕ) : occurrences [] symbol = 0 := rfl

theorem occurrences_cons (byte : UInt8) (rest : List UInt8) (symbol : ℕ) :
    occurrences (byte :: rest) symbol =
      (if byte.toNat = symbol then 1 else 0) + occurrences rest symbol := by
  simp [occurrences, List.count_cons, Nat.add_comm]

theorem occurrences_pos_iff (input : List UInt8) (symbol : ℕ) :
    0 < occurrences input symbol ↔ ∃ byte ∈ input, byte.toNat = symbol := by
  rw [occurrences, List.count_pos_iff, List.mem_map]

/-- The largest byte of an input, as a number; zero if there is none. -/
def largestByte (input : List UInt8) : ℕ := input.toFinset.sup UInt8.toNat

theorem toNat_le_largestByte {input : List UInt8} {byte : UInt8} (h : byte ∈ input) :
    byte.toNat ≤ largestByte input :=
  Finset.le_sup (List.mem_toFinset.mpr h)

end Histogram

open Histogram (occurrences occurrences_cons)

namespace Tally

variable {n : ℕ}

theorem getElem_bump (tally : Tally n) {symbol : ℕ} (h : symbol < n) {i : ℕ} (hi : i < n) :
    (tally.bump symbol h)[i] = tally[i] + if symbol = i then 1 else 0 := by
  rw [bump, Vector.getElem_set]
  split
  · rename_i heq
    subst heq
    rfl
  · rfl

/-- Counting one byte after the other. -/
theorem getElem_foldl_bumpByte (input : List UInt8) (tally : Tally 256) {i : ℕ} (hi : i < 256) :
    (input.foldl bumpByte tally)[i] = tally[i] + occurrences input i := by
  induction input generalizing tally with
  | nil => rfl
  | cons byte rest ih =>
    rw [List.foldl_cons, ih, bumpByte, getElem_bump, occurrences_cons, Nat.add_assoc]

end Tally

namespace Histogram

variable {ceiling : UInt8} {input : List UInt8}

/-! ### Bytes above the ceiling -/

/-- The bytes above the ceiling, in the order of the input. -/
def above (ceiling : UInt8) (input : List UInt8) : List UInt8 := input.filter (ceiling < ·)

theorem mem_above {byte : UInt8} : byte ∈ above ceiling input ↔ byte ∈ input ∧ ceiling < byte := by
  simp [above]

theorem above_eq_nil_iff : above ceiling input = [] ↔ ∀ byte ∈ input, byte ≤ ceiling := by
  simp [above, List.filter_eq_nil_iff]

/-! ### Counting directly -/

/-- **Direct counting** where no byte lies above the ceiling. -/
theorem addBytes_of_le (h : ∀ byte ∈ input, byte ≤ ceiling)
    (tally : Tally (ceiling.toNat + 1)) :
    addBytes ceiling input tally =
      .ok (Vector.ofFn fun symbol => tally[symbol] + occurrences input symbol) := by
  induction input generalizing tally with
  | nil =>
    rw [addBytes]
    congr 1
    ext i hi
    simp
  | cons byte rest ih =>
    simp only [List.mem_cons, forall_eq_or_imp] at h
    obtain ⟨hbyte, hrest⟩ := h
    rw [addBytes, dif_pos hbyte, ih hrest]
    congr 2
    funext symbol
    rw [Fin.getElem_fin, Tally.getElem_bump, occurrences_cons, Nat.add_assoc, Fin.getElem_fin]

/-- The first byte above the ceiling is named. -/
theorem addBytes_of_head {byte : UInt8} (h : (above ceiling input).head? = some byte)
    (tally : Tally (ceiling.toNat + 1)) :
    addBytes ceiling input tally = .error (.symbolAboveCeiling byte ceiling) := by
  induction input generalizing tally with
  | nil => simp [above] at h
  | cons head rest ih =>
    rw [addBytes]
    by_cases hhead : head ≤ ceiling
    · rw [above, List.filter_cons_of_neg (by simpa using hhead)] at h
      rw [dif_pos hhead]
      exact ih h _
    · rw [above, List.filter_cons_of_pos (by simpa using hhead), List.head?_cons,
        Option.some.injEq] at h
      rw [dif_neg hhead, h]

/-! ### Counting in stripes -/

theorem Stripes.getElem_merge (stripes : Stripes) {i : ℕ} (hi : i < 256) :
    stripes.merge[i] =
      stripes.first[i] + stripes.second[i] + stripes.third[i] + stripes.fourth[i] := by
  simp [merge]

/-- **Striped counting.** Which stripe a byte goes to does not matter for the merged tally. -/
theorem Stripes.merge_deal (input : List UInt8) (stripes : Stripes) {i : ℕ} (hi : i < 256) :
    (deal input stripes).merge[i] = stripes.merge[i] + occurrences input i := by
  fun_induction deal input stripes with
  | case1 a b c d rest first second third fourth ih =>
    rw [ih, getElem_merge, getElem_merge]
    simp only [Tally.bumpByte, Tally.getElem_bump, occurrences_cons]
    omega
  | case2 rest first second third fourth hshort =>
    rw [getElem_merge, getElem_merge]
    simp only [Tally.getElem_foldl_bumpByte]
    omega

theorem getElem_merge_deal_zero (input : List UInt8) {i : ℕ} (hi : i < 256) :
    (Stripes.deal input Stripes.zero).merge[i] = occurrences input i := by
  rw [Stripes.merge_deal, Stripes.getElem_merge]
  simp [Stripes.zero, Tally.zero]

/-- No byte above the ceiling: the stripes agree with a direct count. -/
theorem tallyStriped_of_le (h : ∀ byte ∈ input, byte ≤ ceiling) :
    tallyStriped input ceiling = .ok (Vector.ofFn fun symbol => occurrences input symbol) := by
  have hnone : ((Stripes.deal input Stripes.zero).merge.toList.drop
      (ceiling.toNat + 1)).findIdx? (0 < ·) = none := by
    rw [List.findIdx?_eq_none_iff]
    intro count hmem
    obtain ⟨i, hi, rfl⟩ := List.mem_iff_getElem.mp hmem
    rw [List.length_drop, Vector.length_toList] at hi
    have hsymbol : ceiling.toNat + 1 + i < 256 := by omega
    rw [List.getElem_drop, Vector.getElem_toList, getElem_merge_deal_zero input hsymbol]
    refine decide_eq_false ?_
    intro hpos
    obtain ⟨byte, hbyte, heq⟩ := (occurrences_pos_iff input _).mp hpos
    have := UInt8.le_iff_toNat_le.mp (h byte hbyte)
    omega
  unfold tallyStriped
  simp only [hnone]
  refine congrArg Except.ok (congrArg Vector.ofFn ?_)
  funext symbol
  exact getElem_merge_deal_zero input (Nat.lt_of_lt_of_le symbol.isLt ceiling.toNat_lt)

/-- The smallest byte above the ceiling is named. -/
theorem tallyStriped_of_min {byte : UInt8} (h : (above ceiling input).min? = some byte) :
    tallyStriped input ceiling = .error (.symbolAboveCeiling byte ceiling) := by
  rw [List.min?_eq_some_iff] at h
  obtain ⟨hmem, hleast⟩ := h
  obtain ⟨hoccurs, habove⟩ := mem_above.mp hmem
  have hbyte := byte.toNat_lt
  rw [UInt8.lt_iff_toNat_lt] at habove
  have hfind : ((Stripes.deal input Stripes.zero).merge.toList.drop
      (ceiling.toNat + 1)).findIdx? (0 < ·) = some (byte.toNat - (ceiling.toNat + 1)) := by
    rw [List.findIdx?_eq_some_iff_getElem]
    refine ⟨by rw [List.length_drop, Vector.length_toList]; omega, ?_, ?_⟩
    · have hindex : ceiling.toNat + 1 + (byte.toNat - (ceiling.toNat + 1)) < 256 := by omega
      rw [List.getElem_drop, Vector.getElem_toList, getElem_merge_deal_zero input hindex,
        Nat.add_sub_cancel' habove, decide_eq_true_eq]
      exact (occurrences_pos_iff input _).mpr ⟨byte, hoccurs, rfl⟩
    · intro j hj hpos
      have hindex : ceiling.toNat + 1 + j < 256 := by omega
      rw [List.getElem_drop, Vector.getElem_toList, getElem_merge_deal_zero input hindex,
        decide_eq_true_eq] at hpos
      -- a count between the ceiling and the byte would be that of a smaller byte above
      obtain ⟨other, hother, heq⟩ := (occurrences_pos_iff input _).mp hpos
      have hlt : ceiling < other := UInt8.lt_iff_toNat_lt.mpr (by omega)
      have hle := UInt8.le_iff_toNat_le.mp (hleast other (mem_above.mpr ⟨hother, hlt⟩))
      omega
  unfold tallyStriped
  simp only [hfind, Nat.add_sub_cancel' habove, Nat.toUInt8_eq, UInt8.ofNat_toNat]

/-! ### Trimming -/

/-- Trimming takes zeros away, and puts one back if nothing else is left. -/
theorem exists_append_zero_eq (counts : List ℕ) :
    ∃ k, counts ++ [0] = trim counts ++ List.replicate k 0 := by
  have hsplit := List.takeWhile_append_dropWhile (p := fun n : ℕ => n == 0) (l := counts.reverse)
  have hzeros : ∀ n ∈ (counts.reverse.takeWhile (· == 0)).reverse, n = 0 := by
    intro n hmem
    have hzero := List.mem_takeWhile_imp (List.mem_reverse.mp hmem)
    exact beq_iff_eq.mp hzero
  have hcounts : counts = (counts.reverse.dropWhile (· == 0)).reverse ++
      (counts.reverse.takeWhile (· == 0)).reverse := by
    rw [← List.reverse_append, hsplit, List.reverse_reverse]
  rw [List.eq_replicate_of_mem hzeros] at hcounts
  rw [trim]
  generalize (counts.reverse.takeWhile (· == 0)).reverse.length = k at hcounts
  split
  · rename_i hkept
    rw [hkept, List.nil_append] at hcounts
    exact ⟨k, by rw [hcounts, ← List.replicate_succ', List.replicate_succ]; rfl⟩
  · refine ⟨k + 1, ?_⟩
    rw [List.replicate_succ', ← List.append_assoc, ← hcounts]

theorem getD_append_zeros (counts : List ℕ) (k i : ℕ) :
    (counts ++ List.replicate k 0).getD i 0 = counts.getD i 0 := by
  by_cases hi : i < counts.length
  · exact List.getD_append counts _ 0 i hi
  · have hle : counts.length ≤ i := by omega
    rw [List.getD_append_right counts _ 0 i hle, List.getD_eq_default counts 0 hle]
    rw [List.getD_eq_getElem?_getD, List.getElem?_replicate]
    split <;> rfl

/-- Trimming leaves every count as it is. -/
theorem getD_trim (counts : List ℕ) (i : ℕ) : (trim counts).getD i 0 = counts.getD i 0 := by
  obtain ⟨k, hk⟩ := exists_append_zero_eq counts
  rw [← getD_append_zeros (trim counts) k, ← hk]
  exact getD_append_zeros counts 1 i

/-! ### The histogram of an input -/

/-- The counts of a histogram are the numbers of occurrences in an input. -/
def Counts (histogram : Histogram) (input : List UInt8) : Prop :=
  ∀ symbol, histogram.counts.getD symbol 0 = occurrences input symbol

theorem counts_ofTally {n : ℕ} {tally : Tally n} (hn : n ≤ 256)
    (htally : ∀ symbol : Fin n, tally[symbol] = occurrences input symbol)
    (hinput : ∀ byte ∈ input, byte.toNat < n) : (ofTally tally hn).Counts input := by
  intro symbol
  rw [ofTally, getD_trim, List.getD_eq_getElem?_getD, Vector.getElem?_toList]
  by_cases hsymbol : symbol < n
  · rw [Vector.getElem?_eq_getElem hsymbol]
    exact htally ⟨symbol, hsymbol⟩
  · rw [Vector.getElem?_eq_none (by omega)]
    refine (Nat.eq_zero_of_not_pos fun hpos => hsymbol ?_).symm
    obtain ⟨byte, hmem, rfl⟩ := (occurrences_pos_iff input symbol).mp hpos
    exact hinput byte hmem

/-- **The histogram of an input**, where no byte lies above the ceiling. -/
theorem exists_ofBytes (h : ∀ byte ∈ input, byte ≤ ceiling) :
    ∃ histogram, ofBytes input ceiling = .ok histogram ∧ histogram.Counts input := by
  have hinput : ∀ byte ∈ input, byte.toNat < ceiling.toNat + 1 := by
    intro byte hmem
    exact Nat.lt_succ_of_le (UInt8.le_iff_toNat_le.mp (h byte hmem))
  have hboth : ofBytes input ceiling =
      .ok (ofTally (Vector.ofFn fun symbol : Fin (ceiling.toNat + 1) =>
        occurrences input symbol) ceiling.toNat_lt) := by
    rw [ofBytes, tallyStriped_of_le h, tallyDirect, addBytes_of_le h]
    split <;> simp [Tally.zero, bind, Except.bind, pure, Except.pure]
  exact ⟨_, hboth, counts_ofTally ceiling.toNat_lt (by simp) hinput⟩

/-- A byte above the ceiling is named. -/
theorem exists_ofBytes_error (h : ∃ byte ∈ input, ceiling < byte) :
    ∃ byte ∈ input, ceiling < byte ∧
      ofBytes input ceiling = .error (.symbolAboveCeiling byte ceiling) := by
  have hne : above ceiling input ≠ [] := by
    obtain ⟨byte, hmem, hlt⟩ := h
    exact List.ne_nil_of_mem (mem_above.mpr ⟨hmem, hlt⟩)
  by_cases hlength : input.length < stripedLength
  · obtain ⟨byte, hhead⟩ := Option.ne_none_iff_exists'.mp (mt List.head?_eq_none_iff.mp hne)
    obtain ⟨hmem, hlt⟩ := mem_above.mp (List.mem_of_head? hhead)
    refine ⟨byte, hmem, hlt, ?_⟩
    rw [ofBytes, if_pos hlength, tallyDirect, addBytes_of_head hhead]
    rfl
  · obtain ⟨byte, hmin⟩ := Option.ne_none_iff_exists'.mp (mt List.min?_eq_none_iff.mp hne)
    obtain ⟨hmem, hlt⟩ := mem_above.mp (List.min?_mem hmin)
    refine ⟨byte, hmem, hlt, ?_⟩
    rw [ofBytes, if_neg hlength, tallyStriped_of_min hmin]
    rfl

namespace Counts

variable {histogram histogram' : Histogram} {input' : List UInt8}

theorem toNat_lt (h : histogram.Counts input) {byte : UInt8} (hmem : byte ∈ input) :
    byte.toNat < histogram.counts.length := by
  by_contra hle
  have hpos := (occurrences_pos_iff input byte.toNat).mpr ⟨byte, hmem, rfl⟩
  rw [← h byte.toNat, List.getD_eq_default _ _ (by omega)] at hpos
  exact absurd hpos (Nat.lt_irrefl 0)

theorem counts_eq (h : histogram.Counts input) :
    histogram.counts = (List.range histogram.counts.length).map (occurrences input) := by
  refine List.ext_getElem (by simp) ?_
  intro symbol hsymbol _
  rw [List.getElem_map, List.getElem_range, ← h symbol, List.getD_eq_getElem _ _ hsymbol]

/-- No symbol occurs more often than the input is long. -/
theorem le_length (h : histogram.Counts input) {count : ℕ} (hmem : count ∈ histogram.counts) :
    count ≤ input.length := by
  rw [h.counts_eq] at hmem
  obtain ⟨symbol, -, rfl⟩ := List.mem_map.mp hmem
  rw [← List.length_map UInt8.toNat]
  exact List.count_le_length

/-- **A histogram ends at the largest byte**, or at zero if no byte occurs. -/
theorem length_eq (h : histogram.Counts input) :
    histogram.counts.length = largestByte input + 1 := by
  have hpos := List.length_pos_iff.mpr histogram.counts_ne_nil
  refine Nat.le_antisymm ?_ ?_
  · rcases histogram.trimmed with hzero | hlast
    · rw [hzero, List.length_singleton]
      omega
    · -- the last count is that of a byte
      have hcount : 0 < occurrences input (histogram.counts.length - 1) := by
        rw [← h, List.getD_eq_getElem _ _ (by omega)]
        refine Nat.pos_of_ne_zero fun hzero => hlast ?_
        rw [List.getLast?_eq_getElem?, List.getElem?_eq_getElem (by omega), hzero]
      obtain ⟨byte, hmem, heq⟩ := (occurrences_pos_iff input _).mp hcount
      have := toNat_le_largestByte hmem
      omega
  · have hlargest : largestByte input < histogram.counts.length :=
      (Finset.sup_lt_iff hpos).mpr fun byte hmem => h.toNat_lt (List.mem_toFinset.mp hmem)
    omega

/-- **Counts determine a histogram.** -/
theorem unique (h : histogram.Counts input) (h' : histogram'.Counts input) :
    histogram = histogram' := by
  have hcounts : histogram.counts = histogram'.counts := by
    rw [h.counts_eq, h'.counts_eq, h.length_eq, h'.length_eq]
  cases histogram
  cases histogram'
  simp only at hcounts
  subst hcounts
  rfl

/-- The order of an input does not count. -/
theorem of_perm (h : histogram.Counts input) (hperm : input.Perm input') :
    histogram.Counts input' := by
  intro symbol
  rw [h symbol, occurrences, occurrences, (hperm.map UInt8.toNat).count_eq]

/-- Every byte is counted once. -/
theorem total_eq (h : histogram.Counts input) : histogram.total = input.length := by
  have hmem : ∀ symbol ∈ (input.map UInt8.toNat : Multiset ℕ),
      symbol ∈ Finset.range histogram.counts.length := by
    intro symbol hsymbol
    obtain ⟨byte, hbyte, rfl⟩ := List.mem_map.mp (Multiset.mem_coe.mp hsymbol)
    exact Finset.mem_range.mpr (h.toNat_lt hbyte)
  calc histogram.total
      = ((List.range histogram.counts.length).map (occurrences input)).sum :=
        congrArg List.sum h.counts_eq
    _ = ∑ symbol ∈ Finset.range histogram.counts.length,
          (input.map UInt8.toNat : Multiset ℕ).count symbol := by
        simp only [Multiset.coe_count]
        rfl
    _ = (input.map UInt8.toNat : Multiset ℕ).card := Multiset.sum_count_eq_card hmem
    _ = input.length := by simp

/-- The nonzero counts are those of the bytes that occur. -/
theorem distinct_eq (h : histogram.Counts input) :
    histogram.distinct = input.toFinset.card := by
  have hpresent : ((Finset.range histogram.counts.length).filter fun symbol =>
      0 < occurrences input symbol) = input.toFinset.image UInt8.toNat := by
    ext symbol
    rw [Finset.mem_filter, occurrences_pos_iff, Finset.mem_image, Finset.mem_range]
    constructor
    · rintro ⟨-, byte, hmem, rfl⟩
      exact ⟨byte, List.mem_toFinset.mpr hmem, rfl⟩
    · rintro ⟨byte, hmem, rfl⟩
      have hbyte := List.mem_toFinset.mp hmem
      exact ⟨h.toNat_lt hbyte, byte, hbyte, rfl⟩
  calc histogram.distinct
      = ((List.range histogram.counts.length).map (occurrences input)).countP (0 < ·) :=
        congrArg (List.countP fun count : ℕ => 0 < count) h.counts_eq
    _ = ((Finset.range histogram.counts.length).filter fun symbol =>
          0 < occurrences input symbol).card := by
        rw [List.countP_map, List.countP_eq_length_filter]
        rfl
    _ = input.toFinset.card := by
        rw [hpresent]
        refine Finset.card_image_of_injective _ ?_
        intro byte byte' heq
        exact UInt8.toNat_inj.mp heq

end Counts

end Histogram

end FiniteStateEntropy
