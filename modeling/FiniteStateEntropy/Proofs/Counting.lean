import FiniteStateEntropy.Proofs.Histogram

/-!
# Where the two ways to count differ

Counting directly and counting in stripes give the same tally for every input without a byte above
the ceiling, whatever its length. With such bytes both refuse, but for different ones: a direct
count stops at the first byte above, and a striped count, which looks at the ceiling when it has
counted everything, comes to the smallest one first. Of the bytes above, listed in the order of the
input, one way names the head and the other the minimum, and that is all the difference there is.

The choice between the two is made by the length of the input alone, so it never shows in a
histogram. `Histogram.IsHistogramOf` says what a histogram is without either of them.

## Main definitions

* `Histogram.counted`: what counting comes to, by the byte that is named
* `Histogram.IsHistogramOf`: the counts that an input has

## Main results

* `Histogram.tallyDirect_eq`, `Histogram.tallyStriped_eq`: the two ways to count
* `Histogram.tallyStriped_eq_tallyDirect_iff`: when they agree
* `Histogram.ofBytes_counts_occurrences`: the outcome of counting, by either way
-/

namespace FiniteStateEntropy

namespace Histogram

variable {ceiling : UInt8} {input : List UInt8}

/-! ### The two ways to count -/

/-- What counting comes to: a refusal that names a byte, or the numbers of occurrences. -/
def counted (ceiling : UInt8) (input : List UInt8) :
    Option UInt8 → Except Error (Tally (ceiling.toNat + 1))
  | some byte => .error (.symbolAboveCeiling byte ceiling)
  | none => .ok (Vector.ofFn fun symbol => occurrences input symbol)

/-- Which byte is named is all that can differ. -/
theorem counted_injective (ceiling : UInt8) (input : List UInt8) :
    Function.Injective (counted ceiling input) := by
  intro named named' h
  cases named <;> cases named' <;> simp_all [counted]

/-- **Direct counting** names the first byte above the ceiling. -/
theorem tallyDirect_eq (ceiling : UInt8) (input : List UInt8) :
    tallyDirect input ceiling = counted ceiling input (above ceiling input).head? := by
  cases hhead : (above ceiling input).head? with
  | some byte => rw [tallyDirect, addBytes_of_head hhead, counted]
  | none =>
    rw [tallyDirect, addBytes_of_le (above_eq_nil_iff.mp (List.head?_eq_none_iff.mp hhead)),
      counted]
    simp [Tally.zero]

/-- **Striped counting** names the smallest byte above the ceiling. -/
theorem tallyStriped_eq (ceiling : UInt8) (input : List UInt8) :
    tallyStriped input ceiling = counted ceiling input (above ceiling input).min? := by
  cases hmin : (above ceiling input).min? with
  | some byte => rw [tallyStriped_of_min hmin, counted]
  | none =>
    rw [tallyStriped_of_le (above_eq_nil_iff.mp (List.min?_eq_none_iff.mp hmin)), counted]

/-- The first of some bytes is the smallest one where no other is smaller. -/
theorem min?_eq_head?_iff {bytes : List UInt8} :
    bytes.min? = bytes.head? ↔ ∀ first ∈ bytes.head?, ∀ byte ∈ bytes, first ≤ byte := by
  cases bytes with
  | nil => simp
  | cons first rest =>
    rw [List.head?_cons, List.min?_eq_some_iff]
    simp

/-- **When the two ways to count agree**: where no byte lies above the ceiling, and where the first
that does is also the smallest. Otherwise both refuse, and they name different bytes. -/
theorem tallyStriped_eq_tallyDirect_iff (ceiling : UInt8) (input : List UInt8) :
    tallyDirect input ceiling = counted ceiling input (above ceiling input).head? ∧
      tallyStriped input ceiling = counted ceiling input (above ceiling input).min? ∧
      (tallyStriped input ceiling = tallyDirect input ceiling ↔
        ∀ first ∈ (above ceiling input).head?, ∀ byte ∈ above ceiling input, first ≤ byte) := by
  refine ⟨tallyDirect_eq ceiling input, tallyStriped_eq ceiling input, ?_⟩
  rw [tallyDirect_eq, tallyStriped_eq, (counted_injective ceiling input).eq_iff,
    min?_eq_head?_iff]

/-- Two bytes above the ceiling, the greater one first, in an input just long enough for stripes. -/
def descending : List UInt8 := 9 :: 8 :: List.replicate 1498 0

/-- Counting in stripes names the second of them. -/
theorem tallyStriped_ne_tallyDirect_descending :
    tallyDirect descending 7 = .error (.symbolAboveCeiling 9 7) ∧
      tallyStriped descending 7 = .error (.symbolAboveCeiling 8 7) ∧
      ofBytes descending 7 = .error (.symbolAboveCeiling 8 7) ∧
      tallyStriped descending 7 ≠ tallyDirect descending 7 := by
  have habove : above 7 descending = [9, 8] := by decide +kernel
  have hdirect : tallyDirect descending 7 = .error (.symbolAboveCeiling 9 7) := by
    rw [tallyDirect_eq, habove]
    rfl
  have hstriped : tallyStriped descending 7 = .error (.symbolAboveCeiling 8 7) := by
    rw [tallyStriped_eq, habove]
    rfl
  have hlong : ¬ descending.length < stripedLength := by decide +kernel
  refine ⟨hdirect, hstriped, ?_, ?_⟩
  · rw [ofBytes, if_neg hlong, hstriped]
    rfl
  · rw [hdirect, hstriped]
    decide

/-! ### The histogram of an input -/

/-- The counts that an input has, in a list that ends at its largest byte. -/
structure IsHistogramOf (histogram : Histogram) (input : List UInt8) : Prop where
  /-- There is one count for each symbol up to the largest byte, the number of its occurrences. -/
  counts_eq : histogram.counts = (List.range (largestByte input + 1)).map (occurrences input)
  /-- The last symbol is the largest byte. -/
  maxSymbol_eq : histogram.maxSymbol.toNat = largestByte input
  /-- The counts add up to the length of the input. -/
  total_eq : histogram.total = input.length
  /-- The nonzero counts are as many as the input has different bytes. -/
  distinct_eq : histogram.distinct = input.toFinset.card

theorem largestByte_lt (input : List UInt8) : largestByte input < 256 :=
  (Finset.sup_lt_iff (by decide)).mpr fun byte _ => byte.toNat_lt

namespace Counts

variable {histogram : Histogram}

theorem isHistogramOf (h : histogram.Counts input) : histogram.IsHistogramOf input where
  counts_eq := by rw [← h.length_eq, ← h.counts_eq]
  maxSymbol_eq := by
    rw [maxSymbol, h.length_eq, Nat.add_sub_cancel, Nat.toUInt8_eq, UInt8.toNat_ofNat']
    exact Nat.mod_eq_of_lt (largestByte_lt input)
  total_eq := h.total_eq
  distinct_eq := h.distinct_eq

end Counts

/-- An input that has a histogram has no byte above the ceiling. -/
theorem le_of_ofBytes {histogram : Histogram} (h : ofBytes input ceiling = .ok histogram) :
    ∀ byte ∈ input, byte ≤ ceiling := by
  intro byte hmem
  refine UInt8.not_lt.mp fun hlt => ?_
  obtain ⟨_, -, -, herror⟩ := exists_ofBytes_error ⟨byte, hmem, hlt⟩
  rw [herror] at h
  cases h

theorem ofBytes_eq (ceiling : UInt8) (input : List UInt8) :
    ofBytes input ceiling = (if input.length < stripedLength then tallyDirect input ceiling
      else tallyStriped input ceiling).map (ofTally · ceiling.toNat_lt) := by
  rw [ofBytes]
  split
  · cases tallyDirect input ceiling <;> rfl
  · cases tallyStriped input ceiling <;> rfl

/-- **Either way to count gives the histogram**, where no byte lies above the ceiling. -/
theorem map_ofTally_eq (h : ∀ byte ∈ input, byte ≤ ceiling) :
    (tallyDirect input ceiling).map (ofTally · ceiling.toNat_lt) = ofBytes input ceiling ∧
      (tallyStriped input ceiling).map (ofTally · ceiling.toNat_lt) = ofBytes input ceiling := by
  have hagree : tallyStriped input ceiling = tallyDirect input ceiling := by
    rw [tallyDirect_eq, tallyStriped_eq, above_eq_nil_iff.mpr h]
    rfl
  rw [ofBytes_eq, hagree, ite_self]
  exact ⟨rfl, rfl⟩

/-- **The outcome of counting.** An input has a histogram exactly if no byte lies above the ceiling,
and is refused for a byte of its own otherwise. The histogram has what the input has of every
symbol, in counts that fit 32 bits, and it is the same by either way to count and for every order of
the bytes. -/
theorem ofBytes_counts_occurrences (hlength : input.length < 2 ^ 32) (ceiling : UInt8) :
    ((∃ histogram, ofBytes input ceiling = .ok histogram) ↔ ∀ byte ∈ input, byte ≤ ceiling) ∧
      ((∃ byte ∈ input, ceiling < byte) → ∃ byte ∈ input, ceiling < byte ∧
        ofBytes input ceiling = .error (.symbolAboveCeiling byte ceiling)) ∧
      ∀ histogram, ofBytes input ceiling = .ok histogram →
        histogram.IsHistogramOf input ∧ (∀ count ∈ histogram.counts, count < 2 ^ 32) ∧
          (tallyDirect input ceiling).map (ofTally · ceiling.toNat_lt) = .ok histogram ∧
          (tallyStriped input ceiling).map (ofTally · ceiling.toNat_lt) = .ok histogram ∧
          ∀ ordering : List UInt8, ordering.Perm input →
            ofBytes ordering ceiling = .ok histogram := by
  refine ⟨⟨?_, ?_⟩, exists_ofBytes_error, ?_⟩
  · rintro ⟨histogram, hhistogram⟩
    exact le_of_ofBytes hhistogram
  · intro h
    obtain ⟨histogram, hhistogram, -⟩ := exists_ofBytes h
    exact ⟨histogram, hhistogram⟩
  · intro histogram hhistogram
    have hceiling := le_of_ofBytes hhistogram
    obtain ⟨hdirect, hstriped⟩ := map_ofTally_eq hceiling
    obtain ⟨counted, hcounted, hcounts⟩ := exists_ofBytes hceiling
    obtain rfl : counted = histogram := Except.ok.inj (hcounted.symm.trans hhistogram)
    refine ⟨hcounts.isHistogramOf, ?_, hdirect.trans hcounted, hstriped.trans hcounted, ?_⟩
    · intro count hmem
      exact Nat.lt_of_le_of_lt (hcounts.le_length hmem) hlength
    · intro ordering hperm
      obtain ⟨other, hother, hcounts'⟩ :=
        exists_ofBytes fun byte hmem => hceiling byte (hperm.mem_iff.mp hmem)
      rw [hother, hcounts'.unique (hcounts.of_perm hperm.symm)]

/-- Stripes that end with both bytes of a pair, under a ceiling between and one above them. -/
theorem ofBytes_counts_occurrences_descending :
    descending.length < 2 ^ 32 ∧
      (∃ byte ∈ descending, 7 < byte ∧
        ofBytes descending 7 = .error (.symbolAboveCeiling byte 7)) ∧
      ∃ histogram, ofBytes descending 9 = .ok histogram ∧
        histogram.counts = [1498, 0, 0, 0, 0, 0, 0, 0, 1, 1] ∧ histogram.distinct = 3 ∧
        ofBytes descending.reverse 9 = .ok histogram := by
  have hlength : descending.length < 2 ^ 32 := by decide +kernel
  have hbelow : ∀ byte ∈ descending, byte ≤ 9 := by decide +kernel
  have hbytes : descending.toFinset = {9, 8, 0} := by
    rw [descending, List.toFinset_cons, List.toFinset_cons,
      List.toFinset_replicate_of_ne_zero (by decide)]
  have hoccurs : occurrences descending = fun symbol => (if 9 = symbol then 1 else 0) +
      ((if 8 = symbol then 1 else 0) + if 0 = symbol then 1498 else 0) := by
    funext symbol
    rw [descending, occurrences_cons, occurrences_cons, occurrences, List.map_replicate,
      List.count_replicate]
    simp only [beq_iff_eq]
    rfl
  obtain ⟨-, hrefused, -⟩ := ofBytes_counts_occurrences hlength 7
  obtain ⟨hcounted, -, hcounts⟩ := ofBytes_counts_occurrences hlength 9
  obtain ⟨histogram, hhistogram⟩ := hcounted.mpr hbelow
  obtain ⟨his, -, -, -, horder⟩ := hcounts histogram hhistogram
  refine ⟨hlength, hrefused ⟨9, List.mem_cons_self, by decide⟩, histogram, hhistogram, ?_, ?_,
    horder _ (List.reverse_perm _)⟩
  · rw [his.counts_eq, largestByte, hbytes]
    simp only [hoccurs]
    decide
  · rw [his.distinct_eq, hbytes]
    rfl

end Histogram

end FiniteStateEntropy
