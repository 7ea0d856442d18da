import FiniteStateEntropy.Proofs.BlockContents
import FiniteStateEntropy.Proofs.Positions
import Mathlib.Analysis.SpecialFunctions.Log.Base

/-!
# How long a stream is

A symbol with a given part of the slots carries so many bits of information, the binary logarithm
of the inverse of that part, and an encoder spends that many bits on it up to rounding. Which way it
rounds depends on the state it is in, so the same symbol may cost one bit more at one position than
at another; a symbol whose slots are a power of two costs the same everywhere.

None of this looks at how an encoder finds the number of bits. Whatever number it finds brings a
state into the range of ranks of the symbol, states lie within a factor of two of the size of the
table, and so do ranks of the slots: that leaves no number that is off by a whole bit.

A stream is as many bytes as these bits need, together with two states and the end mark.

## Main definitions

* `Distribution.information`: the bits of information of a symbol
* `Distribution.Rounds`: a number of bits is the information of a symbol, rounded
* `Stream.Plain.symbolWidths`: the bits spent on the symbols of an input
* `Stream.Measures`: what the bits of a stream are spent on

## Main results

* `Distribution.abs_widthFrom_sub_information_lt`: an encoder is never off by a bit
* `Stream.exists_measures`: the length of a stream
* `Block.length_le`: a bound for the length of a block
* `Stream.length_by_information`: both together
-/

namespace FiniteStateEntropy

/-! ### Information -/

namespace Distribution

/-- The information of a symbol, in bits. -/
noncomputable def information (distribution : Distribution) (symbol : UInt8) : ℝ :=
  Real.logb 2 (distribution.size / distribution.slots symbol.toNat)

/-- A number of bits is the information of a symbol, rounded down or up. -/
structure Rounds (distribution : Distribution) (symbol : UInt8) (width : ℕ) : Prop where
  /-- It is off by less than a bit. -/
  eq_floor_or_ceil : (width : ℤ) = ⌊distribution.information symbol⌋ ∨
    (width : ℤ) = ⌈distribution.information symbol⌉
  /-- There is nothing to round if the slots are a power of two. -/
  eq_of_two_pow : ∀ k, distribution.slots symbol.toNat = 2 ^ k →
    (width : ℝ) = distribution.information symbol

variable {distribution : Distribution} {symbol : UInt8} {state : ℕ}

/-- Slots that are a power of two. -/
theorem information_of_two_pow {k : ℕ} (h : distribution.slots symbol.toNat = 2 ^ k) :
    distribution.information symbol = distribution.tableLog - k := by
  rw [information, h, size, Nat.cast_pow, Nat.cast_pow, Nat.cast_ofNat,
    Real.logb_div (by positivity) (by positivity), Real.logb_pow, Real.logb_pow,
    Real.logb_self_eq_one (by norm_num), mul_one, mul_one]

/-- **An encoder is never off by a bit.** -/
theorem abs_widthFrom_sub_information_lt (hsymbol : distribution.slots symbol.toNat ≠ 0)
    (hstate : distribution.IsState state) :
    |(distribution.widthFrom symbol state : ℝ) - distribution.information symbol| < 1 := by
  obtain ⟨hlow, hhigh⟩ := rankFrom_bounds hsymbol hstate
  obtain ⟨hle, hlt⟩ := hstate
  rw [rankFrom] at hlow hhigh
  rw [information]
  generalize distribution.widthFrom symbol state = width at *
  rw [Nat.le_div_iff_mul_le (Nat.two_pow_pos width)] at hlow
  rw [Nat.div_lt_iff_lt_mul (Nat.two_pow_pos width)] at hhigh
  have hsize : distribution.size < 2 * distribution.slots symbol.toNat * 2 ^ width := by omega
  have hslots : distribution.slots symbol.toNat * 2 ^ width < 2 * distribution.size := by omega
  generalize distribution.slots symbol.toNat = slots at *
  have hpos : (0 : ℝ) < slots := Nat.cast_pos.mpr (Nat.pos_of_ne_zero hsymbol)
  have hratio : (0 : ℝ) < distribution.size / slots :=
    div_pos (Nat.cast_pos.mpr distribution.size_pos) hpos
  have hupper : Real.logb 2 (distribution.size / slots) < (width : ℝ) + 1 := by
    rw [Real.logb_lt_iff_lt_rpow (by norm_num) hratio, div_lt_iff₀ hpos, ← Nat.cast_add_one,
      Real.rpow_natCast]
    have hcast : ((distribution.size : ℕ) : ℝ) < ((2 * slots * 2 ^ width : ℕ) : ℝ) :=
      Nat.cast_lt.mpr hsize
    push_cast at hcast
    rw [pow_succ]
    linarith
  have hlower : (width : ℝ) - 1 < Real.logb 2 (distribution.size / slots) := by
    rw [Real.lt_logb_iff_rpow_lt (by norm_num) hratio, lt_div_iff₀ hpos,
      Real.rpow_sub (by norm_num), Real.rpow_natCast, Real.rpow_one]
    have hcast : ((slots * 2 ^ width : ℕ) : ℝ) < ((2 * distribution.size : ℕ) : ℝ) :=
      Nat.cast_lt.mpr hslots
    push_cast at hcast
    linarith
  rw [abs_sub_lt_iff]
  constructor
  · linarith
  · linarith

/-- **What an encoder spends is the information, rounded.** -/
theorem rounds_widthFrom (hsymbol : distribution.slots symbol.toNat ≠ 0)
    (hstate : distribution.IsState state) :
    distribution.Rounds symbol (distribution.widthFrom symbol state) := by
  have hclose := abs_widthFrom_sub_information_lt hsymbol hstate
  generalize distribution.widthFrom symbol state = width at hclose ⊢
  constructor
  · obtain ⟨hupper, hlower⟩ := abs_sub_lt_iff.mp hclose
    rcases le_or_gt (width : ℝ) (distribution.information symbol) with hle | hlt
    · left
      rw [eq_comm, Int.floor_eq_iff]
      exact ⟨by exact_mod_cast hle, by push_cast; linarith⟩
    · right
      rw [eq_comm, Int.ceil_eq_iff]
      exact ⟨by push_cast; linarith, by exact_mod_cast hlt.le⟩
  · intro k hk
    rw [information_of_two_pow hk] at hclose ⊢
    -- two whole numbers less than one apart
    have hint : |(width : ℤ) - (distribution.tableLog - k)| < 1 := by exact_mod_cast hclose
    have heq : (width : ℤ) = distribution.tableLog - k := by
      rw [Int.abs_lt_one_iff] at hint
      omega
    exact_mod_cast heq

theorem information_le_tableLog (distribution : Distribution) (symbol : UInt8) :
    distribution.information symbol ≤ distribution.tableLog := by
  by_cases hsymbol : distribution.slots symbol.toNat = 0
  · rw [information, hsymbol, Nat.cast_zero, div_zero, Real.logb_zero]
    exact Nat.cast_nonneg _
  · have hone : (1 : ℝ) ≤ distribution.slots symbol.toNat :=
      Nat.one_le_cast.mpr (Nat.one_le_iff_ne_zero.mpr hsymbol)
    have hsize : (0 : ℝ) < distribution.size := Nat.cast_pos.mpr distribution.size_pos
    calc distribution.information symbol ≤ Real.logb 2 distribution.size :=
          Real.logb_le_logb_of_le (by norm_num) (by positivity) (div_le_self hsize.le hone)
      _ = distribution.tableLog := by
          rw [size, Nat.cast_pow, Nat.cast_ofNat, Real.logb_pow,
            Real.logb_self_eq_one (by norm_num), mul_one]

theorem Rounds.le_tableLog {width : ℕ} (h : distribution.Rounds symbol width) :
    width ≤ distribution.tableLog := by
  have hceil : ⌈distribution.information symbol⌉ ≤ (distribution.tableLog : ℤ) :=
    Int.ceil_le.mpr (by exact_mod_cast distribution.information_le_tableLog symbol)
  have hfloor := Int.floor_le_ceil (distribution.information symbol)
  rcases h.eq_floor_or_ceil with hwidth | hwidth <;> omega

/-- No symbol costs more bits than a state has. -/
theorem sum_le_of_rounds {symbols : List UInt8} {widths : List ℕ}
    (h : List.Forall₂ distribution.Rounds symbols widths) :
    widths.sum ≤ symbols.length * distribution.tableLog := by
  induction h with
  | nil => exact Nat.zero_le _
  | cons hround _ ih =>
    have := hround.le_tableLog
    rw [List.sum_cons, List.length_cons, Nat.succ_mul]
    omega

end Distribution

/-! ### Streams -/

namespace Stream

variable {distribution : Distribution} {input : List UInt8}

/-- The bits of every symbol of an input but the last two, from the first symbol on. Behind the
fields of the symbols are those of the two states and of the end mark. -/
def Plain.symbolWidths (fields : List Plain.Field) : List ℕ :=
  (fields.map Plain.Field.width).reverse.drop 3

/-- What the bits of the stream of an input are spent on. -/
structure Measures (distribution : Distribution) (input : List UInt8) (fields : List Plain.Field)
    (stream : List UInt8) : Prop where
  /-- The fields are those of the input, position by position. -/
  fields_eq : Positional.fields distribution.encodeTable input = .ok fields
  /-- The stream is made of them. -/
  packs : Plain.Packs fields stream
  /-- Every symbol but the last two gets its information, rounded. -/
  rounds : List.Forall₂ distribution.Rounds (input.take (input.length - 2))
    (Plain.symbolWidths fields)
  /-- There is room for that, two states and the end mark, and less than a byte more. -/
  length_eq : stream.length =
    (2 * distribution.tableLog + 1 + (Plain.symbolWidths fields).sum + 7) / 8
  /-- Encoding appends the stream to whatever is there. -/
  encode_eq : ∀ out : Array UInt8,
    encode distribution.encodeTable input out = .ok (out ++ stream.toArray)

/-- **A run spends on every symbol its information, rounded.** -/
theorem Plain.rounds_symbolFields {symbols : List UInt8} {turn last : Plain.Turn}
    {fields : List Plain.Field}
    (hsymbols : ∀ symbol ∈ symbols, distribution.slots symbol.toNat ≠ 0)
    (hturn : turn.Sound distribution)
    (h : Plain.symbolFields distribution.encodeTable symbols turn = .ok (fields, last)) :
    List.Forall₂ distribution.Rounds symbols (fields.map Plain.Field.width) := by
  induction symbols generalizing turn fields with
  | nil =>
    cases h
    exact .nil
  | cons symbol symbols ih =>
    simp only [List.mem_cons, forall_eq_or_imp] at hsymbols
    obtain ⟨hsymbol, hrest⟩ := hsymbols
    rw [symbolFields_cons hsymbol hturn.now, exceptMap_eq_ok_iff] at h
    obtain ⟨⟨found, last'⟩, hfound, heq⟩ := h
    cases heq
    exact .cons (Distribution.rounds_widthFrom hsymbol hturn.now)
      (ih hrest (hturn.next hsymbol) hfound)

/-- **The length of a stream.** -/
theorem measures_of_encode {stream : List UInt8} (hlength : 2 ≤ input.length)
    (hinput : ∀ symbol ∈ input, distribution.slots symbol.toNat ≠ 0)
    (h : Plain.encode distribution.encodeTable input = .ok stream) :
    ∃ fields, Measures distribution input fields stream := by
  obtain ⟨last, before, rest, hreverse, hlast, hbefore, hrest⟩ := exists_reverse_eq hlength hinput
  have hsound := sound_seeded hlast hbefore
  obtain ⟨turn, bits, ⟨fields, hfields, -⟩, -⟩ := Plain.exists_emits hrest hsound
  have hplain := Plain.fields_of_symbolFields hreverse hlast hbefore hfields
  have htake : input.take (input.length - 2) = rest.reverse := by
    rw [← List.reverse_reverse input, hreverse]
    simp
  have hwidths : Plain.symbolWidths (fields ++ [⟨turn.now, distribution.tableLog⟩,
      ⟨turn.other, distribution.tableLog⟩, ⟨1, 1⟩]) =
      (fields.map Plain.Field.width).reverse := by
    rw [Plain.symbolWidths]
    simp
  rw [Plain.encode, hplain] at h
  cases h
  refine ⟨_, (Positional.fields_eq_plain _ hlength).trans hplain, Plain.packs_toBytes _, ?_, ?_, ?_⟩
  · rw [htake, hwidths, List.forall₂_reverse_iff]
    exact Plain.rounds_symbolFields hrest hsound hfields
  · rw [(Plain.packs_toBytes _).length_eq, hwidths]
    simp only [List.map_append, List.map_cons, List.map_nil, List.sum_append, List.sum_cons,
      List.sum_nil, List.sum_reverse]
    congr 1
    omega
  · obtain ⟨stream, hstream, hencode⟩ := exists_encode hlength hinput
    rw [Plain.encode, hplain] at hstream
    cases hstream
    exact hencode

/-- The two symbols that are not encoded would cost no more than the states that are written. -/
theorem Measures.length_le {fields : List Plain.Field} {stream : List UInt8}
    (h : Measures distribution input fields stream) (hlength : 2 ≤ input.length) :
    stream.length ≤ (input.length * distribution.tableLog + 1 + 7) / 8 := by
  have hwidths : (Plain.symbolWidths fields).sum ≤
      (input.length - 2) * distribution.tableLog := by
    have hsum := Distribution.sum_le_of_rounds h.rounds
    rwa [List.length_take_of_le (Nat.sub_le _ _)] at hsum
  have hsplit : (input.length - 2) * distribution.tableLog + 2 * distribution.tableLog =
      input.length * distribution.tableLog := by
    rw [← Nat.add_mul, Nat.sub_add_cancel hlength]
  rw [h.length_eq]
  refine Nat.div_le_div_right ?_
  omega

end Stream

/-- **A bound for the length of a block**: three bytes for every different byte of the input, and
a state for every byte of it. -/
theorem Block.length_le {limits : Limits} {input block : List UInt8}
    (h : compress limits input = .ok block) :
    ∃ header offset, Header.read block = .ok (header, offset) ∧
      block.length ≤ 6 + 3 * input.toFinset.card +
        (input.length * header.distribution.tableLog + 1 + 7) / 8 := by
  obtain ⟨-, hlength, -, -, hcount⟩ := accepted_of_compress h
  obtain ⟨histogram, distribution, written, stream, hcontents⟩ := exists_contents h
  obtain ⟨fields, hmeasures⟩ := Stream.measures_of_encode hlength
    (fun byte hmem => (hcontents.divides.slots_ne_zero_iff byte).mpr hmem) hcontents.stream_eq
  refine ⟨_, _, hcontents.read_eq hlength hcount, ?_⟩
  have hstream := hmeasures.length_le hlength
  have hwritten : written.length ≤ 6 + 3 * input.toFinset.card := by
    rw [Header.length_bytes hcontents.written_eq, hcontents.divides.presence_eq, Nat.mul_comm 3]
    refine Nat.add_le_add_left (Nat.mul_le_mul_left _ ?_) 6
    split <;> decide
  rw [hcontents.block_eq, List.length_append]
  exact Nat.add_le_add hwritten hstream

namespace Stream

/-- **The length of a stream is the information in it**, each symbol's rounded to whole bits, with
two states and the end mark, in whole bytes. A block is therefore never much longer than one state
for each byte of the input. -/
theorem length_by_information :
    (∀ (distribution : Distribution) (input : List UInt8), 2 ≤ input.length →
      (∀ symbol ∈ input, distribution.slots symbol.toNat ≠ 0) →
      ∃ fields stream, Measures distribution input fields stream) ∧
    ∀ (limits : Limits) (input block : List UInt8), compress limits input = .ok block →
      ∃ header offset, Header.read block = .ok (header, offset) ∧
        block.length ≤ 6 + 3 * input.toFinset.card +
          (input.length * header.distribution.tableLog + 1 + 7) / 8 := by
  constructor
  · intro distribution input hlength hinput
    obtain ⟨stream, hstream, -⟩ := exists_encode hlength hinput
    obtain ⟨fields, hmeasures⟩ := measures_of_encode hlength hinput hstream
    exact ⟨fields, stream, hmeasures⟩
  · intro limits input block h
    exact Block.length_le h

/-- The symbol `0` has twenty of thirty-two slots, and its bit is more than its information. The
symbol `3` has eleven, and its bit is less. The symbol `1` is rare and takes a whole state. -/
theorem length_by_information_skewed :
    (∃ fields, Measures Distribution.skewed [0, 3, 1, 0, 3] fields [195, 54, 3] ∧
      Plain.symbolWidths fields = [1, 1, 5]) ∧
      ∃ header offset, Header.read Block.rareBlock = .ok (header, offset) ∧
        Block.rareBlock.length ≤ 6 + 3 * Block.rareInput.toFinset.card +
          (Block.rareInput.length * header.distribution.tableLog + 1 + 7) / 8 := by
  obtain ⟨hstreams, hblocks⟩ := length_by_information
  refine ⟨?_, hblocks _ _ _ Block.compress_rareInput⟩
  obtain ⟨fields, stream, hmeasures⟩ :=
    hstreams Distribution.skewed [0, 3, 1, 0, 3] (by decide) (by decide +kernel)
  have hfields : Positional.fields Distribution.skewed.encodeTable [0, 3, 1, 0, 3] =
      .ok [⟨35, 5⟩, ⟨32, 1⟩, ⟨63, 1⟩, ⟨45, 5⟩, ⟨51, 5⟩, ⟨1, 1⟩] := by decide +kernel
  obtain rfl := Except.ok.inj (hmeasures.fields_eq.symm.trans hfields)
  obtain rfl : stream = [195, 54, 3] := hmeasures.packs.unique ⟨by decide, by decide⟩
  exact ⟨_, hmeasures, rfl⟩

end Stream

end FiniteStateEntropy
