import FiniteStateEntropy.Proofs.Bits
import FiniteStateEntropy.Proofs.Tables

/-!
# One step of either automaton undoes the other

An encoder finds the number of bits to write by one addition and one shift; a decoder finds the
number of bits to read from the logarithm of a rank. Both numbers are the one that brings a state
into the range of ranks of a symbol, and there is only one such number, so the two automata agree
on every state and every symbol.

The arithmetic is kept apart from the tables. `Transform.reduced_bounds` says where the shift of
the encoder lands, `add_log2_eq` that the shift is the one a decoder would take, and
`DecodeEntry.covers_ofRank_iff` what a decode entry covers in terms of shifts. The tables only
translate ranks into slots.

## Main results

* `Transform.reduced_bounds`: a reduced state is a rank of the symbol
* `DecodeEntry.covers_ofRank_iff`: an entry covers the states that reduce to its rank
* `Distribution.Transition`: what holds of an encoding step and the decoding step back
* `Distribution.transition_bijective`: every encoding step has the one slot that undoes it
-/

namespace FiniteStateEntropy

/-- Two ranks of one symbol that a state reduces to, by whatever shifts, are the same. -/
theorem rank_unique {state slots width width' : ℕ}
    (hle : slots ≤ state / 2 ^ width) (hlt : state / 2 ^ width < 2 * slots)
    (hle' : slots ≤ state / 2 ^ width') (hlt' : state / 2 ^ width' < 2 * slots) :
    state / 2 ^ width = state / 2 ^ width' := by
  -- one more bit off halves a rank, and half of a rank is no rank
  have key : ∀ {w w' : ℕ}, w < w' → slots ≤ state / 2 ^ w' → ¬ state / 2 ^ w < 2 * slots := by
    intro w w' hw hle' hlt
    obtain ⟨d, rfl⟩ := Nat.exists_eq_add_of_lt hw
    have hhalf : state / 2 ^ (w + d + 1) ≤ state / 2 ^ w / 2 := by
      rw [Nat.div_div_eq_div_mul, ← Nat.pow_succ]
      exact Nat.div_le_div_left (Nat.pow_le_pow_right (by decide) (by omega)) (Nat.two_pow_pos _)
    omega
  rcases Nat.lt_trichotomy width width' with h | rfl | h
  · exact absurd hlt (key h hle')
  · rfl
  · exact absurd hlt' (key h hle)

/-- The shift that leaves a rank of a state is the one that a decoder takes for that rank. -/
theorem add_log2_eq {tableLog state width : ℕ} (hle : 2 ^ tableLog ≤ state)
    (hlt : state < 2 ^ (tableLog + 1)) (hrank : state / 2 ^ width ≠ 0) :
    width + (state / 2 ^ width).log2 = tableLog := by
  have hlow : 2 ^ (width + (state / 2 ^ width).log2) ≤ state := by
    rw [Nat.pow_add, Nat.mul_comm]
    exact (Nat.le_div_iff_mul_le (Nat.two_pow_pos width)).mp (Nat.log2_self_le hrank)
  have hhigh : state < 2 ^ (width + (state / 2 ^ width).log2 + 1) := by
    rw [Nat.add_assoc, Nat.pow_add, Nat.mul_comm]
    exact (Nat.div_lt_iff_lt_mul (Nat.two_pow_pos width)).mp Nat.lt_log2_self
  have hupper := (Nat.pow_lt_pow_iff_right (by decide)).mp (Nat.lt_of_le_of_lt hlow hlt)
  have hlower := (Nat.pow_lt_pow_iff_right (by decide)).mp (Nat.lt_of_le_of_lt hle hhigh)
  omega

/-- Numbers between two powers of two, shifted up to where the states of an encoder lie. -/
theorem shift_bounds {tableLog k low high : ℕ} (hk : k ≤ tableLog) (hlow : 2 ^ k ≤ low)
    (hhigh : high ≤ 2 ^ (k + 1)) :
    2 ^ tableLog ≤ low * 2 ^ (tableLog - k) ∧
      high * 2 ^ (tableLog - k) ≤ 2 ^ (tableLog + 1) := by
  constructor
  · calc 2 ^ tableLog = 2 ^ k * 2 ^ (tableLog - k) := by
          rw [← Nat.pow_add, Nat.add_sub_cancel' hk]
      _ ≤ low * 2 ^ (tableLog - k) := Nat.mul_le_mul_right _ hlow
  · calc high * 2 ^ (tableLog - k) ≤ 2 ^ (k + 1) * 2 ^ (tableLog - k) :=
          Nat.mul_le_mul_right _ hhigh
      _ = 2 ^ (tableLog + 1) := by rw [← Nat.pow_add]; congr 1; omega

namespace Transform

variable {tableLog start slots state : ℕ}

/-! ### The bits to write -/

theorem log2_pred_lt (htable : 0 < tableLog) (hslots : slots ≤ 2 ^ tableLog) :
    (slots - 1).log2 < tableLog := by
  by_cases h : slots - 1 = 0
  · simpa [h] using htable
  · have := Nat.two_pow_pos tableLog
    exact (Nat.log2_lt h).mpr (by omega)

/-- **The threshold lies among the states**, or just above the last one. -/
theorem threshold_bounds (htable : 0 < tableLog) (hpos : 0 < slots)
    (hslots : slots ≤ 2 ^ tableLog) :
    2 ^ tableLog ≤ slots * 2 ^ (tableLog - (slots - 1).log2) ∧
      slots * 2 ^ (tableLog - (slots - 1).log2) ≤ 2 ^ (tableLog + 1) := by
  have hlog := log2_pred_lt htable hslots
  have hlow : 2 ^ (slots - 1).log2 ≤ slots := by
    by_cases h : slots - 1 = 0
    · rw [h, Nat.log2_zero, Nat.pow_zero]
      exact hpos
    · exact Nat.le_trans (Nat.log2_self_le h) (Nat.sub_le _ _)
  have hhigh : slots ≤ 2 ^ ((slots - 1).log2 + 1) := by
    have := Nat.lt_log2_self (n := slots - 1)
    omega
  exact shift_bounds (Nat.le_of_lt hlog) hlow hhigh

/-- **The addition and the shift** compare a state with the threshold. -/
theorem width_ofSlots (htable : 0 < tableLog) (hlog : tableLog ≤ maxTableLog) (hpos : 0 < slots)
    (hslots : slots ≤ 2 ^ tableLog) (hstate : state < 2 ^ (tableLog + 1)) :
    (ofSlots tableLog start slots).width state =
      if slots * 2 ^ (tableLog - (slots - 1).log2) ≤ state then tableLog - (slots - 1).log2
      else tableLog - (slots - 1).log2 - 1 := by
  have hwidth := log2_pred_lt htable hslots
  obtain ⟨-, hhigh⟩ := threshold_bounds htable hpos hslots
  have hcontainer : 2 ^ (tableLog + 1) ≤ 2 ^ 16 :=
    Nat.pow_le_pow_right (by decide) (Nat.succ_le_succ hlog)
  rw [width, ofSlots, if_neg (by omega)]
  simp only [Nat.shiftLeft_eq, Nat.shiftRight_eq_div_pow]
  generalize slots * 2 ^ (tableLog - (slots - 1).log2) = threshold at *
  generalize 2 ^ (tableLog + 1) = limit at *
  split <;> omega

theorem width_le (htable : 0 < tableLog) (hlog : tableLog ≤ maxTableLog) (hpos : 0 < slots)
    (hslots : slots ≤ 2 ^ tableLog) (hstate : state < 2 ^ (tableLog + 1)) :
    (ofSlots tableLog start slots).width state ≤ tableLog := by
  rw [width_ofSlots htable hlog hpos hslots hstate]
  split <;> omega

/-- **A reduced state is a rank of the symbol.** -/
theorem reduced_bounds (htable : 0 < tableLog) (hlog : tableLog ≤ maxTableLog) (hpos : 0 < slots)
    (hslots : slots ≤ 2 ^ tableLog) (hle : 2 ^ tableLog ≤ state)
    (hstate : state < 2 ^ (tableLog + 1)) :
    slots ≤ state / 2 ^ (ofSlots tableLog start slots).width state ∧
      state / 2 ^ (ofSlots tableLog start slots).width state < 2 * slots := by
  have hwidth := log2_pred_lt htable hslots
  obtain ⟨hlow, hhigh⟩ := threshold_bounds htable hpos hslots
  rw [Nat.le_div_iff_mul_le (Nat.two_pow_pos _), Nat.div_lt_iff_lt_mul (Nat.two_pow_pos _),
    width_ofSlots htable hlog hpos hslots hstate, Nat.mul_assoc]
  rw [Nat.pow_succ] at hstate hhigh
  split
  · rename_i hreached
    omega
  · rename_i hbelow
    obtain ⟨m, hm⟩ : ∃ m, tableLog - (slots - 1).log2 = m + 1 :=
      ⟨_, (Nat.succ_pred (by omega)).symm⟩
    rw [hm, Nat.pow_succ, ← Nat.mul_assoc] at hlow hhigh hbelow
    rw [hm, Nat.add_sub_cancel]
    omega

end Transform

namespace DecodeEntry

/-! ### The bits to read -/

/-- A decoder in this entry yields `symbol`, and may go on to the state with the given offset. -/
def Covers (entry : DecodeEntry) (symbol : UInt8) (offset : ℕ) : Prop :=
  entry.symbol = symbol ∧ entry.baseline.toNat ≤ offset ∧
    offset < entry.baseline.toNat + 2 ^ entry.width.toNat

variable {tableLog rank : ℕ}

theorem toNat_width_ofRank (hlog : tableLog ≤ maxTableLog) (symbol : UInt8) (rank : ℕ) :
    (ofRank tableLog symbol rank).width.toNat = tableLog - rank.log2 := by
  rw [maxTableLog] at hlog
  simp only [ofRank, Nat.toUInt8_eq, UInt8.toNat_ofNat']
  omega

theorem rank_shift_bounds (hpos : 0 < rank) (hrank : rank < 2 ^ (tableLog + 1)) :
    2 ^ tableLog ≤ rank * 2 ^ (tableLog - rank.log2) ∧
      (rank + 1) * 2 ^ (tableLog - rank.log2) ≤ 2 ^ (tableLog + 1) := by
  have hlog : rank.log2 < tableLog + 1 := (Nat.log2_lt (by omega)).mpr hrank
  exact shift_bounds (Nat.le_of_lt_succ hlog) (Nat.log2_self_le (by omega)) Nat.lt_log2_self

/-- A baseline fits its field, and is the shifted rank less the size of the table. -/
theorem toNat_baseline_ofRank (hlog : tableLog ≤ maxTableLog) (symbol : UInt8) (hpos : 0 < rank)
    (hrank : rank < 2 ^ (tableLog + 1)) :
    (ofRank tableLog symbol rank).baseline.toNat =
      rank * 2 ^ (tableLog - rank.log2) - 2 ^ tableLog := by
  obtain ⟨-, hhigh⟩ := rank_shift_bounds hpos hrank
  have hfits : 2 ^ tableLog ≤ 2 ^ maxTableLog := Nat.pow_le_pow_right (by decide) hlog
  rw [Nat.add_mul, Nat.pow_succ] at hhigh
  simp only [ofRank, Nat.toUInt16_eq, UInt16.toNat_ofNat', Nat.shiftLeft_eq, maxTableLog] at *
  omega

/-- Whatever is read, the next state lies in the table. -/
theorem baseline_add_le (hlog : tableLog ≤ maxTableLog) (symbol : UInt8) (hpos : 0 < rank)
    (hrank : rank < 2 ^ (tableLog + 1)) :
    (ofRank tableLog symbol rank).baseline.toNat +
      2 ^ (ofRank tableLog symbol rank).width.toNat ≤ 2 ^ tableLog := by
  obtain ⟨hlow, hhigh⟩ := rank_shift_bounds hpos hrank
  rw [Nat.add_mul, Nat.one_mul, Nat.pow_succ] at hhigh
  rw [toNat_width_ofRank hlog, toNat_baseline_ofRank hlog symbol hpos hrank]
  omega

/-- **What an entry covers**: the states that reduce to its rank. -/
theorem covers_ofRank_iff (hlog : tableLog ≤ maxTableLog) (symbol symbol' : UInt8)
    (hpos : 0 < rank) (hrank : rank < 2 ^ (tableLog + 1)) {state : ℕ} (hle : 2 ^ tableLog ≤ state) :
    (ofRank tableLog symbol rank).Covers symbol' (state - 2 ^ tableLog) ↔
      symbol = symbol' ∧ state / 2 ^ (tableLog - rank.log2) = rank := by
  obtain ⟨hlow, -⟩ := rank_shift_bounds hpos hrank
  rw [Covers, toNat_width_ofRank hlog, toNat_baseline_ofRank hlog symbol hpos hrank,
    Nat.div_eq_iff (Nat.two_pow_pos _)]
  have := Nat.two_pow_pos (tableLog - rank.log2)
  refine and_congr_right ?_
  intro _
  omega

end DecodeEntry

namespace Distribution

/-! ### One step -/

/-- The states of the encoding automaton. -/
def IsState (distribution : Distribution) (state : ℕ) : Prop :=
  distribution.size ≤ state ∧ state < 2 * distribution.size

/-- The number of bits written when `symbol` is encoded from `state`. -/
def widthFrom (distribution : Distribution) (symbol : UInt8) (state : ℕ) : ℕ :=
  (distribution.transformOf symbol).width state

/-- The rank that `state` is reduced to when `symbol` is encoded from it. -/
def rankFrom (distribution : Distribution) (symbol : UInt8) (state : ℕ) : ℕ :=
  state / 2 ^ distribution.widthFrom symbol state

/-- The slot that encoding `symbol` from `state` leads to. -/
def slotFrom (distribution : Distribution) (symbol : UInt8) (state : ℕ) : ℕ :=
  distribution.nthSlot symbol
    (distribution.rankFrom symbol state - distribution.slots symbol.toNat)

variable {distribution : Distribution} {symbol : UInt8} {state : ℕ}

theorem tableLog_pos (distribution : Distribution) : 0 < distribution.tableLog :=
  Nat.lt_of_lt_of_le (by decide) distribution.tableLog_mem.1

theorem IsState.lt_two_pow (h : distribution.IsState state) :
    state < 2 ^ (distribution.tableLog + 1) := by
  rw [Nat.pow_succ, Nat.mul_comm]
  exact h.2

theorem widthFrom_le (hsymbol : distribution.slots symbol.toNat ≠ 0)
    (hstate : distribution.IsState state) :
    distribution.widthFrom symbol state ≤ distribution.tableLog :=
  Transform.width_le distribution.tableLog_pos distribution.tableLog_mem.2
    (Nat.pos_of_ne_zero hsymbol) (distribution.slots_le_size symbol) hstate.lt_two_pow

theorem rankFrom_bounds (hsymbol : distribution.slots symbol.toNat ≠ 0)
    (hstate : distribution.IsState state) :
    distribution.slots symbol.toNat ≤ distribution.rankFrom symbol state ∧
      distribution.rankFrom symbol state < 2 * distribution.slots symbol.toNat :=
  Transform.reduced_bounds distribution.tableLog_pos distribution.tableLog_mem.2
    (Nat.pos_of_ne_zero hsymbol) (distribution.slots_le_size symbol) hstate.1 hstate.lt_two_pow

theorem rankFrom_sub_lt (hsymbol : distribution.slots symbol.toNat ≠ 0)
    (hstate : distribution.IsState state) :
    distribution.rankFrom symbol state - distribution.slots symbol.toNat <
      distribution.slots symbol.toNat := by
  have := rankFrom_bounds hsymbol hstate
  omega

/-- The next state is a state again. -/
theorem isState_slotFrom (hsymbol : distribution.slots symbol.toNat ≠ 0)
    (hstate : distribution.IsState state) :
    distribution.IsState (distribution.size + distribution.slotFrom symbol state) := by
  have : distribution.slotFrom symbol state < distribution.size :=
    nthSlot_lt (rankFrom_sub_lt hsymbol hstate)
  exact ⟨Nat.le_add_right _ _, by omega⟩

/-- The encoder goes to that slot. -/
theorem next_slotFrom (hsymbol : distribution.slots symbol.toNat ≠ 0)
    (hstate : distribution.IsState state) :
    distribution.encodeTable.next (distribution.transformOf symbol)
        (state >>> distribution.widthFrom symbol state) =
      .ok (distribution.size + distribution.slotFrom symbol state) := by
  obtain ⟨hle, hlt⟩ := rankFrom_bounds hsymbol hstate
  rw [Nat.shiftRight_eq_div_pow]
  exact next_encodeTable hle hlt

/-- Ranks, like states, are below twice the size of the table. -/
theorem rank_lt_two_pow {rank : ℕ} (h : rank < 2 * distribution.slots symbol.toNat) :
    rank < 2 ^ (distribution.tableLog + 1) := by
  have := distribution.slots_le_size symbol
  rw [Nat.pow_succ]
  rw [size] at this
  omega

/-- The entry at that slot is the one of the reduced state. -/
theorem getElem?_entries_slotFrom (hsymbol : distribution.slots symbol.toNat ≠ 0)
    (hstate : distribution.IsState state) :
    distribution.decodeTable.entries[distribution.slotFrom symbol state]? =
      some (.ofRank distribution.tableLog symbol (distribution.rankFrom symbol state)) := by
  have hsub := rankFrom_sub_lt hsymbol hstate
  have hle := (rankFrom_bounds hsymbol hstate).1
  rw [slotFrom, getElem?_entries (getElem?_spread_nthSlot hsub), earlier_nthSlot hsub,
    Nat.add_sub_cancel' hle]

/-- The decoder reads as many bits as the encoder writes. -/
theorem toNat_width_slotFrom (hsymbol : distribution.slots symbol.toNat ≠ 0)
    (hstate : distribution.IsState state) :
    (DecodeEntry.ofRank distribution.tableLog symbol
      (distribution.rankFrom symbol state)).width.toNat = distribution.widthFrom symbol state := by
  have hle := (rankFrom_bounds hsymbol hstate).1
  have hrank : state / 2 ^ distribution.widthFrom symbol state ≠ 0 := by
    rw [← rankFrom]
    omega
  have hadd := add_log2_eq hstate.1 hstate.lt_two_pow hrank
  rw [DecodeEntry.toNat_width_ofRank distribution.tableLog_mem.2, rankFrom]
  omega

/-- The baseline and the bits that the encoder wrote make up the state it came from. -/
theorem baseline_add_mod (hsymbol : distribution.slots symbol.toNat ≠ 0)
    (hstate : distribution.IsState state) :
    distribution.size + ((DecodeEntry.ofRank distribution.tableLog symbol
      (distribution.rankFrom symbol state)).baseline.toNat +
        state % 2 ^ distribution.widthFrom symbol state) = state := by
  obtain ⟨hle, hlt⟩ := rankFrom_bounds hsymbol hstate
  have hpos : 0 < distribution.rankFrom symbol state := by omega
  have hwidth := toNat_width_slotFrom hsymbol hstate
  rw [DecodeEntry.toNat_width_ofRank distribution.tableLog_mem.2] at hwidth
  have hlow := (DecodeEntry.rank_shift_bounds hpos (rank_lt_two_pow hlt)).1
  rw [DecodeEntry.toNat_baseline_ofRank distribution.tableLog_mem.2 symbol hpos
    (rank_lt_two_pow hlt), hwidth]
  rw [hwidth] at hlow
  have hdiv := Nat.div_add_mod' state (2 ^ distribution.widthFrom symbol state)
  rw [← rankFrom] at hdiv
  rw [size]
  omega

/-- Only that slot covers the state. -/
theorem eq_slotFrom_of_covers (hsymbol : distribution.slots symbol.toNat ≠ 0)
    (hstate : distribution.IsState state) {slot : ℕ} {entry : DecodeEntry}
    (hentry : distribution.decodeTable.entries[slot]? = some entry)
    (hcovers : entry.Covers symbol (state - distribution.size)) :
    slot = distribution.slotFrom symbol state := by
  have hslot : slot < distribution.spread.toList.length := by
    rw [length_spread, ← size_entries]
    exact (Array.getElem?_eq_some_iff.mp hentry).1
  obtain ⟨found, hfound⟩ : ∃ found, distribution.spread.toList[slot]? = some found :=
    ⟨_, List.getElem?_eq_getElem hslot⟩
  have hearlier := earlier_lt hfound
  have hrank : distribution.slots found.toNat + distribution.earlier found slot <
      2 * distribution.slots found.toNat := by omega
  rw [getElem?_entries hfound, Option.some.injEq] at hentry
  subst hentry
  rw [size, DecodeEntry.covers_ofRank_iff distribution.tableLog_mem.2 _ _ (by omega)
    (rank_lt_two_pow hrank) hstate.1] at hcovers
  obtain ⟨rfl, hreduced⟩ := hcovers
  obtain ⟨hle, hlt⟩ := rankFrom_bounds hsymbol hstate
  have hunique := rank_unique hle hlt (by rw [hreduced]; omega) (by rw [hreduced]; omega)
  rw [slotFrom, rankFrom, hunique, hreduced, Nat.add_sub_cancel_left, nthSlot_earlier hfound]

/-- The bits written are what the state exceeds the baseline by. -/
theorem low_widthFrom (hsymbol : distribution.slots symbol.toNat ≠ 0)
    (hstate : distribution.IsState state) :
    Bits.low (distribution.widthFrom symbol state) state =
      Bits.low (distribution.widthFrom symbol state) (state - distribution.size -
        (DecodeEntry.ofRank distribution.tableLog symbol
          (distribution.rankFrom symbol state)).baseline.toNat) := by
  have := baseline_add_mod hsymbol hstate
  rw [← Bits.low_mod]
  congr 1
  omega

/-- **An encoding step with room** writes the low bits of the state and goes to its slot. -/
theorem exists_encode (hsymbol : distribution.slots symbol.toNat ≠ 0)
    (hstate : distribution.IsState state) {writer : Writer} (hheld : writer.held < containerBits)
    (hroom : writer.held + distribution.widthFrom symbol state ≤ containerBits) :
    ∃ next, distribution.encodeTable.encode symbol state writer =
        .ok (distribution.size + distribution.slotFrom symbol state, next) ∧
      next.bits = writer.bits ++ Bits.low (distribution.widthFrom symbol state) state ∧
      next.held = writer.held + distribution.widthFrom symbol state := by
  have hwidth : distribution.widthFrom symbol state ≤ fieldWidthLimit :=
    Nat.le_trans (widthFrom_le hsymbol hstate)
      (Nat.le_trans distribution.tableLog_mem.2 (by decide))
  obtain ⟨next, hadd, hbits, hlive⟩ := Writer.exists_add state hwidth hheld hroom
  refine ⟨next, ?_, hbits, hlive⟩
  rw [widthFrom] at hadd
  have hnext := next_slotFrom hsymbol hstate
  rw [widthFrom] at hnext
  simp only [EncodeTable.encode, transform_encodeTable hsymbol, hadd, hnext, bind, Except.bind,
    pure, Except.pure]

/-- What holds of an encoding step of `symbol` from `state` to the state of `slot`, when `entry` is
what the decoder has there and `transform` what the encoder has for the symbol. -/
structure Transition (distribution : Distribution) (symbol : UInt8) (state slot : ℕ)
    (entry : DecodeEntry) (transform : Transform) : Prop where
  /-- The decoder has the entry at the slot. -/
  entry_eq : distribution.decodeTable.entries[slot]? = some entry
  /-- The entry has the symbol, and the state lies in its range. -/
  covers : entry.Covers symbol (state - distribution.size)
  /-- No other slot has such an entry. -/
  unique : ∀ slot' entry', distribution.decodeTable.entries[slot']? = some entry' →
    entry'.Covers symbol (state - distribution.size) → slot' = slot
  /-- The encoder has the transform for the symbol. -/
  transform_eq : distribution.encodeTable.transform symbol = .ok transform
  /-- The bits that the encoder counts are as many as the entry reads. -/
  width_eq : (state + transform.bias) >>> 16 = entry.width.toNat
  /-- The bits written are what the state exceeds the baseline by. -/
  low_eq : state % 2 ^ entry.width.toNat = state - distribution.size - entry.baseline.toNat
  /-- What is left of the state is not too small for a rank of the symbol. -/
  rank_ge : distribution.slots symbol.toNat ≤ state >>> entry.width.toNat
  /-- Nor is it too large for one. -/
  rank_lt : state >>> entry.width.toNat < 2 * distribution.slots symbol.toNat
  /-- The encoder goes on to the state of the slot. -/
  next_eq : distribution.encodeTable.next transform (state >>> entry.width.toNat) =
    .ok (distribution.size + slot)
  /-- The next state is a state. -/
  isState : distribution.IsState (distribution.size + slot)
  /-- A writer with room for the bits gets them. -/
  encode_eq : ∀ writer : Writer, writer.held < containerBits →
    writer.held + entry.width.toNat ≤ containerBits →
      ∃ next, distribution.encodeTable.encode symbol state writer =
          .ok (distribution.size + slot, next) ∧
        next.bits = writer.bits ++
          Bits.low entry.width.toNat (state - distribution.size - entry.baseline.toNat)

/-- **The automata undo each other, step by step.** From every state, a present symbol goes to
the one slot whose entry has the symbol and covers the state, and writes the bits that the entry
reads. -/
theorem transition_bijective (hsymbol : distribution.slots symbol.toNat ≠ 0)
    (hstate : distribution.IsState state) :
    ∃ slot entry transform, distribution.Transition symbol state slot entry transform := by
  obtain ⟨hle, hlt⟩ := rankFrom_bounds hsymbol hstate
  have hentry := getElem?_entries_slotFrom hsymbol hstate
  have hwidth := toNat_width_slotFrom hsymbol hstate
  have hbaseline := baseline_add_mod hsymbol hstate
  have hlow := Nat.mod_lt state (Nat.two_pow_pos (distribution.widthFrom symbol state))
  refine ⟨distribution.slotFrom symbol state, _, distribution.transformOf symbol, hentry,
    ⟨rfl, by omega, by rw [hwidth]; omega⟩, ?_, transform_encodeTable hsymbol, hwidth.symm,
    by rw [hwidth]; omega, ?_, ?_, ?_, isState_slotFrom hsymbol hstate, ?_⟩
  · intro slot' entry' hentry' hcovers
    exact eq_slotFrom_of_covers hsymbol hstate hentry' hcovers
  · rwa [hwidth, Nat.shiftRight_eq_div_pow]
  · rwa [hwidth, Nat.shiftRight_eq_div_pow]
  · rw [hwidth]
    exact next_slotFrom hsymbol hstate
  · intro writer hheld hroom
    rw [hwidth] at hroom ⊢
    obtain ⟨next, hencode, hbits, -⟩ := exists_encode hsymbol hstate hheld hroom
    exact ⟨next, hencode, by rw [hbits, low_widthFrom hsymbol hstate]⟩

/-- A table of 32 slots: two common symbols, a rare one, and one that is absent. -/
def skewed : Distribution :=
  ⟨5, [.common 20 (by decide), .rare, .absent, .common 11 (by decide)], by decide, by decide,
    by decide, by decide, by decide⟩

/-- Its last symbol is encoded from the state `47`, below the threshold of the symbol. -/
theorem transition_skewed : skewed.slots (3 : UInt8).toNat ≠ 0 ∧ skewed.IsState 47 ∧
    ∃ slot entry transform, skewed.Transition 3 47 slot entry transform :=
  ⟨by decide, ⟨by decide, by decide⟩,
    transition_bijective (by decide) ⟨by decide, by decide⟩⟩

end Distribution

end FiniteStateEntropy
