import FiniteStateEntropy.Proofs.Checks
import FiniteStateEntropy.Proofs.Transition

/-!
# Decode tables are built safely

The tables of a distribution with the checks of their construction. The spread writes to slots that
exist, since every slot is placed once. A rank is looked up for every slot and counted up, from the
number of slots of its symbol to less than twice this number, so it is less than twice the size of
the table; and of such a rank the shift and the baseline are differences of a number and a smaller
one, and fit their fields.

That last bound is an invariant of the run over the slots, `Checked.HasRanks`: a rank and the slots
of its symbol that are still to come do not add up to more than twice the size of the table.

## Main definitions

* `Checked.spread`, `Checked.decodeTable`: the tables of a distribution

## Main results

* `Checked.spread_eq`: the spread is filled safely
* `Checked.ofRank_eq`: an entry has a baseline and a width that fit
* `Checked.decodeTable_eq`: the decode table is built safely
-/

namespace FiniteStateEntropy

namespace Checked

/-! ### Building with checks -/

/-- The slots with the symbols put there. A walk that leaves the slots of the common symbols would
be one that does not find back to them. -/
def placements (distribution : Distribution) : Except Stop (List (ℕ × UInt8)) := do
  let rare := distribution.rareSymbols
  let common := distribution.commonSymbols
  let bound ← sub distribution.size rare.length
  let last ← sub distribution.size 1
  let highEnd ← (List.range rare.length).mapM fun i => sub last i
  let walk ← (Spread.walk distribution.size bound common.length 0).mapM fun slot =>
    within bound slot
  return highEnd.zip rare ++ walk.zip common

/-- The symbol of every slot. -/
def spread (distribution : Distribution) : Except Stop (Array UInt8) := do
  let placed ← placements distribution
  placed.foldlM (fun table (slot, symbol) => put table slot symbol)
    (Array.replicate distribution.size 0)

/-- The entry for the slot of `symbol` with the given rank, a number of 32 bits that is shifted by
one of 5. -/
def ofRank (tableLog : ℕ) (symbol : UInt8) (rank : ℕ) : Except Stop DecodeEntry := do
  let difference ← sub tableLog rank.log2
  let shift ← fit 5 difference
  let shifted ← fit 32 (rank <<< shift)
  let excess ← sub shifted (2 ^ tableLog)
  let baseline ← fit 16 excess
  let width ← fit 8 difference
  return ⟨baseline.toUInt16, width.toUInt8, symbol⟩

/-- The entries for a run of slots, when `ranks` has the rank of each symbol's next slot. -/
def entriesFrom (tableLog : ℕ) :
    List UInt8 → Array ℕ → Array DecodeEntry → Except Stop (Array DecodeEntry)
  | [], _, entries => return entries
  | symbol :: rest, ranks, entries => do
    let rank ← lookup ranks symbol.toNat
    let entry ← ofRank tableLog symbol rank
    let next ← fit 32 (rank + 1)
    let ranks ← put ranks symbol.toNat next
    entriesFrom tableLog rest ranks (entries.push entry)

/-- The decoding automaton. -/
def decodeTable (distribution : Distribution) : Except Stop DecodeTable := do
  let symbols ← spread distribution
  let entries ← entriesFrom distribution.tableLog symbols.toList
    (distribution.shares.map Share.slots).toArray #[]
  return ⟨distribution.tableLog, entries⟩

open FiniteStateEntropy.Distribution

variable {distribution : Distribution}

/-! ### The spread -/

/-- Every slot that a symbol is put on exists. -/
theorem fst_lt_of_mem_placements {placed : ℕ × UInt8} (h : placed ∈ distribution.placements) :
    placed.1 < distribution.size :=
  List.mem_range.mp (distribution.perm_placements.mem_iff.mp (List.mem_map_of_mem h))

/-- The rare symbols have room above the bound, and the walk stays below it. -/
theorem placements_eq (distribution : Distribution) :
    placements distribution = .ok distribution.placements := by
  have hadd := distribution.rareBound_add
  have hpos := distribution.size_pos
  have hwalk := Spread.perm_walk hpos (Spread.coprime_stride distribution.tableLog_mem.1)
    (Nat.le.intro hadd)
  refine pass (sub_eq (Nat.le.intro ((Nat.add_comm _ _).trans hadd))) (pass (sub_eq hpos) ?_)
  refine pass (mapM_eq_ok (g := fun i => distribution.size - 1 - i) ?_) ?_
  · intro i hi
    rw [List.mem_range] at hi
    exact sub_eq (by omega)
  refine pass (mapM_eq_ok (g := id) ?_) ?_
  · intro slot hslot
    rw [length_commonSymbols] at hslot
    exact within_eq (List.mem_range.mp (hwalk.mem_iff.mp hslot))
  rw [List.map_id]
  rfl

/-- Symbols are put on slots that exist. -/
theorem foldlM_put_eq {placed : List (ℕ × UInt8)} {table : Array UInt8}
    (h : ∀ slot ∈ placed, slot.1 < table.size) :
    placed.foldlM (fun table (slot, symbol) => put table slot symbol) table =
      .ok (Spread.place table placed) := by
  induction placed generalizing table with
  | nil => rfl
  | cons head placed ih =>
    rw [List.forall_mem_cons] at h
    rw [List.foldlM_cons]
    exact pass (put_eq h.1 head.2) (ih (by simpa using h.2))

/-- **The spread is filled safely.** -/
theorem spread_eq (distribution : Distribution) :
    spread distribution = .ok distribution.spread := by
  refine pass (placements_eq distribution) (foldlM_put_eq ?_)
  intro slot hslot
  rw [Array.size_replicate]
  exact fst_lt_of_mem_placements hslot

/-! ### The entries -/

/-- An entry for a rank of the table has a baseline and a width that fit. -/
theorem ofRank_eq {tableLog rank : ℕ} (hlog : tableLog ≤ maxTableLog) (symbol : UInt8)
    (hpos : 0 < rank) (hrank : rank < 2 ^ (tableLog + 1)) :
    ofRank tableLog symbol rank = .ok (.ofRank tableLog symbol rank) := by
  have hlog2 : rank.log2 < tableLog + 1 := (Nat.log2_lt (by omega)).mpr hrank
  obtain ⟨hlow, hhigh⟩ := DecodeEntry.rank_shift_bounds hpos hrank
  have hsize : 2 ^ tableLog ≤ 2 ^ maxTableLog := Nat.pow_le_pow_right (by decide) hlog
  have hone := Nat.two_pow_pos (tableLog - rank.log2)
  rw [Nat.add_mul, Nat.pow_succ] at hhigh
  rw [maxTableLog] at hlog hsize
  -- the shifted rank reaches the size of the table and stays below twice the size
  rw [← Nat.shiftLeft_eq] at hlow hhigh
  refine pass (sub_eq (Nat.le_of_lt_succ hlog2)) (pass (fit_eq (by omega)) ?_)
  refine pass (fit_eq (by omega)) (pass (sub_eq hlow) ?_)
  exact pass (fit_eq (by omega)) (pass (fit_eq (by omega)) rfl)

/-- The greatest rank of a table of 32 slots has an entry that reads nothing, and the next number is
no rank of the table. -/
example : ofRank 5 7 63 = .ok ⟨31, 0, 7⟩ ∧ ofRank 5 7 64 = .error .underflow := by decide

/-- Counting up writes to the place that was looked up. -/
theorem modify_eq_setIfInBounds {ranks : Array ℕ} {i rank : ℕ} (h : ranks[i]? = some rank) :
    ranks.modify i (· + 1) = ranks.setIfInBounds i (rank + 1) := by
  obtain ⟨hi, rfl⟩ := Array.getElem?_eq_some_iff.mp h
  refine Array.ext_getElem? ?_
  intro j
  rw [Array.getElem?_modify, Array.getElem?_setIfInBounds]
  by_cases hj : i = j
  · subst hj
    simp [hi]
  · rw [if_neg hj, if_neg hj]

/-- Every symbol of a run of slots has a rank, and the ranks up to that of its last slot are ranks
of the table. -/
def HasRanks (tableLog : ℕ) (symbols : List UInt8) (ranks : Array ℕ) : Prop :=
  ∀ symbol ∈ symbols, ∃ rank, ranks[symbol.toNat]? = some rank ∧ 0 < rank ∧
    rank + symbols.count symbol ≤ 2 ^ (tableLog + 1)

/-- Counting up the rank of a slot's symbol makes up for the slot that is gone. -/
theorem HasRanks.tail {tableLog rank : ℕ} {symbol : UInt8} {rest : List UInt8} {ranks : Array ℕ}
    (h : HasRanks tableLog (symbol :: rest) ranks) (hrank : ranks[symbol.toNat]? = some rank) :
    HasRanks tableLog rest (ranks.setIfInBounds symbol.toNat (rank + 1)) := by
  intro other hother
  obtain ⟨old, hold, hpos, hle⟩ := h other (List.mem_cons_of_mem _ hother)
  rw [Array.getElem?_setIfInBounds]
  by_cases heq : symbol = other
  · subst heq
    obtain rfl : old = rank := Option.some.inj (hold.symm.trans hrank)
    rw [List.count_cons_self] at hle
    rw [if_pos rfl, if_pos (Array.getElem?_eq_some_iff.mp hrank).1]
    exact ⟨_, rfl, Nat.succ_pos _, by omega⟩
  · rw [List.count_cons_of_ne heq] at hle
    rw [if_neg (mt UInt8.toNat.inj heq)]
    exact ⟨old, hold, hpos, hle⟩

/-- **A run of slots gets its entries safely.** -/
theorem entriesFrom_eq {tableLog : ℕ} (hlog : tableLog ≤ maxTableLog) {symbols : List UInt8}
    {ranks : Array ℕ} (h : HasRanks tableLog symbols ranks) (entries : Array DecodeEntry) :
    entriesFrom tableLog symbols ranks entries =
      .ok (DecodeTable.entriesFrom tableLog symbols ranks entries) := by
  induction symbols generalizing ranks entries with
  | nil => rfl
  | cons symbol rest ih =>
    obtain ⟨rank, hrank, hpos, hle⟩ := h symbol List.mem_cons_self
    rw [List.count_cons_self] at hle
    have hsize : 2 ^ (tableLog + 1) ≤ 2 ^ (maxTableLog + 1) :=
      Nat.pow_le_pow_right (by decide) (Nat.succ_le_succ hlog)
    rw [maxTableLog] at hsize
    have hgetD : ranks.getD symbol.toNat 0 = rank := by
      rw [Array.getD_eq_getD_getElem?, hrank]
      rfl
    rw [DecodeTable.entriesFrom, hgetD, modify_eq_setIfInBounds hrank]
    exact pass (lookup_eq hrank) (pass (ofRank_eq hlog symbol hpos (by omega))
      (pass (fit_eq (by omega)) (pass (put_eq (Array.getElem?_eq_some_iff.mp hrank).1 _)
        (ih (h.tail hrank) _))))

/-- Symbols start with as many slots as they have, and have as many slots in the spread. -/
theorem hasRanks_spread (distribution : Distribution) :
    HasRanks distribution.tableLog distribution.spread.toList
      (distribution.shares.map Share.slots).toArray := by
  intro symbol hsymbol
  have hslots := slots_ne_zero_of_mem_spread hsymbol
  obtain ⟨share, hshare, hshareSlots⟩ := share?_of_slots_ne_zero hslots
  refine ⟨distribution.slots symbol.toNat, ?_, Nat.pos_of_ne_zero hslots, ?_⟩
  · rw [List.getElem?_toArray, List.getElem?_map, hshare, ← hshareSlots]
    rfl
  · have := distribution.slots_le_size symbol
    rw [count_spread, Nat.pow_succ]
    rw [size] at this
    omega

/-- **The decode table is built safely.** -/
theorem decodeTable_eq (distribution : Distribution) :
    decodeTable distribution = .ok distribution.decodeTable :=
  pass (spread_eq distribution) (pass (entriesFrom_eq distribution.tableLog_mem.2
    (hasRanks_spread distribution) _) rfl)

end Checked

end FiniteStateEntropy
