import FiniteStateEntropy.Proofs.CheckedEncodeTable
import FiniteStateEntropy.Proofs.Encoding
import Mathlib.Algebra.BigOperators.Group.Finset.Basic
import Mathlib.Data.List.GetD
import Mathlib.Data.List.Sort

/-!
# The states of an encoder, group by group

An encode table lists every state of its automaton once, and lists together those that one symbol
leads to. The group of a symbol begins behind as many places as the smaller symbols have slots, it
has a place for every slot of the symbol, and its states stand in the order of the slots, so that
the seed of a symbol, the state of its first slot, is the first of the group.

The list is written in one pass over the spread, in which every symbol has a counter that starts at
its group. `Checked.fill` is that pass, and `Distribution.placeOf` is what the counter of a slot's
symbol has come to at that slot, as `Checked.Filled` has it. No counter runs into the group behind
its own, because a symbol is spread over no more slots than it owns; so no place is written twice,
and as there are as many places as slots, none is left out. That every state is listed once follows,
whatever shares a distribution has.

## Main definitions

* `Distribution.stateList`, `Distribution.stateGroup`: the states, and those of a symbol
* `Distribution.placeOf`: the place of a slot's state

## Main results

* `Distribution.perm_placeOf`: every place is written once
* `Distribution.stateGroup_eq`: the group of a symbol
* `Distribution.states_grouped`: the list of states
-/

namespace FiniteStateEntropy

namespace Distribution

variable {distribution : Distribution} {symbol : UInt8} {slot i : ℕ}

/-- The states of an encoder, in the order of its table. -/
def stateList (distribution : Distribution) : List ℕ :=
  distribution.encodeTable.states.toList.map UInt16.toNat

/-- The states at the places of a symbol: as many as it has slots, behind those of the smaller
symbols. -/
def stateGroup (distribution : Distribution) (symbol : UInt8) : List ℕ :=
  (distribution.stateList.drop
    (∑ smaller ∈ Finset.range symbol.toNat, distribution.slots smaller)).take
      (distribution.slots symbol.toNat)

/-- The place in the list of states that the state of a slot has: behind the groups of the smaller
symbols, and behind the earlier slots of the slot's own symbol. -/
def placeOf (distribution : Distribution) (slot : ℕ) : ℕ :=
  let symbol := distribution.spread.getD slot 0
  distribution.start symbol.toNat + distribution.earlier symbol slot

/-! ### Places -/

theorem placeOf_eq (h : distribution.spread.toList[slot]? = some symbol) :
    distribution.placeOf slot =
      distribution.start symbol.toNat + distribution.earlier symbol slot := by
  rw [Array.getElem?_toList] at h
  rw [placeOf, Array.getD_eq_getD_getElem?, h]
  rfl

/-- Every place is that of a slot. -/
theorem exists_placeOf_eq {place : ℕ} (h : place < distribution.size) :
    ∃ slot < distribution.size, distribution.placeOf slot = place := by
  obtain ⟨symbol, i, hi, rfl⟩ := exists_start_add h
  refine ⟨distribution.nthSlot symbol i, nthSlot_lt hi, ?_⟩
  rw [placeOf_eq (getElem?_spread_nthSlot hi), earlier_nthSlot hi]

/-- **Every place is written once.** -/
theorem perm_placeOf (distribution : Distribution) :
    ((List.range distribution.size).map distribution.placeOf).Perm
      (List.range distribution.size) := by
  -- there are no more slots than places, so it is enough that no place is left out
  refine (List.Subperm.perm_of_length_le (List.subperm_of_subset List.nodup_range ?_)
    (by simp)).symm
  intro place hplace
  obtain ⟨slot, hslot, rfl⟩ := exists_placeOf_eq (List.mem_range.mp hplace)
  exact List.mem_map_of_mem (List.mem_range.mpr hslot)

/-! ### States -/

theorem length_stateList (distribution : Distribution) :
    distribution.stateList.length = distribution.size := by
  rw [stateList, List.length_map, Array.length_toList, size_states]

/-- The states of a symbol, one for each of its slots. -/
theorem getElem?_stateList (h : i < distribution.slots symbol.toNat) :
    distribution.stateList[distribution.start symbol.toNat + i]? =
      some (distribution.size + distribution.nthSlot symbol i) := by
  rw [stateList, List.getElem?_map, Array.getElem?_toList, getElem?_states h, Option.map_some,
    toNat_toUInt16_size_add (nthSlot_lt h)]

/-- **The state of a slot** stands at the slot's place. -/
theorem getElem?_stateList_placeOf (h : slot < distribution.size) :
    distribution.stateList[distribution.placeOf slot]? = some (distribution.size + slot) := by
  rw [← length_spread] at h
  have hsymbol := List.getElem?_eq_getElem h
  rw [placeOf_eq hsymbol, getElem?_stateList (earlier_lt hsymbol), nthSlot_earlier hsymbol]

/-- **Every state is listed once.** -/
theorem perm_stateList (distribution : Distribution) :
    distribution.stateList.Perm (List.range' distribution.size distribution.size) := by
  have hlist : distribution.stateList =
      (List.range distribution.size).map (distribution.stateList.getD · 0) := by
    refine List.ext_getElem (by simp [length_stateList]) ?_
    intro place hplace _
    rw [List.getElem_map, List.getElem_range, List.getD_eq_getElem _ _ hplace]
  have hplaces : ((List.range distribution.size).map distribution.placeOf).map
      (distribution.stateList.getD · 0) =
        List.range' distribution.size distribution.size := by
    rw [List.map_map, List.range'_eq_map_range]
    refine List.map_congr_left ?_
    intro slot hslot
    rw [Function.comp_apply, List.getD_eq_getElem?_getD,
      getElem?_stateList_placeOf (List.mem_range.mp hslot), Option.getD_some]
  have hperm := (distribution.perm_placeOf.map (distribution.stateList.getD · 0)).symm
  rwa [hplaces, ← hlist] at hperm

/-! ### Groups -/

/-- The number of places before the group of a symbol is the sum of the slots before it. -/
theorem start_eq_sum (distribution : Distribution) (k : ℕ) :
    distribution.start k = ∑ smaller ∈ Finset.range k, distribution.slots smaller := by
  induction k with
  | zero => rfl
  | succ k ih => rw [start_succ, ih, Finset.sum_range_succ]

/-- The slots of a symbol are those that the spread gives to it. -/
theorem slotsOf_eq_filter (distribution : Distribution) (symbol : UInt8) :
    distribution.slotsOf symbol =
      (List.range distribution.size).filter fun slot =>
        distribution.spread[slot]? = some symbol := by
  refine List.Pairwise.eq_of_mem_iff List.pairwise_idxsOf (List.pairwise_lt_range.filter _) ?_
  intro slot
  rw [slotsOf, List.mem_idxsOf_iff_exists_getElem_pos, List.mem_filter, List.mem_range,
    decide_eq_true_eq, ← Array.getElem?_toList, List.getElem?_eq_some_iff]
  simp only [beq_iff_eq]
  constructor
  · rintro ⟨hlt, heq⟩
    exact ⟨distribution.length_spread ▸ hlt, hlt, heq⟩
  · rintro ⟨-, hlt, heq⟩
    exact ⟨hlt, heq⟩

/-- **The group of a symbol**: a state for each of its slots, in the order of the slots. -/
theorem stateGroup_eq (distribution : Distribution) (symbol : UInt8) :
    distribution.stateGroup symbol =
      (distribution.slotsOf symbol).map (distribution.size + ·) := by
  refine List.ext_getElem? ?_
  intro i
  rw [stateGroup, ← start_eq_sum, List.getElem?_take, List.getElem?_drop, List.getElem?_map]
  split
  · rename_i hi
    rw [getElem?_stateList hi, getElem?_slotsOf hi, Option.map_some]
  · rename_i hi
    rw [List.getElem?_eq_none (by rw [length_slotsOf]; omega), Option.map_none]

/-- **The list of states.** Every state from the size of the table up to twice the size stands in it
once. A symbol has a group of as many places as it has slots, behind the places of the smaller
symbols; the states in it are those of exactly the slots that the spread gives to the symbol, in
strictly ascending order, and the seed of a symbol with slots is the first of them. The places that
counters of the symbols come to in one pass over the slots are each met once, and each has the state
of the slot that it is met at. And the pass itself, with counters that start at the running sums of
the slots, ends with this list and passes every check on its way. -/
theorem states_grouped (distribution : Distribution) :
    distribution.stateList.Perm (List.range' distribution.size distribution.size) ∧
      (∀ symbol,
        distribution.stateGroup symbol =
            ((List.range distribution.size).filter fun slot =>
              distribution.spread[slot]? = some symbol).map (distribution.size + ·) ∧
          (distribution.stateGroup symbol).length = distribution.slots symbol.toNat ∧
          (distribution.stateGroup symbol).Pairwise (· < ·)) ∧
      (∀ symbol, distribution.slots symbol.toNat ≠ 0 →
        ∃ state, (distribution.stateGroup symbol).head? = some state ∧
          distribution.encodeTable.seed symbol = .ok state) ∧
      ((List.range distribution.size).map distribution.placeOf).Perm
        (List.range distribution.size) ∧
      (∀ slot < distribution.size,
        distribution.stateList[distribution.placeOf slot]? = some (distribution.size + slot)) ∧
      ∃ starts, Checked.startsFrom 0 distribution.shares = .ok starts ∧
        Checked.fill distribution.size distribution.spread.toList 0 starts.toArray
          (Array.replicate distribution.size 0) = .ok distribution.encodeTable.states := by
  refine ⟨distribution.perm_stateList, ?_, ?_, distribution.perm_placeOf,
    fun slot => getElem?_stateList_placeOf, _, Checked.startsFrom_zero_eq distribution,
    Checked.fill_starts_eq distribution⟩
  · intro symbol
    refine ⟨by rw [stateGroup_eq, slotsOf_eq_filter], ?_, ?_⟩
    · rw [stateGroup_eq, List.length_map, length_slotsOf]
    · rw [stateGroup_eq, List.pairwise_map]
      exact List.pairwise_idxsOf.imp fun h => Nat.add_lt_add_left h _
  · intro symbol hsymbol
    refine ⟨distribution.size + distribution.nthSlot symbol 0, ?_,
      (Stream.exists_seed hsymbol).1⟩
    rw [stateGroup_eq, List.head?_map, List.head?_eq_getElem?,
      getElem?_slotsOf (Nat.pos_of_ne_zero hsymbol), Option.map_some]

/-- Rare symbols on both sides of a common one: two groups of one state, and the others between. -/
example :
    (⟨5, [.rare, .absent, .common 30 (by decide), .rare], by decide, by decide, by decide,
      by decide, by decide⟩ : Distribution).stateList =
        63 :: (List.range' 32 30 ++ [62]) := by
  decide +kernel

end Distribution

end FiniteStateEntropy
