import FiniteStateEntropy.Spread
import Mathlib.Algebra.BigOperators.Group.List.Basic
import Mathlib.Data.List.Nodup
import Mathlib.Data.List.Perm.Subperm
import Mathlib.Data.Nat.ModEq
import Mathlib.Data.Nat.Prime.Basic
import Mathlib.Tactic.Ring

/-!
# Every slot gets a symbol, and every symbol its slots

The walk along an odd stride meets every slot of a table before it returns to the first one, so
the walk below a bound is the whole walk with the slots at or above the bound left out. That is
the one fact from which the rest follows: no slot is written twice, none is left out, and the
number of slots that get a symbol is the number the distribution gives it.

`Spread.slotAt` names the slot after a number of strides. The walk is compared with the list of
these slots, filtered; counting shows that the walk below `bound` is over after exactly once
around the table.

## Main results

* `Spread.perm_map_slotAt`: the strides of one turn meet every slot once
* `Spread.walk_eq_filter`: the walk is what a filter leaves of those slots
* `Spread.walkEnd_bound`: the walk closes its cycle
* `Distribution.perm_placements`: every slot is placed once
* `Distribution.count_spread`: a symbol is spread over as many slots as it owns
-/

namespace FiniteStateEntropy

namespace Spread

variable {size bound : ℕ}

/-! ### Strides -/

/-- The slot that the walk stands at after `k` strides, skipping nothing. -/
def slotAt (size k : ℕ) : ℕ := k * stride size % size

@[simp] theorem slotAt_zero (size : ℕ) : slotAt size 0 = 0 := by
  simp [slotAt]

theorem slotAt_self (size : ℕ) : slotAt size size = 0 := by
  simp [slotAt]

theorem slotAt_succ (size k : ℕ) : slotAt size (k + 1) = (slotAt size k + stride size) % size := by
  rw [slotAt, slotAt, Nat.succ_mul, Nat.mod_add_mod]

theorem slotAt_lt (hsize : 0 < size) (k : ℕ) : slotAt size k < size :=
  Nat.mod_lt _ hsize

/-- A power of two that has eighths has an odd stride. -/
theorem coprime_stride {tableLog : ℕ} (h : minTableLog ≤ tableLog) :
    (stride (2 ^ tableLog)).Coprime (2 ^ tableLog) := by
  obtain ⟨k, rfl⟩ := Nat.exists_eq_add_of_le h
  have hstride : stride (2 ^ (minTableLog + k)) = 2 * (10 * 2 ^ k + 1) + 1 := by
    rw [stride, minTableLog, Nat.pow_add]
    omega
  rw [hstride]
  exact (Nat.coprime_two_right.mpr ⟨_, rfl⟩).pow_right _

/-- **One turn meets every slot once.** -/
theorem perm_map_slotAt (hsize : 0 < size) (hcop : (stride size).Coprime size) :
    ((List.range size).map (slotAt size)).Perm (List.range size) := by
  have hnodup : ((List.range size).map (slotAt size)).Nodup := by
    refine List.Nodup.map_on ?_ List.nodup_range
    intro j hj k hk h
    have hmod : j ≡ k [MOD size] := Nat.ModEq.cancel_right_of_coprime hcop.symm h
    exact hmod.eq_of_lt_of_lt (List.mem_range.mp hj) (List.mem_range.mp hk)
  refine (hnodup.subperm ?_).perm_of_length_le (by simp)
  intro slot hslot
  obtain ⟨k, -, rfl⟩ := List.mem_map.mp hslot
  exact List.mem_range.mpr (slotAt_lt hsize k)

/-- Among `size` strides in a row, one ends at slot `0`. -/
theorem exists_slotAt_eq_zero (hsize : 0 < size) (k : ℕ) :
    ∃ i < size, slotAt size (k + i) = 0 := by
  rcases Nat.eq_zero_or_pos (k % size) with h | h
  · refine ⟨0, hsize, ?_⟩
    rw [slotAt, Nat.add_zero, Nat.mul_mod, h, Nat.zero_mul, Nat.zero_mod]
  · have hlt := Nat.mod_lt k hsize
    refine ⟨size - k % size, by omega, ?_⟩
    have hturn : k + (size - k % size) = size * (k / size + 1) := by
      have := Nat.div_add_mod k size
      rw [Nat.mul_add, Nat.mul_one]
      omega
    rw [slotAt, hturn, Nat.mul_assoc, Nat.mul_mod_right]

/-! ### The walk below a bound -/

/-- Seeking stops at the first stride that ends below the bound, or when the fuel is used up. -/
theorem seek_slotAt (size bound fuel k : ℕ) :
    ∃ i, seek size bound fuel (slotAt size k) = slotAt size (k + i) ∧
      (∀ j < i, bound ≤ slotAt size (k + j)) ∧ (slotAt size (k + i) < bound ∨ i = fuel) := by
  induction fuel generalizing k with
  | zero => exact ⟨0, rfl, fun j hj => absurd hj (Nat.not_lt_zero j), .inr rfl⟩
  | succ fuel ih =>
    rw [seek]
    split
    · rename_i hlt
      exact ⟨0, rfl, fun j hj => absurd hj (Nat.not_lt_zero j), .inl hlt⟩
    · rename_i hge
      obtain ⟨i, hseek, hskip, hstop⟩ := ih (k + 1)
      refine ⟨i + 1, ?_, ?_, ?_⟩
      · rw [← slotAt_succ, hseek, Nat.add_right_comm, Nat.add_assoc]
      · intro j hj
        cases j with
        | zero => exact Nat.le_of_not_lt hge
        | succ j =>
          rw [Nat.add_comm j, ← Nat.add_assoc]
          exact hskip j (by omega)
      · rw [Nat.add_comm i, ← Nat.add_assoc]
        exact hstop.imp_right fun h => by omega

/-- The next slot below the bound is reached, and every stride before it ends above. -/
theorem next_slotAt (hsize : 0 < size) (hbound : 0 < bound) (k : ℕ) :
    ∃ i, next size bound (slotAt size k) = slotAt size (k + 1 + i) ∧
      (∀ j < i, bound ≤ slotAt size (k + 1 + j)) ∧ slotAt size (k + 1 + i) < bound := by
  obtain ⟨i, hseek, hskip, hstop⟩ := seek_slotAt size bound size (k + 1)
  refine ⟨i, by rw [next, ← slotAt_succ, hseek], hskip, ?_⟩
  rcases hstop with h | rfl
  · exact h
  · obtain ⟨j, hj, hzero⟩ := exists_slotAt_eq_zero hsize (k + 1)
    have := hskip j hj
    omega

/-- The slot that the walk below `bound` stands at after `steps` steps from `slot` on. -/
def walkEnd (size bound : ℕ) : ℕ → ℕ → ℕ
  | 0, slot => slot
  | steps + 1, slot => walkEnd size bound steps (next size bound slot)

/-- **The walk is a filter.** A walk that starts below the bound lists, out of some strides in a
row, those that end below the bound, and stands below the bound afterwards. -/
theorem walk_eq_filter (hsize : 0 < size) (steps : ℕ) {k : ℕ} (hk : slotAt size k < bound) :
    ∃ m, walk size bound steps (slotAt size k) =
        ((List.range' k m).map (slotAt size)).filter (· < bound) ∧
      walkEnd size bound steps (slotAt size k) = slotAt size (k + m) ∧
      slotAt size (k + m) < bound := by
  induction steps generalizing k with
  | zero => exact ⟨0, rfl, rfl, hk⟩
  | succ steps ih =>
    obtain ⟨i, hnext, hskip, hlt⟩ := next_slotAt hsize (Nat.zero_lt_of_lt hk) k
    obtain ⟨m, hwalk, hstand, hend⟩ := ih hlt
    have hnone : ((List.range' (k + 1) i).map (slotAt size)).filter (· < bound) = [] := by
      rw [List.filter_eq_nil_iff]
      intro slot hslot
      obtain ⟨j, hj, rfl⟩ := List.mem_map.mp hslot
      obtain ⟨d, hd, rfl⟩ := List.mem_range'.mp hj
      have := hskip d hd
      rw [Nat.one_mul, decide_eq_true_eq]
      omega
    have hturn : k + (i + m + 1) = k + 1 + i + m := by omega
    refine ⟨i + m + 1, ?_, by rw [walkEnd, hnext, hstand, hturn], by rw [hturn]; exact hend⟩
    rw [walk, hnext, hwalk, List.range'_succ, List.map_cons, List.filter_cons_of_pos (by simpa),
      ← List.range'_append_1, List.map_append, List.filter_append, hnone, List.nil_append]

/-- The number of the first `m` strides that end below the bound. -/
def strideCount (size bound m : ℕ) : ℕ :=
  (List.range m).countP fun k => slotAt size k < bound

/-- A stride that ends below the bound is counted. -/
theorem strideCount_lt {m n : ℕ} (hm : slotAt size m < bound) (hmn : m < n) :
    strideCount size bound m < strideCount size bound n := by
  have hsucc : strideCount size bound (m + 1) = strideCount size bound m + 1 := by
    simp [strideCount, List.range_succ, hm]
  have hle : strideCount size bound (m + 1) ≤ strideCount size bound n :=
    (List.range_sublist.mpr hmn).countP_le
  omega

theorem countP_lt_range (h : bound ≤ size) : (List.range size).countP (· < bound) = bound := by
  obtain ⟨rest, rfl⟩ := Nat.exists_eq_add_of_le h
  have hlow : (List.range bound).countP (· < bound) = bound := by
    rw [List.countP_eq_length.mpr fun k hk => by simpa using hk, List.length_range]
  have hhigh : ((List.range rest).map (bound + ·)).countP (· < bound) = 0 := by
    rw [List.countP_eq_zero]
    intro k hk
    obtain ⟨j, -, rfl⟩ := List.mem_map.mp hk
    simp
  rw [List.range_add, List.countP_append, hlow, hhigh, Nat.add_zero]

theorem strideCount_size (hsize : 0 < size) (hcop : (stride size).Coprime size)
    (h : bound ≤ size) : strideCount size bound size = bound := by
  have := (perm_map_slotAt hsize hcop).countP_eq (· < bound)
  rwa [List.countP_map, countP_lt_range h] at this

/-- As many steps as there are slots below the bound go around the table exactly once, and lead
back to where they began. -/
theorem walk_bound (hsize : 0 < size) (hcop : (stride size).Coprime size) (hpos : 0 < bound)
    (h : bound ≤ size) :
    walk size bound bound 0 = ((List.range size).map (slotAt size)).filter (· < bound) ∧
      walkEnd size bound bound 0 = 0 := by
  obtain ⟨m, hwalk, hstand, hend⟩ := walk_eq_filter (k := 0) hsize bound (by rwa [slotAt_zero])
  rw [slotAt_zero, ← List.range_eq_range'] at hwalk
  rw [slotAt_zero, Nat.zero_add] at hstand
  rw [Nat.zero_add] at hend
  have hcount : strideCount size bound m = bound := by
    have hlength := congrArg List.length hwalk
    rw [length_walk, ← List.countP_eq_length_filter, List.countP_map] at hlength
    exact hlength.symm
  have hturn := strideCount_size hsize hcop h
  obtain rfl : m = size := by
    rcases Nat.lt_trichotomy m size with hlt | heq | hgt
    · have := strideCount_lt hend hlt
      omega
    · exact heq
    · have hzero : slotAt size size < bound := by rwa [slotAt_self]
      have := strideCount_lt hzero hgt
      omega
  exact ⟨hwalk, by rw [hstand, slotAt_self]⟩

/-- **The walk closes its cycle**, also where there is no slot for it. -/
theorem walkEnd_bound (hsize : 0 < size) (hcop : (stride size).Coprime size) (h : bound ≤ size) :
    walkEnd size bound bound 0 = 0 := by
  rcases Nat.eq_zero_or_pos bound with rfl | hpos
  · rfl
  · exact (walk_bound hsize hcop hpos h).2

/-- **The walk meets every slot below the bound once.** -/
theorem perm_walk (hsize : 0 < size) (hcop : (stride size).Coprime size) (h : bound ≤ size) :
    (walk size bound bound 0).Perm (List.range bound) := by
  rcases Nat.eq_zero_or_pos bound with rfl | hpos
  · exact .refl _
  · have hperm := perm_map_slotAt hsize hcop
    rw [(walk_bound hsize hcop hpos h).1]
    refine (List.perm_ext_iff_of_nodup ((hperm.nodup_iff.mpr List.nodup_range).filter _)
      List.nodup_range).mpr ?_
    intro slot
    rw [List.mem_filter, hperm.mem_iff, List.mem_range, List.mem_range, decide_eq_true_eq]
    omega

/-! ### Writing a table -/

/-- Puts symbols on the slots of a table. -/
abbrev place (table : Array UInt8) (placed : List (ℕ × UInt8)) : Array UInt8 :=
  placed.foldl (fun table (slot, symbol) => table.setIfInBounds slot symbol) table

theorem size_place (placed : List (ℕ × UInt8)) (table : Array UInt8) :
    (place table placed).size = table.size := by
  induction placed generalizing table with
  | nil => rfl
  | cons head tail ih => rw [place, List.foldl_cons, ih, Array.size_setIfInBounds]

/-- A slot that nothing is put on keeps what it has. -/
theorem getD_place_of_notMem {placed : List (ℕ × UInt8)} {slot : ℕ}
    (h : slot ∉ placed.map Prod.fst) (table : Array UInt8) :
    (place table placed).getD slot 0 = table.getD slot 0 := by
  induction placed generalizing table with
  | nil => rfl
  | cons head tail ih =>
    simp only [List.map_cons, List.mem_cons, not_or] at h
    rw [place, List.foldl_cons, ih h.2]
    simp [Array.getD_eq_getD_getElem?, Array.getElem?_setIfInBounds_ne (Ne.symm h.1)]

/-- A slot that one symbol is put on has that symbol. -/
theorem getD_place_of_mem {placed : List (ℕ × UInt8)} (hnodup : (placed.map Prod.fst).Nodup)
    (table : Array UInt8) {slot : ℕ} {symbol : UInt8} (h : (slot, symbol) ∈ placed)
    (hslot : slot < table.size) : (place table placed).getD slot 0 = symbol := by
  induction placed generalizing table with
  | nil => cases h
  | cons head tail ih =>
    rw [List.map_cons, List.nodup_cons] at hnodup
    rw [place, List.foldl_cons]
    rcases List.mem_cons.mp h with rfl | h
    · rw [getD_place_of_notMem hnodup.1]
      simp [Array.getD_eq_getD_getElem?, hslot]
    · exact ih hnodup.2 _ h (by simpa using hslot)

/-- **Placing every slot once** leaves the symbols placed, in some order. -/
theorem perm_toList_place {placed : List (ℕ × UInt8)} {table : Array UInt8}
    (h : (placed.map Prod.fst).Perm (List.range table.size)) :
    (place table placed).toList.Perm (placed.map Prod.snd) := by
  have hnodup : (placed.map Prod.fst).Nodup := h.nodup_iff.mpr List.nodup_range
  have hread : (place table placed).toList =
      (List.range table.size).map ((place table placed).getD · 0) := by
    refine List.ext_getElem (by simp [size_place]) ?_
    intro slot hslot _
    simp only [List.getElem_map, List.getElem_range, Array.getElem_toList]
    exact (Array.getElem_eq_getD 0)
  have hsymbols : (placed.map Prod.fst).map ((place table placed).getD · 0) =
      placed.map Prod.snd := by
    rw [List.map_map]
    refine List.map_congr_left ?_
    intro p hp
    refine getD_place_of_mem hnodup table hp ?_
    exact List.mem_range.mp (h.mem_iff.mp (List.mem_map_of_mem hp))
  rw [hread, ← hsymbols]
  exact h.symm.map _

end Spread

namespace Share

/-- A share is made up of a rare and a common part. -/
theorem rare_add_weight (share : Share) :
    (if share = .rare then 1 else 0) + share.weight = share.slots := by
  cases share <;> simp [weight, slots]

end Share

namespace Distribution

open Spread

/-! ### Symbols by share -/

/-- The present ones among symbols given with their shares, each as often as `number` tells. -/
def repeated (number : Share → ℕ) (symbols : List (Share × ℕ)) : List UInt8 :=
  (symbols.filterMap fun (share, symbol) =>
    if share = .absent then none else some (symbol.toUInt8, share)).flatMap
      fun (symbol, share) => List.replicate (number share) symbol

variable {number : Share → ℕ}

theorem repeated_cons (habsent : number .absent = 0) (share : Share) (symbol : ℕ)
    (rest : List (Share × ℕ)) :
    repeated number ((share, symbol) :: rest) =
      List.replicate (number share) symbol.toUInt8 ++ repeated number rest := by
  by_cases h : share = .absent
  · simp [repeated, h, habsent]
  · simp [repeated, h]

theorem length_repeated_zipIdx (habsent : number .absent = 0) (shares : List Share) (k : ℕ) :
    (repeated number (shares.zipIdx k)).length = (shares.map number).sum := by
  induction shares generalizing k with
  | nil => rfl
  | cons share rest ih => simp [repeated_cons habsent, ih]

theorem count_repeated_zipIdx (habsent : number .absent = 0) (shares : List Share) (k : ℕ)
    (hbytes : k + shares.length ≤ 256) (symbol : UInt8) :
    (repeated number (shares.zipIdx k)).count symbol =
      if k ≤ symbol.toNat then (shares[symbol.toNat - k]?.map number).getD 0 else 0 := by
  induction shares generalizing k with
  | nil => simp [repeated]
  | cons share rest ih =>
    rw [List.length_cons] at hbytes
    rw [List.zipIdx_cons, repeated_cons habsent, List.count_append, List.count_replicate,
      ih (k + 1) (by omega)]
    have hk : k.toUInt8.toNat = k := by simp; omega
    rcases Nat.lt_trichotomy k symbol.toNat with h | h | h
    · have hne : k.toUInt8 ≠ symbol := by
        rintro rfl
        rw [hk] at h
        omega
      rw [show symbol.toNat - k = symbol.toNat - (k + 1) + 1 by omega]
      simp [hne, Nat.le_of_lt h, Nat.succ_le_of_lt h]
    · have heq : k.toUInt8 = symbol := UInt8.toNat.inj (by rw [hk, h])
      simp [heq, ← h]
    · have hne : k.toUInt8 ≠ symbol := by
        rintro rfl
        rw [hk] at h
        omega
      simp [hne, Nat.not_le.mpr h, show ¬ k + 1 ≤ symbol.toNat by omega]

theorem commonSymbols_eq (distribution : Distribution) :
    distribution.commonSymbols = repeated Share.weight distribution.shares.zipIdx := rfl

theorem rareSymbols_eq (distribution : Distribution) :
    distribution.rareSymbols =
      repeated (fun share => if share = .rare then 1 else 0) distribution.shares.zipIdx := by
  rw [rareSymbols, repeated, present, List.filterMap_eq_flatMap_toList]
  refine List.flatMap_congr ?_
  intro p _
  by_cases h : p.2 = .rare <;> simp [h]

theorem length_rareSymbols_add (distribution : Distribution) :
    distribution.rareSymbols.length + distribution.commonSymbols.length = distribution.size := by
  rw [rareSymbols_eq, commonSymbols_eq, length_repeated_zipIdx rfl, length_repeated_zipIdx rfl,
    ← List.sum_map_add, size, ← distribution.sum_slots]
  exact congrArg List.sum (List.map_congr_left fun share _ => share.rare_add_weight)

theorem count_rareSymbols (distribution : Distribution) (symbol : UInt8) :
    distribution.rareSymbols.count symbol =
      ((distribution.share? symbol.toNat).map
        fun share => if share = .rare then 1 else 0).getD 0 := by
  rw [rareSymbols_eq, count_repeated_zipIdx rfl _ _
    (by rw [Nat.zero_add]; exact distribution.length_shares_le), if_pos (Nat.zero_le _)]
  rfl

theorem count_commonSymbols (distribution : Distribution) (symbol : UInt8) :
    distribution.commonSymbols.count symbol =
      ((distribution.share? symbol.toNat).map Share.weight).getD 0 := by
  rw [commonSymbols_eq, count_repeated_zipIdx rfl _ _
    (by rw [Nat.zero_add]; exact distribution.length_shares_le), if_pos (Nat.zero_le _)]
  rfl

/-- **Rare and common symbols together** are as many of each symbol as it has slots. -/
theorem count_symbols (distribution : Distribution) (symbol : UInt8) :
    (distribution.rareSymbols ++ distribution.commonSymbols).count symbol =
      distribution.slots symbol.toNat := by
  rw [List.count_append, count_rareSymbols, count_commonSymbols, slots]
  cases distribution.share? symbol.toNat with
  | none => rfl
  | some share => exact share.rare_add_weight

/-! ### Placements -/

theorem rareBound_add (distribution : Distribution) :
    distribution.rareBound + distribution.rareSymbols.length = distribution.size := by
  have := distribution.length_rareSymbols_add
  rw [rareBound]
  omega

theorem length_commonSymbols (distribution : Distribution) :
    distribution.commonSymbols.length = distribution.rareBound := by
  have := distribution.length_rareSymbols_add
  have := distribution.rareBound_add
  omega

/-- The slots from the high end down are those at or above the bound of the common ones. -/
theorem perm_highEnd {size bound count : ℕ} (h : bound + count = size) :
    ((List.range count).map fun i => size - 1 - i).Perm (List.range' bound count) := by
  refine (List.perm_ext_iff_of_nodup ?_ List.nodup_range').mpr ?_
  · refine List.Nodup.map_on ?_ List.nodup_range
    intro i hi j hj heq
    rw [List.mem_range] at hi hj
    omega
  · intro slot
    simp only [List.mem_map, List.mem_range, List.mem_range'_1]
    constructor
    · rintro ⟨i, hi, rfl⟩
      omega
    · intro hslot
      exact ⟨size - 1 - slot, by omega, by omega⟩

/-- **Every slot is placed once.** -/
theorem perm_placements (distribution : Distribution) :
    (distribution.placements.map Prod.fst).Perm (List.range distribution.size) := by
  have hadd := distribution.rareBound_add
  have hwalk := perm_walk distribution.size_pos (coprime_stride distribution.tableLog_mem.1)
    (Nat.le.intro hadd)
  have hrange : List.range distribution.size = List.range distribution.rareBound ++
      List.range' distribution.rareBound distribution.rareSymbols.length := by
    rw [← hadd, List.range_add, List.range'_eq_map_range]
  rw [placements, List.map_append, List.map_fst_zip (by simp), List.map_fst_zip (by simp),
    length_commonSymbols, hrange]
  exact (List.perm_append_comm).trans (hwalk.append (perm_highEnd hadd))

theorem map_snd_placements (distribution : Distribution) :
    distribution.placements.map Prod.snd =
      distribution.rareSymbols ++ distribution.commonSymbols := by
  rw [placements, List.map_append, List.map_snd_zip (by simp), List.map_snd_zip (by simp)]

/-- The table of symbols holds the rare and the common symbols, in some order. -/
theorem perm_spread (distribution : Distribution) :
    distribution.spread.toList.Perm (distribution.rareSymbols ++ distribution.commonSymbols) := by
  rw [← map_snd_placements]
  exact perm_toList_place (by rw [Array.size_replicate]; exact distribution.perm_placements)

/-- **A symbol is spread over as many slots as it owns.** -/
theorem count_spread (distribution : Distribution) (symbol : UInt8) :
    distribution.spread.toList.count symbol = distribution.slots symbol.toNat := by
  rw [distribution.perm_spread.count_eq, count_symbols]

theorem length_spread (distribution : Distribution) :
    distribution.spread.toList.length = distribution.size := by
  rw [Array.length_toList, size_spread]

end Distribution

end FiniteStateEntropy
