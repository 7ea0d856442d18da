import FiniteStateEntropy.Proofs.Tables

/-!
# Common symbols are dealt out in a loop that ends

The walk of a spread skips the slots at and above its bound, one stride after the other, for as
long as it meets such slots. The definition of the walk allows a skip no more strides than the
table has slots, and takes what it has when they are used up. That allowance is no part of what a
spread is. Here the walk is compared with a loop that has none, which would skip for ever if the
strides never came back below the bound.

They do come back: the stride is coprime to the size of the table, so one of as many strides as
there are slots ends at slot `0`, which is below every bound that leaves a slot to deal. If all
symbols are rare there is no such slot, and no symbol that one would be looked for.

`Spread.Settles` and `Spread.Deals` are inductive, so to have a derivation is to have come to an
end, and a run has at most one end.

## Main definitions

* `Spread.Settles`: skipping slots, without a limit
* `Spread.Deals`: dealing symbols out along the walk
* `Distribution.IsSpreadOver`: the table of symbols that a distribution asks for

## Main results

* `Spread.settles_next`: the walk comes back below the bound
* `Spread.deals_walk`: so symbols are dealt out as the walk goes
* `Distribution.pairwise_rareSymbols`, `Distribution.mem_rareSymbols`: the rare symbols in order
* `Distribution.spread_dealt`: the loops of a spread end where they began, with the table filled
-/

namespace FiniteStateEntropy

namespace Spread

/-! ### Loops without a limit -/

/-- Going on from `slot` for as long as the slots are not below `bound` ends at `last`. -/
inductive Settles (size bound : ℕ) : ℕ → ℕ → Prop
  /-- A slot below the bound is where it ends. -/
  | stop {slot : ℕ} (below : slot < bound) : Settles size bound slot slot
  /-- Another one is left by a stride. -/
  | skip {slot last : ℕ} (above : bound ≤ slot)
      (rest : Settles size bound ((slot + stride size) % size) last) :
      Settles size bound slot last

/-- Dealing `symbols` out from `slot` on puts them on slots as `placed` tells, and ends at
`last`. -/
inductive Deals (size bound : ℕ) : List UInt8 → ℕ → List (ℕ × UInt8) → ℕ → Prop
  /-- There is nothing to deal out. -/
  | done (slot : ℕ) : Deals size bound [] slot [] slot
  /-- A symbol is put where the walk stands, which makes a stride then and skips slots. -/
  | deal {symbol : UInt8} {symbols : List UInt8} {slot next last : ℕ}
      {placed : List (ℕ × UInt8)}
      (settles : Settles size bound ((slot + stride size) % size) next)
      (rest : Deals size bound symbols next placed last) :
      Deals size bound (symbol :: symbols) slot ((slot, symbol) :: placed) last

variable {size bound : ℕ}

/-- A skip has one end. -/
theorem Settles.unique {slot last last' : ℕ} (h : Settles size bound slot last)
    (h' : Settles size bound slot last') : last = last' := by
  induction h with
  | stop below =>
    cases h' with
    | stop _ => rfl
    | skip above _ => omega
  | skip above _ ih =>
    cases h' with
    | stop below => omega
    | skip _ rest => exact ih rest

/-- A deal has one end, and puts every symbol on one slot. -/
theorem Deals.unique {symbols : List UInt8} {slot last last' : ℕ}
    {placed placed' : List (ℕ × UInt8)} (h : Deals size bound symbols slot placed last)
    (h' : Deals size bound symbols slot placed' last') : placed' = placed ∧ last' = last := by
  induction h generalizing placed' with
  | done slot =>
    cases h' with
    | done _ => exact ⟨rfl, rfl⟩
  | deal settles _ ih =>
    cases h' with
    | deal settles' rest =>
      obtain rfl := settles.unique settles'
      obtain ⟨rfl, rfl⟩ := ih rest
      exact ⟨rfl, rfl⟩

/-! ### They end -/

/-- Seeking that has found a slot below the bound has found the end of the skip. -/
theorem settles_seek {fuel slot : ℕ} (h : seek size bound fuel slot < bound) :
    Settles size bound slot (seek size bound fuel slot) := by
  induction fuel generalizing slot with
  | zero => exact .stop h
  | succ fuel ih =>
    rw [seek] at h ⊢
    split
    · rename_i hlt
      exact .stop hlt
    · rename_i hge
      rw [if_neg hge] at h
      exact .skip (Nat.le_of_not_lt hge) (ih h)

/-- **The walk comes back below the bound** after any number of strides. -/
theorem settles_next (hsize : 0 < size) (hbound : 0 < bound) (k : ℕ) :
    Settles size bound ((slotAt size k + stride size) % size)
      (next size bound (slotAt size k)) := by
  obtain ⟨i, hnext, -, hlt⟩ := next_slotAt hsize hbound k
  exact settles_seek (by rwa [← next, hnext])

/-- **Symbols are dealt out as the walk goes**, from a slot below the bound. -/
theorem deals_walk (hsize : 0 < size) (symbols : List UInt8) {k : ℕ}
    (hk : slotAt size k < bound) :
    Deals size bound symbols (slotAt size k)
      ((walk size bound symbols.length (slotAt size k)).zip symbols)
      (walkEnd size bound symbols.length (slotAt size k)) := by
  induction symbols generalizing k with
  | nil => exact .done _
  | cons symbol symbols ih =>
    have hbound : 0 < bound := Nat.zero_lt_of_lt hk
    have hsettles := settles_next hsize hbound k
    obtain ⟨i, hnext, -, hlt⟩ := next_slotAt hsize hbound k
    have hrest := ih hlt
    rw [← hnext] at hrest
    exact .deal hsettles hrest

end Spread

namespace Distribution

open Spread

variable {distribution : Distribution}

/-! ### Rare and common symbols -/

/-- The rare symbols are those with a rare share. -/
theorem mem_rareSymbols {symbol : UInt8} :
    symbol ∈ distribution.rareSymbols ↔ distribution.share? symbol.toNat = some .rare := by
  rw [← List.count_pos_iff, count_rareSymbols]
  cases distribution.share? symbol.toNat with
  | none => simp
  | some share => by_cases h : share = .rare <;> simp [h]

/-- The common symbols are those with slots of their own. -/
theorem mem_commonSymbols {symbol : UInt8} :
    symbol ∈ distribution.commonSymbols ↔
      ∃ slots pos, distribution.share? symbol.toNat = some (.common slots pos) := by
  rw [← List.count_pos_iff, count_commonSymbols]
  cases distribution.share? symbol.toNat with
  | none => simp
  | some share => cases share <;> simp [Share.weight, *]

/-- The symbols of an alphabet that are repeated at most once stand in ascending order, and none
of them before the first symbol of the alphabet. -/
theorem pairwise_repeated_zipIdx {number : Share → ℕ} (habsent : number .absent = 0)
    (hone : ∀ share, number share ≤ 1) (shares : List Share) (k : ℕ)
    (hbytes : k + shares.length ≤ 256) :
    (repeated number (shares.zipIdx k)).Pairwise (· < ·) ∧
      ∀ symbol ∈ repeated number (shares.zipIdx k), k ≤ symbol.toNat := by
  induction shares generalizing k with
  | nil => simp [repeated]
  | cons share rest ih =>
    rw [List.length_cons] at hbytes
    have hk : k.toUInt8.toNat = k := by simp; omega
    obtain ⟨hsorted, hfrom⟩ := ih (k + 1) (by omega)
    rw [List.zipIdx_cons, repeated_cons habsent, List.pairwise_append]
    refine ⟨⟨?_, hsorted, ?_⟩, ?_⟩
    · exact List.pairwise_replicate.mpr (.inl (hone share))
    · intro symbol hsymbol later hlater
      rw [(List.mem_replicate.mp hsymbol).2, UInt8.lt_iff_toNat_lt, hk]
      exact hfrom later hlater
    · intro symbol hsymbol
      rcases List.mem_append.mp hsymbol with hsymbol | hsymbol
      · rw [(List.mem_replicate.mp hsymbol).2, hk]
      · exact Nat.le_of_succ_le (hfrom symbol hsymbol)

/-- **The rare symbols stand in ascending order.** -/
theorem pairwise_rareSymbols (distribution : Distribution) :
    distribution.rareSymbols.Pairwise (· < ·) := by
  rw [rareSymbols_eq]
  refine (pairwise_repeated_zipIdx rfl ?_ _ _ ?_).1
  · intro share
    split <;> omega
  · rw [Nat.zero_add]
    exact distribution.length_shares_le

/-! ### The table -/

/-- The rare symbols and the slots from the high end down. -/
def rarePlacements (distribution : Distribution) : List (ℕ × UInt8) :=
  ((List.range distribution.rareSymbols.length).map fun i => distribution.size - 1 - i).zip
    distribution.rareSymbols

/-- What is placed on a slot stands there. -/
theorem getElem?_spread_of_mem {slot : ℕ} {symbol : UInt8}
    (h : (slot, symbol) ∈ distribution.placements) : distribution.spread[slot]? = some symbol := by
  have hperm := distribution.perm_placements
  have hslot : slot < distribution.size :=
    List.mem_range.mp (hperm.mem_iff.mp (List.mem_map_of_mem h))
  have hread := getD_place_of_mem (hperm.nodup_iff.mpr List.nodup_range)
    (Array.replicate distribution.size 0) h (by rwa [Array.size_replicate])
  rw [← size_spread] at hslot
  rw [Array.getElem?_eq_getElem hslot, Array.getElem_eq_getD 0]
  exact congrArg some hread

/-- **The rare symbols stand at the high end**, the first of them in the last slot. -/
theorem getElem?_spread_rare {i : ℕ} {symbol : UInt8}
    (h : distribution.rareSymbols[i]? = some symbol) :
    distribution.spread[distribution.size - 1 - i]? = some symbol := by
  refine getElem?_spread_of_mem (List.mem_append_left _ (List.mem_of_getElem? (i := i) ?_))
  obtain ⟨hi, -⟩ := List.getElem?_eq_some_iff.mp h
  rw [List.getElem?_zip_eq_some]
  exact ⟨by simp [hi], h⟩

/-- **The slots below have common symbols.** -/
theorem exists_common_of_lt {slot : ℕ} (h : slot < distribution.rareBound) :
    ∃ symbol ∈ distribution.commonSymbols, distribution.spread[slot]? = some symbol := by
  have hwalk := perm_walk distribution.size_pos (coprime_stride distribution.tableLog_mem.1)
    (Nat.le.intro distribution.rareBound_add)
  rw [← length_commonSymbols] at hwalk h
  obtain ⟨i, hi, hslot⟩ := List.getElem_of_mem (hwalk.mem_iff.mpr (List.mem_range.mpr h))
  rw [length_walk] at hi
  refine ⟨distribution.commonSymbols[i], List.getElem_mem hi,
    getElem?_spread_of_mem (List.mem_append_right _ (List.mem_of_getElem? (i := i) ?_))⟩
  rw [List.getElem?_zip_eq_some, ← length_commonSymbols]
  exact ⟨by rw [← hslot, List.getElem?_eq_getElem], List.getElem?_eq_getElem hi⟩

/-- The table has the symbols of a distribution where they belong. -/
structure IsSpreadOver (distribution : Distribution) (table : Array UInt8) : Prop where
  /-- It has a symbol for every slot. -/
  size_eq : table.size = distribution.size
  /-- It has every symbol as often as the symbol has slots. -/
  count_eq : ∀ symbol, table.toList.count symbol = distribution.slots symbol.toNat
  /-- The rare symbols stand at the high end, from the last slot down. -/
  rare_at : ∀ i symbol, distribution.rareSymbols[i]? = some symbol →
    table[distribution.size - 1 - i]? = some symbol
  /-- Below them there are common symbols only. -/
  common_below : ∀ slot < distribution.size - distribution.rareSymbols.length,
    ∃ symbol slots pos, table[slot]? = some symbol ∧
      distribution.share? symbol.toNat = some (.common slots pos)

theorem isSpreadOver_spread (distribution : Distribution) :
    distribution.IsSpreadOver distribution.spread where
  size_eq := distribution.size_spread
  count_eq := distribution.count_spread
  rare_at _ _ h := getElem?_spread_rare h
  common_below slot h := by
    obtain ⟨symbol, hmem, hslot⟩ := exists_common_of_lt h
    obtain ⟨slots, pos, hshare⟩ := mem_commonSymbols.mp hmem
    exact ⟨symbol, slots, pos, hslot, hshare⟩

/-- The common symbols are dealt out, and the walk is back where it began. -/
theorem deals_commonSymbols (distribution : Distribution) :
    Deals distribution.size distribution.rareBound distribution.commonSymbols 0
      ((walk distribution.size distribution.rareBound distribution.commonSymbols.length 0).zip
        distribution.commonSymbols) 0 := by
  have hsize := distribution.size_pos
  have hlength := distribution.length_commonSymbols
  rcases Nat.eq_zero_or_pos distribution.rareBound with hzero | hpos
  · -- all slots are for rare symbols
    rw [hzero] at hlength
    rw [List.eq_nil_of_length_eq_zero hlength]
    exact .done 0
  · have hstart : slotAt distribution.size 0 < distribution.rareBound := by rwa [slotAt_zero]
    have hdeals := deals_walk hsize distribution.commonSymbols hstart
    have hclosed : walkEnd distribution.size distribution.rareBound
        distribution.commonSymbols.length 0 = 0 := by
      rw [hlength]
      exact walkEnd_bound hsize (coprime_stride distribution.tableLog_mem.1)
        (Nat.le.intro distribution.rareBound_add)
    rwa [slotAt_zero, hclosed] at hdeals

/-- **The loops of a spread end where they began, with the table filled.** Above a bound the slots
are for the rare symbols, which stand there in ascending order from the last slot down. The other
slots are met by a walk that skips those above the bound for as long as it takes: there is exactly
one way to deal the common symbols out, it comes to an end, and at the end the walk is back at slot
`0`. Every slot is written once, and the table that is written has all the slots of every symbol. -/
theorem spread_dealt (distribution : Distribution) :
    distribution.rareSymbols.Pairwise (· < ·) ∧
      (∀ symbol, symbol ∈ distribution.rareSymbols ↔
        distribution.share? symbol.toNat = some .rare) ∧
      ∃ dealt,
        (∀ placed last, Deals distribution.size
            (distribution.size - distribution.rareSymbols.length) distribution.commonSymbols 0
            placed last ↔ placed = dealt ∧ last = 0) ∧
          ((distribution.rarePlacements ++ dealt).map Prod.fst).Perm
            (List.range distribution.size) ∧
          distribution.spread =
            place (Array.replicate distribution.size 0) (distribution.rarePlacements ++ dealt) ∧
          distribution.IsSpreadOver distribution.spread := by
  refine ⟨distribution.pairwise_rareSymbols, fun symbol => mem_rareSymbols,
    (walk distribution.size distribution.rareBound distribution.commonSymbols.length 0).zip
      distribution.commonSymbols, ?_, distribution.perm_placements, rfl,
    distribution.isSpreadOver_spread⟩
  intro placed last
  constructor
  · intro h
    exact distribution.deals_commonSymbols.unique h
  · rintro ⟨rfl, rfl⟩
    exact distribution.deals_commonSymbols

/-- One slot is left below the rare symbols, or none. -/
example :
    (⟨5, .common 1 (by decide) :: List.replicate 31 .rare, by decide, by decide, by decide,
      by decide, by decide⟩ : Distribution).spread.toList =
        0 :: (List.range 31).map (fun i => (31 - i).toUInt8) ∧
    (⟨5, List.replicate 32 .rare, by decide, by decide, by decide, by decide,
      by decide⟩ : Distribution).spread.toList =
        (List.range 32).map (fun i => (31 - i).toUInt8) := by
  decide +kernel

end Distribution

end FiniteStateEntropy
