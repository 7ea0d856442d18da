import FiniteStateEntropy.Proofs.CheckedTables

/-!
# Encode tables are built safely

The encode table of a distribution with the checks of its construction. The states are not grouped
first and joined afterwards: a running sum gives every symbol its place in the state list, and one
pass over the spread writes the state of every slot to the next place of the slot's symbol.

What makes that safe is that the groups of two symbols do not overlap. `Checked.Filled` says how
far the pass has come: the next place of a symbol is its first one and as many more as it had slots,
and the places before it have their states. One slot keeps this, and at the end of the table every
place is before the next one of its symbol.

The constants of a symbol are differences and shifts of its slots. They stay in their fields because
the threshold of a symbol is at most twice the size of the table.

## Main definitions

* `Checked.closedSpread`: the spread, with the walk back where it began
* `Checked.fill`: the states of a run of slots
* `Checked.transform`: the constants of a symbol
* `Checked.encodeTable`: the encoding automaton

## Main results

* `Checked.Filled.step`, `Checked.fill_starts_eq`: one slot is filled safely, and so are all
* `Checked.transform_eq`: the constants of a symbol fit their fields
* `Checked.encodeTable_eq`: the encode table is built safely
-/

namespace FiniteStateEntropy

namespace Checked

/-! ### Building with checks -/

/-- The symbol of every slot, from a walk that has to end where it began. -/
def closedSpread (distribution : Distribution) : Except Stop (Array UInt8) := do
  let symbols ← spread distribution
  let _ ← within 1 (Spread.walkEnd distribution.size distribution.rareBound
    distribution.commonSymbols.length 0)
  return symbols

/-- The first place of each symbol in the state list, in sums of 32 bits. -/
def startsFrom : ℕ → List Share → Except Stop (List ℕ)
  | _, [] => return []
  | start, share :: rest => do
    let next ← fit 32 (start + share.slots)
    let starts ← startsFrom next rest
    return start :: starts

/-- Writes the states of a run of slots, the first of which is number `slot`, each to the next place
of its symbol. -/
def fill (size : ℕ) : List UInt8 → ℕ → Array ℕ → Array UInt16 → Except Stop (Array UInt16)
  | [], _, _, states => return states
  | symbol :: rest, slot, places, states => do
    let place ← lookup places symbol.toNat
    let state ← fit 16 (size + slot)
    let states ← put states place state.toUInt16
    let next ← fit 32 (place + 1)
    let places ← put places symbol.toNat next
    fill size rest (slot + 1) places states

/-- The constants of a symbol with `slots` slots. The bias is a difference of numbers of 32 bits,
the offset one of numbers of 31. -/
def transform (tableLog start slots : ℕ) : Except Stop Transform :=
  if slots = 0 then
    return .absent
  else do
    let last ← sub slots 1
    let maxWidth ← sub tableLog last.log2
    let shift ← fit 5 maxWidth
    let threshold ← fit 32 (slots <<< shift)
    let shifted ← fit 32 (maxWidth <<< 16)
    let bias ← sub shifted threshold
    let start ← fit 31 start
    let slots ← fit 31 slots
    return ⟨bias, maxWidth, threshold, (start : ℤ) - (slots : ℤ)⟩

/-- The encoding automaton. -/
def encodeTable (distribution : Distribution) : Except Stop EncodeTable := do
  let symbols ← closedSpread distribution
  let starts ← startsFrom 0 distribution.shares
  let states ← fill distribution.size symbols.toList 0 starts.toArray
    (Array.replicate distribution.size 0)
  let transforms ← (starts.zip distribution.shares).mapM fun (start, share) =>
    transform distribution.tableLog start share.slots
  return ⟨distribution.tableLog, states, transforms.toArray⟩

open FiniteStateEntropy.Distribution

variable {distribution : Distribution}

/-! ### The spread -/

/-- The walk is back where it began when every common symbol has its slots. -/
theorem closedSpread_eq (distribution : Distribution) :
    closedSpread distribution = .ok distribution.spread := by
  have hclosed := Spread.walkEnd_bound distribution.size_pos
    (Spread.coprime_stride distribution.tableLog_mem.1) (Nat.le.intro distribution.rareBound_add)
  rw [closedSpread, length_commonSymbols]
  exact pass (spread_eq distribution) (pass (within_eq (Nat.lt_one_iff.mpr hclosed)) rfl)

/-! ### The places of the symbols -/

/-- The first places of the symbols behind some others. -/
theorem startsFrom_eq {start : ℕ} {shares : List Share}
    (h : start + (shares.map Share.slots).sum < 2 ^ 32) :
    startsFrom start shares = .ok ((List.range shares.length).map fun k =>
      start + ((shares.take k).map Share.slots).sum) := by
  induction shares generalizing start with
  | nil => rfl
  | cons share rest ih =>
    rw [List.map_cons, List.sum_cons, ← Nat.add_assoc] at h
    refine pass (fit_eq (Nat.lt_of_le_of_lt (Nat.le_add_right _ _) h)) (pass (ih h) ?_)
    rw [List.length_cons, List.range_succ_eq_map, List.map_cons, List.map_map]
    refine congrArg Except.ok (congrArg (start :: ·) (List.map_congr_left ?_))
    intro k _
    simp [Nat.add_assoc]

/-- The first place of every symbol. -/
def starts (distribution : Distribution) : List ℕ :=
  (List.range distribution.shares.length).map distribution.start

theorem startsFrom_zero_eq (distribution : Distribution) :
    startsFrom 0 distribution.shares = .ok (starts distribution) := by
  have hsize := distribution.size_le
  rw [maxTableLog] at hsize
  have hsum : 0 + (distribution.shares.map Share.slots).sum < 2 ^ 32 := by
    rw [distribution.sum_slots, ← size]
    omega
  rw [startsFrom_eq hsum]
  simp only [Nat.zero_add]
  rfl

/-! ### The states -/

/-- The states of the slots before `slot` are written, and the others come next. -/
structure Filled (distribution : Distribution) (slot : ℕ) (places : Array ℕ)
    (states : Array UInt16) : Prop where
  /-- The next place of a symbol is behind those of its earlier slots. -/
  place_eq : ∀ symbol : UInt8, distribution.slots symbol.toNat ≠ 0 →
    places[symbol.toNat]? =
      some (distribution.start symbol.toNat + distribution.earlier symbol slot)
  /-- There is a place for every state. -/
  size_eq : states.size = distribution.size
  /-- The places of the earlier slots have their states. -/
  state_eq : ∀ (symbol : UInt8) (i : ℕ), i < distribution.earlier symbol slot →
    states[distribution.start symbol.toNat + i]? =
      some (distribution.size + distribution.nthSlot symbol i).toUInt16

/-- Nothing is written at first. -/
theorem filled_zero (distribution : Distribution) :
    Filled distribution 0 (starts distribution).toArray (Array.replicate distribution.size 0) where
  place_eq := by
    intro symbol hsymbol
    simp [starts, lt_length_of_slots_ne_zero hsymbol, earlier]
  size_eq := Array.size_replicate
  state_eq := by
    intro symbol i hi
    simp [earlier] at hi

namespace Filled

variable {slot : ℕ} {symbol : UInt8} {places : Array ℕ} {states : Array UInt16}

/-- **One slot is filled.** Its place is that of no other slot. -/
theorem step (h : Filled distribution slot places states)
    (hslot : distribution.spread.toList[slot]? = some symbol) :
    Filled distribution (slot + 1)
      (places.setIfInBounds symbol.toNat
        (distribution.start symbol.toNat + distribution.earlier symbol slot + 1))
      (states.setIfInBounds (distribution.start symbol.toNat + distribution.earlier symbol slot)
        (distribution.size + slot).toUInt16) where
  place_eq := by
    intro other hother
    have hplace := h.place_eq other hother
    rw [Array.getElem?_setIfInBounds, earlier_succ hslot]
    by_cases heq : symbol = other
    · subst heq
      rw [if_pos rfl, if_pos (Array.getElem?_eq_some_iff.mp hplace).1, if_pos rfl, Nat.add_assoc]
    · rw [if_neg (mt UInt8.toNat.inj heq), if_neg heq, hplace, Nat.add_zero]
  size_eq := by rw [Array.size_setIfInBounds, h.size_eq]
  state_eq := by
    intro other i hi
    have hearlier := earlier_lt hslot
    have hgroup := distribution.start_add_slots_le_size symbol.toNat
    rw [earlier_succ hslot] at hi
    rw [Array.getElem?_setIfInBounds, h.size_eq]
    by_cases heq : symbol = other
    · subst heq
      rw [if_pos rfl] at hi
      rcases Nat.lt_succ_iff_lt_or_eq.mp hi with hbefore | rfl
      · rw [if_neg (by omega)]
        exact h.state_eq symbol i hbefore
      · rw [if_pos rfl, if_pos (by omega), nthSlot_earlier hslot]
    · -- the groups of two symbols lie one behind the other
      rw [if_neg heq, Nat.add_zero] at hi
      have hle := distribution.earlier_le other slot
      have hne : symbol.toNat ≠ other.toNat := mt UInt8.toNat.inj heq
      have hapart : distribution.start symbol.toNat + distribution.earlier symbol slot ≠
          distribution.start other.toNat + i := by
        rcases Nat.lt_or_gt_of_ne hne with hlt | hlt
        · have := distribution.start_add_slots_le hlt
          omega
        · have := distribution.start_add_slots_le hlt
          omega
      rw [if_neg hapart]
      exact h.state_eq other i hi

/-- When every slot is written, the list of states is the one of the table. -/
theorem eq_states (h : Filled distribution slot places states) (hslot : distribution.size ≤ slot) :
    states = distribution.encodeTable.states := by
  refine Array.ext_getElem? ?_
  intro j
  rcases Nat.lt_or_ge j distribution.size with hj | hj
  · obtain ⟨symbol, i, hi, rfl⟩ := exists_start_add hj
    rw [getElem?_states hi]
    exact h.state_eq symbol i (by rwa [earlier_of_size_le hslot])
  · rw [Array.getElem?_eq_none (by rwa [h.size_eq]),
      Array.getElem?_eq_none (by rwa [size_states])]

/-- **A run of slots is filled safely.** After the last one, every slot has its state. -/
theorem fill_eq (h : Filled distribution slot places states) {rest : List UInt8}
    (hrest : distribution.spread.toList.drop slot = rest) :
    fill distribution.size rest slot places states = .ok distribution.encodeTable.states := by
  have hsize := distribution.size_le
  rw [maxTableLog] at hsize
  induction rest generalizing slot places states with
  | nil =>
    refine congrArg Except.ok (h.eq_states ?_)
    rw [← length_spread]
    exact List.drop_eq_nil_iff.mp hrest
  | cons symbol rest ih =>
    have hslot : distribution.spread.toList[slot]? = some symbol := by
      rw [← List.head?_drop, hrest, List.head?_cons]
    have htail : distribution.spread.toList.drop (slot + 1) = rest := by
      rw [← List.tail_drop, hrest, List.tail_cons]
    have hlt : slot < distribution.size := by
      rw [← length_spread]
      exact (List.getElem?_eq_some_iff.mp hslot).1
    have hsymbol := slots_ne_zero_of_mem_spread (List.mem_of_getElem? hslot)
    have hearlier := earlier_lt hslot
    have hgroup := distribution.start_add_slots_le_size symbol.toNat
    have hplace := h.place_eq symbol hsymbol
    refine pass (lookup_eq hplace) (pass (fit_eq (by omega)) (pass (put_eq ?_ _) ?_))
    · rw [h.size_eq]
      omega
    · exact pass (fit_eq (by omega))
        (pass (put_eq (Array.getElem?_eq_some_iff.mp hplace).1 _) (ih (h.step hslot) htail))

end Filled

/-- **The list of states is filled in one pass**, with the counters of the symbols at their first
places. -/
theorem fill_starts_eq (distribution : Distribution) :
    fill distribution.size distribution.spread.toList 0 (starts distribution).toArray
        (Array.replicate distribution.size 0) = .ok distribution.encodeTable.states :=
  (filled_zero distribution).fill_eq List.drop_zero

/-! ### The constants -/

/-- **The constants of a symbol fit their fields**: its slots are shifted by less than 32, the bias
is no difference below zero, and the offset is one of numbers of 31 bits. -/
theorem transform_eq {tableLog start slots : ℕ} (htable : 0 < tableLog)
    (hlog : tableLog ≤ maxTableLog) (hslots : slots ≤ 2 ^ tableLog)
    (hstart : start ≤ 2 ^ tableLog) :
    transform tableLog start slots = .ok (.ofSlots tableLog start slots) := by
  rw [transform, Transform.ofSlots]
  by_cases hzero : slots = 0
  · rw [if_pos hzero, if_pos hzero]
    rfl
  rw [if_neg hzero, if_neg hzero]
  have hwidth := Transform.log2_pred_lt htable hslots
  have hthreshold := (Transform.threshold_bounds htable (Nat.pos_of_ne_zero hzero) hslots).2
  have hcontainer : 2 ^ (tableLog + 1) ≤ 2 ^ 16 :=
    Nat.pow_le_pow_right (by decide) (Nat.succ_le_succ hlog)
  have hsize : 2 ^ tableLog ≤ 2 ^ maxTableLog := Nat.pow_le_pow_right (by decide) hlog
  rw [maxTableLog] at hlog hsize
  -- the width is positive, so it outweighs a threshold of no more than 16 bits
  have hshifted : (tableLog - (slots - 1).log2) <<< 16 = (tableLog - (slots - 1).log2) * 65536 :=
    Nat.shiftLeft_eq _ _
  rw [← Nat.shiftLeft_eq] at hthreshold
  refine pass (sub_eq (Nat.pos_of_ne_zero hzero)) (pass (sub_eq (Nat.le_of_lt hwidth)) ?_)
  refine pass (fit_eq (by omega)) (pass (fit_eq (by omega)) (pass (fit_eq (by omega)) ?_))
  refine pass (sub_eq (by omega)) (pass (fit_eq (by omega)) (pass (fit_eq (by omega)) rfl))

/-- A symbol with all the slots of a table of 32 has a width of one bit. With twice as many there is
no width for it. -/
example : transform 5 0 32 = .ok ⟨65472, 1, 64, -32⟩ ∧
    transform 5 0 65 = .error .underflow := by decide

/-- The constants of every symbol. -/
theorem mapM_transform_eq (distribution : Distribution) :
    ((starts distribution).zip distribution.shares).mapM (fun (start, share) =>
      transform distribution.tableLog start share.slots) =
        .ok (EncodeTable.transformsFrom distribution.tableLog 0 distribution.shares) := by
  have hzip : ∀ k, ((starts distribution).zip distribution.shares)[k]? =
      distribution.shares[k]?.map fun share => (distribution.start k, share) := by
    intro k
    rcases Nat.lt_or_ge k distribution.shares.length with hk | hk <;> simp [starts, List.zip, hk]
  rw [mapM_eq_ok (g := fun p => Transform.ofSlots distribution.tableLog p.1 p.2.slots)]
  · refine congrArg Except.ok (List.ext_getElem? ?_)
    intro k
    rw [List.getElem?_map, hzip, EncodeTable.getElem?_transformsFrom, Option.map_map, start,
      Nat.zero_add]
    rfl
  · rintro ⟨start, share⟩ hmem
    obtain ⟨k, hk⟩ := List.mem_iff_getElem?.mp hmem
    rw [hzip, Option.map_eq_some_iff] at hk
    obtain ⟨_, hshare, heq⟩ := hk
    cases heq
    have hgroup := distribution.start_add_slots_le_size k
    have hslots : distribution.slots k = share.slots := by rw [slots, share?, hshare]; rfl
    rw [hslots, size] at hgroup
    exact transform_eq distribution.tableLog_pos distribution.tableLog_mem.2 (by omega) (by omega)

/-- **The encode table is built safely.** -/
theorem encodeTable_eq (distribution : Distribution) :
    encodeTable distribution = .ok distribution.encodeTable :=
  pass (closedSpread_eq distribution) (pass (startsFrom_zero_eq distribution)
    (pass (fill_starts_eq distribution) (pass (mapM_transform_eq distribution) rfl)))

end Checked

end FiniteStateEntropy
