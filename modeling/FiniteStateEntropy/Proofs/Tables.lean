import FiniteStateEntropy.DecodeTable
import FiniteStateEntropy.EncodeTable
import FiniteStateEntropy.Proofs.Spread

/-!
# What the tables hold

Both automata are laid out along the spread. The decode table has at every slot the entry of the
slot's *rank*, which is the number of slots of its symbol plus the number of them that come
before it. The encode table lists the states symbol by symbol, and within a symbol in slot order,
so the state a symbol reaches under a rank is the one of the slot with that rank.

Ranks are counted in the spread: `List.countBefore` is the number of earlier slots of a symbol,
and `List.idxOfNth` goes back from that number to the slot.

## Main results

* `Distribution.getElem?_entries`: the entry of a slot
* `Distribution.toList_states`: the states, symbol by symbol
* `Distribution.next_encodeTable`: the state that a reduced state leads to
-/

namespace FiniteStateEntropy

namespace DecodeTable

/-! ### Entries -/

theorem getElem?_entriesFrom_of_lt (tableLog : ℕ) (symbols : List UInt8) (ranks : Array ℕ)
    (entries : Array DecodeEntry) {slot : ℕ} (h : slot < entries.size) :
    (entriesFrom tableLog symbols ranks entries)[slot]? = entries[slot]? := by
  induction symbols generalizing ranks entries with
  | nil => rfl
  | cons symbol rest ih =>
    rw [entriesFrom, ih _ _ (by rw [Array.size_push]; omega), Array.getElem?_push_lt h,
      Array.getElem?_eq_getElem h]

theorem size_entriesFrom (tableLog : ℕ) (symbols : List UInt8) (ranks : Array ℕ)
    (entries : Array DecodeEntry) :
    (entriesFrom tableLog symbols ranks entries).size = entries.size + symbols.length := by
  induction symbols generalizing ranks entries with
  | nil => rfl
  | cons symbol rest ih =>
    rw [entriesFrom, ih, Array.size_push, List.length_cons]
    omega

/-- A slot's entry has the rank that its symbol starts with, plus one for every earlier slot of
the symbol. -/
theorem getElem?_entriesFrom (tableLog : ℕ) {symbols : List UInt8} {ranks : Array ℕ}
    (hranks : ∀ symbol ∈ symbols, symbol.toNat < ranks.size) (entries : Array DecodeEntry)
    {slot : ℕ} {symbol : UInt8} (h : symbols[slot]? = some symbol) :
    (entriesFrom tableLog symbols ranks entries)[entries.size + slot]? =
      some (.ofRank tableLog symbol
        (ranks.getD symbol.toNat 0 + symbols.countBefore symbol slot)) := by
  induction symbols generalizing ranks entries slot with
  | nil => simp at h
  | cons head rest ih =>
    rw [entriesFrom]
    cases slot with
    | zero =>
      obtain rfl : head = symbol := by simpa using h
      rw [getElem?_entriesFrom_of_lt _ _ _ _ (by simp)]
      simp
    | succ slot =>
      rw [List.getElem?_cons_succ] at h
      have hmem : symbol ∈ rest := List.mem_of_getElem? h
      have hsymbol : symbol.toNat < ranks.size := hranks _ (List.mem_cons_of_mem _ hmem)
      have hrest : ∀ s ∈ rest, s.toNat < (ranks.modify head.toNat (· + 1)).size := fun s hs => by
        simpa using hranks s (List.mem_cons_of_mem _ hs)
      have hih := ih hrest (entries.push (.ofRank tableLog head (ranks.getD head.toNat 0))) h
      rw [Array.size_push, Nat.add_right_comm, Nat.add_assoc] at hih
      rw [hih, List.countBefore_cons_succ]
      have hrank : (ranks.modify head.toNat (· + 1)).getD symbol.toNat 0 =
          ranks.getD symbol.toNat 0 + if head == symbol then 1 else 0 := by
        by_cases heq : head = symbol
        · subst heq
          simp [hsymbol, Array.getElem_modify_self]
        · have hne : head.toNat ≠ symbol.toNat := fun hn => heq (UInt8.toNat.inj hn)
          simp [Array.getElem?_modify, hne, heq]
      rw [hrank]
      congr 2
      omega

end DecodeTable

namespace EncodeTable

/-! ### Groups -/

/-- Grouping appends to every group the slots of its symbol, in ascending order. -/
theorem getElem?_group (symbols : List UInt8) (slot : ℕ) (groups : Array (Array ℕ)) {k : ℕ}
    (hk : k < 256) :
    (group symbols slot groups)[k]? =
      groups[k]?.map (· ++ (symbols.idxsOf k.toUInt8 slot).toArray) := by
  induction symbols generalizing slot groups with
  | nil => simp [group]
  | cons symbol rest ih =>
    rw [group, ih, Array.getElem?_modify, List.idxsOf_cons]
    have hk' : k.toUInt8.toNat = k := by simp; omega
    by_cases heq : symbol.toNat = k
    · have hs : symbol = k.toUInt8 := UInt8.toNat.inj (by rw [heq, hk'])
      rw [if_pos heq, if_pos (by rw [hs, beq_self_eq_true]), Option.map_map]
      exact congrArg (Option.map · _) (funext fun slots => Array.ext' (by simp))
    · have hs : symbol ≠ k.toUInt8 := fun h => heq (by rw [h, hk'])
      simp [heq, hs]

theorem getElem?_transformsFrom (tableLog start : ℕ) (shares : List Share) (k : ℕ) :
    (transformsFrom tableLog start shares)[k]? =
      shares[k]?.map fun share => Transform.ofSlots tableLog
        (start + ((shares.take k).map Share.slots).sum) share.slots := by
  induction shares generalizing start k with
  | nil => simp [transformsFrom]
  | cons share rest ih =>
    cases k with
    | zero => simp [transformsFrom]
    | succ k => simp [transformsFrom, ih, Nat.add_assoc]

theorem size_group (symbols : List UInt8) (slot : ℕ) (groups : Array (Array ℕ)) :
    (group symbols slot groups).size = groups.size := by
  induction symbols generalizing slot groups with
  | nil => rfl
  | cons symbol rest ih => rw [group, ih, Array.size_modify]

end EncodeTable

/-- An element of a list of lists, found behind all the lists before its own. -/
theorem getElem?_flatten_of_lt {lists : List (List ℕ)} {k i : ℕ} {xs : List ℕ}
    (h : lists[k]? = some xs) (hi : i < xs.length) :
    lists.flatten[((lists.take k).map List.length).sum + i]? = xs[i]? := by
  induction lists generalizing k with
  | nil => simp at h
  | cons head rest ih =>
    cases k with
    | zero =>
      obtain rfl : head = xs := by simpa using h
      simp [List.getElem?_append_left hi]
    | succ k =>
      rw [List.getElem?_cons_succ] at h
      rw [List.flatten_cons, List.take_succ_cons, List.map_cons, List.sum_cons, Nat.add_assoc,
        List.getElem?_append_right (Nat.le_add_right _ _), Nat.add_sub_cancel_left, ih h]

namespace Distribution

variable (distribution : Distribution)

/-! ### Ranks -/

/-- The slots that `symbol` is spread over, in ascending order. -/
def slotsOf (symbol : UInt8) : List ℕ := distribution.spread.toList.idxsOf symbol

/-- The slot of `symbol` that has `i` slots of the symbol before it. -/
def nthSlot (symbol : UInt8) (i : ℕ) : ℕ := distribution.spread.toList.idxOfNth symbol i

/-- The number of slots of `symbol` before `slot`. -/
def earlier (symbol : UInt8) (slot : ℕ) : ℕ := distribution.spread.toList.countBefore symbol slot

variable {distribution} {symbol : UInt8} {slot i : ℕ}

theorem length_slotsOf (distribution : Distribution) (symbol : UInt8) :
    (distribution.slotsOf symbol).length = distribution.slots symbol.toNat := by
  rw [slotsOf, List.length_idxsOf, count_spread]

theorem nthSlot_lt (h : i < distribution.slots symbol.toNat) :
    distribution.nthSlot symbol i < distribution.size := by
  rw [← count_spread] at h
  rw [← length_spread]
  exact List.idxOfNth_lt_length_of_lt_count h

theorem getElem?_spread_nthSlot (h : i < distribution.slots symbol.toNat) :
    distribution.spread.toList[distribution.nthSlot symbol i]? = some symbol := by
  have hlt := nthSlot_lt h
  rw [← length_spread] at hlt
  rw [List.getElem?_eq_getElem hlt]
  exact congrArg some List.getElem_idxOfNth_eq

@[simp] theorem earlier_nthSlot (h : i < distribution.slots symbol.toNat) :
    distribution.earlier symbol (distribution.nthSlot symbol i) = i := by
  rw [← count_spread] at h
  exact List.countBefore_idxOfNth_of_lt_count h

theorem nthSlot_earlier (h : distribution.spread.toList[slot]? = some symbol) :
    distribution.nthSlot symbol (distribution.earlier symbol slot) = slot := by
  obtain ⟨hlt, rfl⟩ := List.getElem?_eq_some_iff.mp h
  exact List.idxOfNth_countBefore_getElem

theorem earlier_lt (h : distribution.spread.toList[slot]? = some symbol) :
    distribution.earlier symbol slot < distribution.slots symbol.toNat := by
  obtain ⟨hlt, rfl⟩ := List.getElem?_eq_some_iff.mp h
  rw [← count_spread]
  exact List.countBefore_lt_count_getElem

/-- A slot is earlier than the ones behind it. -/
theorem earlier_succ (h : distribution.spread.toList[slot]? = some symbol) (other : UInt8) :
    distribution.earlier other (slot + 1) =
      distribution.earlier other slot + if symbol = other then 1 else 0 := by
  rw [earlier, earlier, List.countBefore_eq_count_take, List.countBefore_eq_count_take,
    List.take_add_one, h, List.count_append]
  simp [List.count_cons]

theorem earlier_le (distribution : Distribution) (symbol : UInt8) (slot : ℕ) :
    distribution.earlier symbol slot ≤ distribution.slots symbol.toNat := by
  rw [← count_spread]
  exact List.countBefore_le_count

/-- At the end of the table all slots of a symbol are earlier ones. -/
theorem earlier_of_size_le (h : distribution.size ≤ slot) (symbol : UInt8) :
    distribution.earlier symbol slot = distribution.slots symbol.toNat := by
  rw [← length_spread] at h
  rw [earlier, List.countBefore_of_ge_length h, count_spread]

theorem getElem?_slotsOf (h : i < distribution.slots symbol.toNat) :
    (distribution.slotsOf symbol)[i]? = some (distribution.nthSlot symbol i) := by
  rw [← length_slotsOf] at h
  rw [List.getElem?_eq_getElem h]
  exact congrArg some List.getElem_idxOf_eq_idxOfNth

/-! ### Symbols with slots -/

theorem share?_of_slots_ne_zero {k : ℕ} (h : distribution.slots k ≠ 0) :
    ∃ share, distribution.shares[k]? = some share ∧ share.slots = distribution.slots k := by
  rw [slots, share?] at *
  cases hshare : distribution.shares[k]? with
  | none => simp [hshare] at h
  | some share => exact ⟨share, rfl, rfl⟩

theorem lt_length_of_slots_ne_zero {k : ℕ} (h : distribution.slots k ≠ 0) :
    k < distribution.shares.length := by
  obtain ⟨share, hshare, -⟩ := share?_of_slots_ne_zero h
  exact (List.getElem?_eq_some_iff.mp hshare).1

/-- A symbol owns no more than the whole table. -/
theorem slots_le_size (distribution : Distribution) (symbol : UInt8) :
    distribution.slots symbol.toNat ≤ distribution.size := by
  rw [← count_spread, ← length_spread]
  exact List.count_le_length

theorem slots_ne_zero_of_mem_spread (h : symbol ∈ distribution.spread.toList) :
    distribution.slots symbol.toNat ≠ 0 := by
  rw [← count_spread]
  exact Nat.ne_of_gt (List.count_pos_iff.mpr h)

/-! ### The decode table -/

theorem size_entries (distribution : Distribution) :
    distribution.decodeTable.entries.size = distribution.size := by
  rw [decodeTable, DecodeTable.size_entriesFrom, length_spread]
  exact Nat.zero_add _

/-- **The entry of a slot** is the one of the slot's rank. -/
theorem getElem?_entries (h : distribution.spread.toList[slot]? = some symbol) :
    distribution.decodeTable.entries[slot]? = some (.ofRank distribution.tableLog symbol
      (distribution.slots symbol.toNat + distribution.earlier symbol slot)) := by
  have hranks : ∀ s ∈ distribution.spread.toList,
      s.toNat < (distribution.shares.map Share.slots).toArray.size := by
    intro s hs
    simpa using lt_length_of_slots_ne_zero (slots_ne_zero_of_mem_spread hs)
  have hentry := DecodeTable.getElem?_entriesFrom distribution.tableLog hranks #[] h
  rw [Array.size_empty, Nat.zero_add] at hentry
  rw [decodeTable, hentry, earlier, slots, share?]
  simp

/-! ### The encode table -/

/-- **The states**, symbol by symbol, and for every symbol in the order of its slots. -/
theorem toList_states (distribution : Distribution) :
    distribution.encodeTable.states.toList =
      (((List.range distribution.shares.length).map fun k =>
        distribution.slotsOf k.toUInt8).flatten).map fun slot =>
          (distribution.size + slot).toUInt16 := by
  have hgroups : (EncodeTable.group distribution.spread.toList 0
      (Array.replicate distribution.shares.length #[])).toList =
        (List.range distribution.shares.length).map fun k =>
          (distribution.slotsOf k.toUInt8).toArray := by
    refine List.ext_getElem? ?_
    intro k
    rw [Array.getElem?_toList]
    by_cases hk : k < distribution.shares.length
    · have hbyte : k < 256 := Nat.lt_of_lt_of_le hk distribution.length_shares_le
      rw [EncodeTable.getElem?_group _ _ _ hbyte]
      simp [hk, slotsOf]
    · rw [Array.getElem?_eq_none (by simpa [EncodeTable.size_group] using hk),
        List.getElem?_eq_none (by simpa using hk)]
  simp only [encodeTable, Array.toList_map, Array.toList_flatten, hgroups, List.map_map]
  rfl

/-- The number of slots of the symbols below `k`. -/
def start (distribution : Distribution) (k : ℕ) : ℕ :=
  ((distribution.shares.take k).map Share.slots).sum

theorem start_succ (distribution : Distribution) (k : ℕ) :
    distribution.start (k + 1) = distribution.start k + distribution.slots k := by
  rw [start, start, slots, share?, List.take_add_one, List.map_append, List.sum_append]
  cases distribution.shares[k]? <;> simp

/-- The groups of states lie one behind the other. -/
theorem start_add_slots_le (distribution : Distribution) {k l : ℕ} (h : k < l) :
    distribution.start k + distribution.slots k ≤ distribution.start l := by
  induction l with
  | zero => exact absurd h (Nat.not_lt_zero k)
  | succ l ih =>
    rw [start_succ]
    rcases Nat.lt_succ_iff_lt_or_eq.mp h with hlt | rfl
    · exact Nat.le_trans (ih hlt) (Nat.le_add_right _ _)
    · exact Nat.le_refl _

/-- The groups fill the table. -/
theorem start_length (distribution : Distribution) :
    distribution.start distribution.shares.length = distribution.size := by
  rw [start, List.take_length, distribution.sum_slots, size]

/-- No group reaches beyond the table. -/
theorem start_add_slots_le_size (distribution : Distribution) (k : ℕ) :
    distribution.start k + distribution.slots k ≤ distribution.size := by
  rw [← start_length]
  rcases Nat.lt_or_ge k distribution.shares.length with hlt | hge
  · exact distribution.start_add_slots_le hlt
  · have hnone : distribution.slots k = 0 := by simp [slots, share?, hge]
    rw [hnone, Nat.add_zero, start, start, List.take_of_length_le hge, List.take_length]

/-- Every state lies in the group of a symbol. -/
theorem exists_start_add {j : ℕ} (h : j < distribution.size) :
    ∃ symbol : UInt8, ∃ i < distribution.slots symbol.toNat,
      j = distribution.start symbol.toNat + i := by
  -- the groups of the first `k` symbols cover the places before the next group
  have key : ∀ k ≤ distribution.shares.length, j < distribution.start k →
      ∃ symbol : UInt8, ∃ i < distribution.slots symbol.toNat,
        j = distribution.start symbol.toNat + i := by
    intro k hk hj
    induction k with
    | zero => simp [start] at hj
    | succ k ih =>
      by_cases hbefore : j < distribution.start k
      · exact ih (Nat.le_of_succ_le hk) hbefore
      · have hbyte : k.toUInt8.toNat = k := by
          have := distribution.length_shares_le
          simp
          omega
        rw [start_succ] at hj
        exact ⟨k.toUInt8, j - distribution.start k, by rw [hbyte]; omega, by rw [hbyte]; omega⟩
  rw [← start_length] at h
  exact key _ (Nat.le_refl _) h

theorem map_length_slotsOf (distribution : Distribution) :
    ((List.range distribution.shares.length).map fun k =>
      distribution.slotsOf k.toUInt8).map List.length = distribution.shares.map Share.slots := by
  refine List.ext_getElem (by simp) ?_
  intro k hk _
  have hlt : k < distribution.shares.length := by simpa using hk
  have hbyte : k.toUInt8.toNat = k := by
    have := distribution.length_shares_le
    simp
    omega
  simp [length_slotsOf, hbyte, slots, share?, hlt]

/-- There are as many states as slots. -/
theorem size_states (distribution : Distribution) :
    distribution.encodeTable.states.size = distribution.size := by
  rw [← Array.length_toList, toList_states, List.length_map, List.length_flatten,
    map_length_slotsOf, distribution.sum_slots, size]

/-- The states of a symbol start behind those of the smaller symbols. -/
theorem getElem?_states (h : i < distribution.slots symbol.toNat) :
    distribution.encodeTable.states[distribution.start symbol.toNat + i]? =
      some (distribution.size + distribution.nthSlot symbol i).toUInt16 := by
  have hlt := lt_length_of_slots_ne_zero (Nat.ne_of_gt (Nat.zero_lt_of_lt h))
  have hsymbol : ((List.range distribution.shares.length).map fun k =>
      distribution.slotsOf k.toUInt8)[symbol.toNat]? = some (distribution.slotsOf symbol) := by
    simp [hlt]
  have hslot := getElem?_flatten_of_lt hsymbol (i := i) (by rwa [length_slotsOf])
  rw [List.map_take, map_length_slotsOf, ← List.map_take, getElem?_slotsOf h] at hslot
  rw [← Array.getElem?_toList, toList_states, List.getElem?_map, start, hslot]
  rfl

/-- The transform of a symbol. -/
def transformOf (distribution : Distribution) (symbol : UInt8) : Transform :=
  .ofSlots distribution.tableLog (distribution.start symbol.toNat)
    (distribution.slots symbol.toNat)

theorem transform_encodeTable (h : distribution.slots symbol.toNat ≠ 0) :
    distribution.encodeTable.transform symbol = .ok (distribution.transformOf symbol) := by
  obtain ⟨share, hshare, hslots⟩ := share?_of_slots_ne_zero h
  rw [EncodeTable.transform, encodeTable, List.getElem?_toArray,
    EncodeTable.getElem?_transformsFrom, hshare, Option.map_some, Nat.zero_add, hslots]
  rfl

theorem size_le (distribution : Distribution) : distribution.size ≤ 2 ^ maxTableLog :=
  Nat.pow_le_pow_right (by decide) distribution.tableLog_mem.2

/-- A state of the table needs no more than 16 bits. -/
theorem toNat_toUInt16_size_add (h : slot < distribution.size) :
    (distribution.size + slot).toUInt16.toNat = distribution.size + slot := by
  have hsize := distribution.size_le
  rw [maxTableLog] at hsize
  rw [Nat.toUInt16_eq, UInt16.toNat_ofNat']
  exact Nat.mod_eq_of_lt (by omega)

/-- **The state that a reduced state leads to** is the one of the slot with that rank. -/
theorem next_encodeTable {reduced : ℕ} (hle : distribution.slots symbol.toNat ≤ reduced)
    (hlt : reduced < 2 * distribution.slots symbol.toNat) :
    distribution.encodeTable.next (distribution.transformOf symbol) reduced =
      .ok (distribution.size +
        distribution.nthSlot symbol (reduced - distribution.slots symbol.toNat)) := by
  have hi : reduced - distribution.slots symbol.toNat < distribution.slots symbol.toNat := by
    omega
  have hindex : (reduced : ℤ) + (distribution.transformOf symbol).offset =
      .ofNat (distribution.start symbol.toNat + (reduced - distribution.slots symbol.toNat)) := by
    rw [transformOf, Transform.ofSlots, if_neg (by omega)]
    simp only [Int.ofNat_eq_natCast]
    omega
  rw [EncodeTable.next, hindex]
  simp only [getElem?_states hi, toNat_toUInt16_size_add (nthSlot_lt hi)]

end Distribution

end FiniteStateEntropy
