import FiniteStateEntropy.Proofs.RoundTrip

/-!
# Encoding undoes decoding

A round trip starts from an input. The converse starts from a stream, which need not come from an
encoder: whatever a decoder accepts, each of its steps is an encoding step taken backwards. The
state it stood in is the one slot that its symbol leads to from the next state, and the bits it
read are the low bits of that next state. So a decoding read from its end is an encoding, from the
end states to the states at the start of the stream.

An encoding is determined by its symbols and the states it starts from. Hence the symbols and the
end states of a decoding determine every bit below the end mark, and no bit is left over; and an
encoder that is seeded with the end states writes the very stream that was decoded.

## Main definitions

* `Stream.Plain.Turn.forth`: where an encoder stands when a decoder stands at a turn
* `Distribution.IsSeed`: a state is the seed of the symbol it holds

## Main results

* `Stream.Plain.exists_of_takeSymbol`: one decoding step is an encoding step backwards
* `Stream.Plain.emits_of_takeSymbols`: a run of them is a run backwards
* `Stream.Plain.exists_of_decodeTurn`: what a decoder accepts
* `Stream.eq_of_decodeTurn`: a stream is known by its symbols and its end states
* `Stream.encode_decodeLanes`: and it is what an encoder writes that is seeded with these
-/

namespace FiniteStateEntropy

open Stream.Plain (Turn)

variable {distribution : Distribution}

/-! ### The states of a decoder -/

theorem DecodeTable.entry_eq_ok_iff {table : DecodeTable} {state : ℕ} {entry : DecodeEntry} :
    table.entry state = .ok entry ↔ table.entries[state]? = some entry := by
  rw [DecodeTable.entry]
  cases table.entries[state]? <;> simp

/-- A state of the decode table has a symbol, with a rank among the slots of the symbol. -/
theorem Distribution.exists_symbol {state : ℕ} (h : state < distribution.size) :
    ∃ symbol, distribution.spread.toList[state]? = some symbol ∧
      distribution.slots symbol.toNat ≠ 0 := by
  have hslot : state < distribution.spread.toList.length := by rwa [length_spread]
  exact ⟨_, List.getElem?_eq_getElem hslot,
    slots_ne_zero_of_mem_spread (List.getElem_mem hslot)⟩

/-- The entry of a state of the decode table leads to states of the decode table. -/
theorem Distribution.exists_entry {state : ℕ} (h : state < distribution.size) :
    ∃ entry, distribution.decodeTable.entry state = .ok entry ∧
      distribution.slots entry.symbol.toNat ≠ 0 ∧
      entry.width.toNat ≤ distribution.tableLog ∧
      entry.baseline.toNat + 2 ^ entry.width.toNat ≤ distribution.size := by
  obtain ⟨symbol, hsymbol, hslots⟩ := exists_symbol h
  have hearlier := earlier_lt hsymbol
  have hrank : distribution.slots symbol.toNat + distribution.earlier symbol state <
      2 * distribution.slots symbol.toNat := by omega
  refine ⟨_, entry_eq hsymbol, hslots, ?_,
    DecodeEntry.baseline_add_le distribution.tableLog_mem.2 symbol (by omega)
      (rank_lt_two_pow hrank)⟩
  rw [DecodeEntry.toNat_width_ofRank distribution.tableLog_mem.2]
  exact Nat.sub_le _ _

/-- A state of the decode table is the seed of the symbol it holds. -/
def Distribution.IsSeed (distribution : Distribution) (state : ℕ) : Prop :=
  ∃ symbol, distribution.decodeTable.symbol state = .ok symbol ∧
    distribution.encodeTable.seed symbol = .ok (distribution.size + state)

theorem Distribution.seed_of_isSeed {state : ℕ} {symbol : UInt8}
    (hstate : state < distribution.size)
    (hsymbol : distribution.decodeTable.symbol state = .ok symbol)
    (h : distribution.IsSeed state) :
    distribution.slots symbol.toNat ≠ 0 ∧ state = distribution.nthSlot symbol 0 := by
  obtain ⟨symbol', hsymbol', hseed⟩ := h
  obtain rfl : symbol' = symbol := Except.ok.inj (hsymbol'.symm.trans hsymbol)
  obtain ⟨entry, hentry, hslots, -⟩ := exists_entry hstate
  rw [DecodeTable.symbol, hentry] at hsymbol
  obtain rfl : entry.symbol = symbol' := Except.ok.inj hsymbol
  rw [(Stream.exists_seed hslots).1, Except.ok.injEq] at hseed
  exact ⟨hslots, (Nat.add_left_cancel hseed).symm⟩

namespace Stream

namespace Plain

/-- Both lanes are in states of the decode table. -/
structure Turn.Below (distribution : Distribution) (turn : Turn) : Prop where
  /-- The lane at turn is. -/
  now : turn.now < distribution.size
  /-- The other lane is. -/
  other : turn.other < distribution.size

/-- Where an encoder stands that has everything after `turn` behind it: what a decoder takes
last, an encoder takes first. -/
def Turn.forth (distribution : Distribution) (turn : Turn) : Turn :=
  ⟨distribution.size + turn.other, distribution.size + turn.now⟩

/-! ### One step -/

/-- What is taken from the front of a bit list is a number of that width. -/
theorem exists_of_take {width low : ℕ} {bits rest : List Bool}
    (h : take width bits = .ok (low, rest)) :
    low < 2 ^ width ∧ bits = (Bits.low width low).reverse ++ rest := by
  rw [take] at h
  split at h
  · rename_i hlength
    cases h
    have hwidth : (bits.take width).reverse.length = width := by
      rw [List.length_reverse, List.length_take_of_le hlength]
    have hlow := Bits.low_value (bits.take width).reverse
    have hlt := Bits.value_lt (bits.take width).reverse
    rw [hwidth] at hlow hlt
    exact ⟨hlt, by rw [hlow, List.reverse_reverse, List.take_append_drop]⟩
  · cases h

/-- **One decoding step is an encoding step backwards.** The symbol leads from the next state to
the state decoded from, and writes the bits that were read. -/
theorem exists_of_takeSymbol {state next : ℕ} {symbol : UInt8} {bits rest : List Bool}
    (hstate : state < distribution.size)
    (h : takeSymbol distribution.decodeTable state bits = .ok ((symbol, next), rest)) :
    distribution.slots symbol.toNat ≠ 0 ∧ next < distribution.size ∧
      distribution.slotFrom symbol (distribution.size + next) = state ∧
      bits = (Bits.low (distribution.widthFrom symbol (distribution.size + next))
        (distribution.size + next)).reverse ++ rest := by
  obtain ⟨entry, hentry, hsymbol, -, hrange⟩ := Distribution.exists_entry hstate
  rw [takeSymbol, hentry] at h
  obtain ⟨_, ⟨⟩, h⟩ := exceptBind_eq_ok_iff.mp h
  obtain ⟨⟨low, more⟩, htake, h⟩ := exceptBind_eq_ok_iff.mp h
  cases h
  obtain ⟨hlow, rfl⟩ := exists_of_take htake
  rw [DecodeTable.entry_eq_ok_iff] at hentry
  have hnext : entry.baseline.toNat + low < distribution.size := by omega
  have hisState : distribution.IsState
      (distribution.size + (entry.baseline.toNat + low)) := ⟨Nat.le_add_right _ _, by omega⟩
  have hslot := Distribution.eq_slotFrom_of_covers hsymbol hisState hentry
    ⟨rfl, by omega, by omega⟩
  refine ⟨hsymbol, hnext, hslot.symm, ?_⟩
  -- the entry is the one of the rank that the next state is reduced to
  have hrank := Distribution.getElem?_entries_slotFrom hsymbol hisState
  rw [← hslot, hentry, Option.some.injEq] at hrank
  rw [Distribution.low_widthFrom hsymbol hisState,
    ← Distribution.toNat_width_slotFrom hsymbol hisState, ← hrank, Nat.add_sub_cancel_left,
    Nat.add_sub_cancel_left]

/-! ### A run -/

/-- **A run of decoding steps is an encoding run backwards.** It stays in the table, and yields
symbols that have slots. -/
theorem emits_of_takeSymbols {count : ℕ} {turn last : Turn} {symbols : List UInt8}
    {bits rest : List Bool} (hturn : turn.Below distribution)
    (h : takeSymbols distribution.decodeTable count turn bits = .ok (symbols, last, rest)) :
    last.Below distribution ∧ symbols.length = count ∧
      (∀ symbol ∈ symbols, distribution.slots symbol.toNat ≠ 0) ∧
      ∃ written, Emits distribution symbols.reverse (last.forth distribution)
        (turn.forth distribution) written ∧ bits = written.reverse ++ rest := by
  induction count generalizing turn symbols bits with
  | zero =>
    cases h
    exact ⟨hturn, rfl, by simp, [], Emits.nil distribution _, rfl⟩
  | succ count ih =>
    rw [takeSymbols_succ] at h
    obtain ⟨⟨⟨symbol, next⟩, more⟩, hfound, h⟩ := exceptBind_eq_ok_iff.mp h
    obtain ⟨⟨symbols, last, rest⟩, hrest, h⟩ := exceptMap_eq_ok_iff.mp h
    cases h
    obtain ⟨hsymbol, hnext, hslot, rfl⟩ := exists_of_takeSymbol hturn.now hfound
    obtain ⟨hlast, rfl, hsymbols, written, hwritten, rfl⟩ := ih ⟨hturn.other, hnext⟩ hrest
    have hstate : distribution.IsState (distribution.size + next) :=
      ⟨Nat.le_add_right _ _, by omega⟩
    have hstep : Emits distribution [symbol] (Turn.forth distribution ⟨turn.other, next⟩)
        (turn.forth distribution) (Bits.low (distribution.widthFrom symbol
          (distribution.size + next)) (distribution.size + next)) := by
      show Emits distribution [symbol] _ ⟨_, distribution.size + turn.now⟩ _
      rw [← hslot]
      exact Emits.single hsymbol hstate
    have hall := hwritten.append hstep
    rw [← List.reverse_cons] at hall
    exact ⟨hlast, rfl, List.forall_mem_cons.mpr ⟨hsymbol, hsymbols⟩, _, hall,
      by rw [List.reverse_append, List.append_assoc]⟩

/-- An encoding is determined by its symbols and the states that it starts from. -/
theorem Emits.unique {symbols : List UInt8} {turn last last' : Turn} {bits bits' : List Bool}
    (h : Emits distribution symbols turn last bits)
    (h' : Emits distribution symbols turn last' bits') : last = last' ∧ bits = bits' := by
  obtain ⟨fields, hfields, rfl⟩ := h
  obtain ⟨fields', hfields', rfl⟩ := h'
  rw [hfields] at hfields'
  cases hfields'
  exact ⟨rfl, rfl⟩

/-! ### The whole stream -/

/-- The stream that closes an encoding which stands at `turn` and has written `bits`. -/
def closed (distribution : Distribution) (turn : Turn) (bits : List Bool) : List UInt8 :=
  Bits.toBytes (bits ++ Bits.low distribution.tableLog turn.now ++
    Bits.low distribution.tableLog turn.other ++ [true])

/-- A state of the encoder is closed with the bits of the decoder's. -/
theorem low_size_add (distribution : Distribution) (state : ℕ) :
    Bits.low distribution.tableLog (distribution.size + state) =
      Bits.low distribution.tableLog state := by
  have := Bits.low_add_mul distribution.tableLog state 1
  rwa [Nat.mul_one, Nat.add_comm] at this

theorem exists_of_lastSymbols {turn : Turn} {last : List UInt8} {table : DecodeTable}
    (h : lastSymbols table turn = .ok last) :
    ∃ earlier later, table.symbol turn.now = .ok earlier ∧ table.symbol turn.other = .ok later ∧
      last = [earlier, later] := by
  rw [lastSymbols] at h
  obtain ⟨earlier, hearlier, h⟩ := exceptBind_eq_ok_iff.mp h
  obtain ⟨later, hlater, h⟩ := exceptBind_eq_ok_iff.mp h
  cases h
  exact ⟨earlier, later, hearlier, hlater, rfl⟩

/-- **What a decoder accepts**: the stream of an encoding backwards, from the states it ends in to
those at the start of the stream. -/
theorem exists_of_decodeTurn {count : ℕ} {stream out : List UInt8} {turn : Turn}
    (h : decodeTurn distribution.decodeTable count stream = .ok (turn, out)) :
    ∃ symbols earlier later first written,
      distribution.decodeTable.symbol turn.now = .ok earlier ∧
      distribution.decodeTable.symbol turn.other = .ok later ∧
      out = symbols ++ [earlier, later] ∧
      (∀ symbol ∈ symbols, distribution.slots symbol.toNat ≠ 0) ∧ turn.Below distribution ∧
      Emits distribution symbols.reverse (turn.forth distribution) first written ∧
      stream = closed distribution first written := by
  obtain ⟨bits, hunmark, h⟩ := exceptBind_eq_ok_iff.mp h
  obtain ⟨⟨⟨turn, out⟩, left⟩, hstream, h⟩ := exceptBind_eq_ok_iff.mp h
  dsimp only at h
  split at h
  swap
  · cases h
  rename_i hleft
  cases h
  obtain ⟨⟨first, behindFirst⟩, hfirst, hstream⟩ := exceptBind_eq_ok_iff.mp hstream
  obtain ⟨⟨second, behindSecond⟩, hsecond, hstream⟩ := exceptBind_eq_ok_iff.mp hstream
  obtain ⟨⟨symbols, turn, left⟩, hbody, hstream⟩ := exceptBind_eq_ok_iff.mp hstream
  obtain ⟨last, hlast, hstream⟩ := exceptBind_eq_ok_iff.mp hstream
  cases hstream
  subst hleft
  obtain ⟨hfirstlt, rfl⟩ := exists_of_take hfirst
  obtain ⟨hsecondlt, rfl⟩ := exists_of_take hsecond
  obtain ⟨hturn, -, hsymbols, written, hwritten, rfl⟩ :=
    emits_of_takeSymbols (show Turn.Below distribution ⟨first, second⟩ from
      ⟨hfirstlt, hsecondlt⟩) hbody
  obtain ⟨earlier, later, hearlier, hlater, rfl⟩ := exists_of_lastSymbols hlast
  refine ⟨symbols, earlier, later, _, written, hearlier, hlater, rfl, hsymbols, hturn, hwritten, ?_⟩
  rw [eq_toBytes_of_unmark hunmark, closed, Turn.forth, low_size_add, low_size_add]
  simp only [List.reverse_append, List.reverse_reverse, List.append_nil, List.append_assoc]
  rfl

end Plain

/-! ### Lanes -/

open Plain (decodeTurn)

theorem lanes_injective {turn turn' : Turn} {taken : ℕ} (h : turn.lanes taken = turn'.lanes taken) :
    turn = turn' := by
  obtain ⟨now, other⟩ := turn
  obtain ⟨now', other'⟩ := turn'
  rw [Plain.Turn.lanes, Plain.Turn.lanes] at h
  split at h
  · obtain ⟨rfl, rfl⟩ := Lanes.mk.inj h
    rfl
  · obtain ⟨rfl, rfl⟩ := Lanes.mk.inj h
    rfl

theorem exists_decodeTurn_of_decodeLanes {count : ℕ} {stream out : List UInt8} {lanes : Lanes}
    (h : decodeLanes distribution.decodeTable count stream = .ok (lanes, out)) :
    ∃ turn, decodeTurn distribution.decodeTable count stream = .ok (turn, out) ∧
      turn.lanes (count - 2) = lanes := by
  rw [decodeLanes_eq distribution.narrow_decodeTable, exceptMap_eq_ok_iff] at h
  obtain ⟨⟨turn, symbols⟩, hturn, h⟩ := h
  cases h
  exact ⟨turn, hturn, rfl⟩

/-- **A stream is known by its symbols and its end states.** -/
theorem eq_of_decodeTurn {count : ℕ} {stream stream' out : List UInt8} {turn : Turn}
    (h : decodeTurn distribution.decodeTable count stream = .ok (turn, out))
    (h' : decodeTurn distribution.decodeTable count stream' = .ok (turn, out)) :
    stream = stream' := by
  obtain ⟨symbols, earlier, later, first, written, -, -, hout, -, -, hwritten, rfl⟩ :=
    Plain.exists_of_decodeTurn h
  obtain ⟨symbols', earlier', later', first', written', -, -, hout', -, -, hwritten', rfl⟩ :=
    Plain.exists_of_decodeTurn h'
  obtain ⟨rfl, -⟩ := List.append_inj' (hout.symm.trans hout') rfl
  obtain ⟨rfl, rfl⟩ := hwritten.unique hwritten'
  rfl

/-- An encoder that is seeded with the end states writes the stream. -/
theorem encode_of_decodeTurn {count : ℕ} {stream out : List UInt8} {turn : Turn}
    (h : decodeTurn distribution.decodeTable count stream = .ok (turn, out))
    (hnow : distribution.IsSeed turn.now) (hother : distribution.IsSeed turn.other)
    (written : Array UInt8) :
    encode distribution.encodeTable out written = .ok (written ++ stream.toArray) := by
  obtain ⟨symbols, earlier, later, first, bits, hearlier, hlater, rfl, hsymbols, hturn, hbits,
    rfl⟩ :=
    Plain.exists_of_decodeTurn h
  obtain ⟨hslots, hseed⟩ := Distribution.seed_of_isSeed hturn.now hearlier hnow
  obtain ⟨hslots', hseed'⟩ := Distribution.seed_of_isSeed hturn.other hlater hother
  have hreverse : (symbols ++ [earlier, later]).reverse = later :: earlier :: symbols.reverse := by
    simp
  have hforth : turn.forth distribution = .seeded distribution later earlier := by
    rw [Plain.Turn.forth, Plain.Turn.seeded, hseed, hseed']
  rw [hforth] at hbits
  have hplain := Plain.encode_of_emits hreverse hslots' hslots hbits
  have hpresent : ∀ symbol ∈ symbols ++ [earlier, later],
      distribution.slots symbol.toNat ≠ 0 := by
    intro symbol hmem
    rw [List.mem_append, List.mem_pair] at hmem
    rcases hmem with hmem | rfl | rfl
    · exact hsymbols symbol hmem
    · exact hslots
    · exact hslots'
  obtain ⟨stream, hstream, hencode⟩ := exists_encode (by simp) hpresent
  rw [hplain] at hstream
  cases hstream
  exact hencode written

/-- **Encoding undoes decoding.** Two streams from which a decoder takes the same symbols and ends
in the same states are one stream; and if the end states are seeds of the symbols they hold, that
stream is what encoding the symbols appends to whatever is there. -/
theorem encode_decodeLanes (distribution : Distribution) (count : ℕ) :
    (∀ (stream stream' out : List UInt8) (lanes : Lanes),
      decodeLanes distribution.decodeTable count stream = .ok (lanes, out) →
      decodeLanes distribution.decodeTable count stream' = .ok (lanes, out) →
        stream = stream') ∧
    ∀ (stream out : List UInt8) (lanes : Lanes),
      decodeLanes distribution.decodeTable count stream = .ok (lanes, out) →
      distribution.IsSeed lanes.first → distribution.IsSeed lanes.second →
        ∀ written : Array UInt8,
          encode distribution.encodeTable out written = .ok (written ++ stream.toArray) := by
  constructor
  · intro stream stream' out lanes h h'
    obtain ⟨turn, hturn, rfl⟩ := exists_decodeTurn_of_decodeLanes h
    obtain ⟨turn', hturn', hlanes⟩ := exists_decodeTurn_of_decodeLanes h'
    obtain rfl := lanes_injective hlanes
    exact eq_of_decodeTurn hturn hturn'
  · intro stream out lanes h hfirst hsecond
    obtain ⟨turn, hturn, rfl⟩ := exists_decodeTurn_of_decodeLanes h
    rcases Nat.mod_two_eq_zero_or_one (count - 2) with heven | hodd
    · rw [lanes_of_even turn heven] at hfirst hsecond
      exact encode_of_decodeTurn hturn hfirst hsecond
    · rw [lanes_of_odd turn hodd] at hfirst hsecond
      exact encode_of_decodeTurn hturn hsecond hfirst

/-- Three bytes that a decoder takes five symbols from, ending in two seeds. -/
theorem encode_decodeLanes_skewed :
    decodeLanes Distribution.skewed.decodeTable 5 [195, 54, 3] =
        .ok (⟨3, 0⟩, [0, 3, 1, 0, 3]) ∧
      Distribution.skewed.IsSeed 3 ∧ Distribution.skewed.IsSeed 0 ∧
      (∀ stream, decodeLanes Distribution.skewed.decodeTable 5 stream =
        .ok (⟨3, 0⟩, [0, 3, 1, 0, 3]) → stream = [195, 54, 3]) ∧
      encode Distribution.skewed.encodeTable [0, 3, 1, 0, 3] #[9] = .ok #[9, 195, 54, 3] := by
  have hdecode : decodeLanes Distribution.skewed.decodeTable 5 [195, 54, 3] =
      .ok (⟨3, 0⟩, [0, 3, 1, 0, 3]) := by decide +kernel
  have hfirst : Distribution.skewed.IsSeed 3 :=
    ⟨3, by decide +kernel, by decide +kernel⟩
  have hsecond : Distribution.skewed.IsSeed 0 :=
    ⟨0, by decide +kernel, by decide +kernel⟩
  obtain ⟨hunique, hencode⟩ := encode_decodeLanes Distribution.skewed 5
  refine ⟨hdecode, hfirst, hsecond, ?_, hencode _ _ _ hdecode hfirst hsecond #[9]⟩
  intro stream h
  exact hunique _ _ _ _ h hdecode

end Stream

end FiniteStateEntropy
