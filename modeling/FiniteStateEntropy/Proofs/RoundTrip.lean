import FiniteStateEntropy.Proofs.Decoding
import FiniteStateEntropy.Proofs.Encoding

/-!
# Decoding undoes encoding

An encoder takes the symbols from the last to the first and a decoder gives them from the first to
the last, so decoding runs the encoding backwards: the lane that encoded a symbol last is the first
to give one. If an encoder stands at a turn, a decoder that has undone everything after it stands
at `Plain.Turn.back` of that turn, with the bits written up to there still to be read.

Both statements are about the plain encoder and the plain decoder. The schedule of the one and the
window of the other make no difference.

## Main results

* `Stream.Plain.takeSymbol_slotFrom`: one step is undone
* `Stream.Plain.takeSymbols_of_emits`: a run is undone
* `Stream.decode_encode`: a stream is decoded to the input it was made from
-/

namespace FiniteStateEntropy

open Stream.Plain (Turn)

variable {distribution : Distribution}

/-! ### The table of a distribution -/

theorem Distribution.entry_eq {slot : ℕ} {symbol : UInt8}
    (hslot : distribution.spread.toList[slot]? = some symbol) :
    distribution.decodeTable.entry slot =
      .ok (.ofRank distribution.tableLog symbol
        (distribution.slots symbol.toNat + distribution.earlier symbol slot)) := by
  rw [DecodeTable.entry, getElem?_entries hslot]

/-- The bits of a symbol are never more than the table log. -/
theorem Distribution.narrow_decodeTable (distribution : Distribution) :
    distribution.decodeTable.Narrow := by
  have hlog := distribution.tableLog_mem.2
  constructor
  · exact Nat.le_trans hlog (by decide)
  · intro slot entry hentry
    have hslot : slot < distribution.spread.toList.length := by
      rw [length_spread, ← size_entries]
      rw [DecodeTable.entry] at hentry
      split at hentry
      · rename_i found hfound
        exact (Array.getElem?_eq_some_iff.mp hfound).1
      · cases hentry
    rw [entry_eq (List.getElem?_eq_getElem hslot)] at hentry
    cases hentry
    rw [DecodeEntry.toNat_width_ofRank hlog]
    rw [maxTableLog] at hlog
    omega

namespace Stream

namespace Plain

/-! ### One step -/

theorem take_reverse_low (width v : ℕ) (more : List Bool) :
    take width ((Bits.low width v).reverse ++ more) = .ok (v % 2 ^ width, more) := by
  have hlength : (Bits.low width v).reverse.length = width := by simp
  rw [take, if_pos (by simp), List.take_left' hlength, List.drop_left' hlength,
    List.reverse_reverse, Bits.value_low]

/-- **One step is undone.** The slot that a state led to gives the symbol and the state back. -/
theorem takeSymbol_slotFrom {symbol : UInt8} {state : ℕ}
    (hsymbol : distribution.slots symbol.toNat ≠ 0) (hstate : distribution.IsState state)
    (more : List Bool) :
    takeSymbol distribution.decodeTable (distribution.slotFrom symbol state)
        ((Bits.low (distribution.widthFrom symbol state) state).reverse ++ more) =
      .ok ((symbol, state - distribution.size), more) := by
  have hentry := Distribution.getElem?_entries_slotFrom hsymbol hstate
  have hback := Distribution.baseline_add_mod hsymbol hstate
  simp only [takeSymbol, DecodeTable.entry, hentry, bind, Except.bind, pure, Except.pure,
    Distribution.toNat_width_slotFrom hsymbol hstate, take_reverse_low]
  rw [← hback, Nat.add_sub_cancel_left, hback]
  rfl

/-! ### A run -/

/-- Where a decoder stands that has undone everything after `turn`. -/
def Turn.back (distribution : Distribution) (turn : Turn) : Turn :=
  ⟨turn.other - distribution.size, turn.now - distribution.size⟩

theorem Emits.of_cons {symbol : UInt8} {symbols : List UInt8} {turn last : Turn} {bits : List Bool}
    (hsymbol : distribution.slots symbol.toNat ≠ 0) (hstate : distribution.IsState turn.now)
    (h : Emits distribution (symbol :: symbols) turn last bits) :
    ∃ rest, bits = Bits.low (distribution.widthFrom symbol turn.now) turn.now ++ rest ∧
      Emits distribution symbols
        ⟨turn.other, distribution.size + distribution.slotFrom symbol turn.now⟩ last rest := by
  obtain ⟨fields, hfields, rfl⟩ := h
  rw [symbolFields_cons hsymbol hstate] at hfields
  cases hrest : symbolFields distribution.encodeTable symbols
      ⟨turn.other, distribution.size + distribution.slotFrom symbol turn.now⟩ with
  | error e =>
    rw [hrest] at hfields
    cases hfields
  | ok found =>
    rw [hrest] at hfields
    cases hfields
    exact ⟨found.1.flatMap Field.bits, rfl, found.1, hrest, rfl⟩

/-- Present symbols are always encoded. -/
theorem exists_emits {symbols : List UInt8} {turn : Turn}
    (hsymbols : ∀ symbol ∈ symbols, distribution.slots symbol.toNat ≠ 0)
    (hturn : turn.Sound distribution) :
    ∃ last bits, Emits distribution symbols turn last bits ∧ last.Sound distribution := by
  induction symbols generalizing turn with
  | nil => exact ⟨turn, [], Emits.nil distribution turn, hturn⟩
  | cons symbol symbols ih =>
    simp only [List.mem_cons, forall_eq_or_imp] at hsymbols
    obtain ⟨hsymbol, hrest⟩ := hsymbols
    obtain ⟨last, bits, hemits, hlast⟩ := ih hrest (hturn.next hsymbol)
    exact ⟨last, _, (Emits.single hsymbol hturn.now).append hemits, hlast⟩

/-- **A run is undone.** The symbols come back in reverse, with the turn that the run started at
and the bits that were there before. -/
theorem takeSymbols_of_emits {symbols : List UInt8} {turn last : Turn} {bits : List Bool}
    (hsymbols : ∀ symbol ∈ symbols, distribution.slots symbol.toNat ≠ 0)
    (hturn : turn.Sound distribution) (h : Emits distribution symbols turn last bits)
    (more : List Bool) :
    takeSymbols distribution.decodeTable symbols.length (last.back distribution)
        (bits.reverse ++ more) =
      .ok (symbols.reverse, turn.back distribution, more) := by
  induction symbols generalizing turn bits more with
  | nil =>
    obtain ⟨fields, hfields, rfl⟩ := h
    cases hfields
    rfl
  | cons symbol symbols ih =>
    simp only [List.mem_cons, forall_eq_or_imp] at hsymbols
    obtain ⟨hsymbol, hrest⟩ := hsymbols
    obtain ⟨rest, rfl, hemits⟩ := h.of_cons hsymbol hturn.now
    rw [List.length_cons, takeSymbols_add, List.reverse_append, List.append_assoc,
      ih hrest (hturn.next hsymbol) hemits]
    simp only [bind, Except.bind, takeSymbols_one, Turn.back, Nat.add_sub_cancel_left,
      takeSymbol_slotFrom hsymbol hturn.now, Except.map, List.reverse_cons]

/-! ### The whole stream -/

theorem symbol_nthSlot {symbol : UInt8} (hsymbol : distribution.slots symbol.toNat ≠ 0) :
    distribution.decodeTable.symbol (distribution.nthSlot symbol 0) = .ok symbol := by
  rw [DecodeTable.symbol,
    Distribution.entry_eq (Distribution.getElem?_spread_nthSlot (Nat.pos_of_ne_zero hsymbol))]
  rfl

theorem mod_two_pow_of_isState {state : ℕ} (h : distribution.IsState state) :
    state % 2 ^ distribution.tableLog = state - distribution.size := by
  obtain ⟨hle, hlt⟩ := h
  rw [Distribution.size] at *
  rw [Nat.mod_eq_sub_mod hle, Nat.mod_eq_of_lt (by omega)]

/-- The states that a stream of the plain encoder ends in are those it was seeded with. -/
theorem exists_decodeTurn {input : List UInt8} (hlength : 2 ≤ input.length)
    (hinput : ∀ symbol ∈ input, distribution.slots symbol.toNat ≠ 0) :
    ∃ stream turn, encode distribution.encodeTable input = .ok stream ∧
      decodeTurn distribution.decodeTable input.length stream = .ok (turn, input) := by
  obtain ⟨last, before, rest, hreverse, hlast, hbefore, hrest⟩ := exists_reverse_eq hlength hinput
  have hsound := sound_seeded hlast hbefore
  obtain ⟨turn, bits, hemits, hturn⟩ := exists_emits hrest hsound
  have hinput : input = rest.reverse ++ [before, last] := by
    rw [← List.reverse_reverse input, hreverse]
    simp
  have hcount : input.length - 2 = rest.length := by simp [hinput]
  have hbody := takeSymbols_of_emits hrest hsound hemits []
  have hother := take_reverse_low distribution.tableLog turn.other
    ((Bits.low distribution.tableLog turn.now).reverse ++ bits.reverse)
  have hnow := take_reverse_low distribution.tableLog turn.now bits.reverse
  rw [mod_two_pow_of_isState hturn.other] at hother
  rw [mod_two_pow_of_isState hturn.now] at hnow
  simp only [Turn.back, Turn.seeded, List.append_nil, Nat.add_sub_cancel_left] at hbody
  refine ⟨_, ⟨distribution.nthSlot before 0, distribution.nthSlot last 0⟩,
    encode_of_emits hreverse hlast hbefore hemits, ?_⟩
  rw [decodeTurn, unmark_toBytes]
  simp only [takeStream, show distribution.decodeTable.tableLog = distribution.tableLog from rfl,
    List.reverse_append, hother, hnow, hcount, hbody, lastSymbols, symbol_nthSlot hlast,
    symbol_nthSlot hbefore, bind, Except.bind, pure, Except.pure, if_true, ← hinput]

end Plain

/-- What the plain encoder makes of an input is decoded to it. -/
theorem decode_of_encode {input stream : List UInt8} (hlength : 2 ≤ input.length)
    (hinput : ∀ symbol ∈ input, distribution.slots symbol.toNat ≠ 0)
    (h : Plain.encode distribution.encodeTable input = .ok stream) :
    decode distribution.decodeTable input.length stream = .ok input := by
  obtain ⟨stream', turn, hstream, hdecode⟩ := Plain.exists_decodeTurn hlength hinput
  rw [h] at hstream
  cases hstream
  rw [decode_eq distribution.narrow_decodeTable, Plain.decode_eq_map_decodeTurn, hdecode]
  rfl

/-- **A stream is decoded to the input it was made from.** Encoding appends the stream to whatever
is there, and the stream does not depend on it. -/
theorem decode_encode {input : List UInt8} (hlength : 2 ≤ input.length)
    (hinput : ∀ symbol ∈ input, distribution.slots symbol.toNat ≠ 0) :
    ∃ stream : List UInt8,
      (∀ out : Array UInt8,
        encode distribution.encodeTable input out = .ok (out ++ stream.toArray)) ∧
      decode distribution.decodeTable input.length stream = .ok input := by
  obtain ⟨stream, hstream, hencode⟩ := exists_encode hlength hinput
  exact ⟨stream, hencode, decode_of_encode hlength hinput hstream⟩

/-- Five symbols, so that one of them is encoded before the pairs, over a distribution with a rare
and an absent symbol. -/
theorem decode_encode_skewed :
    2 ≤ [0, 3, 1, 0, 3].length ∧
      (∀ symbol ∈ ([0, 3, 1, 0, 3] : List UInt8),
        Distribution.skewed.slots symbol.toNat ≠ 0) ∧
      ∃ stream : List UInt8,
        (∀ out : Array UInt8, encode Distribution.skewed.encodeTable [0, 3, 1, 0, 3] out =
          .ok (out ++ stream.toArray)) ∧
        decode Distribution.skewed.decodeTable 5 stream = .ok [0, 3, 1, 0, 3] :=
  have hinput : ∀ symbol ∈ ([0, 3, 1, 0, 3] : List UInt8),
      Distribution.skewed.slots symbol.toNat ≠ 0 := by decide +kernel
  ⟨by decide, hinput, decode_encode (by decide) hinput⟩

end Stream

end FiniteStateEntropy
