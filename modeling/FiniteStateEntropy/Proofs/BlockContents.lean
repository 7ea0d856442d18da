import FiniteStateEntropy.Proofs.Block
import FiniteStateEntropy.Proofs.HeaderSpelling

/-!
# What a block says of its input

The header of a block is read back as it was written, so what it says is what its distribution says:
how long the input is, which bytes occur in it, and which of them are rare. The distribution is made
from the counts of the input alone. Two inputs with the same counts therefore have the same header,
in whatever order their bytes come and under whatever ceiling they were counted: a histogram ends at
the last byte that occurs, so that counts determine it.

## Main definitions

* `Block.Describes`: what a header, and the stream behind it, say of an input

## Main results

* `Header.length_bytes`: the length of a header
* `Block.exists_contents`: the header and the stream of a block
* `Block.exists_describes`: a block describes its input
* `Block.read_eq_of_perm`: the header depends on the counts alone
-/

namespace FiniteStateEntropy

/-! ### Lengths -/

namespace Header

open Apportionment (presence presence_cons)

/-- An entry of a present symbol is two bytes long, or three where shares are wide. -/
theorem length_entries (wide : Bool) (offset : ℕ) (shares : List Share) :
    (entries wide offset shares).length = presence shares * if wide then 3 else 2 := by
  induction shares generalizing offset with
  | nil => simp [entries, presence]
  | cons share rest ih =>
    by_cases habsent : share = .absent
    · subst habsent
      rw [entries_absent, ih, presence_cons]
      rfl
    · have hkind : share.kind ≠ .absent := by cases share <;> simp_all [Share.kind]
      rw [entries_present habsent, List.length_cons, List.length_append, length_share_bytes, ih,
        presence_cons, if_neg hkind, Nat.add_mul]
      split <;> omega

/-- **The length of a header** is that of its entries and six more bytes. -/
theorem length_bytes {header : Header} {written : List UInt8} (h : header.bytes = .ok written) :
    written.length = 6 + presence header.distribution.shares *
      if header.distribution.tableLog ≤ 7 then 2 else 3 := by
  rw [bytes] at h
  split at h
  · cases h
    have hwidth : (if decide (wideTableLog ≤ header.distribution.tableLog) = true then 3 else 2) =
        if header.distribution.tableLog ≤ 7 then 2 else 3 := by
      by_cases hwide : wideTableLog ≤ header.distribution.tableLog
      · rw [decide_eq_true hwide, if_pos rfl, if_neg (Nat.not_le.mpr hwide)]
      · rw [decide_eq_false hwide, if_neg (by decide), if_pos (Nat.le_of_lt_succ
          (Nat.not_le.mp hwide))]
    simp only [List.length_cons, List.length_append, entryBytes_eq, length_entries, hwidth]
    simp only [countBytes, List.length_cons, List.length_nil]
    omega
  · cases h

end Header

/-! ### Counts -/

namespace Histogram

/-- Occurrences, counted as bytes. -/
theorem occurrences_toNat (input : List UInt8) (byte : UInt8) :
    occurrences input byte.toNat = input.count byte :=
  List.count_map_of_injective input UInt8.toNat (fun _ _ => UInt8.toNat.inj) byte

end Histogram

/-! ### Symbols -/

namespace Distribution

variable (distribution : Distribution)

/-- The last symbol has slots. -/
theorem slots_maxSymbol : distribution.slots distribution.maxSymbol.toNat ≠ 0 := by
  have hlast := distribution.last_present
  have hmax := Header.toNat_maxSymbol_add_one distribution
  rw [List.getLast?_eq_getElem?, ← hmax, Nat.add_sub_cancel,
    List.getElem?_eq_getElem (by omega)] at hlast
  rw [slots, share?, List.getElem?_eq_getElem (by omega)]
  exact fun hzero => hlast (congrArg some ((Share.slots_eq_zero_iff _).mp hzero))

variable {distribution}

/-- A symbol with slots is no greater than the last one. -/
theorem le_maxSymbol {symbol : UInt8} (h : distribution.slots symbol.toNat ≠ 0) :
    symbol ≤ distribution.maxSymbol := by
  have hlt := lt_length_of_slots_ne_zero h
  have hmax := Header.toNat_maxSymbol_add_one distribution
  rw [UInt8.le_iff_toNat_le]
  omega

end Distribution

namespace Block

variable {limits : Limits} {input block : List UInt8}

/-! ### Parts of a block -/

namespace Divides

variable {histogram : Histogram} {distribution : Distribution}

/-- The table chosen is that for the bytes that occur. -/
theorem tableLog_eq_card (h : Divides limits input histogram distribution) :
    distribution.tableLog = limits.tableLog input.length input.toFinset.card := by
  rw [h.tableLog_eq, h.counts.distinct_eq]

/-- As many symbols have a slot as bytes occur. -/
theorem presence_eq (h : Divides limits input histogram distribution) :
    Apportionment.presence distribution.shares = input.toFinset.card := by
  rw [← h.counts.distinct_eq, ← Apportionment.presence_initial
    (limits.tableLog input.length histogram.distinct), Apportionment.presence,
    Apportionment.presence, Apportionment.map_kind_initial, h.kinds_eq]

/-- A symbol is rare if it occurs, and no more often than a slot stands for. -/
theorem share?_eq_rare_iff (h : Divides limits input histogram distribution) (symbol : UInt8) :
    distribution.share? symbol.toNat = some .rare ↔
      0 < input.count symbol ∧ input.count symbol ≤ input.length >>> distribution.tableLog := by
  rw [← Histogram.occurrences_toNat, ← h.counts symbol.toNat, ← h.counts.total_eq, h.tableLog_eq]
  exact Histogram.share?_eq_rare_iff h.kinds_eq symbol.toNat

end Divides

/-- The header and the stream of a block. -/
structure Contents (limits : Limits) (input block : List UInt8) (histogram : Histogram)
    (distribution : Distribution) (written stream : List UInt8) : Prop where
  /-- The distribution is that of the input. -/
  divides : Divides limits input histogram distribution
  /-- The header is the one of the distribution. -/
  written_eq : (Header.mk distribution input.length).bytes = .ok written
  /-- The stream is that of the input under the distribution. -/
  stream_eq : Stream.Plain.encode distribution.encodeTable input = .ok stream
  /-- There is nothing else. -/
  block_eq : block = written ++ stream

/-- **The header and the stream of a block.** -/
theorem exists_contents (h : compress limits input = .ok block) :
    ∃ histogram distribution written stream,
      Contents limits input block histogram distribution written stream := by
  obtain ⟨hvalid, hlength, hceiling, hdistinct, hcount⟩ := accepted_of_compress h
  obtain ⟨histogram, distribution, written, stream, hdivides, hwritten, hstream, hpack⟩ :=
    exists_parts hvalid hlength hceiling hdistinct hcount
  rw [compress_of_valid hvalid, hpack] at h
  cases h
  exact ⟨histogram, distribution, written, stream, hdivides, hwritten, hstream, rfl⟩

namespace Contents

variable {histogram : Histogram} {distribution : Distribution} {written stream : List UInt8}

/-- Behind whatever header of that length, there is the stream. -/
theorem drop_eq (h : Contents limits input block histogram distribution written stream) :
    block.drop written.length = stream := by
  rw [h.block_eq, List.drop_left' rfl]

theorem take_eq (h : Contents limits input block histogram distribution written stream) :
    block.take written.length = written := by
  rw [h.block_eq, List.take_left' rfl]

/-- The header is read back. -/
theorem read_eq (h : Contents limits input block histogram distribution written stream)
    (hlength : 2 ≤ input.length) (hcount : input.length < 2 ^ 32) :
    Header.read block = .ok (⟨distribution, input.length⟩, written.length) := by
  refine Header.read_eq_ok_iff_take.mpr ⟨?_, hlength, hcount, ?_⟩
  · rw [h.block_eq, List.length_append]
    exact Nat.le_add_right _ _
  · rw [h.take_eq, h.written_eq]

end Contents

/-! ### What a block says -/

/-- What a block with the given header, which ends at `offset`, says of an input. -/
structure Describes (limits : Limits) (input block : List UInt8) (header : Header) (offset : ℕ) :
    Prop where
  /-- The count is the length of the input. -/
  symbolCount_eq : header.symbolCount = input.length
  /-- The table is the one chosen for this length and this number of different bytes. -/
  tableLog_eq : header.distribution.tableLog = limits.tableLog input.length input.toFinset.card
  /-- The last symbol occurs. -/
  maxSymbol_mem : header.distribution.maxSymbol ∈ input
  /-- No greater byte does. -/
  le_maxSymbol : ∀ byte ∈ input, byte ≤ header.distribution.maxSymbol
  /-- The symbols with slots are the bytes that occur. -/
  slots_ne_zero_iff : ∀ symbol : UInt8,
    header.distribution.slots symbol.toNat ≠ 0 ↔ symbol ∈ input
  /-- The rare symbols are those that occur no more often than a slot stands for. -/
  share?_eq_rare_iff : ∀ symbol : UInt8,
    header.distribution.share? symbol.toNat = some .rare ↔
      0 < input.count symbol ∧
        input.count symbol ≤ input.length >>> header.distribution.tableLog
  /-- The header has an entry for each of them, and six more bytes. -/
  offset_eq : offset = 6 + input.toFinset.card *
    if header.distribution.tableLog ≤ 7 then 2 else 3
  /-- Behind the header there is the stream of the input, and nothing else. -/
  encode_eq : Stream.encode header.distribution.encodeTable input #[] =
    .ok (block.drop offset).toArray

/-- **A block describes its input.** Its header is read, and what the header says of length, table,
alphabet and rare symbols is true of the input; what lies behind it is the input's stream. -/
theorem exists_describes (h : compress limits input = .ok block) :
    ∃ header offset, Header.read block = .ok (header, offset) ∧
      Describes limits input block header offset := by
  obtain ⟨-, hlength, -, -, hcount⟩ := accepted_of_compress h
  obtain ⟨histogram, distribution, written, stream, hcontents⟩ := exists_contents h
  have hdivides := hcontents.divides
  have hpresent := hdivides.slots_ne_zero_iff
  obtain ⟨stream', hplain, hencode⟩ := Stream.exists_encode hlength fun byte hmem =>
    (hpresent byte).mpr hmem
  obtain rfl : stream' = stream := Except.ok.inj (hplain.symm.trans hcontents.stream_eq)
  refine ⟨⟨distribution, input.length⟩, written.length, hcontents.read_eq hlength hcount, ?_⟩
  exact {
    symbolCount_eq := rfl
    tableLog_eq := hdivides.tableLog_eq_card
    maxSymbol_mem := (hpresent _).mp distribution.slots_maxSymbol
    le_maxSymbol := fun byte hmem => Distribution.le_maxSymbol ((hpresent byte).mpr hmem)
    slots_ne_zero_iff := hpresent
    share?_eq_rare_iff := hdivides.share?_eq_rare_iff
    offset_eq := by rw [Header.length_bytes hcontents.written_eq, hdivides.presence_eq]
    encode_eq := by rw [hencode, hcontents.drop_eq]; simp }

/-- One byte thirty-two times, and another one that is rare among them. -/
def rareInput : List UInt8 := List.replicate 32 97 ++ [98]

/-- The block of that input. -/
def rareBlock : List UInt8 := [0, 98, 97, 31, 98, 255, 33, 0, 0, 0, 223, 11]

theorem compress_rareInput : compress .standard rareInput = .ok rareBlock := by decide +kernel

/-- Its header ends behind two entries, the second of which is that of a rare symbol. -/
theorem exists_describes_rareInput : compress .standard rareInput = .ok rareBlock ∧
    ∃ header offset, Header.read rareBlock = .ok (header, offset) ∧
      Describes .standard rareInput rareBlock header offset :=
  ⟨compress_rareInput, exists_describes compress_rareInput⟩

/-! ### What a header depends on -/

/-- **The header depends on the counts alone**, and on the table that is chosen. Two inputs that are
permutations of each other have the same header wherever the same table is chosen for them, and an
input has the same block. -/
theorem read_eq_of_perm {limits' : Limits} {input' block' : List UInt8}
    (hperm : input'.Perm input) (h : compress limits input = .ok block)
    (h' : compress limits' input' = .ok block')
    (hlog : limits.tableLog input.length input.toFinset.card =
      limits'.tableLog input'.length input'.toFinset.card) :
    ∃ header offset, Header.read block = .ok (header, offset) ∧
      Header.read block' = .ok (header, offset) ∧ block.take offset = block'.take offset ∧
      (input = input' → block = block') := by
  obtain ⟨-, hlength, -, -, hcount⟩ := accepted_of_compress h
  obtain ⟨histogram, distribution, written, stream, hcontents⟩ := exists_contents h
  obtain ⟨histogram', distribution', written', stream', hcontents'⟩ := exists_contents h'
  have hdivides := hcontents.divides
  have hdivides' := hcontents'.divides
  obtain rfl : histogram = histogram' :=
    hdivides.counts.unique (hdivides'.counts.of_perm hperm)
  obtain rfl : distribution = distribution' := by
    have happortion := hdivides.apportion_eq
    rw [← hdivides.tableLog_eq, hdivides.tableLog_eq_card, hlog, ← hdivides'.tableLog_eq_card,
      hdivides'.tableLog_eq, hdivides'.apportion_eq] at happortion
    exact (Except.ok.inj happortion).symm
  have hwritten := hcontents'.written_eq
  rw [hperm.length_eq, hcontents.written_eq] at hwritten
  obtain rfl : written = written' := Except.ok.inj hwritten
  have hread' := hcontents'.read_eq (by rwa [hperm.length_eq]) (by rwa [hperm.length_eq])
  rw [hperm.length_eq] at hread'
  refine ⟨_, _, hcontents.read_eq hlength hcount, hread', ?_, ?_⟩
  · rw [hcontents.take_eq, hcontents'.take_eq]
  · rintro rfl
    have hstream := hcontents'.stream_eq
    rw [hcontents.stream_eq] at hstream
    rw [hcontents.block_eq, hcontents'.block_eq, Except.ok.inj hstream]

/-- The rare byte may as well come first, and no byte be allowed above it. -/
theorem read_eq_of_perm_rareInput :
    ([98] ++ List.replicate 32 97 : List UInt8).Perm rareInput ∧
      compress .standard rareInput = .ok rareBlock ∧
      compress ⟨98, 9, 5⟩ ([98] ++ List.replicate 32 97) =
        .ok [0, 98, 97, 31, 98, 255, 33, 0, 0, 0, 239, 253] ∧
      ∃ header offset, Header.read rareBlock = .ok (header, offset) ∧
        Header.read [0, 98, 97, 31, 98, 255, 33, 0, 0, 0, 239, 253] = .ok (header, offset) ∧
        rareBlock.take offset =
          [0, 98, 97, 31, 98, 255, 33, 0, 0, 0, 239, 253].take offset ∧
        (rareInput = [98] ++ List.replicate 32 97 →
          rareBlock = [0, 98, 97, 31, 98, 255, 33, 0, 0, 0, 239, 253]) :=
  have h : compress ⟨98, 9, 5⟩ ([98] ++ List.replicate 32 97) =
      .ok [0, 98, 97, 31, 98, 255, 33, 0, 0, 0, 239, 253] := by decide +kernel
  ⟨List.perm_append_comm, compress_rareInput, h,
    read_eq_of_perm List.perm_append_comm compress_rareInput h (by decide)⟩

end Block

end FiniteStateEntropy
