import FiniteStateEntropy.Block
import FiniteStateEntropy.Proofs.Apportionment
import FiniteStateEntropy.Proofs.Header
import FiniteStateEntropy.Proofs.Histogram
import FiniteStateEntropy.Proofs.RoundTrip

/-!
# What becomes of an input

A compression is refused for one of the reasons that its caller can check beforehand: limits that
are no limits, an input too short or too long, a byte above the ceiling, or more different bytes
than the largest table allowed has slots. Everything that may fail later on does not: the table log
grows until the alphabet fits, so the apportionment succeeds, its distribution has every byte of
the input, so the stream is written, and the header is too.

What is not refused comes back.

## Main results

* `Block.exists_divides`: the distribution of an input that is not refused
* `Block.exists_parts`, `Block.exists_pack`: its block, and what decompressing gives
* `decompress_compress`: decompression undoes compression
-/

namespace FiniteStateEntropy

variable {limits : Limits} {input : List UInt8}

/-! ### Limits -/

theorem le_two_pow_ceilLog2 (n : ℕ) : n ≤ 2 ^ ceilLog2 n := by
  rw [ceilLog2]
  split
  · omega
  · have := Nat.lt_log2_self (n := n - 1)
    omega

/-- `ceilLog2 n` is the least exponent whose power of two reaches `n`. -/
theorem ceilLog2_le_iff (n k : ℕ) : ceilLog2 n ≤ k ↔ n ≤ 2 ^ k := by
  constructor
  · intro h
    exact Nat.le_trans (le_two_pow_ceilLog2 n) (Nat.pow_le_pow_right (by decide) h)
  · intro h
    rw [ceilLog2]
    split
    · exact Nat.zero_le k
    · rename_i hn
      have hne : n - 1 ≠ 0 := by omega
      have : (n - 1).log2 < k := (Nat.log2_lt hne).2 (by omega)
      omega

namespace Limits

/-- Both bounds are table logs of the format and in order. -/
structure Valid (limits : Limits) : Prop where
  /-- The lower bound is no smaller than the smallest one. -/
  min_le : minTableLog ≤ limits.leastTableLog
  /-- The bounds are in order. -/
  le : limits.leastTableLog ≤ limits.greatestTableLog
  /-- The upper bound is no larger than the largest one. -/
  le_max : limits.greatestTableLog ≤ maxTableLog

theorem validate_eq_ok_iff (limits : Limits) : limits.validate = .ok () ↔ limits.Valid := by
  rw [validate]
  constructor
  · intro h
    split at h
    · cases h
    · split at h
      · cases h
      · split at h
        · cases h
        · exact ⟨by omega, by omega, by omega⟩
  · rintro ⟨hmin, hle, hmax⟩
    rw [if_neg (by omega), if_neg (by omega), if_neg (by omega)]

/-- The choice is a table log of the format. -/
theorem tableLog_mem (h : limits.Valid) (length distinct : ℕ) :
    minTableLog ≤ limits.tableLog length distinct ∧
      limits.tableLog length distinct ≤ maxTableLog := by
  obtain ⟨hmin, hle, hmax⟩ := h
  rw [tableLog]
  omega

/-- The choice has a slot for every symbol if the largest table allowed has. -/
theorem le_two_pow_tableLog {length distinct : ℕ} (h : distinct ≤ 2 ^ limits.greatestTableLog) :
    distinct ≤ 2 ^ limits.tableLog length distinct := by
  rw [← ceilLog2_le_iff] at h ⊢
  rw [tableLog]
  omega

/-- Otherwise the largest table allowed is the choice. -/
theorem tableLog_eq_greatest {length distinct : ℕ} (h : 2 ^ limits.greatestTableLog < distinct) :
    limits.tableLog length distinct = limits.greatestTableLog := by
  have hceil : limits.greatestTableLog < ceilLog2 distinct := by
    rw [← Nat.not_le, ceilLog2_le_iff]
    omega
  rw [tableLog]
  omega

end Limits

/-! ### Refusals -/

theorem compress_of_validate_error {e : Error} (h : limits.validate = .error e) :
    compress limits input = .error e := by
  rw [compress, h]
  rfl

theorem compress_of_valid (h : limits.Valid) :
    compress limits input = (Block.pack limits input).map Packing.block := by
  rw [compress, limits.validate_eq_ok_iff.mpr h]
  cases Block.pack limits input <;> rfl

/-- What lies behind a header is decoded under its distribution. -/
theorem decompress_of_parse {block stream : List UInt8} {header : Header}
    (h : Header.parse block = .ok (header, stream)) :
    decompress block =
      Stream.decode header.distribution.decodeTable header.symbolCount stream := by
  rw [decompress, Block.read, h]
  rfl

theorem decompress_of_parse_error {block : List UInt8} {e : Error}
    (h : Header.parse block = .error e) : decompress block = .error e := by
  rw [decompress, Block.read, h]
  rfl

namespace Block

theorem pack_of_short (h : input.length < 2) :
    pack limits input = .error (.inputTooShort input.length) :=
  if_pos h

theorem exists_pack_above (hlength : 2 ≤ input.length)
    (h : ∃ byte ∈ input, limits.symbolCeiling < byte) :
    ∃ byte ∈ input, limits.symbolCeiling < byte ∧
      pack limits input = .error (.symbolAboveCeiling byte limits.symbolCeiling) := by
  obtain ⟨byte, hmem, hlt, herror⟩ := Histogram.exists_ofBytes_error h
  refine ⟨byte, hmem, hlt, ?_⟩
  rw [pack, if_neg (Nat.not_lt.mpr hlength), herror]
  rfl

/-- More different bytes than slots. -/
theorem pack_of_distinct (hvalid : limits.Valid) (hlength : 2 ≤ input.length)
    (hceiling : ∀ byte ∈ input, byte ≤ limits.symbolCeiling)
    (h : 2 ^ limits.greatestTableLog < input.toFinset.card) :
    pack limits input =
      .error (.tableTooSmall input.toFinset.card limits.greatestTableLog) := by
  obtain ⟨histogram, hhistogram, hcounts⟩ := Histogram.exists_ofBytes hceiling
  have hmem := Limits.tableLog_mem hvalid input.length histogram.distinct
  rw [hcounts.distinct_eq, Limits.tableLog_eq_greatest h] at hmem
  have htotal : histogram.total ≠ 0 := by
    rw [hcounts.total_eq]
    omega
  have happortion : histogram.apportion limits.greatestTableLog =
      .error (.tableTooSmall input.toFinset.card limits.greatestTableLog) := by
    rw [Histogram.apportion, if_neg (by omega), if_neg htotal, hcounts.distinct_eq, if_pos h]
  rw [pack, if_neg (Nat.not_lt.mpr hlength), hhistogram]
  simp only [hcounts.distinct_eq, Limits.tableLog_eq_greatest h, happortion, bind, Except.bind]

/-! ### Blocks -/

/-- A distribution divides the table that is chosen for an input among the bytes of the input. -/
structure Divides (limits : Limits) (input : List UInt8) (histogram : Histogram)
    (distribution : Distribution) : Prop where
  /-- The histogram counts the input. -/
  counts : histogram.Counts input
  /-- The distribution is that of the histogram. -/
  apportion_eq : histogram.apportion (limits.tableLog input.length histogram.distinct) =
    .ok distribution
  /-- The table has the log chosen. -/
  tableLog_eq : distribution.tableLog = limits.tableLog input.length histogram.distinct
  /-- Symbols are absent, rare and common by their counts. -/
  kinds_eq : distribution.shares.map Share.kind = histogram.counts.map
    (Apportionment.expectedKind (limits.tableLog input.length histogram.distinct) histogram.total)

/-- The bytes that have slots are those of the input. -/
theorem Divides.slots_ne_zero_iff {histogram : Histogram} {distribution : Distribution}
    (h : Divides limits input histogram distribution) (byte : UInt8) :
    distribution.slots byte.toNat ≠ 0 ↔ byte ∈ input := by
  rw [Histogram.slots_ne_zero_iff h.kinds_eq, h.counts byte.toNat, ← Nat.pos_iff_ne_zero,
    Histogram.occurrences_pos_iff]
  constructor
  · rintro ⟨byte', hmem, heq⟩
    rwa [← UInt8.toNat_inj.mp heq]
  · intro hmem
    exact ⟨byte, hmem, rfl⟩

/-- **The distribution of an input** that is not refused. -/
theorem exists_divides (hvalid : limits.Valid) (hlength : 2 ≤ input.length)
    (hceiling : ∀ byte ∈ input, byte ≤ limits.symbolCeiling)
    (hdistinct : input.toFinset.card ≤ 2 ^ limits.greatestTableLog) :
    ∃ histogram distribution, Histogram.ofBytes input limits.symbolCeiling = .ok histogram ∧
      Divides limits input histogram distribution := by
  obtain ⟨histogram, hhistogram, hcounts⟩ := Histogram.exists_ofBytes hceiling
  have htotal : histogram.total ≠ 0 := by
    rw [hcounts.total_eq]
    omega
  rw [← hcounts.distinct_eq] at hdistinct
  obtain ⟨distribution, happortion, htable, hkinds⟩ :=
    Histogram.exists_apportion (Limits.tableLog_mem hvalid input.length histogram.distinct) htotal
      (Limits.le_two_pow_tableLog hdistinct)
  exact ⟨histogram, distribution, hhistogram, hcounts, happortion, htable, hkinds⟩

/-- An input whose length does not fit a header. -/
theorem pack_of_long (hvalid : limits.Valid) (hlength : 2 ≤ input.length)
    (hceiling : ∀ byte ∈ input, byte ≤ limits.symbolCeiling)
    (hdistinct : input.toFinset.card ≤ 2 ^ limits.greatestTableLog)
    (h : ¬input.length < 2 ^ 32) :
    pack limits input = .error (.inputTooLong input.length) := by
  obtain ⟨histogram, distribution, hhistogram, hdivides⟩ :=
    exists_divides hvalid hlength hceiling hdistinct
  rw [pack, if_neg (Nat.not_lt.mpr hlength), hhistogram]
  simp only [hdivides.apportion_eq, Header.bytes_of_long _ h, bind, Except.bind]

/-- **The block of an input** that is not refused: the header of its distribution and, behind it,
its stream. -/
theorem exists_parts (hvalid : limits.Valid) (hlength : 2 ≤ input.length)
    (hceiling : ∀ byte ∈ input, byte ≤ limits.symbolCeiling)
    (hdistinct : input.toFinset.card ≤ 2 ^ limits.greatestTableLog)
    (hcount : input.length < 2 ^ 32) :
    ∃ histogram distribution written stream, Divides limits input histogram distribution ∧
      (Header.mk distribution input.length).bytes = .ok written ∧
      Stream.Plain.encode distribution.encodeTable input = .ok stream ∧
      pack limits input =
        .ok ⟨histogram, ⟨distribution, input.length⟩, written.length, written ++ stream⟩ := by
  obtain ⟨histogram, distribution, hhistogram, hdivides⟩ :=
    exists_divides hvalid hlength hceiling hdistinct
  obtain ⟨written, hwritten, -⟩ := Header.exists_bytes distribution hlength hcount
  obtain ⟨stream, hplain, hencode⟩ := Stream.exists_encode hlength fun byte hmem =>
    (hdivides.slots_ne_zero_iff byte).mpr hmem
  refine ⟨histogram, distribution, written, stream, hdivides, hwritten, hplain, ?_⟩
  rw [pack, if_neg (Nat.not_lt.mpr hlength), hhistogram]
  simp only [hdivides.apportion_eq, hwritten, hencode, bind, Except.bind, pure, Except.pure]
  simp

/-- What decompressing gives is the input again. -/
theorem exists_pack (hvalid : limits.Valid) (hlength : 2 ≤ input.length)
    (hceiling : ∀ byte ∈ input, byte ≤ limits.symbolCeiling)
    (hdistinct : input.toFinset.card ≤ 2 ^ limits.greatestTableLog)
    (hcount : input.length < 2 ^ 32) :
    ∃ packing, pack limits input = .ok packing ∧ decompress packing.block = .ok input := by
  obtain ⟨histogram, distribution, written, stream, hdivides, hwritten, hplain, hpack⟩ :=
    exists_parts hvalid hlength hceiling hdistinct hcount
  obtain ⟨bytes, hbytes, hparse⟩ := Header.exists_bytes distribution hlength hcount
  obtain rfl : bytes = written := Except.ok.inj (hbytes.symm.trans hwritten)
  have hdecode := Stream.decode_of_encode hlength
    (fun byte hmem => (hdivides.slots_ne_zero_iff byte).mpr hmem) hplain
  exact ⟨_, hpack, (decompress_of_parse (hparse stream)).trans hdecode⟩

end Block

/-! ### Compression -/

/-- An input that was compressed had no reason to be refused. -/
theorem accepted_of_compress {block : List UInt8} (h : compress limits input = .ok block) :
    limits.Valid ∧ 2 ≤ input.length ∧ (∀ byte ∈ input, byte ≤ limits.symbolCeiling) ∧
      input.toFinset.card ≤ 2 ^ limits.greatestTableLog ∧ input.length < 2 ^ 32 := by
  have hvalid : limits.Valid := by
    rw [← limits.validate_eq_ok_iff]
    cases hvalidate : limits.validate with
    | ok _ => rfl
    | error e =>
      rw [compress_of_validate_error hvalidate] at h
      cases h
  rw [compress_of_valid hvalid] at h
  have hlength : 2 ≤ input.length := by
    by_contra hshort
    rw [Block.pack_of_short (Nat.not_le.mp hshort)] at h
    cases h
  have hceiling : ∀ byte ∈ input, byte ≤ limits.symbolCeiling := by
    intro byte hmem
    by_contra habove
    obtain ⟨byte', -, -, herror⟩ :=
      Block.exists_pack_above hlength ⟨byte, hmem, UInt8.not_le.mp habove⟩
    rw [herror] at h
    cases h
  have hdistinct : input.toFinset.card ≤ 2 ^ limits.greatestTableLog := by
    by_contra hmany
    rw [Block.pack_of_distinct hvalid hlength hceiling (Nat.not_le.mp hmany)] at h
    cases h
  refine ⟨hvalid, hlength, hceiling, hdistinct, ?_⟩
  by_contra hlong
  rw [Block.pack_of_long hvalid hlength hceiling hdistinct hlong] at h
  cases h

/-- **Decompression undoes compression**, under whatever limits. -/
theorem decompress_compress {block : List UInt8} (h : compress limits input = .ok block) :
    decompress block = .ok input := by
  obtain ⟨hvalid, hlength, hceiling, hdistinct, hcount⟩ := accepted_of_compress h
  obtain ⟨packing, hpack, hround⟩ := Block.exists_pack hvalid hlength hceiling hdistinct hcount
  rw [compress_of_valid hvalid, hpack] at h
  cases h
  exact hround

/-- Five bytes of four kinds, with the default limits. -/
theorem decompress_compress_five :
    compress .standard [7, 7, 3, 7, 255] =
        .ok [0, 255, 3, 6, 7, 20, 255, 6, 5, 0, 0, 0, 172, 40] ∧
      decompress [0, 255, 3, 6, 7, 20, 255, 6, 5, 0, 0, 0, 172, 40] = .ok [7, 7, 3, 7, 255] :=
  have h : compress .standard [7, 7, 3, 7, 255] =
      .ok [0, 255, 3, 6, 7, 20, 255, 6, 5, 0, 0, 0, 172, 40] := by decide +kernel
  ⟨h, decompress_compress h⟩

end FiniteStateEntropy
