import FiniteStateEntropy.Proofs.Block
import FiniteStateEntropy.Proofs.CheckedApportionment
import FiniteStateEntropy.Proofs.CheckedEncodeTable
import FiniteStateEntropy.Proofs.CheckedEncoding

/-!
# Any input is compressed safely

An encoder has nobody to distrust: it makes its own table, and it is the table's symbols that it
encodes. Whatever goes wrong would be its own fault. The checked encoder makes every step of a
compression with the checks of its parts, from the products of the apportionment to the fields of
the container, and it ends as the encoder does.

A tally has a place for every byte that is counted in it, by its type. Its counts are of 32 bits,
and an input is counted before its length is looked at. An input whose length does not fit a header
is refused in the end, but it may be one that cannot be counted either, so nothing is said of it.

## Main definitions

* `Checked.count`, `Checked.tableLog`: the histogram of an input, and the table log for it
* `Checked.writeHeader`: the bytes of a header
* `Checked.pack`, `Checked.compress`: compression with checks

## Main results

* `encoder_safe`: every distribution has an encode table, every input of it a stream, and every
  input whose length fits a header a block or a reason to be refused
-/

namespace FiniteStateEntropy

namespace Checked

/-- Counts the bytes of `input`. No count is larger on the way than it is in the end. -/
def count (input : List UInt8) (ceiling : UInt8) : Except Stop Histogram := do
  let histogram ← lift (Histogram.ofBytes input ceiling)
  let _ ← histogram.counts.mapM (fit 32)
  return histogram

/-- The table log for an input, which is not empty. A word of 64 bits can be shifted by it. -/
def tableLog (limits : Limits) (length distinct : ℕ) : Except Stop ℕ := do
  let _ ← sub length 1
  fit 6 (limits.tableLog length distinct)

/-- The bytes of a header. The table log is written as what it exceeds the smallest one by, and a
share as a number of 8 or of 16 bits. -/
def writeHeader (header : Header) : Except Stop (List UInt8) := do
  let bytes ← lift header.bytes
  let excess ← sub header.distribution.tableLog minTableLog
  let _ ← fit 8 excess
  let _ ← header.distribution.shares.mapM fun share =>
    fit (if decide (wideTableLog ≤ header.distribution.tableLog) then 16 else 8) share.slots
  return bytes

/-- Compresses `input` under limits that are taken to be valid. -/
def pack (limits : Limits) (input : List UInt8) : Except Stop Packing :=
  if input.length < 2 then
    refuse (.inputTooShort input.length)
  else do
    let histogram ← count input limits.symbolCeiling
    let tableLog ← tableLog limits input.length histogram.distinct
    let distribution ← apportion histogram tableLog
    let header : Header := ⟨distribution, input.length⟩
    let bytes ← writeHeader header
    let table ← encodeTable distribution
    let block ← encodeStream table input bytes.toArray
    return ⟨histogram, header, bytes.length, block.toList⟩

/-- Compresses `input` to a block. -/
def compress (limits : Limits) (input : List UInt8) : Except Stop (List UInt8) := do
  lift limits.validate
  return (← pack limits input).block

variable {limits : Limits} {input : List UInt8}

/-- No byte occurs more often than the input is long. -/
theorem mapM_fit_eq {histogram : Histogram} (h : histogram.Counts input)
    (hcount : input.length < 2 ^ 32) :
    histogram.counts.mapM (fit 32) = .ok (histogram.counts.map id) := by
  exact mapM_eq_ok fun count hmem => fit_eq (Nat.lt_of_le_of_lt (h.le_length hmem) hcount)

/-- An input is counted, unless it has a byte above the ceiling. -/
theorem alike_count (hcount : input.length < 2 ^ 32) (ceiling : UInt8) :
    Alike (fun e => ¬e.IsMisuse) (fun histogram => histogram.Counts input)
      (count input ceiling) (Histogram.ofBytes input ceiling) := by
  rw [count]
  by_cases habove : ∃ byte ∈ input, ceiling < byte
  · obtain ⟨byte, -, -, herror⟩ := Histogram.exists_ofBytes_error habove
    rw [herror]
    exact .refused (by rintro ⟨cause, h⟩; cases h)
  · have hceiling : ∀ byte ∈ input, byte ≤ ceiling := by
      intro byte hmem
      exact UInt8.not_lt.mp fun hlt => habove ⟨byte, hmem, hlt⟩
    obtain ⟨histogram, hhistogram, hcounts⟩ := Histogram.exists_ofBytes hceiling
    rw [hhistogram]
    exact .of_check rfl (.of_check (mapM_fit_eq hcounts hcount) (.ok hcounts))

/-- The table log of an input that is not too short is chosen safely under valid limits. -/
theorem tableLog_eq (hvalid : limits.Valid) {length : ℕ} (hlength : 2 ≤ length) (distinct : ℕ) :
    tableLog limits length distinct = .ok (limits.tableLog length distinct) := by
  have hlog := (Limits.tableLog_mem hvalid length distinct).2
  rw [maxTableLog] at hlog
  exact pass (sub_eq (by omega)) (fit_eq (by omega))

/-- A histogram is apportioned, unless it has more symbols than slots. -/
theorem alike_apportion (hvalid : limits.Valid) (hlength : 2 ≤ input.length)
    {histogram : Histogram} (hcounts : histogram.Counts input) :
    Alike (fun e => ¬e.IsMisuse) (Block.Divides limits input histogram)
      (apportion histogram (limits.tableLog input.length histogram.distinct))
      (histogram.apportion (limits.tableLog input.length histogram.distinct)) := by
  have hlog := Limits.tableLog_mem hvalid input.length histogram.distinct
  have htotal : histogram.total ≠ 0 := by
    rw [hcounts.total_eq]
    omega
  rw [apportion_eq]
  rcases Nat.lt_or_ge (2 ^ limits.tableLog input.length histogram.distinct) histogram.distinct
    with hmany | hfits
  · rw [Histogram.apportion, if_neg (by omega), if_neg htotal, if_pos hmany]
    exact .refused (by rintro ⟨cause, h⟩; cases h)
  · obtain ⟨distribution, happortion, htable, hkinds⟩ :=
      Histogram.exists_apportion hlog htotal hfits
    rw [happortion]
    exact .ok ⟨hcounts, happortion, htable, hkinds⟩

/-- No share needs all the bits of its field. -/
theorem mapM_fit_slots_eq (distribution : Distribution) :
    distribution.shares.mapM (fun share =>
      fit (if decide (wideTableLog ≤ distribution.tableLog) then 16 else 8) share.slots) =
        .ok (distribution.shares.map Share.slots) := by
  refine mapM_eq_ok fun share hmem => fit_eq ?_
  have hfits := Header.fits_of_mem hmem
  rw [Share.Fits] at hfits
  split at hfits
  · rename_i hwide
    rw [if_pos hwide]
    omega
  · rename_i hnarrow
    rw [if_neg hnarrow]
    omega

/-- A header is written, unless the input is too long for it. -/
theorem alike_writeHeader (header : Header) :
    Alike (fun e => ¬e.IsMisuse) (fun _ => True) (writeHeader header) header.bytes := by
  obtain ⟨hmin, hmax⟩ := header.distribution.tableLog_mem
  rw [maxTableLog] at hmax
  rw [writeHeader, Header.bytes]
  split
  · exact .of_check rfl (.of_check (sub_eq hmin) (.of_check (fit_eq (by omega))
      (.of_check (mapM_fit_slots_eq header.distribution) (.ok trivial))))
  · exact .refused (by rintro ⟨cause, h⟩; cases h)

/-- **An input is packed safely** under valid limits. -/
theorem alike_pack (hvalid : limits.Valid) (hcount : input.length < 2 ^ 32) :
    Alike (fun e => ¬e.IsMisuse) (fun _ => True) (pack limits input) (Block.pack limits input) := by
  rw [pack, Block.pack]
  split
  · exact .refused (by rintro ⟨cause, h⟩; cases h)
  rename_i hshort
  have hlength : 2 ≤ input.length := Nat.not_lt.mp hshort
  refine (alike_count hcount limits.symbolCeiling).bind fun histogram hcounts => ?_
  refine .of_check (tableLog_eq hvalid hlength histogram.distinct) ?_
  refine (alike_apportion hvalid hlength hcounts).bind fun distribution hdivides => ?_
  refine (alike_writeHeader _).bind fun bytes _ => ?_
  obtain ⟨block, hencode, hchecked⟩ := exists_encodeStream hlength
    (fun byte hmem => (hdivides.slots_ne_zero_iff byte).mpr hmem) bytes.toArray
  exact .of_check (encodeTable_eq distribution) (.of_found hencode hchecked (.ok trivial))

/-- Limits are valid, or a bound is refused. -/
theorem alike_validate (limits : Limits) :
    Alike (fun e => ¬e.IsMisuse) (fun _ => limits.Valid) (lift limits.validate)
      limits.validate := by
  refine .lift (fun _ h => limits.validate_eq_ok_iff.mp h) ?_
  rintro e herror ⟨cause, rfl⟩
  rw [Limits.validate] at herror
  split at herror
  · cases herror
  split at herror
  · cases herror
  split at herror
  · cases herror
  · cases herror

/-- **An input is compressed safely**, or it is refused for what it is. -/
theorem alike_compress (limits : Limits) (hcount : input.length < 2 ^ 32) :
    Alike (fun e => ¬e.IsMisuse) (fun _ => True) (compress limits input)
      (FiniteStateEntropy.compress limits input) := by
  refine (alike_validate limits).bind fun _ hvalid => ?_
  exact (alike_pack hvalid hcount).bind fun packing _ => .ok trivial

end Checked

/-- **Nothing goes wrong in an encoder.** The table of every distribution is built with checks as it
is without: no difference is below zero, no number is cut to its field, and the walk of the spread
closes its cycle. Every input of two or more present symbols is encoded with checks as it is
without: both lanes stay in states of the automaton, every place of a list exists, every field has
at most 16 bits and room in the container, and a flush leaves less than a byte. So a compression
that gives a block meets no failing check. Nor does one that is refused, if the length of the input
fits a header, and it is not refused for breaking the rules of its own parts. -/
theorem encoder_safe :
    (∀ distribution : Distribution,
      Checked.encodeTable distribution = .ok distribution.encodeTable ∧
        ∀ input : List UInt8, 2 ≤ input.length →
          (∀ symbol ∈ input, distribution.slots symbol.toNat ≠ 0) → ∀ out : Array UInt8,
            ∃ bytes, Stream.encode distribution.encodeTable input out = .ok bytes ∧
              Checked.encodeStream distribution.encodeTable input out = .ok bytes) ∧
      ∀ (limits : Limits) (input : List UInt8),
        (∀ block, compress limits input = .ok block →
          Checked.compress limits input = .ok block) ∧
        (input.length < 2 ^ 32 →
          Checked.compress limits input = (compress limits input).mapError .refused ∧
            ∀ cause, compress limits input ≠ .error (.misuse cause)) := by
  constructor
  · intro distribution
    refine ⟨Checked.encodeTable_eq distribution, ?_⟩
    intro input hlength hinput out
    exact Checked.exists_encodeStream hlength hinput out
  · intro limits input
    constructor
    · intro block hblock
      obtain ⟨-, -, -, -, hcount⟩ := accepted_of_compress hblock
      rw [(Checked.alike_compress limits hcount).eq, hblock]
      rfl
    · intro hcount
      have halike := Checked.alike_compress limits hcount
      refine ⟨halike.eq, ?_⟩
      intro cause hmisuse
      rcases halike.outcome with ⟨block, hblock, -⟩ | ⟨e, herror, hblame⟩
      · rw [hblock] at hmisuse
        cases hmisuse
      · rw [herror] at hmisuse
        cases hmisuse
        exact hblame ⟨cause, rfl⟩

/-- The largest table, almost all of it one symbol's. -/
def lopsided : Distribution :=
  ⟨15, [.common 32767 (by decide), .rare], by decide, by decide, by decide, by decide, by decide⟩

/-- Its rare symbol takes 15 bits wherever it is encoded. For a compression, three bytes will do. -/
theorem encoder_safe_lopsided :
    2 ≤ ([1, 0, 1, 1, 0, 1, 1] : List UInt8).length ∧
      (∀ symbol ∈ ([1, 0, 1, 1, 0, 1, 1] : List UInt8), lopsided.slots symbol.toNat ≠ 0) ∧
      (∃ bytes,
        Stream.encode lopsided.encodeTable [1, 0, 1, 1, 0, 1, 1] #[] = .ok bytes ∧
          Checked.encodeStream lopsided.encodeTable [1, 0, 1, 1, 0, 1, 1] #[] = .ok bytes) ∧
      ([7, 8, 7] : List UInt8).length < 2 ^ 32 ∧
      compress .standard [7, 8, 7] = .ok [0, 8, 7, 22, 8, 10, 3, 0, 0, 0, 196, 5] ∧
      Checked.compress .standard [7, 8, 7] = .ok [0, 8, 7, 22, 8, 10, 3, 0, 0, 0, 196, 5] ∧
      ∀ cause, compress .standard [7, 8, 7] ≠ .error (.misuse cause) := by
  have hpresent : ∀ symbol ∈ ([1, 0, 1, 1, 0, 1, 1] : List UInt8),
      lopsided.slots symbol.toNat ≠ 0 := by decide +kernel
  have hblock : compress .standard [7, 8, 7] = .ok [0, 8, 7, 22, 8, 10, 3, 0, 0, 0, 196, 5] := by
    decide +kernel
  obtain ⟨hsafe, hrefused⟩ := encoder_safe.2 .standard [7, 8, 7]
  exact ⟨by decide, hpresent, (encoder_safe.1 lopsided).2 _ (by decide) hpresent #[], by decide,
    hblock, hsafe _ hblock, (hrefused (by decide)).2⟩

end FiniteStateEntropy
