import FiniteStateEntropy.Block
import FiniteStateEntropy.Proofs.CheckedHeader
import FiniteStateEntropy.Proofs.CheckedStream
import FiniteStateEntropy.Proofs.CheckedTables

/-!
# Any bytes are decompressed safely

A block may come from anywhere. Its header says which table to build, and its stream which way to
go through it, so both the table and the way are in the hands of whoever wrote the bytes.

The checked decoder makes every step of decompression with the checks of its parts. It ends as the
decoder does on every block: a header that is read is one of a distribution, the table of a
distribution is built without a check that fails, and on such a table no stream makes one fail.

## Main definitions

* `Checked.decompress`: decompression with checks

## Main results

* `decompress_safe`: what can come of decompressing any bytes
-/

namespace FiniteStateEntropy

namespace Checked

/-- The input that `block` was compressed from. Its stream begins where its header ends. -/
def decompress (block : List UInt8) : Except Stop (List UInt8) := do
  let (header, rest) ← parse block
  let offset ← sub block.length rest.length
  let stream ← behind block offset
  let table ← decodeTable header.distribution
  decodeStream table header.symbolCount stream

end Checked

open Checked

/-- **A block is decoded safely** when its header is read. -/
theorem alike_unpack {block stream : List UInt8} {header : Header}
    (h : Header.parse block = .ok (header, stream)) :
    Alike Error.IsCorruptStream
      (fun out => out.length = header.symbolCount ∧
        ∀ symbol ∈ out, header.distribution.slots symbol.toNat ≠ 0)
      (Checked.decompress block) (decompress block) := by
  obtain ⟨hle, hstream⟩ := behind_eq h
  have hparse : Checked.parse block = .ok (header, stream) := by rw [(alike_parse block).eq, h]; rfl
  have hplain : decompress block =
      Stream.decode header.distribution.decodeTable header.symbolCount stream := by
    rw [decompress, Block.read, h]
    rfl
  have htwo := (Header.exists_bytes_of_parse h).1
  rw [hplain]
  refine .of_check hparse (.of_check (sub_eq hle) (.of_check hstream ?_))
  exact .of_check (decodeTable_eq _) (alike_decodeStream _ htwo stream)

/-- **Whatever bytes are decompressed, nothing goes wrong.** The checked decoder ends as the decoder
does: no place is looked up or written that does not exist, no difference is below zero, and no
number is cut. The bytes are refused for their header or for their stream, or they are decoded to as
many symbols as the header says, all of which have slots in its distribution. And the lanes of a
decoder with the table of the header stay in this table, from the two states that it reads first on
and whatever it reads after them. -/
theorem decompress_safe (block : List UInt8) :
    Checked.decompress block = (decompress block).mapError .refused ∧
      ((∃ fault, Header.parse block = .error (.corruptHeader fault) ∧
          decompress block = .error (.corruptHeader fault)) ∨
        ∃ header stream, Header.parse block = .ok (header, stream) ∧
          ((∃ fault, decompress block = .error (.corruptStream fault)) ∨
            ∃ out, decompress block = .ok out ∧ out.length = header.symbolCount ∧
              ∀ symbol ∈ out, header.distribution.slots symbol.toNat ≠ 0) ∧
          ∀ lanes reader, Stream.Reached header.distribution.decodeTable lanes reader →
            lanes.first < 2 ^ header.distribution.tableLog ∧
              lanes.second < 2 ^ header.distribution.tableLog) := by
  rcases (alike_parse block).outcome with ⟨⟨header, stream⟩, hparse, -⟩ | ⟨e, hparse, fault, rfl⟩
  · have halike := alike_unpack hparse
    refine ⟨halike.eq, .inr ⟨header, stream, hparse, ?_, fun lanes reader h => h.lt_size⟩⟩
    rcases halike.outcome with ⟨out, hout, hlength, hpresent⟩ | ⟨e, he, fault, rfl⟩
    · exact .inr ⟨out, hout, hlength, hpresent⟩
    · exact .inl ⟨fault, he⟩
  · have hplain : decompress block = .error (.corruptHeader fault) := by
      rw [decompress, Block.read, hparse]
      rfl
    have hchecked : Checked.decompress block = .error (.refused (.corruptHeader fault)) := by
      rw [Checked.decompress, (alike_parse block).eq, hparse]
      rfl
    exact ⟨by rw [hchecked, hplain]; rfl, .inl ⟨fault, hparse, hplain⟩⟩

/-- A block of five symbols, coded in a table of 32 slots. -/
def skewedBlock : List UInt8 := [0, 3, 0, 20, 1, 255, 3, 11, 5, 0, 0, 0, 195, 54, 3]

/-- It is decoded, and refused without its last byte. Its decoder starts in two states of the table,
and the first symbol leads to another one. -/
theorem decompress_safe_skewed :
    Checked.decompress skewedBlock = .ok [0, 3, 1, 0, 3] ∧
      Checked.decompress skewedBlock.dropLast =
        .error (.refused (.corruptStream .trailingBits)) ∧
      ∃ lanes reader, Stream.Reached Distribution.skewed.decodeTable lanes reader ∧
        lanes.first < 2 ^ 5 ∧ lanes.second < 2 ^ 5 := by
  have hparse : Header.parse skewedBlock = .ok (⟨.skewed, 5⟩, [195, 54, 3]) := by decide +kernel
  refine ⟨?_, ?_, ?_⟩
  · rw [(decompress_safe _).1]
    decide +kernel
  · rw [(decompress_safe _).1]
    decide +kernel
  · have hfirst : Reader.read 5 ⟨[], 210627, 17, by decide⟩ =
        .ok 19 ⟨[], 210627, 12, by decide⟩ := rfl
    have hsecond : Reader.read 5 ⟨[], 210627, 12, by decide⟩ =
        .ok 13 ⟨[], 210627, 7, by decide⟩ := rfl
    have hentry : Distribution.skewed.decodeTable.entry 19 = .ok ⟨30, 1, 0⟩ := by decide +kernel
    have hdecode : Distribution.skewed.decodeTable.decode 19 ⟨[], 210627, 7, by decide⟩ =
        .ok (0, 31) ⟨[], 210627, 6, by decide⟩ := by
      rw [DecodeTable.decode, hentry]
      rfl
    have hreached := Stream.Reached.first (.start hfirst hsecond) hdecode
    rcases (decompress_safe skewedBlock).2 with
      ⟨fault, hfault, -⟩ | ⟨header, stream, hheader, -, hlanes⟩
    · cases hparse.symm.trans hfault
    · cases hparse.symm.trans hheader
      exact ⟨_, _, hreached, hlanes _ _ hreached⟩

end FiniteStateEntropy
