import FiniteStateEntropy.Error
import FiniteStateEntropy.Bits.Basic

/-!
# The bit writer

Fields are packed from the low end of a 64-bit container, and whole bytes are drained from the
same end, so the output is one little-endian number: the first field lies lowest.

The writer never drains on its own. A caller adds as many fields as the container holds and then
calls `flush`; `add` refuses a field that would not fit, or one wider than `fieldWidthLimit`.
Where the calls to `flush` stand is a matter of speed alone, because the view `Writer.bits`, the
bit string written so far, does not depend on them.

That nothing lies above the held bits of the container is part of the type, and is what lets a
new field be put on top by a bitwise or.

## Main definitions

* `Writer`: output, container, and the number of bits the container holds
* `Writer.add`, `Writer.flush`, `Writer.finish`
* `Writer.bits`: the view, all bits written so far

## Main results

* `Writer.bits_add`, `Writer.bits_flush`: adding appends a field, flushing changes nothing
* `Writer.ofBytes_finish`: the finished bytes spell the bits written, filled up by zeros
-/

namespace FiniteStateEntropy

-- powers are those of the core library, also where monoids have their own
attribute [local instance (high)] instPowNat

/-- Width of the container that the writer fills and the reader empties. -/
def containerBits : Nat := 64

/-- The widest field that `Writer.add` takes. -/
def fieldWidthLimit : Nat := 16

/-- A field put on top of `n` bits of a container. -/
theorem toNat_or_field {container : UInt64} {n w : Nat} (v : Nat) (hn : n < containerBits)
    (hw : n + w ≤ containerBits) (h : container.toNat < 2 ^ n) :
    (container ||| (v % 2 ^ w).toUInt64 <<< n.toUInt64).toNat =
      container.toNat + 2 ^ n * (v % 2 ^ w) := by
  simp only [containerBits] at hn hw
  have hv : v % 2 ^ w < 2 ^ w := Nat.mod_lt _ (Nat.two_pow_pos w)
  have hsmall : v % 2 ^ w < 2 ^ 64 :=
    Nat.lt_of_lt_of_le hv (Nat.pow_le_pow_right (by decide) (by omega))
  have hshifted : 2 ^ n * (v % 2 ^ w) < 2 ^ 64 := by
    have : 2 ^ n * (v % 2 ^ w) < 2 ^ n * 2 ^ w :=
      (Nat.mul_lt_mul_left (Nat.two_pow_pos n)).mpr hv
    rw [← Nat.pow_add] at this
    exact Nat.lt_of_lt_of_le this (Nat.pow_le_pow_right (by decide) hw)
  have hvalue : (v % 2 ^ w).toUInt64.toNat = v % 2 ^ w := by
    show (UInt64.ofNat _).toNat = _
    rw [UInt64.toNat_ofNat', Nat.mod_eq_of_lt hsmall]
  have hshift : n.toUInt64.toNat % 64 = n := by
    show (UInt64.ofNat n).toNat % 64 = n
    rw [UInt64.toNat_ofNat']
    omega
  rw [UInt64.toNat_or, UInt64.toNat_shiftLeft, hvalue, hshift, Nat.shiftLeft_eq, Nat.mul_comm,
    Nat.mod_eq_of_lt hshifted, Nat.or_comm, Nat.add_comm, Nat.two_pow_add_eq_or_of_lt h]

/-- A bit string under construction: whole bytes in `out`, the rest in `container`. -/
structure Writer where
  /-- The bytes written so far, after those that were there at the start. -/
  out : Array UInt8
  /-- The bits not yet drained, at the low end. -/
  container : UInt64
  /-- How many bits of the container count. -/
  held : Nat
  /-- The container has room for what it holds. -/
  held_le : held ≤ containerBits
  /-- Nothing lies above the bits that count. -/
  container_lt : container.toNat < 2 ^ held
  deriving DecidableEq, Repr

namespace Writer

/-- Starts writing after the bytes of `out`. -/
def onto (out : Array UInt8) : Writer := ⟨out, 0, 0, Nat.zero_le _, by decide⟩

/-- Appends the `width` lowest bits of `value`, if the container has room for them. -/
def add (writer : Writer) (value width : Nat) : Except Error Writer :=
  if room : width ≤ fieldWidthLimit ∧ writer.held < containerBits ∧
      writer.held + width ≤ containerBits then
    .ok {
      out := writer.out
      container :=
        writer.container ||| (value % 2 ^ width).toUInt64 <<< writer.held.toUInt64
      held := writer.held + width
      held_le := room.2.2
      container_lt := by
        rw [toNat_or_field value room.2.1 room.2.2 writer.container_lt, Nat.pow_add]
        have := writer.container_lt
        have : 2 ^ writer.held * (value % 2 ^ width + 1) ≤ 2 ^ writer.held * 2 ^ width :=
          Nat.mul_le_mul_left _ (Nat.mod_lt _ (Nat.two_pow_pos width))
        rw [Nat.mul_add] at this
        omega }
  else
    .error (.misuse .fieldTooWide)

/-- What stays in a container when a byte is drained. -/
theorem toNat_shiftRight_lt {container : UInt64} {n : Nat} (h : container.toNat < 2 ^ n) :
    (container >>> 8).toNat < 2 ^ (n - 8) := by
  rw [UInt64.toNat_shiftRight, Nat.shiftRight_eq_div_pow]
  refine Nat.div_lt_of_lt_mul ?_
  rw [show (8 : UInt64).toNat % 64 = 8 from rfl, ← Nat.pow_add]
  exact Nat.lt_of_lt_of_le h (Nat.pow_le_pow_right (by decide) (by omega))

/-- Moves `count` bytes from the low end of the container to the output. -/
def drain : Nat → Writer → Writer
  | 0, writer => writer
  | count + 1, ⟨out, container, held, held_le, container_lt⟩ =>
    drain count ⟨out.push container.toUInt8, container >>> 8, held - 8,
      Nat.le_trans (Nat.sub_le _ _) held_le, toNat_shiftRight_lt container_lt⟩

/-- Moves every complete byte to the output. Fewer than eight bits stay. -/
def flush (writer : Writer) : Writer :=
  drain (writer.held / 8) writer

/-- The whole output, with a partial last byte filled up by zeros. -/
def finish (writer : Writer) : Array UInt8 :=
  let ⟨out, container, held, _, _⟩ := writer.flush
  if 0 < held then out.push container.toUInt8 else out

/-- The bits written so far, the bytes present at the start included. -/
def bits (writer : Writer) : List Bool :=
  Bits.ofBytes writer.out.toList ++ Bits.low writer.held writer.container.toNat

/-! ### What the operations do to the bits written -/

@[simp] theorem bits_onto (out : Array UInt8) : (onto out).bits = Bits.ofBytes out.toList := by
  simp [bits, onto]

/-- Adding a field appends its bits. -/
theorem bits_add {writer next : Writer} {value width : Nat}
    (h : writer.add value width = .ok next) :
    next.bits = writer.bits ++ Bits.low width value := by
  rw [add] at h
  split at h
  · rename_i room
    cases h
    simp only [bits]
    rw [toNat_or_field value room.2.1 room.2.2 writer.container_lt,
      Bits.low_add_of_lt _ _ writer.container_lt, Bits.low_mod, List.append_assoc]
  · cases h

theorem held_drain (count : Nat) (writer : Writer) :
    (drain count writer).held = writer.held - 8 * count := by
  induction count generalizing writer with
  | zero => rfl
  | succ count ih =>
    rw [drain, ih]
    simp only
    omega

theorem bits_drain {count : Nat} {writer : Writer} (h : 8 * count ≤ writer.held) :
    (drain count writer).bits = writer.bits := by
  induction count generalizing writer with
  | zero => rfl
  | succ count ih =>
    obtain ⟨out, container, held, held_le, container_lt⟩ := writer
    simp only at h
    rw [drain, ih (by simp only; omega)]
    obtain ⟨rest, rfl⟩ : ∃ rest, held = 8 + rest := ⟨held - 8, by omega⟩
    have hbyte : Bits.low 8 (container.toNat % 256) = Bits.low 8 container.toNat :=
      Bits.low_mod 8 _
    have hrest : (container >>> 8).toNat = container.toNat / 2 ^ 8 := by
      rw [UInt64.toNat_shiftRight, Nat.shiftRight_eq_div_pow]
      rfl
    simp [bits, hbyte, hrest, Bits.low_add]

/-- Flushing changes nothing. -/
@[simp] theorem bits_flush (writer : Writer) : writer.flush.bits = writer.bits :=
  bits_drain (by omega)

/-- After a flush there is room for at least 57 more bits. -/
theorem held_flush_lt (writer : Writer) : writer.flush.held < 8 := by
  rw [flush, held_drain]
  omega

/-- The finished bytes spell the bits written, filled up by zeros to a whole number of bytes. -/
theorem ofBytes_finish (writer : Writer) :
    ∃ fill < 8, Bits.ofBytes writer.finish.toList = writer.bits ++ List.replicate fill false := by
  rw [← bits_flush writer]
  have hlt := held_flush_lt writer
  rw [finish]
  generalize writer.flush = flushed at hlt
  obtain ⟨out, container, held, held_le, container_lt⟩ := flushed
  simp only at hlt
  by_cases hpos : 0 < held
  · refine ⟨8 - held, by omega, ?_⟩
    have hbyte : Bits.low 8 (container.toNat % 256) =
        Bits.low held container.toNat ++ List.replicate (8 - held) false := by
      rw [← Bits.low_of_zero, ← Nat.div_eq_of_lt container_lt, ← Bits.low_add,
        Nat.add_sub_cancel' (Nat.le_of_lt hlt)]
      exact Bits.low_mod 8 _
    simp [bits, hpos, hbyte]
  · refine ⟨0, by omega, ?_⟩
    obtain rfl : held = 0 := by omega
    simp [bits]

end Writer

end FiniteStateEntropy
