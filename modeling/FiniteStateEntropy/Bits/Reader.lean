import FiniteStateEntropy.Error
import FiniteStateEntropy.Bits.Writer

/-!
# The bit reader

A stream is read from its end: the last field written comes out first. The highest set bit of
the last byte is the end mark and belongs to no field; a stream without one is refused.

The reader keeps the bytes it has not loaded, last byte first, and a 64-bit window whose `live`
lowest bits are still to be read. Bits above those are left over from earlier fields and are
never cleared, only shifted out. The window is topped up while it holds at most 56 live bits, so
that a loaded byte never pushes out a live bit; a field of up to 57 bits can therefore always be
read if the stream has it.

Reading is stateful and may fail, and a failed read leaves a reader with the same unread bits,
so a shorter field may still be read. `ReadM` keeps the reader on failure for that reason.

## Main definitions

* `Reader`, `Reader.ofBytes`: a reader behind the end mark of a byte string
* `Reader.reload`, `Reader.read`, `Reader.exhausted`
* `Reader.unreadBits`: the view, all bits still to be read, next one first

## Main results

* `Reader.unreadBits_reload`: loading bytes changes nothing
* `Reader.front_eq`, `Reader.unreadBits_advance`: what is read is the front of the view
-/

namespace FiniteStateEntropy

-- powers are those of the core library, also where monoids have their own
attribute [local instance (high)] instPowNat

/-- A stream partly read from its end. -/
structure Reader where
  /-- The bytes not loaded yet, last byte first. -/
  unread : List UInt8
  /-- The loaded bits; only the `live` lowest ones count. -/
  window : UInt64
  /-- How many bits of the window are still to be read. -/
  live : Nat
  /-- The window holds what counts. -/
  live_le : live ≤ containerBits
  deriving Repr

instance : DecidableEq Reader := fun reader reader' =>
  decidable_of_iff (reader.unread = reader'.unread ∧ reader.window = reader'.window ∧
    reader.live = reader'.live) (by cases reader; cases reader'; simp)

/-- Reading: a failure keeps the reader as it is then. -/
abbrev ReadM := EStateM Error Reader

/-- A step that reads nothing. -/
def ReadM.ofExcept {α : Type} : Except Error α → ReadM α
  | .ok a => pure a
  | .error e => throw e

namespace Reader

/-- Loads bytes while the window has room for a whole one. -/
def load : List UInt8 → UInt64 → (live : Nat) → live ≤ containerBits → Reader
  | [], window, live, live_le => ⟨[], window, live, live_le⟩
  | byte :: unread, window, live, live_le =>
    if room : live ≤ containerBits - 8 then
      load unread (window <<< 8 ||| byte.toUInt64) (live + 8)
        (Nat.add_le_of_le_sub (by decide) room)
    else
      ⟨byte :: unread, window, live, live_le⟩

/-- Tops up the window. -/
def reload (reader : Reader) : Reader :=
  load reader.unread reader.window reader.live reader.live_le

/-- The reader with the next `width` loaded bits left behind. -/
def advance (reader : Reader) (width : Nat) : Reader :=
  { reader with
    live := reader.live - width
    live_le := Nat.le_trans (Nat.sub_le _ _) reader.live_le }

/-- The number that the next `width` loaded bits spell. -/
def front (reader : Reader) (width : Nat) : Nat :=
  (reader.window >>> (reader.live - width).toUInt64).toNat % 2 ^ width

/-- A reader that stands just below the end mark of `stream`. -/
def ofBytes (stream : List UInt8) : Except Error Reader :=
  match stream.reverse with
  | [] => .error (.corruptStream .missingEndMark)
  | last :: before =>
    if last = 0 then
      .error (.corruptStream .missingEndMark)
    else
      .ok ((load (last :: before) 0 0 (Nat.zero_le _)).advance (8 - last.toNat.log2))

/-- Takes the next `width` bits as a number, of which the 32 lowest bits are given. -/
def read (width : Nat) : ReadM Nat := fun reader =>
  if width = 0 then
    .ok 0 reader
  else
    let reader := if reader.live < width then reader.reload else reader
    if reader.live < width then
      .error (.corruptStream .readPastStart) reader
    else
      .ok (reader.front width % 0x100000000) (reader.advance width)

/-- Nothing is left to read. -/
def exhausted (reader : Reader) : Bool :=
  reader.live == 0 && reader.unread.isEmpty

/-- The bits still to be read, the next one first. -/
def unreadBits (reader : Reader) : List Bool :=
  (Bits.low reader.live reader.window.toNat).reverse ++
    reader.unread.flatMap fun byte => (Bits.low 8 byte.toNat).reverse

/-! ### What the operations do to the unread bits -/

theorem exhausted_iff (reader : Reader) :
    reader.exhausted = true ↔ reader.live = 0 ∧ reader.unread = [] := by
  simp [exhausted]

/-- Nothing is left to read exactly when no bit is unread. -/
theorem exhausted_iff_unreadBits (reader : Reader) :
    reader.exhausted = true ↔ reader.unreadBits = [] := by
  have hlow : Bits.low reader.live reader.window.toNat = [] ↔ reader.live = 0 := by
    rw [← List.length_eq_zero_iff, Bits.length_low]
  rw [exhausted_iff, unreadBits, List.append_eq_nil_iff, List.reverse_eq_nil_iff, hlow]
  refine and_congr_right fun _ => ?_
  cases reader.unread with
  | nil => simp
  | cons byte unread => simp [Bits.low]

/-- A byte pushed into a window comes below the bits that were there. -/
theorem low_push {live : Nat} (window : UInt64) (byte : UInt8) (h : live ≤ containerBits - 8) :
    Bits.low (8 + live) (window <<< 8 ||| byte.toUInt64).toNat =
      Bits.low 8 byte.toNat ++ Bits.low live window.toNat := by
  have hshift : (window <<< 8).toNat = 2 ^ 8 * (window.toNat % 2 ^ 56) := by
    rw [UInt64.toNat_shiftLeft, show (8 : UInt64).toNat % 64 = 8 from rfl, Nat.shiftLeft_eq,
      Nat.mul_comm, show 2 ^ 64 = 2 ^ 8 * 2 ^ 56 from rfl, Nat.mul_mod_mul_left]
  rw [UInt64.toNat_or, hshift, UInt8.toNat_toUInt64,
    ← Nat.two_pow_add_eq_or_of_lt byte.toNat_lt, Nat.add_comm (2 ^ 8 * _),
    Bits.low_add_of_lt _ _ byte.toNat_lt, Bits.low_mod_of_le (m := 56) _ h]

theorem unreadBits_load (unread : List UInt8) (window : UInt64) (live : Nat)
    (live_le : live ≤ containerBits) :
    (load unread window live live_le).unreadBits =
      (⟨unread, window, live, live_le⟩ : Reader).unreadBits := by
  induction unread generalizing window live with
  | nil => rfl
  | cons byte unread ih =>
    rw [load]
    split
    · rename_i room
      rw [ih, unreadBits, unreadBits]
      simp only [Nat.add_comm live 8, low_push window byte room, List.reverse_append,
        List.flatMap_cons, List.append_assoc]
    · rfl

/-- Loading bytes changes nothing. -/
@[simp] theorem unreadBits_reload (reader : Reader) :
    reader.reload.unreadBits = reader.unreadBits :=
  unreadBits_load _ _ _ _

/-- The loaded bits as a field of `width` bits on top of the others. -/
theorem low_live {reader : Reader} {width : Nat} (h : width ≤ reader.live) :
    Bits.low reader.live reader.window.toNat =
      Bits.low (reader.live - width) reader.window.toNat ++
        Bits.low width (reader.window.toNat / 2 ^ (reader.live - width)) := by
  rw [← Bits.low_add, Nat.sub_add_cancel h]

/-- Leaving loaded bits behind drops them from the front of the unread ones. -/
theorem unreadBits_advance {reader : Reader} {width : Nat} (h : width ≤ reader.live) :
    (reader.advance width).unreadBits = reader.unreadBits.drop width := by
  rw [unreadBits, unreadBits, low_live h, List.reverse_append, List.append_assoc,
    List.drop_left' (by simp)]
  rfl

/-- The number read is the one that the front of the unread bits spells, highest bit first. -/
theorem front_eq {reader : Reader} {width : Nat} (pos : 0 < width) (h : width ≤ reader.live) :
    reader.front width = Bits.value (reader.unreadBits.take width).reverse := by
  have hlive := reader.live_le
  have hshift : (reader.live - width).toUInt64.toNat % 64 = reader.live - width := by
    simp only [containerBits] at hlive
    show (UInt64.ofNat _).toNat % 64 = _
    rw [UInt64.toNat_ofNat']
    omega
  rw [unreadBits, low_live h, List.reverse_append, List.append_assoc, List.take_left' (by simp),
    List.reverse_reverse, Bits.value_low, front, UInt64.toNat_shiftRight, hshift,
    Nat.shiftRight_eq_div_pow]

end Reader

end FiniteStateEntropy
