/-!
# Bit lists

The plain picture behind the two bit containers. A bit string is a `List Bool` with the lowest
bit first, so that appending fields is `++`, and a byte string is a bit string by listing the
bits of each byte in turn.

Numbers and bit lists correspond exactly once a width is fixed: `value_low` and `low_value` are
the two directions. Everything said about the writer and the reader is said through this picture,
and nobody looks at shifts and masks twice.

## Main definitions

* `Bits.low w v`: the `w` lowest bits of `v`
* `Bits.value`: the number that a bit list spells
* `Bits.ofBytes`, `Bits.toBytes`: the bits of a byte string, and a bit string cut into bytes with
  the last byte filled up by zeros

## Main results

* `Bits.value_low`, `Bits.low_value`: the two are inverse at a given width
* `Bits.low_add`: a wide field is two narrow ones
* `Bits.low_add_mul`: what lies above a field does not matter to it
-/

namespace FiniteStateEntropy

-- powers are those of the core library, also where monoids have their own
attribute [local instance (high)] instPowNat

namespace Bits

/-- The `width` lowest bits of `value`, lowest first. -/
def low : Nat → Nat → List Bool
  | 0, _ => []
  | width + 1, value => decide (value % 2 = 1) :: low width (value / 2)

/-- The number that a bit list spells, lowest bit first. -/
def value : List Bool → Nat
  | [] => 0
  | bit :: bits => bit.toNat + 2 * value bits

/-- The bits of a byte string: byte by byte, each from its lowest bit up. -/
def ofBytes (bytes : List UInt8) : List Bool :=
  bytes.flatMap fun byte => low 8 byte.toNat

/-- A bit string cut into bytes; a last byte that is not full has zeros on top. -/
def toBytes (bits : List Bool) : List UInt8 :=
  match bits with
  | [] => []
  | bit :: rest => (value ((bit :: rest).take 8)).toUInt8 :: toBytes ((bit :: rest).drop 8)
termination_by bits.length
decreasing_by
  simp only [List.length_drop, List.length_cons]
  omega

/-! ### Fields of a given width -/

@[simp] theorem low_zero (v : Nat) : low 0 v = [] := rfl

@[simp] theorem length_low (w v : Nat) : (low w v).length = w := by
  induction w generalizing v with
  | zero => rfl
  | succ w ih => simp [low, ih]

/-- A field is known by its width and its value modulo `2 ^ w`. -/
theorem value_low (w v : Nat) : value (low w v) = v % 2 ^ w := by
  induction w generalizing v with
  | zero => simp [low, value, Nat.mod_one]
  | succ w ih =>
    rw [low, value, ih, Nat.pow_succ, Nat.mul_comm (2 ^ w) 2, Nat.mod_mul]
    congr 1
    rcases Nat.mod_two_eq_zero_or_one v with h | h <;> simp [h]

theorem low_value (bits : List Bool) : low bits.length (value bits) = bits := by
  induction bits with
  | nil => rfl
  | cons bit bits ih =>
    have hbit := bit.toNat_lt
    have head : (bit.toNat + 2 * value bits) % 2 = bit.toNat := by omega
    have tail : (bit.toNat + 2 * value bits) / 2 = value bits := by omega
    rw [List.length_cons, low, value, head, tail, ih]
    cases bit <;> rfl

theorem value_lt (bits : List Bool) : value bits < 2 ^ bits.length := by
  induction bits with
  | nil => exact Nat.one_pos
  | cons bit bits ih =>
    rw [value, List.length_cons, Nat.pow_succ]
    have := bit.toNat_lt
    omega

/-- A field of width `m + n` is its `m` lowest bits followed by the `n` above them. -/
theorem low_add (m n v : Nat) : low (m + n) v = low m v ++ low n (v / 2 ^ m) := by
  induction m generalizing v with
  | zero => simp
  | succ m ih =>
    rw [Nat.succ_add, low, low, ih, List.cons_append, Nat.div_div_eq_div_mul, Nat.pow_succ,
      Nat.mul_comm 2]

/-- What lies above a field does not matter to it. -/
theorem low_add_mul (w v k : Nat) : low w (v + 2 ^ w * k) = low w v := by
  induction w generalizing v with
  | zero => rfl
  | succ w ih =>
    have h : v + 2 ^ (w + 1) * k = v + 2 * (2 ^ w * k) := by
      rw [Nat.pow_succ, Nat.mul_comm (2 ^ w) 2, Nat.mul_assoc]
    rw [low, low, h, Nat.add_mul_div_left _ _ (by decide), ih, Nat.add_mul_mod_self_left]

@[simp] theorem low_mod (w v : Nat) : low w (v % 2 ^ w) = low w v := by
  rw [← low_add_mul w (v % 2 ^ w) (v / 2 ^ w), Nat.mod_add_div]

/-- Nor does cutting a number matter to a field that is left whole. -/
theorem low_mod_of_le {w m : Nat} (v : Nat) (h : w ≤ m) : low w (v % 2 ^ m) = low w v := by
  obtain ⟨n, rfl⟩ := Nat.exists_eq_add_of_le h
  rw [← low_add_mul w (v % 2 ^ (w + n)) (2 ^ n * (v / 2 ^ (w + n))), ← Nat.mul_assoc,
    ← Nat.pow_add, Nat.mod_add_div]

/-- A field below another. -/
theorem low_add_of_lt {m v : Nat} (n k : Nat) (h : v < 2 ^ m) :
    low (m + n) (v + 2 ^ m * k) = low m v ++ low n k := by
  rw [low_add, low_add_mul, Nat.add_mul_div_left _ _ (Nat.two_pow_pos m), Nat.div_eq_of_lt h,
    Nat.zero_add]

@[simp] theorem low_of_zero (w : Nat) : low w 0 = List.replicate w false := by
  induction w with
  | zero => rfl
  | succ w ih => simp [low, ih, List.replicate_succ]

/-! ### Bytes -/

@[simp] theorem ofBytes_nil : ofBytes [] = [] := rfl

@[simp] theorem ofBytes_cons (byte : UInt8) (bytes : List UInt8) :
    ofBytes (byte :: bytes) = low 8 byte.toNat ++ ofBytes bytes := rfl

@[simp] theorem ofBytes_append (xs ys : List UInt8) :
    ofBytes (xs ++ ys) = ofBytes xs ++ ofBytes ys := by
  simp [ofBytes]

@[simp] theorem length_ofBytes (bytes : List UInt8) :
    (ofBytes bytes).length = 8 * bytes.length := by
  induction bytes with
  | nil => rfl
  | cons byte bytes ih => simp [ih]; omega

end Bits

end FiniteStateEntropy
