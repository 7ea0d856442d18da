import FiniteStateEntropy.Proofs.EncoderSafety

/-!
# What a compression comes to

A caller can tell beforehand what becomes of an input. The limits are looked at first, bound after
bound, then the length, the bytes and their number; an input that passes is compressed. What the
later parts of a compression could still object to does not come up: the table log grows until the
alphabet fits, so the corrections of a division always find a symbol to take from or to give to,
its shares fill the table, and a header has room for the length.

A total function always returns something, so that alone says nothing of a machine that would have
stopped on the way. The checked compression does stop there, and the outcome is its outcome too.

An input of more bytes than a header can count is left out: it is refused, but only at the end, and
its counts may have left their fields before.

## Main definitions

* `Outcome`: what a compression comes to

## Main results

* `outcome_of_lt`: the reasons to refuse an input, in their order
* `compress_outcome`: the exact outcome of a compression, and its safety
-/

namespace FiniteStateEntropy

variable {limits : Limits} {input : List UInt8}

/-- What a compression comes to. Of several reasons to refuse an input the first one is named. -/
def Outcome (limits : Limits) (input : List UInt8) (result : Except Error (List UInt8)) : Prop :=
  if limits.leastTableLog < minTableLog ∨ maxTableLog < limits.leastTableLog then
    result = .error (.tableLogOutOfRange limits.leastTableLog)
  else if limits.greatestTableLog < minTableLog ∨ maxTableLog < limits.greatestTableLog then
    result = .error (.tableLogOutOfRange limits.greatestTableLog)
  else if limits.greatestTableLog < limits.leastTableLog then
    result = .error (.tableLogOutOfRange limits.leastTableLog)
  else if input.length < 2 then
    result = .error (.inputTooShort input.length)
  else if ∃ byte ∈ input, limits.symbolCeiling < byte then
    ∃ byte ∈ input, limits.symbolCeiling < byte ∧
      result = .error (.symbolAboveCeiling byte limits.symbolCeiling)
  else if 2 ^ limits.greatestTableLog < input.toFinset.card then
    result = .error (.tableTooSmall input.toFinset.card limits.greatestTableLog)
  else
    ∃ block, result = .ok block

/-- An input is packed under valid limits, or refused for what it is. -/
theorem outcome_of_valid (hvalid : limits.Valid) (hcount : input.length < 2 ^ 32) :
    Outcome limits input (compress limits input) := by
  have hmin := hvalid.min_le
  have hle := hvalid.le
  have hmax := hvalid.le_max
  rw [Outcome, if_neg (by omega), if_neg (by omega), if_neg (by omega), compress_of_valid hvalid]
  split
  · rename_i hshort
    rw [Block.pack_of_short hshort]
    rfl
  rename_i hshort
  have hlength : 2 ≤ input.length := Nat.not_lt.mp hshort
  split
  · rename_i habove
    obtain ⟨byte, hmem, hlt, herror⟩ := Block.exists_pack_above hlength habove
    exact ⟨byte, hmem, hlt, by rw [herror]; rfl⟩
  rename_i habove
  have hceiling : ∀ byte ∈ input, byte ≤ limits.symbolCeiling := by
    intro byte hmem
    exact UInt8.not_lt.mp fun hlt => habove ⟨byte, hmem, hlt⟩
  split
  · rename_i hmany
    rw [Block.pack_of_distinct hvalid hlength hceiling hmany]
    rfl
  rename_i hmany
  obtain ⟨packing, hpack, -⟩ :=
    Block.exists_pack hvalid hlength hceiling (Nat.not_lt.mp hmany) hcount
  exact ⟨packing.block, by rw [hpack]; rfl⟩

/-- **The reasons to refuse an input**, in their order. -/
theorem outcome_of_lt (limits : Limits) (hcount : input.length < 2 ^ 32) :
    Outcome limits input (compress limits input) := by
  by_cases hleast : limits.leastTableLog < minTableLog ∨ maxTableLog < limits.leastTableLog
  · rw [Outcome, if_pos hleast]
    exact compress_of_validate_error (if_pos hleast)
  by_cases hgreatest : limits.greatestTableLog < minTableLog ∨
      maxTableLog < limits.greatestTableLog
  · rw [Outcome, if_neg hleast, if_pos hgreatest]
    exact compress_of_validate_error ((if_neg hleast).trans (if_pos hgreatest))
  by_cases horder : limits.greatestTableLog < limits.leastTableLog
  · rw [Outcome, if_neg hleast, if_neg hgreatest, if_pos horder]
    exact compress_of_validate_error
      ((if_neg hleast).trans ((if_neg hgreatest).trans (if_pos horder)))
  exact outcome_of_valid ⟨by omega, by omega, by omega⟩ hcount

/-- **The exact outcome of a compression**, whatever the limits, for an input whose length fits a
header. And nothing else happens on the way to it: the checked compression, which stops at a place
that does not exist, a difference below zero, a number cut to its field or a state that is none of
the table, ends in the same block or in the same refusal. -/
theorem compress_outcome (limits : Limits) {input : List UInt8} (hcount : input.length < 2 ^ 32) :
    Outcome limits input (compress limits input) ∧
      Checked.compress limits input = (compress limits input).mapError .refused :=
  ⟨outcome_of_lt limits hcount, (Checked.alike_compress limits hcount).eq⟩

/-- Thirty-three different bytes. -/
def wideAlphabet : List UInt8 := (List.range 33).map Nat.toUInt8

/-- They find no room in a table of thirty-two slots, and are refused for no other reason. -/
theorem compress_outcome_wide_alphabet :
    wideAlphabet.length < 2 ^ 32 ∧
      Outcome ⟨255, 5, 5⟩ wideAlphabet (compress ⟨255, 5, 5⟩ wideAlphabet) ∧
      compress ⟨255, 5, 5⟩ wideAlphabet = .error (.tableTooSmall 33 5) ∧
      Checked.compress ⟨255, 5, 5⟩ wideAlphabet = .error (.refused (.tableTooSmall 33 5)) := by
  have hcount : wideAlphabet.length < 2 ^ 32 := by decide
  have hrefused : compress ⟨255, 5, 5⟩ wideAlphabet = .error (.tableTooSmall 33 5) := by
    decide +kernel
  obtain ⟨houtcome, hsafe⟩ := compress_outcome ⟨255, 5, 5⟩ hcount
  refine ⟨hcount, houtcome, hrefused, ?_⟩
  rw [hsafe, hrefused]
  rfl

end FiniteStateEntropy
