/-!
# Causes of refusal

Every operation of the library that can refuse does so with an `Error`. The constructors are
causes, grouped by who is to blame:

* the *input* of a compression: a byte above the ceiling, too few bytes, too many bytes;
* the *settings*: a table log outside the format, or a table with fewer slots than symbols;
* a *block* that was not written by this coder: `HeaderFault` for its front part, `StreamFault`
  for its bit stream;
* the *caller* of a single coding step: `Misuse`. No whole-block operation ends this way.

## Main definitions

* `Error`: the causes, with the values a reader needs to find the fault
* `Error.message`: the one place where a cause is put into words

## Main results

* `exceptBind_eq_ok_iff`, `exceptMap_eq_ok_iff`: what is not refused was not refused on the way
-/

namespace FiniteStateEntropy

/-- What makes the front part of a block unreadable, or a distribution impossible. -/
inductive HeaderFault where
  /-- The bytes end inside the header. -/
  | truncated
  /-- The first byte names a table log that the format does not have. -/
  | tableLogOutOfRange
  /-- An entry is for a symbol beyond the declared last one. -/
  | symbolAboveMaximum
  /-- An entry does not come after its predecessor. -/
  | symbolsOutOfOrder
  /-- An entry gives its symbol no slots. -/
  | emptyEntry
  /-- The block claims to hold fewer than two symbols. -/
  | countBelowTwo
  /-- The alphabet is empty, or larger than the bytes. -/
  | alphabetSize
  /-- The last symbol of the alphabet has no share. -/
  | lastSymbolAbsent
  /-- A share is below the mark of rare symbols. -/
  | negativeShare
  /-- The slots do not add up to the size of the table. -/
  | slotsMismatch
  deriving DecidableEq, Repr

namespace HeaderFault

/-- The fault in words. -/
def message : HeaderFault → String
  | truncated => "truncated header"
  | tableLogOutOfRange => "table log out of range"
  | symbolAboveMaximum => "symbol above max symbol"
  | symbolsOutOfOrder => "symbols out of order"
  | emptyEntry => "zero probability entry"
  | countBelowTwo => "symbol count below two"
  | alphabetSize => "alphabet size out of range"
  | lastSymbolAbsent => "max symbol is absent"
  | negativeShare => "negative probability"
  | slotsMismatch => "probabilities do not fill the table"

end HeaderFault

/-- What makes a bit stream unreadable under a given table and symbol count. -/
inductive StreamFault where
  /-- The stream is empty or its last byte is zero, so no bit marks its end. -/
  | missingEndMark
  /-- A field was asked for that is longer than what is left. -/
  | readPastStart
  /-- All symbols are decoded and bits are left. -/
  | trailingBits
  deriving DecidableEq, Repr

namespace StreamFault

/-- The fault in words. -/
def message : StreamFault → String
  | missingEndMark => "missing end mark"
  | readPastStart => "read past start of stream"
  | trailingBits => "trailing bits after last symbol"

end StreamFault

/-- A coding step asked for outside its domain. -/
inductive Misuse where
  /-- The symbol lies outside the alphabet of the table. -/
  | symbolOutsideAlphabet
  /-- The state, or the state it leads to, lies outside the table. -/
  | stateOutsideTable
  /-- The field does not fit the bit container. -/
  | fieldTooWide
  deriving DecidableEq, Repr

namespace Misuse

/-- The cause in words. -/
def message : Misuse → String
  | symbolOutsideAlphabet => "symbol outside the alphabet of the table"
  | stateOutsideTable => "state outside the table"
  | fieldTooWide => "field too wide for the bit container"

end Misuse

/-- Why an operation refused. -/
inductive Error where
  /-- A byte of the input lies above the ceiling. -/
  | symbolAboveCeiling (symbol ceiling : UInt8)
  /-- The input is too short to have a distribution worth coding. -/
  | inputTooShort (length : Nat)
  /-- The length does not fit the count field of a header. -/
  | inputTooLong (length : Nat)
  /-- The table log lies outside the format. -/
  | tableLogOutOfRange (tableLog : Nat)
  /-- There are more symbols than slots. -/
  | tableTooSmall (symbols tableLog : Nat)
  /-- The header is damaged, or the distribution it would describe is impossible. -/
  | corruptHeader (fault : HeaderFault)
  /-- The stream does not decode to the declared number of symbols. -/
  | corruptStream (fault : StreamFault)
  /-- A coding step was asked for outside its domain. -/
  | misuse (cause : Misuse)
  deriving DecidableEq, Repr

namespace Error

/-- The cause in words. -/
def message : Error → String
  | symbolAboveCeiling symbol ceiling => s!"symbol {symbol} exceeds max symbol value {ceiling}"
  | inputTooShort length => s!"input of {length} bytes is too short to entropy code"
  | inputTooLong length => s!"input of {length} bytes is too large for a single block"
  | tableLogOutOfRange tableLog => s!"table log {tableLog} is outside the supported range"
  | tableTooSmall symbols tableLog =>
    s!"cannot fit {symbols} symbols into a table of log {tableLog}"
  | corruptHeader fault => "corrupt header: " ++ fault.message
  | corruptStream fault => "corrupt bitstream: " ++ fault.message
  | misuse cause => cause.message

end Error

/-! ### What is not refused -/

/-- Whether a computation that may fail comes to a given result. -/
instance decidableEqExcept {ε α : Type} [DecidableEq ε] [DecidableEq α] :
    DecidableEq (Except ε α)
  | .ok a, .ok b => decidable_of_iff (a = b) (Except.ok.injEq a b ▸ Iff.rfl)
  | .error e, .error e' => decidable_of_iff (e = e') (Except.error.injEq e e' ▸ Iff.rfl)
  | .ok _, .error _ => isFalse nofun
  | .error _, .ok _ => isFalse nofun

section

variable {ε α β : Type} {x : Except ε α} {b : β}

/-- A sequence of two steps is not refused exactly when neither step is. -/
theorem exceptBind_eq_ok_iff {f : α → Except ε β} :
    x >>= f = .ok b ↔ ∃ a, x = .ok a ∧ f a = .ok b := by
  cases x with
  | error e => exact ⟨nofun, nofun⟩
  | ok a =>
    constructor
    · intro h
      exact ⟨a, rfl, h⟩
    · rintro ⟨_, ⟨⟩, h⟩
      exact h

/-- A result that is mapped is not refused exactly when the result is not. -/
theorem exceptMap_eq_ok_iff {f : α → β} : x.map f = .ok b ↔ ∃ a, x = .ok a ∧ f a = b := by
  cases x with
  | error e => exact ⟨nofun, nofun⟩
  | ok a =>
    constructor
    · intro h
      exact ⟨a, rfl, Except.ok.inj h⟩
    · rintro ⟨_, ⟨⟩, rfl⟩
      rfl

end

end FiniteStateEntropy
