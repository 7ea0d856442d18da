import FiniteStateEntropy.Header
import Mathlib.Algebra.Order.BigOperators.Group.List
import Mathlib.Algebra.Order.Group.Nat

/-!
# Parsing undoes writing

A header has no length field. Parsing ends its list of entries at the entry of the last symbol,
which it knows from the second byte, and a distribution has its last symbol present; so parsing
stops where writing did, whatever follows.

Absent symbols are not written. While reading, those passed over since the last entry are pending:
`parseEntries_entries` carries the shares read so far and the number of pending ones, which
together say what the next symbol is.

## Main results

* `Share.parseEntries_cons`: one entry, in either width
* `Header.parseEntries_entries`: all entries
* `Header.exists_bytes`: the whole header, with anything behind it
-/

namespace FiniteStateEntropy

namespace Share

/-- The share is told apart from a rare one, and not cut short, in a field of a header. -/
def Fits (wide : Bool) (share : Share) : Prop :=
  share.slots < if wide then 0xFFFF else 0xFF

theorem ofField_slots {wide : Bool} {n : ℕ} (pos : 0 < n) (h : (common n pos).Fits wide) :
    ofField wide n = common n pos := by
  rw [Fits, slots] at h
  rw [ofField, if_neg (by omega), ofSlots, dif_pos pos]

end Share

namespace Header

variable {wide : Bool} {maxSymbol : UInt8}

/-! ### Entries -/

theorem length_share_bytes (wide : Bool) (share : Share) :
    (share.bytes wide).length = if wide then 2 else 1 := by
  cases wide <;> cases share <;> rfl

/-- The entries of `shares`, the first of which is the one of symbol `offset`. -/
def entries (wide : Bool) (offset : ℕ) (shares : List Share) : List UInt8 :=
  ((shares.zipIdx offset).filterMap fun (share, symbol) =>
    if share = .absent then none else some (symbol.toUInt8, share)).flatMap
      fun (symbol, share) => symbol :: share.bytes wide

theorem entryBytes_eq (distribution : Distribution) :
    entryBytes distribution =
      entries (decide (wideTableLog ≤ distribution.tableLog)) 0 distribution.shares :=
  rfl

theorem entries_absent (wide : Bool) (offset : ℕ) (shares : List Share) :
    entries wide offset (.absent :: shares) = entries wide (offset + 1) shares := by
  simp [entries, List.zipIdx_cons]

theorem entries_present {share : Share} (h : share ≠ .absent) (wide : Bool) (offset : ℕ)
    (shares : List Share) :
    entries wide offset (share :: shares) =
      offset.toUInt8 :: (share.bytes wide ++ entries wide (offset + 1) shares) := by
  simp [entries, List.zipIdx_cons, h]

theorem endEntry_eq {symbol : UInt8} {share : Share} {done : List Share} {field : ℕ}
    (hfield : field ≠ 0) (hshare : Share.ofField wide field = share) (rest : List UInt8)
    (goOn : List Share → Except Error (List Share × List UInt8)) :
    endEntry wide maxSymbol symbol done field rest goOn =
      if symbol = maxSymbol then
        .ok (done ++ List.replicate (symbol.toNat - done.length) .absent ++ [share], rest)
      else
        goOn (done ++ List.replicate (symbol.toNat - done.length) .absent ++ [share]) := by
  rw [endEntry, if_neg hfield, hshare]

/-- **One entry**, in either width. -/
theorem parseEntries_cons {symbol : UInt8} {share : Share} {done : List Share}
    (hsymbol : symbol ≤ maxSymbol) (horder : done.length ≤ symbol.toNat)
    (hpresent : share ≠ .absent) (hfits : share.Fits wide) (input : List UInt8) :
    parseEntries wide maxSymbol (symbol :: (share.bytes wide ++ input)) done =
      if symbol = maxSymbol then
        .ok (done ++ List.replicate (symbol.toNat - done.length) .absent ++ [share], input)
      else
        parseEntries wide maxSymbol input
          (done ++ List.replicate (symbol.toNat - done.length) .absent ++ [share]) := by
  have hmax : ¬maxSymbol < symbol := UInt8.not_lt.mpr hsymbol
  have hlength : ¬symbol.toNat < done.length := Nat.not_lt.mpr horder
  cases share with
  | absent => exact absurd rfl hpresent
  | rare =>
    cases wide with
    | false =>
      simp only [Share.bytes, List.cons_append, List.nil_append, parseEntries, if_neg hmax,
        if_neg hlength]
      exact endEntry_eq (by decide) rfl input _
    | true =>
      have hbytes : (0xFF : UInt8).toNat * 0x100 + (0xFF : UInt8).toNat = 0xFFFF := rfl
      simp only [Share.bytes, List.cons_append, List.nil_append, parseEntries, if_neg hmax,
        if_neg hlength, hbytes]
      exact endEntry_eq (Nat.succ_ne_zero _) rfl input _
  | common n pos =>
    have hshare := Share.ofField_slots pos hfits
    rw [Share.Fits, Share.slots] at hfits
    cases wide with
    | false =>
      have hbyte : n.toUInt8.toNat = n := by
        rw [Nat.toUInt8_eq, UInt8.toNat_ofNat']
        exact Nat.mod_eq_of_lt (Nat.lt_trans hfits (by decide))
      simp only [Share.bytes, Share.slots, List.cons_append, List.nil_append, parseEntries,
        if_neg hmax, if_neg hlength, hbyte]
      exact endEntry_eq (Nat.ne_of_gt pos) hshare input _
    | true =>
      have hbytes : (n / 0x100).toUInt8.toNat * 0x100 + n.toUInt8.toNat = n := by
        simp only [if_true] at hfits
        rw [Nat.toUInt8_eq, Nat.toUInt8_eq, UInt8.toNat_ofNat', UInt8.toNat_ofNat']
        omega
      simp only [Share.bytes, Share.slots, List.cons_append, List.nil_append, parseEntries,
        if_neg hmax, if_neg hlength, hbytes]
      exact endEntry_eq (Nat.ne_of_gt pos) hshare input _

/-- The position of a symbol up to the last one is written as the symbol. -/
theorem symbol_of_le {position : ℕ} (h : position ≤ maxSymbol.toNat) :
    position.toUInt8.toNat = position ∧ position.toUInt8 ≤ maxSymbol ∧
      (position.toUInt8 = maxSymbol ↔ position = maxSymbol.toNat) := by
  have hmax := maxSymbol.toNat_lt
  have hsymbol : position.toUInt8.toNat = position := by
    rw [Nat.toUInt8_eq, UInt8.toNat_ofNat']
    exact Nat.mod_eq_of_lt (by omega)
  refine ⟨hsymbol, ?_, ?_⟩
  · rwa [UInt8.le_iff_toNat_le, hsymbol]
  · rw [← UInt8.toNat_inj, hsymbol]

/-- **All entries.** With the shares of `done` read and `pending` symbols passed over since. -/
theorem parseEntries_entries {shares done : List Share} {pending : ℕ}
    (hlast : shares.getLast? ≠ some .absent) (hne : shares ≠ [])
    (hmax : maxSymbol.toNat + 1 = done.length + pending + shares.length)
    (hfits : ∀ share ∈ shares, share.Fits wide) (rest : List UInt8) :
    parseEntries wide maxSymbol (entries wide (done.length + pending) shares ++ rest) done =
      .ok (done ++ List.replicate pending .absent ++ shares, rest) := by
  induction shares generalizing done pending with
  | nil => exact absurd rfl hne
  | cons share shares ih =>
    simp only [List.mem_cons, forall_eq_or_imp] at hfits
    obtain ⟨hshare, hshares⟩ := hfits
    rw [List.length_cons] at hmax
    by_cases habsent : share = .absent
    · subst habsent
      have hne' : shares ≠ [] := by
        rintro rfl
        exact hlast rfl
      rw [List.getLast?_cons_of_ne_nil hne'] at hlast
      rw [entries_absent, Nat.add_assoc, ih hlast hne' (by omega) hshares, List.replicate_succ']
      simp
    · obtain ⟨hsymbol, hle, hlastsymbol⟩ :=
        symbol_of_le (show done.length + pending ≤ maxSymbol.toNat by omega)
      have hend : (done.length + pending).toUInt8 = maxSymbol ↔ shares = [] := by
        rw [hlastsymbol, ← List.length_eq_zero_iff]
        omega
      rw [entries_present habsent, List.cons_append, List.append_assoc,
        parseEntries_cons hle (by omega) habsent hshare, hsymbol, Nat.add_sub_cancel_left]
      by_cases hnil : shares = []
      · rw [if_pos (hend.mpr hnil), hnil]
        rfl
      · rw [if_neg (mt hend.mp hnil)]
        rw [List.getLast?_cons_of_ne_nil hnil] at hlast
        have hlength : (done ++ List.replicate pending Share.absent ++ [share]).length + 0 =
            done.length + pending + 1 := by
          simp [Nat.add_assoc]
        have hrest := @ih (done ++ List.replicate pending .absent ++ [share]) 0 hlast hnil
          (by rw [hlength]; omega) hshares
        rw [hlength] at hrest
        rw [hrest]
        simp

/-! ### The whole header -/

theorem parseCount_countBytes {count : ℕ} (h : count < 2 ^ 32) (rest : List UInt8) :
    parseCount (countBytes count ++ rest) = .ok (count, rest) := by
  simp only [countBytes, List.cons_append, List.nil_append, parseCount, Nat.toUInt8_eq,
    UInt8.toNat_ofNat']
  congr 2
  omega

theorem fits_of_mem {distribution : Distribution} {share : Share}
    (h : share ∈ distribution.shares) :
    share.Fits (decide (wideTableLog ≤ distribution.tableLog)) := by
  have hslots : share.slots ≤ 2 ^ distribution.tableLog := by
    rw [← distribution.sum_slots]
    exact List.le_sum_of_mem (List.mem_map_of_mem h)
  have hlog := distribution.tableLog_mem.2
  rw [Share.Fits]
  by_cases hwide : wideTableLog ≤ distribution.tableLog
  · have hpow : 2 ^ distribution.tableLog ≤ 2 ^ 15 := Nat.pow_le_pow_right (by decide) hlog
    rw [decide_eq_true hwide, if_pos rfl]
    omega
  · have hpow : 2 ^ distribution.tableLog ≤ 2 ^ 7 :=
      Nat.pow_le_pow_right (by decide) (by rw [wideTableLog] at hwide; omega)
    rw [decide_eq_false hwide, if_neg (by decide)]
    omega

/-- What a header parses to when its parts do. -/
theorem parse_of_parts {excess : UInt8} {input counted rest : List UInt8} {shares : List Share}
    {distribution : Distribution} {count : ℕ}
    (hlog : excess.toNat + minTableLog = distribution.tableLog)
    (hentries : parseEntries (decide (wideTableLog ≤ distribution.tableLog)) maxSymbol input [] =
      .ok (shares, counted))
    (hcounted : parseCount counted = .ok (count, rest)) (htwo : 2 ≤ count)
    (hshares : Distribution.ofShares distribution.tableLog shares = .ok distribution) :
    parse (excess :: maxSymbol :: input) = .ok (⟨distribution, count⟩, rest) := by
  rw [parse]
  simp only [hlog, if_neg (Nat.not_lt.mpr distribution.tableLog_mem.2), hentries, hcounted,
    if_neg (Nat.not_lt.mpr htwo), hshares, bind, Except.bind, pure, Except.pure]

section

variable (distribution : Distribution)

/-- The first byte of a header says the table log. -/
theorem toNat_excess_add :
    (distribution.tableLog - minTableLog).toUInt8.toNat + minTableLog = distribution.tableLog := by
  have hmem := distribution.tableLog_mem
  rw [minTableLog, maxTableLog] at hmem
  rw [Nat.toUInt8_eq, UInt8.toNat_ofNat', minTableLog]
  omega

/-- The second byte of a header says the length of the alphabet. -/
theorem toNat_maxSymbol_add_one :
    distribution.maxSymbol.toNat + 1 = distribution.shares.length := by
  have hpos := List.length_pos_iff.mpr distribution.shares_ne_nil
  have hlength := distribution.length_shares_le
  rw [Distribution.maxSymbol, Nat.toUInt8_eq, UInt8.toNat_ofNat']
  omega

/-- The entries of a distribution are those of its shares, with none read before. -/
theorem parseEntries_entryBytes (rest : List UInt8) :
    parseEntries (decide (wideTableLog ≤ distribution.tableLog)) distribution.maxSymbol
        (entryBytes distribution ++ rest) [] =
      .ok (distribution.shares, rest) := by
  have hmax : distribution.maxSymbol.toNat + 1 =
      ([] : List Share).length + 0 + distribution.shares.length := by
    rw [toNat_maxSymbol_add_one, List.length_nil, Nat.zero_add]
  exact parseEntries_entries distribution.last_present distribution.shares_ne_nil hmax
    (fun share h => fits_of_mem h) rest

end

/-- A symbol count that fits its four bytes. -/
theorem bytes_of_lt (distribution : Distribution) {count : ℕ} (h : count < 2 ^ 32) :
    (Header.mk distribution count).bytes =
      .ok ((distribution.tableLog - minTableLog).toUInt8 :: distribution.maxSymbol ::
        (entryBytes distribution ++ countBytes count)) :=
  if_pos h

/-- One that does not. -/
theorem bytes_of_long (distribution : Distribution) {count : ℕ} (h : ¬count < 2 ^ 32) :
    (Header.mk distribution count).bytes = .error (.inputTooLong count) :=
  if_neg h

/-- **The whole header**, with anything behind it. -/
theorem exists_bytes (distribution : Distribution) {count : ℕ} (htwo : 2 ≤ count)
    (hcount : count < 2 ^ 32) :
    ∃ bytes, (Header.mk distribution count).bytes = .ok bytes ∧
      ∀ rest, parse (bytes ++ rest) = .ok (⟨distribution, count⟩, rest) := by
  rw [bytes_of_lt distribution hcount]
  refine ⟨_, rfl, ?_⟩
  intro rest
  rw [List.cons_append, List.cons_append, List.append_assoc]
  exact parse_of_parts (toNat_excess_add distribution)
    (parseEntries_entryBytes distribution (countBytes count ++ rest))
    (parseCount_countBytes hcount rest) htwo distribution.ofShares_shares

end Header

end FiniteStateEntropy
