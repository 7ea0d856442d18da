import FiniteStateEntropy.Proofs.Header

/-!
# A header has one spelling

Parsing accepts what writing produces and nothing else. A field of a header that parsing accepts
is the field that writing would put there: a share is read from the bytes it is written with, a
symbol passed over is one that is not written, the list of entries ends at the last symbol of the
alphabet, and the table log and the count are read from their own bytes.

So the bytes that were parsed can be told from the header. `parse_eq_ok_iff` says it with the
bytes behind the header, and `read_iff_bytes` with the offset at which they begin.

## Main definitions

* `Header.read`: the header at the front of some bytes, and the offset behind it

## Main results

* `Header.exists_entry`: what parsing accepts as an entry
* `Header.exists_entries`: what it accepts as the list of entries
* `Header.parse_eq_ok_iff`: what it accepts as a header
* `Header.read_iff_bytes`: reading and writing are inverse to each other
-/

namespace FiniteStateEntropy

namespace Share

variable {wide : Bool}

theorem ofField_ne_absent {field : ℕ} (h : field ≠ 0) : ofField wide field ≠ absent := by
  rw [Ne, ← slots_eq_zero_iff, ofField]
  by_cases hrare : field = if wide = true then 0xFFFF else 0xFF
  · rw [if_pos hrare]
    exact Nat.one_ne_zero
  · rwa [if_neg hrare, slots_ofSlots]

/-- A share read from one byte is written as this byte. -/
theorem bytes_ofField_narrow (field : UInt8) :
    (ofField false field.toNat).bytes false = [field] := by
  by_cases hrare : field.toNat = 0xFF
  · obtain rfl : field = 0xFF := UInt8.toNat.inj hrare
    rfl
  · rw [ofField, if_neg (by simpa using hrare), ofSlots]
    split
    · simp [bytes, slots]
    · rename_i hzero
      obtain rfl : field = 0 := UInt8.toNat.inj (Nat.eq_zero_of_not_pos hzero)
      rfl

/-- A share read from two bytes is written as these bytes. -/
theorem bytes_ofField_wide (high low : UInt8) :
    (ofField true (high.toNat * 0x100 + low.toNat)).bytes true = [high, low] := by
  have hhigh := high.toNat_lt
  have hlow := low.toNat_lt
  have hbytes : [((high.toNat * 0x100 + low.toNat) / 0x100).toUInt8,
      (high.toNat * 0x100 + low.toNat).toUInt8] = [high, low] := by
    congr 1
    · refine UInt8.toNat.inj ?_
      rw [Nat.toUInt8_eq, UInt8.toNat_ofNat']
      omega
    · congr 1
      refine UInt8.toNat.inj ?_
      rw [Nat.toUInt8_eq, UInt8.toNat_ofNat']
      omega
  by_cases hrare : high.toNat * 0x100 + low.toNat = 0xFFFF
  · obtain rfl : high = 0xFF := UInt8.toNat.inj (by show high.toNat = 255; omega)
    obtain rfl : low = 0xFF := UInt8.toNat.inj (by show low.toNat = 255; omega)
    rw [ofField, if_pos (by simp)]
    rfl
  · rw [ofField, if_neg (by simpa using hrare), ofSlots]
    split
    · exact hbytes
    · rename_i hzero
      obtain rfl : high = 0 := UInt8.toNat.inj (by show high.toNat = 0; omega)
      obtain rfl : low = 0 := UInt8.toNat.inj (by show low.toNat = 0; omega)
      rfl

end Share

namespace Header

variable {wide : Bool} {maxSymbol : UInt8}

/-! ### Entries -/

/-- Symbols passed over are not written. -/
theorem entries_skipped {share : Share} (h : share ≠ .absent) (skipped offset : ℕ)
    (shares : List Share) :
    entries wide offset (List.replicate skipped .absent ++ share :: shares) =
      (offset + skipped).toUInt8 :: (share.bytes wide ++
        entries wide (offset + skipped + 1) shares) := by
  induction skipped generalizing offset with
  | zero => exact entries_present h wide offset shares
  | succ skipped ih =>
    rw [List.replicate_succ, List.cons_append, entries_absent, ih, Nat.add_assoc offset,
      Nat.add_comm 1]

/-- What comes of an entry: it is the last one, or parsing goes on behind it. -/
def AfterEntry (wide : Bool) (maxSymbol symbol : UInt8) (done shares : List Share)
    (more rest : List UInt8) : Prop :=
  if symbol = maxSymbol then shares = done ∧ rest = more
  else parseEntries wide maxSymbol more done = .ok (shares, rest)

theorem afterEntry_of_endEntry {symbol : UInt8} {done shares : List Share} {field : ℕ}
    {more rest : List UInt8}
    (h : endEntry wide maxSymbol symbol done field more (parseEntries wide maxSymbol more) =
      .ok (shares, rest)) :
    field ≠ 0 ∧ AfterEntry wide maxSymbol symbol
      (done ++ List.replicate (symbol.toNat - done.length) .absent ++ [.ofField wide field])
      shares more rest := by
  by_cases hfield : field = 0
  · rw [endEntry, if_pos hfield] at h
    cases h
  · refine ⟨hfield, ?_⟩
    rw [endEntry_eq hfield rfl] at h
    rw [AfterEntry]
    split at h
    · rename_i hlast
      cases h
      rw [if_pos hlast]
      exact ⟨rfl, rfl⟩
    · rename_i hlast
      rwa [if_neg hlast]

/-- **What parsing accepts as an entry**: the bytes of a symbol in its turn and of a share that is
not empty. -/
theorem exists_entry {input rest : List UInt8} {done shares : List Share}
    (h : parseEntries wide maxSymbol input done = .ok (shares, rest)) :
    ∃ symbol share more, input = symbol :: (share.bytes wide ++ more) ∧
      done.length ≤ symbol.toNat ∧ share ≠ .absent ∧
      AfterEntry wide maxSymbol symbol
        (done ++ List.replicate (symbol.toNat - done.length) .absent ++ [share])
        shares more rest := by
  cases input with
  | nil => cases h
  | cons symbol input =>
    rw [parseEntries.eq_def] at h
    dsimp only at h
    split at h
    · cases h
    split at h
    · cases h
    rename_i horder
    split at h
    · rename_i field more
      obtain ⟨hfield, hafter⟩ := afterEntry_of_endEntry h
      exact ⟨symbol, _, more, by rw [Share.bytes_ofField_narrow]; rfl, Nat.not_lt.mp horder,
        Share.ofField_ne_absent hfield, hafter⟩
    · rename_i high low more
      obtain ⟨hfield, hafter⟩ := afterEntry_of_endEntry h
      exact ⟨symbol, _, more, by rw [Share.bytes_ofField_wide]; rfl, Nat.not_lt.mp horder,
        Share.ofField_ne_absent hfield, hafter⟩
    · cases h

/-- **What parsing accepts as the list of entries**: the entries of shares of which those of
`done` were read before, up to the last symbol. -/
theorem exists_entries {input rest : List UInt8} {done shares : List Share}
    (h : parseEntries wide maxSymbol input done = .ok (shares, rest)) :
    shares.length = maxSymbol.toNat + 1 ∧ ∃ found, shares = done ++ found ∧
      input = entries wide done.length found ++ rest := by
  obtain ⟨symbol, share, more, rfl, horder, hpresent, hafter⟩ := exists_entry h
  have hlength : (done ++ List.replicate (symbol.toNat - done.length) Share.absent ++
      [share]).length = symbol.toNat + 1 := by
    simp only [List.length_append, List.length_replicate, List.length_singleton]
    omega
  have hsymbol : (done.length + (symbol.toNat - done.length)).toUInt8 = symbol := by
    rw [Nat.add_sub_cancel' horder]
    exact UInt8.ofNat_toNat
  rw [AfterEntry] at hafter
  split at hafter
  · rename_i hlast
    obtain ⟨rfl, rfl⟩ := hafter
    refine ⟨by rw [hlength, hlast], _, List.append_assoc _ _ _, ?_⟩
    rw [entries_skipped hpresent, hsymbol, List.cons_append, List.append_assoc]
    rfl
  · obtain ⟨htotal, found, rfl, rfl⟩ := exists_entries hafter
    refine ⟨htotal, List.replicate (symbol.toNat - done.length) .absent ++ share :: found,
      by simp, ?_⟩
    rw [entries_skipped hpresent, hsymbol, hlength, Nat.add_sub_cancel' horder, List.cons_append,
      List.append_assoc]
termination_by input.length
decreasing_by
  subst_vars
  simp only [List.length_cons, List.length_append]
  omega

/-! ### The whole header -/

theorem eq_countBytes {input rest : List UInt8} {count : ℕ}
    (h : parseCount input = .ok (count, rest)) :
    input = countBytes count ++ rest ∧ count < 2 ^ 32 := by
  rw [parseCount.eq_def] at h
  split at h
  · rename_i a b c d rest
    obtain ⟨rfl, rfl⟩ :
        a.toNat + b.toNat * 0x100 + c.toNat * 0x10000 + d.toNat * 0x1000000 = count ∧ rest = _ := by
      simpa using h
    have ha := a.toNat_lt
    have hb := b.toNat_lt
    have hc := c.toNat_lt
    have hd := d.toNat_lt
    refine ⟨?_, by omega⟩
    simp only [countBytes, List.cons_append, List.nil_append, List.cons.injEq, and_true,
      ← UInt8.toNat_inj, Nat.toUInt8_eq, UInt8.toNat_ofNat']
    omega
  · cases h

/-- The parts of what parses to a header. -/
theorem exists_parts {input rest : List UInt8} {header : Header}
    (h : parse input = .ok (header, rest)) :
    ∃ excess maxSymbol body counted shares, input = excess :: maxSymbol :: body ∧
      excess.toNat + minTableLog ≤ maxTableLog ∧
      parseEntries (decide (wideTableLog ≤ excess.toNat + minTableLog)) maxSymbol body [] =
        .ok (shares, counted) ∧
      parseCount counted = .ok (header.symbolCount, rest) ∧ 2 ≤ header.symbolCount ∧
      Distribution.ofShares (excess.toNat + minTableLog) shares = .ok header.distribution := by
  rw [parse.eq_def] at h
  split at h
  · cases h
  rename_i excess input
  dsimp only at h
  split at h
  · cases h
  rename_i hlog
  split at h
  · cases h
  rename_i maxSymbol body
  obtain ⟨⟨shares, counted⟩, hentries, h⟩ := exceptBind_eq_ok_iff.mp h
  obtain ⟨⟨symbolCount, behind⟩, hcounted, h⟩ := exceptBind_eq_ok_iff.mp h
  dsimp only at h
  split at h
  · cases h
  rename_i htwo
  obtain ⟨distribution, hshares, h⟩ := exceptBind_eq_ok_iff.mp h
  cases h
  exact ⟨excess, maxSymbol, body, counted, shares, rfl, Nat.not_lt.mp hlog, hentries, hcounted,
    Nat.not_lt.mp htwo, hshares⟩

/-- What parses to a header begins with the bytes of the header. -/
theorem exists_bytes_of_parse {input rest : List UInt8} {header : Header}
    (h : parse input = .ok (header, rest)) :
    2 ≤ header.symbolCount ∧ header.symbolCount < 2 ^ 32 ∧
      ∃ written, header.bytes = .ok written ∧ input = written ++ rest := by
  obtain ⟨excess, maxSymbol, body, counted, shares, rfl, hlog, hentries, hcounted, htwo, hshares⟩ :=
    exists_parts h
  obtain ⟨hlength, found, rfl, rfl⟩ := exists_entries hentries
  obtain ⟨rfl, hcount⟩ := eq_countBytes hcounted
  obtain ⟨htable, hfound⟩ := Distribution.eq_of_ofShares hshares
  refine ⟨htwo, hcount, _, if_pos hcount, ?_⟩
  have hexcess : (header.distribution.tableLog - minTableLog).toUInt8 = excess := by
    rw [htable, Nat.add_sub_cancel]
    exact UInt8.ofNat_toNat
  have hmax : header.distribution.maxSymbol = maxSymbol := by
    rw [Distribution.maxSymbol, hfound, hlength, Nat.add_sub_cancel]
    exact UInt8.ofNat_toNat
  simp only [hexcess, hmax]
  simp only [entryBytes_eq, htable, hfound, List.length_nil, List.cons_append, List.append_assoc]

/-- **What parsing accepts as a header** is what writing produces, with anything behind it. -/
theorem parse_eq_ok_iff {input rest : List UInt8} {header : Header} :
    parse input = .ok (header, rest) ↔
      2 ≤ header.symbolCount ∧ header.symbolCount < 2 ^ 32 ∧
        ∃ written, header.bytes = .ok written ∧ input = written ++ rest := by
  constructor
  · exact exists_bytes_of_parse
  · rintro ⟨htwo, hcount, written, hwritten, rfl⟩
    obtain ⟨bytes, hbytes, hparse⟩ := exists_bytes header.distribution htwo hcount
    obtain rfl : bytes = written := Except.ok.inj (hbytes.symm.trans hwritten)
    exact hparse rest

/-! ### Offsets -/

/-- The header at the front of `input`, and the offset of the first byte behind it. -/
def read (input : List UInt8) : Except Error (Header × ℕ) :=
  (parse input).map fun (header, rest) => (header, input.length - rest.length)

theorem read_eq_ok_iff {input : List UInt8} {header : Header} {offset : ℕ} :
    read input = .ok (header, offset) ↔
      ∃ rest, parse input = .ok (header, rest) ∧ input.length - rest.length = offset := by
  rw [read, exceptMap_eq_ok_iff]
  constructor
  · rintro ⟨⟨found, rest⟩, hparse, h⟩
    cases h
    exact ⟨rest, hparse, rfl⟩
  · rintro ⟨rest, hparse, rfl⟩
    exact ⟨(header, rest), hparse, rfl⟩

/-- What reading accepts, by the offset behind it. -/
theorem read_eq_ok_iff_take {input : List UInt8} {header : Header} {offset : ℕ} :
    read input = .ok (header, offset) ↔
      offset ≤ input.length ∧ 2 ≤ header.symbolCount ∧ header.symbolCount < 2 ^ 32 ∧
        header.bytes = .ok (input.take offset) := by
  rw [read_eq_ok_iff]
  simp only [parse_eq_ok_iff]
  constructor
  · rintro ⟨rest, ⟨htwo, hcount, written, hwritten, rfl⟩, rfl⟩
    have hoffset : (written ++ rest).length - rest.length = written.length := by simp
    refine ⟨Nat.sub_le _ _, htwo, hcount, ?_⟩
    rw [hoffset, List.take_left' rfl, hwritten]
  · rintro ⟨hoffset, htwo, hcount, hwritten⟩
    refine ⟨input.drop offset, ⟨htwo, hcount, _, hwritten,
      (List.take_append_drop offset input).symm⟩, ?_⟩
    rw [List.length_drop, Nat.sub_sub_self hoffset]

/-- **Reading and writing are inverse to each other.** Reading comes to a header and an offset
exactly when the header is one that can be written, its count is a count of two or more symbols,
and the bytes before the offset are those that writing produces; what parsing leaves is what lies
behind them. So what was written is read, whatever follows it, and no header has two spellings. -/
theorem read_iff_bytes :
    (∀ (input : List UInt8) (header : Header) (offset : ℕ),
      read input = .ok (header, offset) ↔
        offset ≤ input.length ∧
        Distribution.ofShares header.distribution.tableLog header.distribution.shares =
          .ok header.distribution ∧
        2 ≤ header.symbolCount ∧ header.symbolCount ≤ 2 ^ 32 - 1 ∧
        header.bytes = .ok (input.take offset)) ∧
    (∀ (input rest : List UInt8) (header : Header), parse input = .ok (header, rest) ↔
      ∃ offset, read input = .ok (header, offset) ∧ rest = input.drop offset) ∧
    (∀ header : Header, 2 ≤ header.symbolCount → header.symbolCount ≤ 2 ^ 32 - 1 →
      ∃ written, header.bytes = .ok written ∧
        ∀ rest, read (written ++ rest) = .ok (header, written.length)) ∧
    ∀ (input input' : List UInt8) (header : Header) (offset offset' : ℕ),
      read input = .ok (header, offset) → read input' = .ok (header, offset') →
        input.take offset = input'.take offset' := by
  refine ⟨?_, ?_, ?_, ?_⟩
  · intro input header offset
    rw [read_eq_ok_iff_take]
    simp only [Distribution.ofShares_shares, true_and, Nat.lt_iff_le_pred (Nat.two_pow_pos 32)]
  · intro input rest header
    constructor
    · intro h
      obtain ⟨-, -, written, -, rfl⟩ := parse_eq_ok_iff.mp h
      refine ⟨written.length, read_eq_ok_iff.mpr ⟨rest, h, by simp⟩, (List.drop_left' rfl).symm⟩
    · rintro ⟨offset, hread, rfl⟩
      obtain ⟨-, htwo, hcount, hwritten⟩ := read_eq_ok_iff_take.mp hread
      exact parse_eq_ok_iff.mpr ⟨htwo, hcount, _, hwritten,
        (List.take_append_drop offset input).symm⟩
  · intro header htwo hcount
    obtain ⟨written, hwritten, hparse⟩ :=
      exists_bytes header.distribution htwo (Nat.lt_of_le_pred (by decide) hcount)
    refine ⟨written, hwritten, ?_⟩
    intro rest
    exact read_eq_ok_iff.mpr ⟨rest, hparse rest, by simp⟩
  · intro input input' header offset offset' h h'
    have hwritten := (read_eq_ok_iff_take.mp h).2.2.2
    have hwritten' := (read_eq_ok_iff_take.mp h').2.2.2
    exact Except.ok.inj (hwritten.symm.trans hwritten')

/-- A header with shares of two bytes, two of them rare and one absent. -/
def wide512 : Header :=
  ⟨⟨9, [.rare, .absent, .common 510 (by decide), .rare], by decide, by decide, by decide,
    by decide, by decide⟩, 1000⟩

/-- Its bytes are read back with others behind them, and nothing else is read as this header. -/
theorem read_wide512 :
    2 ≤ wide512.symbolCount ∧ wide512.symbolCount ≤ 2 ^ 32 - 1 ∧
      wide512.bytes = .ok [4, 3, 0, 255, 255, 2, 1, 254, 3, 255, 255, 232, 3, 0, 0] ∧
      read [4, 3, 0, 255, 255, 2, 1, 254, 3, 255, 255, 232, 3, 0, 0, 172, 40] =
        .ok (wide512, 15) ∧
      ∀ input offset, read input = .ok (wide512, offset) →
        input.take offset = [4, 3, 0, 255, 255, 2, 1, 254, 3, 255, 255, 232, 3, 0, 0] := by
  have hbytes : wide512.bytes =
      .ok [4, 3, 0, 255, 255, 2, 1, 254, 3, 255, 255, 232, 3, 0, 0] := by rfl
  obtain ⟨-, -, hback, hunique⟩ := read_iff_bytes
  obtain ⟨written, hwritten, hread⟩ := hback wide512 (by decide) (by decide)
  obtain rfl := Except.ok.inj (hwritten.symm.trans hbytes)
  refine ⟨by decide, by decide, hbytes, hread [172, 40], ?_⟩
  intro input offset h
  exact hunique input _ wide512 offset 15 h (hread [172, 40])

end Header

end FiniteStateEntropy
