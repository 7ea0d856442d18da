import FiniteStateEntropy.Proofs.Block
import FiniteStateEntropy.Proofs.HeaderSpelling

/-!
# Where a header ends

A header has no length field and still says where it ends: its entries are over with the one of the
last symbol, and four bytes of a count follow. So no header is the beginning of another one, and
what lies behind a header does not matter to it.

Cut short, a header is truncated and nothing else is wrong with it. Every other check of parsing is
about bytes that were read, and those of a header pass it wherever the bytes end; that a symbol
comes in its turn, say, is known when the byte of the symbol is read, before the bytes of its share
are asked for. The checks of the whole come behind the last byte of the count. An entry may be cut
at each of its bytes, which are two or three, and `parseEntries_take` goes from entry to entry up to
the one that is.

The stream behind a header ends in a mark. There is none in a stream that is empty or ends in a zero
byte, whatever comes before.

## Main results

* `Header.parseEntries_take`: the list of entries cut short
* `Header.parse_take`: the whole header cut short
* `Stream.decode_of_unmarked`: a stream without an end mark
* `Header.read_self_delimiting`: where a header ends, and what is found when it does not
-/

namespace FiniteStateEntropy

namespace Header

variable {wide : Bool} {maxSymbol : UInt8}

/-! ### Entries cut short -/

/-- **One entry cut short**, in either width. -/
theorem parseEntries_take_entry {symbol : UInt8} {share : Share} {done : List Share}
    (hsymbol : symbol ≤ maxSymbol) (horder : done.length ≤ symbol.toNat) {cut : ℕ}
    (hcut : cut < (symbol :: share.bytes wide).length) :
    parseEntries wide maxSymbol ((symbol :: share.bytes wide).take cut) done = truncated := by
  have hmax : ¬maxSymbol < symbol := UInt8.not_lt.mpr hsymbol
  have hlength : ¬symbol.toNat < done.length := Nat.not_lt.mpr horder
  have hshare := length_share_bytes wide share
  rw [List.length_cons, hshare] at hcut
  cases cut with
  | zero => rfl
  | succ cut =>
    rw [List.take_succ_cons]
    cases wide with
    | false =>
      obtain rfl : cut = 0 := by simp at hcut; omega
      simp [parseEntries, hmax, hlength]
    | true =>
      -- nothing of the share, or the higher one of its two bytes
      obtain ⟨high, low, hbytes⟩ := List.length_eq_two.mp hshare
      rw [hbytes]
      obtain rfl | rfl : cut = 0 ∨ cut = 1 := by simp at hcut; omega
      · simp [parseEntries, hmax, hlength]
      · simp [parseEntries, hmax, hlength]

/-- **The list of entries cut short**, wherever it is cut. With the shares of `done` read and
`pending` symbols passed over since. -/
theorem parseEntries_take {shares done : List Share} {pending : ℕ}
    (hmax : maxSymbol.toNat + 1 = done.length + pending + shares.length)
    (hfits : ∀ share ∈ shares, share.Fits wide) {cut : ℕ}
    (hcut : cut < (entries wide (done.length + pending) shares).length) :
    parseEntries wide maxSymbol ((entries wide (done.length + pending) shares).take cut) done =
      truncated := by
  induction shares generalizing done pending cut with
  | nil => exact absurd hcut (Nat.not_lt_zero cut)
  | cons share shares ih =>
    simp only [List.mem_cons, forall_eq_or_imp] at hfits
    obtain ⟨hshare, hshares⟩ := hfits
    rw [List.length_cons] at hmax
    by_cases habsent : share = .absent
    · subst habsent
      rw [entries_absent, Nat.add_assoc] at hcut ⊢
      exact ih (by omega) hshares hcut
    obtain ⟨hsymbol, hle, hlastsymbol⟩ :=
      symbol_of_le (show done.length + pending ≤ maxSymbol.toNat by omega)
    rw [entries_present habsent, ← List.cons_append] at hcut ⊢
    rw [List.take_append]
    by_cases hentry : cut < ((done.length + pending).toUInt8 :: share.bytes wide).length
    · -- the cut is in this entry
      rw [Nat.sub_eq_zero_of_le (Nat.le_of_lt hentry), List.take_zero, List.append_nil]
      exact parseEntries_take_entry hle (by omega) hentry
    · -- the cut is behind this entry, which is therefore not the last one
      rw [List.length_append] at hcut
      have hlast : (done.length + pending).toUInt8 ≠ maxSymbol := by
        intro hsame
        rw [hlastsymbol] at hsame
        obtain rfl : shares = [] := List.eq_nil_of_length_eq_zero (by omega)
        rw [show (entries wide (done.length + pending + 1) []).length = 0 from rfl] at hcut
        omega
      have hlength : (done ++ List.replicate pending Share.absent ++ [share]).length + 0 =
          done.length + pending + 1 := by
        simp [Nat.add_assoc]
      have hrest := @ih (done ++ List.replicate pending .absent ++ [share]) 0
        (by rw [hlength]; omega) hshares
        (cut - ((done.length + pending).toUInt8 :: share.bytes wide).length)
        (by rw [hlength]; omega)
      rw [hlength] at hrest
      rw [List.take_of_length_le (Nat.not_lt.mp hentry), List.cons_append,
        parseEntries_cons hle (by omega) habsent hshare, if_neg hlast, hsymbol,
        Nat.add_sub_cancel_left, hrest]

/-- **The entries of a distribution cut short.** -/
theorem parseEntries_entryBytes_take (distribution : Distribution) {cut : ℕ}
    (hcut : cut < (entryBytes distribution).length) :
    parseEntries (decide (wideTableLog ≤ distribution.tableLog)) distribution.maxSymbol
      ((entryBytes distribution).take cut) [] = truncated := by
  have hmax : distribution.maxSymbol.toNat + 1 =
      ([] : List Share).length + 0 + distribution.shares.length := by
    rw [toNat_maxSymbol_add_one, List.length_nil, Nat.zero_add]
  exact parseEntries_take hmax (fun share h => fits_of_mem h) hcut

/-! ### The whole header cut short -/

theorem parseCount_take {count cut : ℕ} (h : cut < 4) :
    parseCount ((countBytes count).take cut) = truncated := by
  obtain rfl | rfl | rfl | rfl : cut = 0 ∨ cut = 1 ∨ cut = 2 ∨ cut = 3 := by omega
  all_goals rfl

/-- **The whole header cut short**, wherever it is cut. -/
theorem parse_take {header : Header} {written : List UInt8} (hwritten : header.bytes = .ok written)
    {cut : ℕ} (hcut : cut < written.length) : parse (written.take cut) = truncated := by
  rw [bytes] at hwritten
  split at hwritten
  swap
  · cases hwritten
  cases hwritten
  have hlog : ¬maxTableLog < header.distribution.tableLog :=
    Nat.not_lt.mpr header.distribution.tableLog_mem.2
  rcases cut with - | - | cut
  · rfl
  · rw [List.take_succ_cons, List.take_zero, parse]
    simp only [toNat_excess_add, if_neg hlog]
  rw [List.length_cons, List.length_cons, List.length_append] at hcut
  rw [List.take_succ_cons, List.take_succ_cons, List.take_append, parse]
  simp only [toNat_excess_add, if_neg hlog]
  by_cases hentries : cut < (entryBytes header.distribution).length
  · -- the cut is in the entries
    have hshort := parseEntries_entryBytes_take header.distribution hentries
    rw [Nat.sub_eq_zero_of_le (Nat.le_of_lt hentries), List.take_zero, List.append_nil, hshort]
    rfl
  · -- the cut is in the count
    have hcount : (countBytes header.symbolCount).length = 4 := rfl
    have hshort := @parseCount_take header.symbolCount
      (cut - (entryBytes header.distribution).length) (by omega)
    rw [List.take_of_length_le (Nat.not_lt.mp hentries), parseEntries_entryBytes]
    simp only [bind, Except.bind, hshort]
    rfl

end Header

/-! ### Streams without an end mark -/

/-- **A stream without an end mark** is empty or ends in a zero byte. -/
theorem Stream.decode_of_unmarked {stream : List UInt8} (h : stream.getLast?.getD 0 = 0)
    (table : DecodeTable) (count : ℕ) :
    decode table count stream = .error (.corruptStream .missingEndMark) := by
  have hreader : Reader.ofBytes stream = .error (.corruptStream .missingEndMark) := by
    rw [List.getLast?_eq_head?_reverse] at h
    rw [Reader.ofBytes]
    split
    · rfl
    · rename_i last before hreverse
      rw [hreverse] at h
      exact if_pos h
  rw [decode, decodeLanes, hreader]
  rfl

namespace Header

/-- **A header says where it ends.** What lies behind it does not matter to it; cut short, wherever
that is, it is truncated, for a decompression as well; and a header with nothing behind it, or with
a zero byte at the end of what is there, has no end mark behind it. -/
theorem read_self_delimiting {input : List UInt8} {header : Header} {offset : ℕ}
    (h : read input = .ok (header, offset)) :
    (∀ rest, read (input.take offset ++ rest) = .ok (header, offset)) ∧
    (∀ cut < offset,
      read (input.take cut) = .error (.corruptHeader .truncated) ∧
        decompress (input.take cut) = .error (.corruptHeader .truncated)) ∧
    decompress (input.take offset) = .error (.corruptStream .missingEndMark) ∧
    (∀ zeros, 0 < zeros →
      decompress (input ++ List.replicate zeros 0) = .error (.corruptStream .missingEndMark)) ∧
    HeaderFault.truncated.message = "truncated header" ∧
    StreamFault.missingEndMark.message = "missing end mark" := by
  obtain ⟨hoffset, htwo, hcount, hwritten⟩ := read_eq_ok_iff_take.mp h
  have hparse : ∀ rest, parse (input.take offset ++ rest) = .ok (header, rest) := by
    intro rest
    exact parse_eq_ok_iff.mpr ⟨htwo, hcount, _, hwritten, rfl⟩
  refine ⟨?_, ?_, ?_, ?_, rfl, rfl⟩
  · intro rest
    refine read_eq_ok_iff.mpr ⟨rest, hparse rest, ?_⟩
    rw [List.length_append, Nat.add_sub_cancel, List.length_take_of_le hoffset]
  · intro cut hcut
    have hshort := @parse_take header _ hwritten cut (by rwa [List.length_take_of_le hoffset])
    rw [List.take_take, Nat.min_eq_left (Nat.le_of_lt hcut)] at hshort
    exact ⟨by rw [read, hshort]; rfl, decompress_of_parse_error hshort⟩
  · have hempty := hparse []
    rw [List.append_nil] at hempty
    rw [decompress_of_parse hempty]
    exact Stream.decode_of_unmarked rfl _ _
  · intro zeros hzeros
    have hbehind := hparse (input.drop offset ++ List.replicate zeros 0)
    rw [← List.append_assoc, List.take_append_drop] at hbehind
    rw [decompress_of_parse hbehind]
    obtain ⟨more, rfl⟩ := Nat.exists_eq_succ_of_ne_zero (Nat.ne_of_gt hzeros)
    refine Stream.decode_of_unmarked ?_ _ _
    rw [List.replicate_succ', ← List.append_assoc, List.getLast?_concat]
    rfl

/-- A header of fifteen bytes, two others behind it. It is truncated between the two bytes of a
share, where another entry should be and in the count. -/
theorem read_self_delimiting_wide512 :
    read [4, 3, 0, 255, 255, 2, 1, 254, 3, 255, 255, 232, 3, 0, 0, 172, 40] = .ok (wide512, 15) ∧
      read [4, 3, 0, 255, 255, 2, 1, 254, 3, 255, 255, 232, 3, 0, 0, 9, 9, 9] =
        .ok (wide512, 15) ∧
      read [4, 3, 0, 255, 255, 2, 1] = .error (.corruptHeader .truncated) ∧
      decompress [4, 3, 0, 255, 255, 2, 1, 254] = .error (.corruptHeader .truncated) ∧
      decompress [4, 3, 0, 255, 255, 2, 1, 254, 3, 255, 255, 232, 3, 0] =
        .error (.corruptHeader .truncated) ∧
      decompress [4, 3, 0, 255, 255, 2, 1, 254, 3, 255, 255, 232, 3, 0, 0] =
        .error (.corruptStream .missingEndMark) ∧
      decompress [4, 3, 0, 255, 255, 2, 1, 254, 3, 255, 255, 232, 3, 0, 0, 172, 40, 0, 0] =
        .error (.corruptStream .missingEndMark) := by
  have hread : read [4, 3, 0, 255, 255, 2, 1, 254, 3, 255, 255, 232, 3, 0, 0, 172, 40] =
      .ok (wide512, 15) := by decide +kernel
  obtain ⟨hagain, hcut, hnothing, hzeros, -⟩ := read_self_delimiting hread
  exact ⟨hread, hagain [9, 9, 9], (hcut 7 (by decide)).1, (hcut 8 (by decide)).2,
    (hcut 14 (by decide)).2, hnothing, hzeros 2 (by decide)⟩

end Header

end FiniteStateEntropy
