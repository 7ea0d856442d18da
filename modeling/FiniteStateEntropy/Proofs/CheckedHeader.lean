import FiniteStateEntropy.Proofs.Checks
import FiniteStateEntropy.Proofs.HeaderSpelling

/-!
# Headers are read safely

Parsing with its checks. The bytes are taken one after the other from a list that may end, so what
is left to check is what parsing does with them: a share goes to a place of an alphabet that was
laid out for the symbols up to the declared last one, it comes behind the places that are filled,
and its field, the count and the sum of the slots have the widths of 16, 32 and 64 bits.

None of it fails, because a symbol above the last one and a symbol out of order are refused before
their share is put anywhere, and because an alphabet of bytes with shares of 16 bits has slots of
no more than 24 bits.

## Main definitions

* `Checked.parse`: the header of a block
* `Checked.behind`: the bytes from an offset on

## Main results

* `Checked.alike_parse`: parsing is safe, and refuses a header only
* `Checked.behind_eq`: so is cutting off the header
-/

namespace FiniteStateEntropy

namespace Checked

/-! ### Parsing with checks -/

/-- Ends the entry of `symbol`. An alphabet of bytes up to `maxSymbol` has a place for the share,
and it comes after the places that have their share already. -/
def endEntry (wide : Bool) (maxSymbol symbol : UInt8) (shares : List Share) (field : ℕ)
    (rest : List UInt8) (goOn : List Share → Except Stop (List Share × List UInt8)) :
    Except Stop (List Share × List UInt8) := do
  let field ← fit 16 field
  if field = 0 then
    refuse (.corruptHeader .emptyEntry)
  else
    let place ← within (maxSymbol.toNat + 1) symbol.toNat
    let skipped ← sub place shares.length
    let shares := shares ++ List.replicate skipped .absent ++ [Share.ofField wide field]
    if symbol = maxSymbol then return (shares, rest) else goOn shares

/-- Reads entries up to the one of `maxSymbol`. -/
def parseEntries (wide : Bool) (maxSymbol : UInt8) :
    List UInt8 → List Share → Except Stop (List Share × List UInt8)
  | [], _ => refuse (.corruptHeader .truncated)
  | symbol :: input, shares =>
    if maxSymbol < symbol then
      refuse (.corruptHeader .symbolAboveMaximum)
    else if symbol.toNat < shares.length then
      refuse (.corruptHeader .symbolsOutOfOrder)
    else
      match wide, input with
      | false, field :: rest =>
        endEntry wide maxSymbol symbol shares field.toNat rest (parseEntries wide maxSymbol rest)
      | true, high :: low :: rest =>
        endEntry wide maxSymbol symbol shares (high.toNat * 0x100 + low.toNat) rest
          (parseEntries wide maxSymbol rest)
      | _, _ => refuse (.corruptHeader .truncated)

/-- Reads the header at the front of `input`. The count fits its 32 bits, and the slots are added
up in 64. -/
def parse : List UInt8 → Except Stop (Header × List UInt8)
  | [] => refuse (.corruptHeader .truncated)
  | excess :: input =>
    let tableLog := excess.toNat + minTableLog
    if maxTableLog < tableLog then
      refuse (.corruptHeader .tableLogOutOfRange)
    else
      match input with
      | [] => refuse (.corruptHeader .truncated)
      | maxSymbol :: input => do
        let wide := decide (wideTableLog ≤ tableLog)
        let (shares, input) ← parseEntries wide maxSymbol input []
        let (count, rest) ← lift (Header.parseCount input)
        let symbolCount ← fit 32 count
        if symbolCount < 2 then
          throw (.refused (.corruptHeader .countBelowTwo))
        let _ ← fit 64 (shares.map Share.slots).sum
        let distribution ← lift (Distribution.ofShares tableLog shares)
        return (⟨distribution, symbolCount⟩, rest)

/-- What lies behind the first `offset` bytes, of which there have to be so many. -/
def behind (block : List UInt8) (offset : ℕ) : Except Stop (List UInt8) :=
  if offset ≤ block.length then .ok (block.drop offset) else .error .outOfRange

/-! ### No check fails -/

/-- Shares as they are read from fields of 16 bits. -/
def Narrow (shares : List Share) : Prop := ∀ share ∈ shares, share.slots < 2 ^ 16

theorem slots_ofField_lt {wide : Bool} {field : ℕ} (h : field < 2 ^ 16) :
    (Share.ofField wide field).slots < 2 ^ 16 := by
  rw [Share.ofField]
  by_cases hrare : field = if wide = true then 0xFFFF else 0xFF
  · rw [if_pos hrare]
    decide
  · rwa [if_neg hrare, Share.slots_ofSlots]

theorem Narrow.append {done : List Share} (h : Narrow done) (skipped : ℕ) {share : Share}
    (hshare : share.slots < 2 ^ 16) :
    Narrow (done ++ List.replicate skipped .absent ++ [share]) := by
  intro other hother
  simp only [List.mem_append, List.mem_replicate, List.mem_singleton] at hother
  rcases hother with (hother | ⟨-, rfl⟩) | rfl
  · exact h other hother
  · decide
  · exact hshare

theorem Narrow.sum_le {shares : List Share} (h : Narrow shares) :
    (shares.map Share.slots).sum ≤ shares.length * 2 ^ 16 := by
  induction shares with
  | nil => exact Nat.zero_le _
  | cons share shares ih =>
    rw [Narrow, List.forall_mem_cons] at h
    have hrest := ih h.2
    rw [List.map_cons, List.sum_cons, List.length_cons]
    omega

/-- An entry in its turn is ended safely, if that can be said of what comes behind it. -/
theorem alike_endEntry {wide : Bool} {maxSymbol symbol : UInt8} {done : List Share} {field : ℕ}
    {rest : List UInt8} {goOn : List Share → Except Stop (List Share × List UInt8)}
    {goOn' : List Share → Except Error (List Share × List UInt8)} (hsymbol : symbol ≤ maxSymbol)
    (horder : done.length ≤ symbol.toNat) (hfield : field < 2 ^ 16) (hdone : Narrow done)
    (hgoOn : ∀ shares, Narrow shares → Alike Error.IsCorruptHeader (fun found => Narrow found.1)
      (goOn shares) (goOn' shares)) :
    Alike Error.IsCorruptHeader (fun found => Narrow found.1)
      (endEntry wide maxSymbol symbol done field rest goOn)
      (Header.endEntry wide maxSymbol symbol done field rest goOn') := by
  refine .of_check (fit_eq hfield) ?_
  rw [Header.endEntry]
  by_cases hzero : field = 0
  · rw [if_pos hzero, if_pos hzero]
    exact .refused ⟨_, rfl⟩
  · rw [if_neg hzero, if_neg hzero]
    refine .of_check (within_eq (Nat.lt_succ_of_le hsymbol)) (.of_check (sub_eq horder) ?_)
    have hshare : (Share.ofField wide field).slots < 2 ^ 16 := slots_ofField_lt hfield
    have hshares := hdone.append (symbol.toNat - done.length) hshare
    by_cases hlast : symbol = maxSymbol
    · simp only [if_pos hlast]
      exact .ok hshares
    · simp only [if_neg hlast]
      exact hgoOn _ hshares

/-- Entries are read safely, and have shares of no more slots than a field can say. -/
theorem alike_parseEntries (wide : Bool) (maxSymbol : UInt8) (input : List UInt8)
    (done : List Share) (hdone : Narrow done) :
    Alike Error.IsCorruptHeader (fun found => Narrow found.1)
      (parseEntries wide maxSymbol input done)
      (Header.parseEntries wide maxSymbol input done) := by
  cases input with
  | nil => exact .refused ⟨_, rfl⟩
  | cons symbol input =>
    rw [Checked.parseEntries.eq_def, Header.parseEntries.eq_def]
    dsimp only
    split
    · exact .refused ⟨_, rfl⟩
    rename_i hsymbol
    rw [UInt8.not_lt] at hsymbol
    split
    · exact .refused ⟨_, rfl⟩
    rename_i horder
    rw [Nat.not_lt] at horder
    -- an entry in its turn takes two or three bytes, and the induction is on those that are left
    cases wide with
    | false =>
      cases input with
      | nil => exact .refused ⟨_, rfl⟩
      | cons field rest =>
        have hfield := field.toNat_lt
        exact alike_endEntry hsymbol horder (by omega) hdone fun shares hshares =>
          alike_parseEntries _ maxSymbol rest shares hshares
    | true =>
      rcases input with _ | ⟨high, _ | ⟨low, rest⟩⟩
      · exact .refused ⟨_, rfl⟩
      · exact .refused ⟨_, rfl⟩
      · have hhigh := high.toNat_lt
        have hlow := low.toNat_lt
        exact alike_endEntry hsymbol horder (by omega) hdone fun shares hshares =>
          alike_parseEntries _ maxSymbol rest shares hshares
termination_by input.length

/-- Within the table logs of the format, shares that are no distribution are a damaged header. -/
theorem isCorruptHeader_of_ofShares {tableLog : ℕ} {shares : List Share} {e : Error}
    (hlog : minTableLog ≤ tableLog ∧ tableLog ≤ maxTableLog)
    (h : Distribution.ofShares tableLog shares = .error e) : e.IsCorruptHeader := by
  rw [Distribution.ofShares, dif_pos hlog] at h
  repeat' split at h
  all_goals cases h
  all_goals exact ⟨_, rfl⟩

/-- A count has the 32 bits of its bytes. -/
theorem alike_parseCount (input : List UInt8) :
    Alike Error.IsCorruptHeader (fun found => found.1 < 2 ^ 32) (lift (Header.parseCount input))
      (Header.parseCount input) := by
  refine .lift ?_ ?_
  · intro found hfound
    exact (Header.eq_countBytes hfound).2
  · intro e he
    rw [Header.parseCount.eq_def] at he
    split at he
    · cases he
    · cases he
      exact ⟨_, rfl⟩

theorem alike_ofShares {tableLog : ℕ} (hlog : minTableLog ≤ tableLog ∧ tableLog ≤ maxTableLog)
    (shares : List Share) :
    Alike Error.IsCorruptHeader (fun _ => True) (lift (Distribution.ofShares tableLog shares))
      (Distribution.ofShares tableLog shares) :=
  .lift (fun _ _ => trivial) fun _ h => isCorruptHeader_of_ofShares hlog h

/-- **A header is read safely**, and who is to blame for a refusal is the header. -/
theorem alike_parse (input : List UInt8) :
    Alike Error.IsCorruptHeader (fun _ => True) (Checked.parse input) (Header.parse input) := by
  rcases input with _ | ⟨excess, _ | ⟨maxSymbol, input⟩⟩
  · exact .refused ⟨_, rfl⟩
  · rw [Checked.parse.eq_def, Header.parse.eq_def]
    dsimp only
    split
    · exact .refused ⟨_, rfl⟩
    · exact .refused ⟨_, rfl⟩
  rw [Checked.parse.eq_def, Header.parse.eq_def]
  dsimp only
  split
  · exact .refused ⟨_, rfl⟩
  rename_i hlog
  refine (alike_parseEntries _ maxSymbol input [] (by simp [Narrow])).remember.bind ?_
  rintro ⟨shares, counted⟩ ⟨hshares, hentries⟩
  refine (alike_parseCount counted).bind ?_
  rintro ⟨count, rest⟩ hcount
  refine .of_check (fit_eq hcount) ?_
  dsimp only
  split
  · exact .refused ⟨_, rfl⟩
  -- there is a share for each symbol up to the last one
  have hsum := hshares.sum_le
  have hlength := (Header.exists_entries hentries).1
  have hmax := maxSymbol.toNat_lt
  dsimp only at hsum
  refine .of_check (fit_eq (Nat.lt_of_le_of_lt hsum (by omega))) ?_
  exact (alike_ofShares ⟨Nat.le_add_left _ _, Nat.not_lt.mp hlog⟩ shares).bind fun _ _ =>
    .ok trivial

/-- Behind the header lies the stream. -/
theorem behind_eq {block stream : List UInt8} {header : Header}
    (h : Header.parse block = .ok (header, stream)) :
    stream.length ≤ block.length ∧ behind block (block.length - stream.length) = .ok stream := by
  obtain ⟨-, -, written, -, rfl⟩ := Header.parse_eq_ok_iff.mp h
  have hoffset : (written ++ stream).length - stream.length = written.length := by simp
  refine ⟨by simp, ?_⟩
  rw [hoffset, behind, if_pos (by simp), List.drop_left' rfl]

end Checked

end FiniteStateEntropy
