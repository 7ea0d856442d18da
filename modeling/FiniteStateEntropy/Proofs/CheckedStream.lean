import FiniteStateEntropy.Proofs.Checks
import FiniteStateEntropy.Proofs.Converse

/-!
# Streams are decoded safely

A decoder on the table of a distribution, with its checks. A reader skips and takes only bits that
it has, loads a byte only where it pushes out no unread bit, shifts its window by less than 64, and
gives fields of up to 32 bits uncut. A decoder looks its state up in the table, and the states that
it reads first and every state that a symbol leads to are checked to be states of the table.

The bits are anyone's. What holds the decoder in the table is the table: an entry leads to states
of the table whatever is read behind it. `Checked.Underway` is what is true after any number of
symbols, and one step keeps it.

## Main definitions

* `Checked.ofBytes`, `Checked.reload`, `Checked.read`: the bit reader
* `Checked.loadState`, `Checked.decode`: a state at the start of a stream, and one step
* `Checked.decodeStream`: the symbols of a stream
* `Stream.Reached`: the lanes that a decoder may come to

## Main results

* `Checked.reads_read`: reading is safe
* `Checked.reads_decode`: so is a step from a state of the table, which leads to one
* `Checked.Underway.reads_decodePairs`: so is a run of steps
* `Checked.alike_decodeStream`: so is a whole stream, which has the symbols that were asked for
* `Stream.Reached.lt_size`: no lane ever leaves the table
-/

namespace FiniteStateEntropy

namespace Checked

/-! ### Reading with checks -/

/-- A window with room for a byte holds one byte more. -/
theorem add_byte_le {live : ℕ} (room : live ≤ containerBits - 8) : live + 8 ≤ containerBits :=
  Nat.add_le_of_le_sub (by decide) room

/-- Loads bytes while the window has room for a whole one. The unread bits of the window are still
in it when they are shifted. -/
def load : List UInt8 → UInt64 → (live : ℕ) → live ≤ containerBits → Except Stop Reader
  | [], window, live, live_le => return ⟨[], window, live, live_le⟩
  | byte :: unread, window, live, live_le =>
    if room : live ≤ containerBits - 8 then do
      let _ ← fit containerBits ((window.toNat % 2 ^ live) <<< 8)
      load unread (window <<< 8 ||| byte.toUInt64) (live + 8) (add_byte_le room)
    else
      return ⟨byte :: unread, window, live, live_le⟩

/-- Tops up the window. -/
def reload (reader : Reader) : Except Stop Reader :=
  load reader.unread reader.window reader.live reader.live_le

/-- Tops up the window if it holds less than `width` bits. -/
def require (reader : Reader) (width : ℕ) : Except Stop Reader :=
  if reader.live < width then reload reader else .ok reader

/-- The reader with the next `width` loaded bits left behind. -/
def advance (reader : Reader) (width : ℕ) : Except Stop Reader := do
  let _ ← sub reader.live width
  return reader.advance width

/-- A reader that stands just below the end mark of `stream`. -/
def ofBytes (stream : List UInt8) : Except Stop Reader :=
  match stream.reverse with
  | [] => refuse (.corruptStream .missingEndMark)
  | last :: before =>
    if last = 0 then
      refuse (.corruptStream .missingEndMark)
    else do
      let reader ← load (last :: before) 0 0 (Nat.zero_le _)
      let marked ← sub 8 last.toNat.log2
      advance reader marked

/-- Takes the next `width` bits of the window as a number of up to 32 bits. A window of 64 bits is
shifted by a number of 6. -/
def take (reader : Reader) (width : ℕ) : Except Stop (ℕ × Reader) := do
  let difference ← sub reader.live width
  let shift ← fit 6 difference
  let mask ← fit 6 width
  let field ← fit 32 ((reader.window >>> shift.toUInt64).toNat % 2 ^ mask)
  let reader ← advance reader width
  return (field, reader)

/-- Takes the next `width` bits as a number of up to 32 bits. -/
def read (width : ℕ) : CheckM ℕ := fun reader =>
  if width = 0 then
    return (0, reader)
  else do
    let reader ← require reader width
    if reader.live < width then
      refuse (.corruptStream .readPastStart)
    else
      take reader width

/-- Tops up the window. -/
def topUp : CheckM Unit := fun reader => do
  let reader ← reload reader
  return ((), reader)

/-! ### Decoding with checks -/

/-- Reads a state at the start of a stream, which has to be a state of the table. -/
def loadState (table : DecodeTable) : CheckM ℕ := do
  let state ← read table.tableLog
  inTable table.tableLog state

/-- Yields the symbol of `state` and reads the bits that lead to the next state, which has to be a
state of the table. -/
def decode (table : DecodeTable) (state : ℕ) : CheckM (UInt8 × ℕ) := do
  let entry ← lookup table.entries state
  let low ← read entry.width.toNat
  let sum ← fit 32 (entry.baseline.toNat + low)
  let next ← inTable table.tableLog sum
  return (entry.symbol, next)

/-- The symbol that `state` yields. -/
def symbol (table : DecodeTable) (state : ℕ) : Except Stop UInt8 :=
  (lookup table.entries state).map DecodeEntry.symbol

/-- Decodes a symbol on the first lane. -/
def takeFirst (table : DecodeTable) (lanes : Lanes) (out : Array UInt8) :
    CheckM (Lanes × Array UInt8) := do
  let (symbol, state) ← decode table lanes.first
  return (⟨state, lanes.second⟩, out.push symbol)

/-- Decodes a symbol on the second lane. -/
def takeSecond (table : DecodeTable) (lanes : Lanes) (out : Array UInt8) :
    CheckM (Lanes × Array UInt8) := do
  let (symbol, state) ← decode table lanes.second
  return (⟨lanes.first, state⟩, out.push symbol)

/-- Decodes pairs of symbols, one on each lane, and tops up the window after each pair. -/
def decodePairs (table : DecodeTable) : ℕ → Lanes → Array UInt8 → CheckM (Lanes × Array UInt8)
  | 0, lanes, out => return (lanes, out)
  | pairs + 1, lanes, out => do
    let (lanes, out) ← takeFirst table lanes out
    let (lanes, out) ← takeSecond table lanes out
    topUp
    decodePairs table pairs lanes out

/-- Decodes the symbols of a stream of `count` symbols, of which two do not advance a lane. -/
def decodeSymbols (table : DecodeTable) (count : ℕ) : CheckM (Lanes × Array UInt8) := do
  let first ← loadState table
  let second ← loadState table
  let body ← sub count 2
  let (lanes, out) ← decodePairs table (body / 2) ⟨first, second⟩ #[]
  if body % 2 = 1 then
    let (lanes, out) ← takeFirst table lanes out
    let earlier ← symbol table lanes.second
    let later ← symbol table lanes.first
    return (lanes, (out.push earlier).push later)
  else
    let earlier ← symbol table lanes.first
    let later ← symbol table lanes.second
    return (lanes, (out.push earlier).push later)

/-- The `count` symbols of a stream. -/
def decodeStream (table : DecodeTable) (count : ℕ) (stream : List UInt8) :
    Except Stop (List UInt8) := do
  let reader ← ofBytes stream
  let ((_, out), reader) ← decodeSymbols table count reader
  if reader.exhausted then
    return out.toList
  else
    refuse (.corruptStream .trailingBits)

/-! ### No check of the reader fails -/

/-- No unread bit is pushed out of a window that has room for a byte. -/
theorem load_eq (unread : List UInt8) (window : UInt64) (live : ℕ)
    (live_le : live ≤ containerBits) :
    load unread window live live_le = .ok (Reader.load unread window live live_le) := by
  induction unread generalizing window live with
  | nil => rfl
  | cons byte unread ih =>
    rw [load, Reader.load]
    split
    · rename_i room
      have hlow : window.toNat % 2 ^ live < 2 ^ live := Nat.mod_lt _ (Nat.two_pow_pos live)
      have hroom : 2 ^ live * 2 ^ 8 ≤ 2 ^ containerBits := by
        rw [← Nat.pow_add]
        exact Nat.pow_le_pow_right (by decide) (add_byte_le room)
      refine pass (fit_eq ?_) (ih _ _ _)
      rw [Nat.shiftLeft_eq]
      omega
    · rfl

theorem reload_eq (reader : Reader) : reload reader = .ok reader.reload := load_eq _ _ _ _

theorem require_eq (reader : Reader) (width : ℕ) :
    require reader width = .ok (if reader.live < width then reader.reload else reader) := by
  rw [require]
  split
  · exact reload_eq reader
  · rfl

theorem advance_eq {reader : Reader} {width : ℕ} (h : width ≤ reader.live) :
    advance reader width = .ok (reader.advance width) := pass (sub_eq h) rfl

/-- **A reader is opened safely.** The last byte of a stream has the bits up to the end mark. -/
theorem alike_ofBytes (stream : List UInt8) :
    Alike Error.IsCorruptStream (fun _ => True) (ofBytes stream) (Reader.ofBytes stream) := by
  rw [ofBytes, Reader.ofBytes]
  cases stream.reverse with
  | nil => exact .refused ⟨_, rfl⟩
  | cons last before =>
    dsimp only
    split
    · exact .refused ⟨_, rfl⟩
    rename_i hlast
    have hlog : last.toNat.log2 < 8 := by
      have hne : last.toNat ≠ 0 := fun h => hlast (UInt8.toNat.inj h)
      exact (Nat.log2_lt hne).mpr last.toNat_lt
    have hbits : 8 - last.toNat.log2 ≤
        (⟨last :: before, 0, 0, Nat.zero_le _⟩ : Reader).unreadBits.length := by
      rw [Reader.length_unreadBits, List.length_cons]
      omega
    refine .of_check (load_eq _ _ _ _) (.of_check (sub_eq (Nat.le_of_lt hlog)) ?_)
    exact .of_eq_ok (advance_eq (Reader.le_live_reload (by omega) hbits)) trivial

/-- Taking from the window what it has, at most 32 bits of it. -/
theorem take_eq {reader : Reader} {width : ℕ} (hpos : 0 < width) (hwidth : width ≤ 32)
    (h : width ≤ reader.live) :
    take reader width = .ok (reader.front width, reader.advance width) := by
  have hlive := reader.live_le
  rw [containerBits] at hlive
  have hfield : reader.front width < 2 ^ 32 :=
    Nat.lt_of_lt_of_le (Nat.mod_lt _ (Nat.two_pow_pos width))
      (Nat.pow_le_pow_right (by decide) hwidth)
  exact pass (sub_eq h) (pass (fit_eq (by omega)) (pass (fit_eq (by omega))
    (pass (fit_eq hfield) (pass (advance_eq h) rfl))))

/-- **Fields are read safely**, and are as wide as was asked for. -/
theorem reads_read {width : ℕ} (hwidth : width ≤ 32) :
    Reads (read width) (Reader.read width) (· < 2 ^ width) := by
  intro reader
  rw [read, Reader.read]
  by_cases hzero : width = 0
  · rw [if_pos hzero, if_pos hzero]
    exact .ok (Nat.two_pow_pos width)
  rw [if_neg hzero, if_neg hzero]
  refine .of_check (require_eq reader width) ?_
  dsimp only
  -- both go on with the same reader, topped up or not
  generalize (if reader.live < width then reader.reload else reader) = topped
  by_cases hlive : topped.live < width
  · rw [if_pos hlive, if_pos hlive]
    exact .refused ⟨_, rfl⟩
  rw [if_neg hlive, if_neg hlive]
  have hfield : topped.front width < 2 ^ width := Nat.mod_lt _ (Nat.two_pow_pos width)
  have hcut : 2 ^ width ≤ 0x100000000 := Nat.pow_le_pow_right (by decide) hwidth
  rw [take_eq (Nat.pos_of_ne_zero hzero) hwidth (Nat.not_lt.mp hlive),
    Nat.mod_eq_of_lt (Nat.lt_of_lt_of_le hfield hcut)]
  exact .ok hfield

theorem reads_topUp : Reads topUp (modify Reader.reload) fun _ => True := by
  intro reader
  exact .of_check (reload_eq reader) (.ok trivial)

/-! ### No check of the decoder fails -/

open FiniteStateEntropy.Distribution

variable {distribution : Distribution}

/-- Widths of the format fit a field of 32 bits. -/
theorem width_le_of_le_tableLog {width : ℕ} (h : width ≤ distribution.tableLog) : width ≤ 32 :=
  Nat.le_trans h (Nat.le_trans distribution.tableLog_mem.2 (by decide))

/-- **The states at the start of a stream are states of the table.** -/
theorem reads_loadState (distribution : Distribution) :
    Reads (loadState distribution.decodeTable) (Reader.read distribution.decodeTable.tableLog)
      (· < distribution.size) :=
  (reads_read (width_le_of_le_tableLog (Nat.le_refl _))).andCheck fun _ h => inTable_eq h

/-- **A step of a decoder is safe** in every state of the table. Its symbol is present, and it
leads to a state of the table whatever bits are read. -/
theorem reads_decode {state : ℕ} (h : state < distribution.size) :
    Reads (decode distribution.decodeTable state) (distribution.decodeTable.decode state)
      fun found => distribution.slots found.1.toNat ≠ 0 ∧ found.2 < distribution.size := by
  obtain ⟨entry, hentry, hslots, hwidth, hnext⟩ := exists_entry h
  refine .of_found hentry (lookup_eq (DecodeTable.entry_eq_ok_iff.mp hentry)) ?_
  refine (reads_read (width_le_of_le_tableLog hwidth)).bind ?_
  intro low hlow
  have hstate : entry.baseline.toNat + low < distribution.size := by omega
  have hsize : distribution.size ≤ 2 ^ 32 :=
    Nat.pow_le_pow_right (by decide) (width_le_of_le_tableLog (Nat.le_refl _))
  exact .of_check (fit_eq (Nat.lt_of_lt_of_le hstate hsize)) (.of_check (inTable_eq hstate)
    (.pure ⟨hslots, hstate⟩))

/-- The symbol of a state of the table is found, and it is present. -/
theorem exists_symbol_eq {state : ℕ} (h : state < distribution.size) :
    ∃ found, symbol distribution.decodeTable state = .ok found ∧
      distribution.decodeTable.symbol state = .ok found ∧
      distribution.slots found.toNat ≠ 0 := by
  obtain ⟨entry, hentry, hslots, -⟩ := exists_entry h
  have hlookup := lookup_eq (DecodeTable.entry_eq_ok_iff.mp hentry)
  refine ⟨entry.symbol, ?_, ?_, hslots⟩
  · rw [symbol, hlookup]
    rfl
  · rw [DecodeTable.symbol, hentry]
    rfl

/-- A stream of which `count` symbols are decoded: the lanes stand in states of the table, and the
symbols are present. -/
structure Underway (distribution : Distribution) (count : ℕ) (lanes : Lanes) (out : Array UInt8) :
    Prop where
  /-- The first lane stands in a state of the table. -/
  first_lt : lanes.first < distribution.size
  /-- So does the second. -/
  second_lt : lanes.second < distribution.size
  /-- So many symbols are decoded. -/
  size_eq : out.size = count
  /-- They are symbols of the distribution. -/
  present : ∀ symbol ∈ out, distribution.slots symbol.toNat ≠ 0

namespace Underway

variable {count : ℕ} {lanes : Lanes} {out : Array UInt8}

/-- One more symbol of the distribution. -/
theorem push {found : UInt8} (h : Underway distribution count lanes out)
    (hfound : distribution.slots found.toNat ≠ 0) :
    Underway distribution (count + 1) lanes (out.push found) where
  first_lt := h.first_lt
  second_lt := h.second_lt
  size_eq := by rw [Array.size_push, h.size_eq]
  present := by
    intro symbol hsymbol
    rcases Array.mem_push.mp hsymbol with hsymbol | rfl
    · exact h.present symbol hsymbol
    · exact hfound

/-- A symbol on the first lane is decoded safely. -/
theorem reads_takeFirst (h : Underway distribution count lanes out) :
    Reads (takeFirst distribution.decodeTable lanes out)
      (Stream.takeFirst distribution.decodeTable lanes out)
      fun found => Underway distribution (count + 1) found.1 found.2 := by
  refine (reads_decode h.first_lt).bind ?_
  rintro ⟨symbol, state⟩ ⟨hsymbol, hstate⟩
  exact .pure { h.push hsymbol with first_lt := hstate }

/-- A symbol on the second lane is decoded safely. -/
theorem reads_takeSecond (h : Underway distribution count lanes out) :
    Reads (takeSecond distribution.decodeTable lanes out)
      (Stream.takeSecond distribution.decodeTable lanes out)
      fun found => Underway distribution (count + 1) found.1 found.2 := by
  refine (reads_decode h.second_lt).bind ?_
  rintro ⟨symbol, state⟩ ⟨hsymbol, hstate⟩
  exact .pure { h.push hsymbol with second_lt := hstate }

/-- **A run of pairs is safe**, and the lanes stay in the table all along. -/
theorem reads_decodePairs (h : Underway distribution count lanes out) (pairs : ℕ) :
    Reads (decodePairs distribution.decodeTable pairs lanes out)
      (Stream.decodePairs distribution.decodeTable pairs lanes out)
      fun found => Underway distribution (count + 2 * pairs) found.1 found.2 := by
  induction pairs generalizing count lanes out with
  | zero => exact .pure h
  | succ pairs ih =>
    refine h.reads_takeFirst.bind ?_
    rintro ⟨lanes, out⟩ hfirst
    refine hfirst.reads_takeSecond.bind ?_
    rintro ⟨lanes, out⟩ hsecond
    refine reads_topUp.bind fun _ _ => ?_
    rw [show count + 2 * (pairs + 1) = count + 1 + 1 + 2 * pairs by omega]
    exact ih hsecond

/-- The symbols of two states of the table are read off safely. -/
theorem reads_symbols (h : Underway distribution count lanes out) {now other : ℕ}
    (hnow : now < distribution.size) (hother : other < distribution.size) :
    Reads
      (do
        let earlier ← symbol distribution.decodeTable now
        let later ← symbol distribution.decodeTable other
        return (lanes, (out.push earlier).push later))
      (do
        let earlier ← ReadM.ofExcept (distribution.decodeTable.symbol now)
        let later ← ReadM.ofExcept (distribution.decodeTable.symbol other)
        return (lanes, (out.push earlier).push later))
      fun found => Underway distribution (count + 2) found.1 found.2 := by
  obtain ⟨earlier, hearlier, hearlier', hpresent⟩ := exists_symbol_eq hnow
  obtain ⟨later, hlater, hlater', hpresent'⟩ := exists_symbol_eq hother
  exact .of_found hearlier' hearlier (.of_found hlater' hlater
    (.pure ((h.push hpresent).push hpresent')))

end Underway

/-- **The symbols of a stream are decoded safely**: as many as were asked for. -/
theorem reads_decodeSymbols (distribution : Distribution) {count : ℕ} (htwo : 2 ≤ count) :
    Reads (decodeSymbols distribution.decodeTable count)
      (Stream.decodeSymbols distribution.decodeTable count)
      fun found => Underway distribution count found.1 found.2 := by
  refine (reads_loadState distribution).bind fun first hfirst => ?_
  refine (reads_loadState distribution).bind fun second hsecond => ?_
  refine .of_check (sub_eq htwo) ?_
  have hnone : Underway distribution 0 ⟨first, second⟩ #[] :=
    ⟨hfirst, hsecond, rfl, fun _ h => absurd h (Array.not_mem_empty _)⟩
  refine (hnone.reads_decodePairs ((count - 2) / 2)).bind ?_
  rintro ⟨lanes, out⟩ hbody
  dsimp only
  -- with an odd number of symbols to go, the first lane has one more before both are read off
  split
  · rename_i hodd
    refine hbody.reads_takeFirst.bind ?_
    rintro ⟨lanes, out⟩ hfirst
    have hall := hfirst.reads_symbols hfirst.second_lt hfirst.first_lt
    rwa [show 0 + 2 * ((count - 2) / 2) + 1 + 2 = count by omega] at hall
  · rename_i heven
    have hall := hbody.reads_symbols hbody.first_lt hbody.second_lt
    rwa [show 0 + 2 * ((count - 2) / 2) + 2 = count by omega] at hall

/-- Decoding a stream, step by step. -/
theorem decode_eq_ending (table : DecodeTable) (count : ℕ) (stream : List UInt8) :
    Stream.decode table count stream =
      Reader.ofBytes stream >>= fun reader =>
        ending (Stream.decodeSymbols table count reader) >>= fun found =>
          if found.2.exhausted then .ok found.1.2.toList
          else .error (.corruptStream .trailingBits) := by
  rw [Stream.decode, Stream.decodeLanes]
  cases Reader.ofBytes stream with
  | error e => rfl
  | ok reader =>
    simp only [bind, Except.bind]
    cases Stream.decodeSymbols table count reader with
    | error e left => rfl
    | ok found left =>
      by_cases hleft : left.exhausted
      · simp [ending, hleft, Except.map, pure, Except.pure]
      · simp [ending, hleft, Except.map, throw, throwThe, MonadExceptOf.throw]

/-- **A stream is decoded safely** to as many symbols as were asked for, all of them present. Who
is to blame for a refusal is the stream. -/
theorem alike_decodeStream (distribution : Distribution) {count : ℕ} (htwo : 2 ≤ count)
    (stream : List UInt8) :
    Alike Error.IsCorruptStream
      (fun out => out.length = count ∧ ∀ symbol ∈ out, distribution.slots symbol.toNat ≠ 0)
      (decodeStream distribution.decodeTable count stream)
      (Stream.decode distribution.decodeTable count stream) := by
  rw [decode_eq_ending]
  refine (alike_ofBytes stream).bind fun reader _ => ?_
  refine Alike.bind (reads_decodeSymbols distribution htwo reader) ?_
  rintro ⟨⟨lanes, out⟩, left⟩ hout
  dsimp only at hout ⊢
  split
  · exact .ok ⟨hout.size_eq, fun symbol h => hout.present symbol (Array.mem_toList_iff.mp h)⟩
  · exact .refused ⟨_, rfl⟩

end Checked

/-! ### The lanes -/

namespace Stream

open Checked

variable {distribution : Distribution}

/-- The lanes and the reader that a decoder may come to from a stream: it reads two states, and
then takes symbols from either lane and tops up the window. -/
inductive Reached (table : DecodeTable) : Lanes → Reader → Prop
  /-- Both states are read. -/
  | start {first second : ℕ} {reader reader' reader'' : Reader}
      (hfirst : Reader.read table.tableLog reader = .ok first reader')
      (hsecond : Reader.read table.tableLog reader' = .ok second reader'') :
      Reached table ⟨first, second⟩ reader''
  /-- A symbol is decoded on the first lane. -/
  | first {lanes : Lanes} {reader reader' : Reader} {symbol : UInt8} {state : ℕ}
      (hlanes : Reached table lanes reader)
      (hdecode : table.decode lanes.first reader = .ok (symbol, state) reader') :
      Reached table ⟨state, lanes.second⟩ reader'
  /-- A symbol is decoded on the second lane. -/
  | second {lanes : Lanes} {reader reader' : Reader} {symbol : UInt8} {state : ℕ}
      (hlanes : Reached table lanes reader)
      (hdecode : table.decode lanes.second reader = .ok (symbol, state) reader') :
      Reached table ⟨lanes.first, state⟩ reader'
  /-- The window is topped up. -/
  | reload {lanes : Lanes} {reader : Reader} (hlanes : Reached table lanes reader) :
      Reached table lanes reader.reload

/-- **The lanes stay in the table**, however many symbols are decoded from whatever bits. -/
theorem Reached.lt_size {lanes : Lanes} {reader : Reader}
    (h : Reached distribution.decodeTable lanes reader) :
    lanes.first < distribution.size ∧ lanes.second < distribution.size := by
  induction h with
  | start hfirst hsecond =>
    exact ⟨(reads_loadState distribution).post_of_eq_ok hfirst,
      (reads_loadState distribution).post_of_eq_ok hsecond⟩
  | first _ hdecode ih => exact ⟨((reads_decode ih.1).post_of_eq_ok hdecode).2, ih.2⟩
  | second _ hdecode ih => exact ⟨ih.1, ((reads_decode ih.2).post_of_eq_ok hdecode).2⟩
  | reload _ ih => exact ih

end Stream

end FiniteStateEntropy
