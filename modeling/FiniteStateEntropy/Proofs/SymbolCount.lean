import FiniteStateEntropy.Proofs.BlockContents
import FiniteStateEntropy.Proofs.Converse

/-!
# A wrong number of symbols is found out

A stream does not say how many symbols it has; the number stands in the header, and a decoder
believes it. What gives a wrong number away is that the bits of the stream do not last for it, or
last for longer. That takes a distribution in which every symbol costs something: an entry reads no
bit only if its rank reaches the size of the table, and the ranks of a symbol with half of the slots
or fewer stay below that.

The numbers of symbols need not have anything else in common. A decoder takes the symbols of the
smaller number before it takes those of the larger one, by turns of the lanes whatever the parity,
so the two decodings are one as far as they go.

## Main definitions

* `Distribution.Balanced`: no symbol has more than half of the slots
* `Stream.Plain.decodeBody`: a decoding behind the states at the start
* `Stream.countFault`: what is found of a wrong number
* `recount`: a block with another number in its header

## Main results

* `Distribution.Balanced.width_pos`: every entry reads a bit
* `Stream.Plain.add_length_le_of_takeSymbols`: every symbol costs a bit
* `Stream.decode_of_ne`: a stream is not decoded to another number of symbols
* `wrong_count_refused`: nor is a block with another number in its header
-/

namespace FiniteStateEntropy

open Stream.Plain (Turn)

/-! ### Entries -/

namespace Distribution

/-- No symbol has more than half of the slots. -/
def Balanced (distribution : Distribution) : Prop :=
  ∀ symbol : UInt8, 2 * distribution.slots symbol.toNat ≤ distribution.size

variable {distribution : Distribution}

/-- It is enough to look at the shares. -/
theorem balanced_iff : distribution.Balanced ↔
    ∀ share ∈ distribution.shares, 2 * share.slots ≤ distribution.size := by
  constructor
  · intro h share hmem
    obtain ⟨k, hk, rfl⟩ := List.getElem_of_mem hmem
    have hbyte : k.toUInt8.toNat = k := by
      have := distribution.length_shares_le
      simp
      omega
    have hhalf := h k.toUInt8
    rwa [hbyte, slots, share?, List.getElem?_eq_getElem hk] at hhalf
  · intro h symbol
    by_cases hslots : distribution.slots symbol.toNat = 0
    · rw [hslots]
      exact Nat.zero_le _
    · obtain ⟨share, hshare, hsame⟩ := share?_of_slots_ne_zero hslots
      rw [← hsame]
      exact h share (List.mem_of_getElem? hshare)

instance (distribution : Distribution) : Decidable distribution.Balanced :=
  decidable_of_iff _ balanced_iff.symm

/-- **Every entry reads a bit.** -/
theorem Balanced.width_pos (h : distribution.Balanced) {state : ℕ} {entry : DecodeEntry}
    (hstate : state < distribution.size)
    (hentry : distribution.decodeTable.entry state = .ok entry) : 0 < entry.width.toNat := by
  obtain ⟨symbol, hsymbol, hslots⟩ := exists_symbol hstate
  have hearlier := earlier_lt hsymbol
  have hhalf := h symbol
  rw [entry_eq hsymbol] at hentry
  cases hentry
  -- the rank is one of `slots, ..., 2 * slots - 1`, all of which are below the size of the table
  rw [DecodeEntry.toNat_width_ofRank distribution.tableLog_mem.2]
  refine Nat.sub_pos_of_lt ((Nat.log2_lt (by omega)).mpr ?_)
  rw [size] at hhalf
  omega

end Distribution

namespace Stream

variable {distribution : Distribution}

namespace Plain

/-! ### Symbols -/

/-- A symbol costs a bit. -/
theorem length_lt_of_takeSymbol (hbalanced : distribution.Balanced) {state : ℕ}
    (hstate : state < distribution.size) {found : UInt8 × ℕ} {bits rest : List Bool}
    (h : takeSymbol distribution.decodeTable state bits = .ok (found, rest)) :
    rest.length < bits.length := by
  obtain ⟨entry, hentry, h⟩ := exceptBind_eq_ok_iff.mp h
  obtain ⟨⟨low, more⟩, htake, h⟩ := exceptBind_eq_ok_iff.mp h
  cases h
  have hwidth := hbalanced.width_pos hstate hentry
  rw [(exists_of_take htake).2, List.length_append, List.length_reverse, Bits.length_low]
  omega

/-- Without a bit there is no symbol. -/
theorem takeSymbol_nil (hbalanced : distribution.Balanced) {state : ℕ}
    (hstate : state < distribution.size) :
    takeSymbol distribution.decodeTable state [] = .error (.corruptStream .readPastStart) := by
  obtain ⟨entry, hentry, -⟩ := Distribution.exists_entry hstate
  have hwidth := hbalanced.width_pos hstate hentry
  rw [takeSymbol, hentry]
  simp only [bind, Except.bind, take, List.length_nil, if_neg (Nat.not_le.mpr hwidth)]

/-- **Every symbol costs a bit.** -/
theorem add_length_le_of_takeSymbols (hbalanced : distribution.Balanced) {count : ℕ}
    {turn last : Turn} (hturn : turn.Below distribution) {symbols : List UInt8}
    {bits rest : List Bool}
    (h : takeSymbols distribution.decodeTable count turn bits = .ok (symbols, last, rest)) :
    count + rest.length ≤ bits.length := by
  induction count generalizing turn symbols bits with
  | zero =>
    cases h
    rw [Nat.zero_add]
  | succ count ih =>
    rw [takeSymbols_succ] at h
    obtain ⟨⟨⟨symbol, next⟩, more⟩, hfound, h⟩ := exceptBind_eq_ok_iff.mp h
    obtain ⟨⟨symbols, last, rest⟩, hrest, h⟩ := exceptMap_eq_ok_iff.mp h
    cases h
    have hnext := (exists_of_takeSymbol hturn.now hfound).2.1
    have hone := length_lt_of_takeSymbol hbalanced hturn.now hfound
    have hmore := ih ⟨hturn.other, hnext⟩ hrest
    omega

/-- Without a bit there is no run of symbols. -/
theorem takeSymbols_nil (hbalanced : distribution.Balanced) {turn : Turn}
    (hturn : turn.Below distribution) (count : ℕ) :
    takeSymbols distribution.decodeTable (count + 1) turn [] =
      .error (.corruptStream .readPastStart) := by
  rw [takeSymbols_succ, takeSymbol_nil hbalanced hturn.now]
  rfl

/-! ### Streams -/

/-- What a decoder makes of the bits behind the states at the start of a stream. -/
def decodeBody (table : DecodeTable) (count : ℕ) (turn : Turn) (bits : List Bool) :
    Except Error (List UInt8) := do
  let (symbols, turn, bits) ← takeSymbols table (count - 2) turn bits
  let earlier ← table.symbol turn.now
  let later ← table.symbol turn.other
  if bits = [] then
    return symbols ++ [earlier, later]
  else
    throw (.corruptStream .trailingBits)

/-- A stream that is decoded begins with two states, whatever the number of its symbols. -/
theorem exists_decodeBody {count : ℕ} {stream out : List UInt8}
    (h : decode distribution.decodeTable count stream = .ok out) :
    ∃ turn bits, turn.Below distribution ∧ ∀ count,
      decode distribution.decodeTable count stream =
        decodeBody distribution.decodeTable count turn bits := by
  obtain ⟨marked, hunmark, h⟩ := exceptBind_eq_ok_iff.mp h
  obtain ⟨⟨first, behindFirst⟩, hfirst, h⟩ := exceptBind_eq_ok_iff.mp h
  obtain ⟨⟨second, behindSecond⟩, hsecond, -⟩ := exceptBind_eq_ok_iff.mp h
  refine ⟨⟨first, second⟩, behindSecond,
    ⟨(exists_of_take hfirst).1, (exists_of_take hsecond).1⟩, ?_⟩
  intro count
  rw [decode, hunmark]
  simp only [bind, Except.bind, hfirst, hsecond]
  rfl

variable {count count' : ℕ} {turn : Turn} {bits : List Bool} {out : List UInt8}

/-- What is decoded uses up the bits. -/
theorem exists_takeSymbols_of_decodeBody
    (h : decodeBody distribution.decodeTable count turn bits = .ok out) :
    ∃ symbols last,
      takeSymbols distribution.decodeTable (count - 2) turn bits = .ok (symbols, last, []) := by
  obtain ⟨⟨symbols, last, rest⟩, hbody, h⟩ := exceptBind_eq_ok_iff.mp h
  obtain ⟨earlier, -, h⟩ := exceptBind_eq_ok_iff.mp h
  obtain ⟨later, -, h⟩ := exceptBind_eq_ok_iff.mp h
  split at h
  · rename_i hrest
    subst hrest
    exact ⟨symbols, last, hbody⟩
  · cases h

/-- **Fewer symbols** leave a bit for every one that is missing. -/
theorem decodeBody_of_lt (hbalanced : distribution.Balanced) (hturn : turn.Below distribution)
    (h : decodeBody distribution.decodeTable count turn bits = .ok out) (htwo : 2 ≤ count')
    (hlt : count' < count) :
    decodeBody distribution.decodeTable count' turn bits =
      .error (.corruptStream .trailingBits) := by
  obtain ⟨symbols, last, hbody⟩ := exists_takeSymbols_of_decodeBody h
  -- what the shorter decoding leaves is what the longer one has for the symbols that are missing
  rw [show count - 2 = (count' - 2) + (count - count') by omega, takeSymbols_add] at hbody
  obtain ⟨⟨front, middle, rest⟩, hfront, hbody⟩ := exceptBind_eq_ok_iff.mp hbody
  obtain ⟨⟨back, _, _⟩, hback, hbody⟩ := exceptMap_eq_ok_iff.mp hbody
  cases hbody
  have hmiddle := (emits_of_takeSymbols hturn hfront).1
  have hcost := add_length_le_of_takeSymbols hbalanced hmiddle hback
  have hrest : rest ≠ [] := by
    rintro rfl
    rw [List.length_nil] at hcost
    omega
  obtain ⟨earlier, hearlier, -⟩ := Distribution.exists_entry hmiddle.now
  obtain ⟨later, hlater, -⟩ := Distribution.exists_entry hmiddle.other
  rw [decodeBody, hfront]
  simp only [bind, Except.bind, DecodeTable.symbol, hearlier, hlater, Except.map, if_neg hrest]
  rfl

/-- **More symbols** find no bit. -/
theorem decodeBody_of_gt (hbalanced : distribution.Balanced) (hturn : turn.Below distribution)
    (h : decodeBody distribution.decodeTable count turn bits = .ok out) (htwo : 2 ≤ count)
    (hlt : count < count') :
    decodeBody distribution.decodeTable count' turn bits =
      .error (.corruptStream .readPastStart) := by
  obtain ⟨symbols, last, hbody⟩ := exists_takeSymbols_of_decodeBody h
  have hlast := (emits_of_takeSymbols hturn hbody).1
  -- the longer decoding goes on where the shorter one has used up the bits
  obtain ⟨more, hmore⟩ : ∃ more, count' - 2 = (count - 2) + (more + 1) :=
    ⟨count' - count - 1, by omega⟩
  rw [decodeBody, hmore, takeSymbols_add, hbody]
  simp only [bind, Except.bind, takeSymbols_nil hbalanced hlast]
  rfl

end Plain

/-- What is found when a decoder is told a number of symbols that is not that of the stream. -/
def countFault (told actual : ℕ) : StreamFault :=
  if told < actual then .trailingBits else .readPastStart

/-- **A stream is not decoded to another number of symbols** than its own, wherever it comes from.
-/
theorem decode_of_ne (hbalanced : distribution.Balanced) {actual told : ℕ}
    {stream out : List UInt8} (hactual : 2 ≤ actual)
    (h : decode distribution.decodeTable actual stream = .ok out) (htold : 2 ≤ told)
    (hne : told ≠ actual) :
    decode distribution.decodeTable told stream =
      .error (.corruptStream (countFault told actual)) := by
  rw [decode_eq distribution.narrow_decodeTable] at h ⊢
  obtain ⟨turn, bits, hturn, hbody⟩ := Plain.exists_decodeBody h
  rw [hbody] at h ⊢
  rw [countFault]
  split
  · rename_i hlt
    exact Plain.decodeBody_of_lt hbalanced hturn h htold hlt
  · rename_i hge
    exact Plain.decodeBody_of_gt hbalanced hturn h hactual (by omega)

end Stream

/-- A table that is one symbol's. Its entries read nothing, so that its streams have as many symbols
as one likes. -/
example :
    let single : Distribution :=
      ⟨5, [.common 32 (by decide)], by decide, by decide, by decide, by decide, by decide⟩
    Stream.decode single.decodeTable 3 [0, 4] = .ok [0, 0, 0] ∧
      Stream.decode single.decodeTable 4 [0, 4] = .ok [0, 0, 0, 0] := by decide +kernel

/-! ### Blocks -/

variable {distribution : Distribution}

/-- The count of a header stands in its last four bytes. -/
theorem Header.bytes_recount {actual told : ℕ} {written : List UInt8}
    (h : (Header.mk distribution actual).bytes = .ok written) (htold : told < 2 ^ 32) :
    (Header.mk distribution told).bytes =
      .ok (written.take (written.length - 4) ++ countBytes told) := by
  rw [bytes] at h
  split at h
  · cases h
    have hfront : ∀ front : List UInt8,
        (front ++ countBytes actual).take ((front ++ countBytes actual).length - 4) = front := by
      intro front
      rw [List.length_append, show (countBytes actual).length = 4 from rfl, Nat.add_sub_cancel,
        List.take_left' rfl]
    rw [bytes_of_lt distribution htold]
    simp only [← List.cons_append, hfront]
  · cases h

/-- The block with another number of symbols in its header, which ends at `offset`. -/
def recount (block : List UInt8) (offset told : ℕ) : List UInt8 :=
  block.take (offset - 4) ++ Header.countBytes told ++ block.drop offset

/-- **A block is not decoded to another number of symbols** than its own, wherever it comes from. -/
theorem decompress_recount (hbalanced : distribution.Balanced) {block out : List UInt8}
    {actual offset : ℕ} (hread : Header.read block = .ok (⟨distribution, actual⟩, offset))
    (h : decompress block = .ok out) {told : ℕ} (htold : 2 ≤ told) (hfits : told < 2 ^ 32)
    (hne : told ≠ actual) :
    decompress (recount block offset told) =
      .error (.corruptStream (Stream.countFault told actual)) := by
  obtain ⟨hoffset, hactual, hcount, hwritten⟩ := Header.read_eq_ok_iff_take.mp hread
  have hrewritten := Header.bytes_recount hwritten hfits
  rw [List.length_take_of_le hoffset, List.take_take, Nat.min_eq_left (Nat.sub_le offset 4)]
    at hrewritten
  have hparse : Header.parse block = .ok (⟨distribution, actual⟩, block.drop offset) :=
    Header.parse_eq_ok_iff.mpr
      ⟨hactual, hcount, _, hwritten, (List.take_append_drop offset block).symm⟩
  have hreparse : Header.parse (recount block offset told) =
      .ok (⟨distribution, told⟩, block.drop offset) :=
    Header.parse_eq_ok_iff.mpr ⟨htold, hfits, _, hrewritten, rfl⟩
  rw [decompress_of_parse hparse] at h
  rw [decompress_of_parse hreparse]
  exact Stream.decode_of_ne hbalanced hactual h htold hne

/-- **A wrong number of symbols is found out** where no symbol has more than half of the slots. The
stream of an input is refused by a decoder that is told any other number of two or more: for the
bits that are left over if the number is too small, and for those that are missing if it is too
large. And a block that is decompressed is no longer when any such number is put in its header. -/
theorem wrong_count_refused (hbalanced : distribution.Balanced) :
    (∀ input : List UInt8, 2 ≤ input.length →
      (∀ symbol ∈ input, distribution.slots symbol.toNat ≠ 0) →
        ∃ stream : List UInt8,
          (∀ out : Array UInt8, Stream.encode distribution.encodeTable input out =
            .ok (out ++ stream.toArray)) ∧
          ∀ told, 2 ≤ told → told ≠ input.length →
            Stream.decode distribution.decodeTable told stream =
              .error (.corruptStream (Stream.countFault told input.length))) ∧
    ∀ (block out : List UInt8) (actual offset : ℕ),
      Header.read block = .ok (⟨distribution, actual⟩, offset) → decompress block = .ok out →
        ∀ told, 2 ≤ told → told < 2 ^ 32 → told ≠ actual →
          decompress (recount block offset told) =
            .error (.corruptStream (Stream.countFault told actual)) := by
  constructor
  · intro input hlength hinput
    obtain ⟨stream, hplain, hencode⟩ := Stream.exists_encode hlength hinput
    refine ⟨stream, hencode, ?_⟩
    intro told htold hne
    have hdecode := Stream.decode_of_encode hlength hinput hplain
    exact Stream.decode_of_ne hbalanced hlength hdecode htold hne
  · intro block out actual offset hread h told htold hfits hne
    exact decompress_recount hbalanced hread h htold hfits hne

/-- A table of 64 slots, half of which are one symbol's. -/
def halved : Distribution :=
  ⟨6, [.common 32 (by decide), .absent, .common 31 (by decide), .rare], by decide, by decide,
    by decide, by decide, by decide⟩

/-- Six symbols over that table are taken neither for two symbols nor for seven, as a stream or as
a block. -/
theorem wrong_count_refused_halved :
    halved.Balanced ∧
      2 ≤ ([0, 2, 3, 0, 0, 2] : List UInt8).length ∧
      (∀ symbol ∈ ([0, 2, 3, 0, 0, 2] : List UInt8), halved.slots symbol.toNat ≠ 0) ∧
      (∃ stream : List UInt8,
        Stream.encode halved.encodeTable [0, 2, 3, 0, 0, 2] #[] = .ok stream.toArray ∧
        Stream.decode halved.decodeTable 2 stream = .error (.corruptStream .trailingBits) ∧
        Stream.decode halved.decodeTable 7 stream = .error (.corruptStream .readPastStart)) ∧
      Header.read [1, 3, 0, 32, 2, 31, 3, 255, 6, 0, 0, 0, 129, 157, 58] = .ok (⟨halved, 6⟩, 12) ∧
      decompress [1, 3, 0, 32, 2, 31, 3, 255, 6, 0, 0, 0, 129, 157, 58] =
        .ok [0, 2, 3, 0, 0, 2] ∧
      decompress [1, 3, 0, 32, 2, 31, 3, 255, 2, 0, 0, 0, 129, 157, 58] =
        .error (.corruptStream .trailingBits) ∧
      decompress [1, 3, 0, 32, 2, 31, 3, 255, 7, 0, 0, 0, 129, 157, 58] =
        .error (.corruptStream .readPastStart) := by
  have hbalanced : halved.Balanced := by decide
  have hpresent : ∀ symbol ∈ ([0, 2, 3, 0, 0, 2] : List UInt8),
      halved.slots symbol.toNat ≠ 0 := by decide +kernel
  have hread : Header.read [1, 3, 0, 32, 2, 31, 3, 255, 6, 0, 0, 0, 129, 157, 58] =
      .ok (⟨halved, 6⟩, 12) := by rfl
  have hblock : decompress [1, 3, 0, 32, 2, 31, 3, 255, 6, 0, 0, 0, 129, 157, 58] =
      .ok [0, 2, 3, 0, 0, 2] := by decide +kernel
  obtain ⟨hstreams, hblocks⟩ := wrong_count_refused hbalanced
  obtain ⟨stream, hencode, hrefused⟩ := hstreams _ (by decide) hpresent
  have hrecounted := hblocks _ _ _ _ hread hblock
  refine ⟨hbalanced, by decide, hpresent, ⟨stream, ?_, hrefused 2 (by decide) (by decide),
    hrefused 7 (by decide) (by decide)⟩, hread, hblock,
    hrecounted 2 (by decide) (by decide) (by decide),
    hrecounted 7 (by decide) (by decide) (by decide)⟩
  simpa using hencode #[]

end FiniteStateEntropy
