import FiniteStateEntropy.Proofs.Bits

/-!
# The window of a decoder makes no difference

A decoder reads through a window that it tops up now and then, and takes symbols in pairs. The
plain decoder takes bits from the front of a list, one symbol at a time. Both give the same
symbols and end in the same states, and where one fails the other fails with the same error.

`ReadM.Refines` says of a reading step that it does to the unread bits what a function of bit lists
does. It is closed under sequencing, so that a decoder is compared with the plain one step by step,
and malformed streams need no separate treatment.

A field wider than 32 bits would be cut short by the reader. No entry of a decode table of a
distribution has one; `DecodeTable.Narrow` is all that is asked of a table.

## Main results

* `ReadM.Refines.bind`: refinement is closed under sequencing
* `Stream.refines_decodePairs`: pairs and single symbols
* `Stream.decodeLanes_eq`, `Stream.decode_eq`: a stream, well formed or not
-/

namespace FiniteStateEntropy

/-- Mapping a result is an operation of the monad, so that its laws apply. By them two computations
that may fail are brought into the form of one sequence of steps each, and compared step by step. -/
theorem exceptMap_eq {ε α β : Type} (f : α → β) (x : Except ε α) : x.map f = f <$> x :=
  rfl

/-! ### Reading as a function of bit lists -/

namespace ReadM

variable {α β : Type}

/-- Reading with `m` is applying `f` to the unread bits. -/
def Refines (m : ReadM α) (f : List Bool → Except Error (α × List Bool)) : Prop :=
  ∀ reader, match m reader with
    | .ok a next => f reader.unreadBits = .ok (a, next.unreadBits)
    | .error e _ => f reader.unreadBits = .error e

variable {m : ReadM α} {f : List Bool → Except Error (α × List Bool)}

theorem Refines.ok (h : Refines m f) {reader next : Reader} {a : α}
    (hrun : m reader = .ok a next) : f reader.unreadBits = .ok (a, next.unreadBits) := by
  have hreader := h reader
  rwa [hrun] at hreader

theorem Refines.error (h : Refines m f) {reader next : Reader} {e : Error}
    (hrun : m reader = .error e next) : f reader.unreadBits = .error e := by
  have hreader := h reader
  rwa [hrun] at hreader

theorem Refines.pure (a : α) : Refines (pure a) fun bits => Pure.pure (a, bits) :=
  fun _ => rfl

/-- **Sequencing.** -/
theorem Refines.bind {k : α → ReadM β} {g : α → List Bool → Except Error (β × List Bool)}
    (hm : Refines m f) (hk : ∀ a, Refines (k a) (g a)) :
    Refines (m >>= k) fun bits => f bits >>= fun (a, bits) => g a bits := by
  intro reader
  simp only [Bind.bind, EStateM.bind]
  cases hrun : m reader with
  | ok a next =>
    simp only [hm.ok hrun, Except.bind]
    exact hk a next
  | error e next => simp only [hm.error hrun, Except.bind]

theorem Refines.of_eq {g : List Bool → Except Error (α × List Bool)} (h : Refines m f)
    (hfg : ∀ bits, f bits = g bits) : Refines m g := by
  rwa [← funext hfg]

theorem Refines.ofExcept (x : Except Error α) :
    Refines (ofExcept x) fun bits => x.map fun a => (a, bits) := by
  intro reader
  cases x <;> rfl

/-- Topping up the window is invisible. -/
theorem Refines.reload : Refines (modify Reader.reload) fun bits => Pure.pure ((), bits) := by
  intro reader
  show Except.ok _ = Except.ok _
  rw [Reader.unreadBits_reload]

/-- **Reading a field** is taking it from the front. -/
theorem Refines.read {width : ℕ} (hwidth : width ≤ 32) :
    Refines (Reader.read width) (Stream.Plain.take width) := by
  intro reader
  by_cases hlength : width ≤ reader.unreadBits.length
  · obtain ⟨next, hread, hnext⟩ := Reader.read_of_le (show width ≤ 57 by omega) hlength
    have hsmall : Bits.value (reader.unreadBits.take width).reverse < 2 ^ 32 := by
      refine Nat.lt_of_lt_of_le (Bits.value_lt _) (Nat.pow_le_pow_right (by decide) ?_)
      rw [List.length_reverse]
      exact Nat.le_trans (List.length_take_le _ _) hwidth
    rw [hread]
    show Stream.Plain.take width reader.unreadBits = _
    rw [Stream.Plain.take, if_pos hlength, hnext, Nat.mod_eq_of_lt hsmall]
  · obtain ⟨next, hread, -⟩ := Reader.read_of_lt (show reader.unreadBits.length < width by omega)
    rw [hread]
    exact if_neg hlength

end ReadM

/-! ### One symbol -/

/-- No field of the table is cut short by a reader. -/
structure DecodeTable.Narrow (table : DecodeTable) : Prop where
  /-- The states at the start are not. -/
  tableLog_le : table.tableLog ≤ 32
  /-- The bits of a symbol are not. -/
  width_le : ∀ state entry, table.entry state = .ok entry → entry.width.toNat ≤ 32

namespace Stream

open ReadM (Refines)

variable {table : DecodeTable}

namespace Plain

/-- One decoding step on a bit list: the symbol of a state, the next state and the bits left. -/
def takeSymbol (table : DecodeTable) (state : Nat) (bits : List Bool) :
    Except Error ((UInt8 × Nat) × List Bool) := do
  let entry ← table.entry state
  let (low, bits) ← take entry.width.toNat bits
  return ((entry.symbol, entry.baseline.toNat + low), bits)

theorem takeSymbols_succ (table : DecodeTable) (count : ℕ) (turn : Turn) (bits : List Bool) :
    takeSymbols table (count + 1) turn bits =
      takeSymbol table turn.now bits >>= fun (found, bits) =>
        (takeSymbols table count ⟨turn.other, found.2⟩ bits).map fun (symbols, last, bits) =>
          (found.1 :: symbols, last, bits) := by
  rw [takeSymbols, takeSymbol]
  simp only [exceptMap_eq, map_eq_pure_bind, bind_assoc, pure_bind]

/-- Symbols in two runs. -/
theorem takeSymbols_add (table : DecodeTable) (m n : ℕ) (turn : Turn) (bits : List Bool) :
    takeSymbols table (m + n) turn bits =
      takeSymbols table m turn bits >>= fun (symbols, middle, bits) =>
        (takeSymbols table n middle bits).map fun (symbols', last, bits) =>
          (symbols ++ symbols', last, bits) := by
  induction m generalizing turn bits with
  | zero =>
    rw [Nat.zero_add, takeSymbols]
    exact (id_map (takeSymbols table n turn bits)).symm
  | succ m ih =>
    rw [Nat.add_right_comm, takeSymbols_succ, takeSymbols_succ]
    simp only [ih, exceptMap_eq, map_eq_pure_bind, bind_assoc, pure_bind, List.cons_append]

theorem takeSymbols_one (table : DecodeTable) (turn : Turn) (bits : List Bool) :
    takeSymbols table 1 turn bits =
      (takeSymbol table turn.now bits).map fun (found, bits) =>
        ([found.1], ⟨turn.other, found.2⟩, bits) := by
  rw [takeSymbols_succ, exceptMap_eq, map_eq_pure_bind]
  rfl

end Plain

open Plain (Turn takeSymbol takeSymbols)

theorem refines_decode (htable : table.Narrow) (state : ℕ) :
    Refines (table.decode state) (takeSymbol table state) := by
  intro reader
  rw [DecodeTable.decode, takeSymbol]
  cases hfound : table.entry state with
  | error e => rfl
  | ok entry =>
    exact (Refines.read (htable.width_le state entry hfound)).bind
      (fun low => Refines.pure (entry.symbol, entry.baseline.toNat + low)) reader

/-! ### The two lanes -/

/-- The lanes when it is `turn` after some symbols, of which the first lane took the first. -/
def Plain.Turn.lanes (turn : Turn) (taken : ℕ) : Lanes :=
  if taken % 2 = 0 then ⟨turn.now, turn.other⟩ else ⟨turn.other, turn.now⟩

theorem lanes_of_even {taken : ℕ} (turn : Turn) (h : taken % 2 = 0) :
    turn.lanes taken = ⟨turn.now, turn.other⟩ :=
  if_pos h

theorem lanes_of_odd {taken : ℕ} (turn : Turn) (h : taken % 2 = 1) :
    turn.lanes taken = ⟨turn.other, turn.now⟩ :=
  if_neg (by omega)

theorem refines_takeFirst (htable : table.Narrow) (lanes : Lanes) (out : Array UInt8) :
    Refines (takeFirst table lanes out) fun bits =>
      takeSymbol table lanes.first bits >>= fun (found, bits) =>
        pure ((⟨found.2, lanes.second⟩, out.push found.1), bits) :=
  (refines_decode htable lanes.first).bind fun _ => Refines.pure _

theorem refines_takeSecond (htable : table.Narrow) (lanes : Lanes) (out : Array UInt8) :
    Refines (takeSecond table lanes out) fun bits =>
      takeSymbol table lanes.second bits >>= fun (found, bits) =>
        pure ((⟨lanes.first, found.2⟩, out.push found.1), bits) :=
  (refines_decode htable lanes.second).bind fun _ => Refines.pure _

/-- **Pairs and single symbols.** A pair leaves the first lane at turn again. -/
theorem refines_decodePairs (htable : table.Narrow) (pairs : ℕ) (lanes : Lanes)
    (out : Array UInt8) :
    Refines (decodePairs table pairs lanes out) fun bits =>
      (takeSymbols table (2 * pairs) ⟨lanes.first, lanes.second⟩ bits).map
        fun (symbols, turn, bits) =>
          ((⟨turn.now, turn.other⟩, out ++ symbols.toArray), bits) := by
  induction pairs generalizing lanes out with
  | zero =>
    refine (Refines.pure (lanes, out)).of_eq ?_
    intro bits
    simp only [takeSymbols, Except.map, Array.append_empty]
    rfl
  | succ pairs ih =>
    rw [decodePairs]
    refine ((refines_takeFirst htable lanes out).bind fun found =>
      (refines_takeSecond htable found.1 found.2).bind fun found =>
        Refines.reload.bind fun _ => ih found.1 found.2).of_eq ?_
    intro bits
    rw [show 2 * (pairs + 1) = 2 * pairs + 1 + 1 from rfl]
    simp only [Plain.takeSymbols_succ, exceptMap_eq, map_eq_pure_bind, bind_assoc, pure_bind]
    refine bind_congr fun first => bind_congr fun second => bind_congr fun rest => ?_
    simp

/-! ### The whole stream -/

namespace Plain

/-- What a stream ends with: the symbols of the states that are left. -/
def lastSymbols (table : DecodeTable) (turn : Turn) : Except Error (List UInt8) := do
  let earlier ← table.symbol turn.now
  let later ← table.symbol turn.other
  return [earlier, later]

/-- The `count` symbols at the front of a bit list, with the states they end in. -/
def takeStream (table : DecodeTable) (count : Nat) (bits : List Bool) :
    Except Error ((Turn × List UInt8) × List Bool) := do
  let (first, bits) ← take table.tableLog bits
  let (second, bits) ← take table.tableLog bits
  let (symbols, turn, bits) ← takeSymbols table (count - 2) ⟨first, second⟩ bits
  let last ← lastSymbols table turn
  return ((turn, symbols ++ last), bits)

/-- The `count` symbols of a stream, at least two, with the states it ends in. -/
def decodeTurn (table : DecodeTable) (count : Nat) (stream : List UInt8) :
    Except Error (Turn × List UInt8) := do
  let bits ← unmark stream
  let (found, bits) ← takeStream table count bits
  if bits = [] then
    return found
  else
    throw (.corruptStream .trailingBits)

theorem decode_eq_map_decodeTurn (table : DecodeTable) (count : ℕ) (stream : List UInt8) :
    decode table count stream = (decodeTurn table count stream).map Prod.snd := by
  rw [decode, decodeTurn, exceptMap_eq]
  simp only [takeStream, lastSymbols, map_bind, bind_assoc, pure_bind]
  refine bind_congr fun bits => bind_congr fun first => bind_congr fun second =>
    bind_congr fun body => bind_congr fun earlier => bind_congr fun later => ?_
  split <;> rfl

end Plain

open Plain (take lastSymbols takeStream decodeTurn)

theorem refines_lastSymbols (table : DecodeTable) (turn : Turn) (lanes : Lanes)
    (symbols : List UInt8) :
    Refines (do
        let earlier ← ReadM.ofExcept (table.symbol turn.now)
        let later ← ReadM.ofExcept (table.symbol turn.other)
        return (lanes, (symbols.toArray.push earlier).push later)) fun bits =>
      (lastSymbols table turn).map fun last => ((lanes, (symbols ++ last).toArray), bits) := by
  refine ((Refines.ofExcept (table.symbol turn.now)).bind fun earlier =>
    (Refines.ofExcept (table.symbol turn.other)).bind fun later =>
      Refines.pure (lanes, (symbols.toArray.push earlier).push later)).of_eq ?_
  intro bits
  simp only [lastSymbols, exceptMap_eq, map_eq_pure_bind, bind_assoc, pure_bind]
  refine bind_congr fun earlier => bind_congr fun later => ?_
  simp

/-- The symbols of a stream that leaves the first lane at turn. -/
theorem refines_decodeSymbols_even (htable : table.Narrow) {count pairs : ℕ}
    (hcount : count - 2 = 2 * pairs) :
    Refines (decodeSymbols table count) fun bits =>
      (takeStream table count bits).map fun (found, bits) =>
        ((⟨found.1.now, found.1.other⟩, found.2.toArray), bits) := by
  have hread := Refines.read htable.tableLog_le
  rw [decodeSymbols]
  simp only [hcount, Nat.mul_div_cancel_left pairs Nat.two_pos, Nat.mul_mod_right, Nat.zero_ne_one,
    if_false]
  refine (hread.bind fun first => hread.bind fun second =>
    (refines_decodePairs htable pairs ⟨first, second⟩ #[]).bind fun found =>
      refines_lastSymbols table ⟨found.1.first, found.1.second⟩ found.1
        found.2.toList).of_eq ?_
  intro bits
  rw [takeStream, hcount]
  simp only [exceptMap_eq, map_eq_pure_bind, bind_assoc, pure_bind, Array.empty_append]

theorem refines_decodeSymbols_odd (htable : table.Narrow) {count pairs : ℕ}
    (hcount : count - 2 = 2 * pairs + 1) :
    Refines (decodeSymbols table count) fun bits =>
      (takeStream table count bits).map fun (found, bits) =>
        ((⟨found.1.other, found.1.now⟩, found.2.toArray), bits) := by
  have hread := Refines.read htable.tableLog_le
  rw [decodeSymbols]
  simp only [hcount, show (2 * pairs + 1) / 2 = pairs by omega,
    show (2 * pairs + 1) % 2 = 1 by omega, if_true]
  refine (hread.bind fun first => hread.bind fun second =>
    (refines_decodePairs htable pairs ⟨first, second⟩ #[]).bind fun found =>
      (refines_takeFirst htable found.1 found.2).bind fun found =>
        refines_lastSymbols table ⟨found.1.second, found.1.first⟩ found.1
          found.2.toList).of_eq ?_
  intro bits
  rw [takeStream, hcount]
  simp only [Plain.takeSymbols_add table (2 * pairs) 1, Plain.takeSymbols_one, exceptMap_eq,
    map_eq_pure_bind, bind_assoc, pure_bind]
  refine bind_congr fun first => bind_congr fun second => bind_congr fun body =>
    bind_congr fun found => bind_congr fun last => ?_
  simp

theorem refines_decodeSymbols (htable : table.Narrow) (count : ℕ) :
    Refines (decodeSymbols table count) fun bits =>
      (takeStream table count bits).map fun (found, bits) =>
        ((found.1.lanes (count - 2), found.2.toArray), bits) := by
  obtain ⟨pairs, heven | hodd⟩ :
      ∃ pairs, count - 2 = 2 * pairs ∨ count - 2 = 2 * pairs + 1 :=
    ⟨(count - 2) / 2, by omega⟩
  · simp only [lanes_of_even _ (show (count - 2) % 2 = 0 by omega)]
    exact refines_decodeSymbols_even htable heven
  · simp only [lanes_of_odd _ (show (count - 2) % 2 = 1 by omega)]
    exact refines_decodeSymbols_odd htable hodd

/-- **A stream, well formed or not.** The symbols and the states at the end are those of the plain
decoder, and so is the error. -/
theorem decodeLanes_eq (htable : table.Narrow) (count : ℕ) (stream : List UInt8) :
    decodeLanes table count stream =
      (decodeTurn table count stream).map
        fun (turn, symbols) => (turn.lanes (count - 2), symbols) := by
  rw [decodeLanes, decodeTurn, ← Reader.map_unreadBits_ofBytes]
  simp only [exceptMap_eq, map_bind, bind_map_left]
  refine bind_congr fun reader => ?_
  -- whether bits are left may as well be asked after the states are handed to the lanes
  have hplain : (takeStream table count reader.unreadBits >>= fun found =>
        (fun found => (found.1.lanes (count - 2), found.2)) <$>
          if found.2 = [] then pure found.1 else throw (Error.corruptStream .trailingBits)) =
      (takeStream table count reader.unreadBits).map (fun found =>
          ((found.1.1.lanes (count - 2), found.1.2.toArray), found.2)) >>= fun found =>
        if found.2 = [] then pure (found.1.1, found.1.2.toList)
        else throw (Error.corruptStream .trailingBits) := by
    rw [exceptMap_eq, bind_map_left]
    refine bind_congr fun found => ?_
    split <;> rfl
  refine Eq.trans ?_ hplain.symm
  cases hrun : decodeSymbols table count reader with
  | error e next =>
    have hfound := (refines_decodeSymbols htable count).error hrun
    dsimp only at hfound
    rw [hfound]
    rfl
  | ok lanes next =>
    have hfound := (refines_decodeSymbols htable count).ok hrun
    dsimp only at hfound
    rw [hfound]
    simp only [Reader.exhausted_iff_unreadBits]
    rfl

/-- **The window and the pairs make no difference.** -/
theorem decode_eq (htable : table.Narrow) (count : ℕ) (stream : List UInt8) :
    decode table count stream = Plain.decode table count stream := by
  rw [decode, decodeLanes_eq htable, Plain.decode_eq_map_decodeTurn]
  cases decodeTurn table count stream <;> rfl

end Stream

end FiniteStateEntropy
