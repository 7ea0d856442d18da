import FiniteStateEntropy.Proofs.BitStack
import FiniteStateEntropy.Proofs.Positions

/-!
# A reader is a queue of bits

A reader of any bytes can be asked for fields of any widths, and topped up at any time. A caller
that is refused a field may go on and ask for a shorter one. To all of this the reader answers as
the list of the bits below the end mark would, with fields taken from the front.

The two are driven by the same operations, each of which answers and leaves a state. `attempt` does
one to a reader and keeps the reader that a refusal leaves, where sequencing in `ReadM` would stop.
`ask` does it to a list of bits, and says what the answer has to be. The view `Reader.unreadBits`
takes the one to the other: it does so for one operation, and so for any number of them.

A decoding step is a single read. Its next state goes where the state came from, but only once the
bits are read, so a step that fails leaves the decoder where it was.

## Main definitions

* `Reader.attempt`, `Reader.ask`: an operation on a reader, and on a list of bits
* `Cursor`, `DecodeTable.decodeAt`: a decoding step that puts the next state in place

## Main results

* `Reader.map_attempt`, `Reader.map_mapM_attempt`: one operation, and any number of them
* `DecodeTable.kept_of_decodeAt_error`: a decoding step that fails changes nothing
* `Reader.reads_below_mark`: what a reader of any bytes answers
-/

namespace FiniteStateEntropy

namespace Reader

/-! ### Operations and their answers -/

/-- What a caller is told: the number read or why there is none, and nothing by a reload. -/
abbrev Answer := Option (Except Error ℕ)

/-- An operation on a reader, which goes on from what a refusal leaves. -/
def attempt : Op → StateM Reader Answer
  | .read width => fun reader =>
    match read width reader with
    | .ok value next => (some (.ok value), next)
    | .error e next => (some (.error e), next)
  | .reload => fun reader => (none, reader.reload)

/-- An operation on a list of bits, the next one first. A field is taken from the front, if there
are bits enough, and its 32 lowest bits are told. There is nothing to load. -/
def ask : Op → StateM (List Bool) Answer
  | .read width => fun bits =>
    if width ≤ bits.length then
      (some (.ok (Bits.value (bits.take width).reverse % 2 ^ 32)), bits.drop width)
    else
      (some (.error (.corruptStream .readPastStart)), bits)
  | .reload => fun bits => (none, bits)

/-- The first operation answers, and the others go on from what it leaves. -/
theorem run_mapM_cons {σ : Type} (act : Op → StateM σ Answer) (op : Op) (ops : List Op) (s : σ) :
    ((op :: ops).mapM act).run s =
      let (answer, s) := (act op).run s
      let (answers, s) := (ops.mapM act).run s
      (answer :: answers, s) := by
  rw [List.mapM_cons]
  rfl

/-- **One operation** is answered as the unread bits say, and leaves the bits that they leave. -/
theorem map_attempt {op : Op} (hop : ∀ width, op = .read width → width ≤ 57) (reader : Reader) :
    Prod.map id unreadBits ((attempt op).run reader) = (ask op).run reader.unreadBits := by
  cases op with
  | read width =>
    by_cases h : width ≤ reader.unreadBits.length
    · obtain ⟨next, hread, hnext⟩ := read_of_le (hop width rfl) h
      simp only [attempt, ask, StateT.run, hread, if_pos h, Prod.map_apply, id, hnext]
    · obtain ⟨next, hread, hnext⟩ := read_of_lt (Nat.lt_of_not_le h)
      simp only [attempt, ask, StateT.run, hread, if_neg h, Prod.map_apply, id, hnext]
  | reload => exact congrArg (Prod.mk none) (unreadBits_reload reader)

/-- **Any number of operations** are. -/
theorem map_mapM_attempt {ops : List Op} (hops : ∀ width, .read width ∈ ops → width ≤ 57)
    (reader : Reader) :
    Prod.map id unreadBits ((ops.mapM attempt).run reader) =
      (ops.mapM ask).run reader.unreadBits := by
  induction ops generalizing reader with
  | nil => rfl
  | cons op ops ih =>
    have hop : ∀ width, op = .read width → width ≤ 57 := by
      rintro width rfl
      exact hops width List.mem_cons_self
    have hrest : ∀ width, .read width ∈ ops → width ≤ 57 := by
      intro width hmem
      exact hops width (List.mem_cons_of_mem op hmem)
    -- the unread bits of the reader that the first operation leaves are the bits that it leaves
    rw [run_mapM_cons, run_mapM_cons, ← map_attempt hop]
    simp only [Prod.map_fst, Prod.map_snd]
    rw [← ih hrest]
    rfl

/-- There is a reader of bytes that end in a byte other than zero. -/
theorem exists_ofBytes_iff (stream : List UInt8) :
    (∃ reader, ofBytes stream = .ok reader) ↔ ∃ last, stream.getLast? = some last ∧ last ≠ 0 := by
  rcases List.eq_nil_or_concat stream with rfl | ⟨before, last, rfl⟩
  · simp [ofBytes]
  · by_cases hlast : last = 0 <;> simp [ofBytes, hlast]

/-- The bits below the end mark are unread at first. -/
theorem belowMark_of_ofBytes {stream : List UInt8} {reader : Reader}
    (h : ofBytes stream = .ok reader) :
    Stream.Positional.belowMark stream = .ok reader.unreadBits := by
  rw [Stream.Positional.belowMark_eq_unmark, ← map_unreadBits_ofBytes, h]
  rfl

end Reader

/-! ### Decoding in place -/

/-- Where a decoder is in a stream. -/
structure Cursor where
  /-- The state that yields the next symbol. -/
  state : ℕ
  /-- What is left of the stream. -/
  reader : Reader

/-- Reading with the reader of a cursor. -/
def Cursor.reading {α : Type} (m : ReadM α) : EStateM Error Cursor α := fun cursor =>
  match m cursor.reader with
  | .ok a next => .ok a { cursor with reader := next }
  | .error e next => .error e { cursor with reader := next }

namespace DecodeTable

/-- Yields the symbol of the state, and puts the next state in its place. -/
def decodeAt (table : DecodeTable) : EStateM Error Cursor UInt8 := do
  let entry ← Cursor.reading (ReadM.ofExcept (table.entry (← get).state))
  let low ← Cursor.reading (Reader.read entry.width.toNat)
  modify fun cursor => { cursor with state := entry.baseline.toNat + low }
  return entry.symbol

/-- It is the step from that state, whose result replaces the state if there is one. -/
theorem decodeAt_eq (table : DecodeTable) (cursor : Cursor) :
    table.decodeAt cursor =
      match table.decode cursor.state cursor.reader with
      | .ok (symbol, state) reader => .ok symbol ⟨state, reader⟩
      | .error e reader => .error e ⟨cursor.state, reader⟩ := by
  unfold decode
  show EStateM.bind (Cursor.reading (ReadM.ofExcept (table.entry cursor.state))) _ cursor = _
  cases table.entry cursor.state with
  | error e => rfl
  | ok entry =>
    simp only [EStateM.bind, Cursor.reading, ReadM.ofExcept, bind, pure, EStateM.pure]
    cases Reader.read entry.width.toNat cursor.reader <;> rfl

/-- A decoding step fails before it reads or in reading, and leaves all bits unread. -/
theorem unreadBits_of_decode_error {table : DecodeTable} {state : ℕ} {reader next : Reader}
    {e : Error} (h : table.decode state reader = .error e next) :
    next.unreadBits = reader.unreadBits := by
  unfold decode at h
  cases hentry : table.entry state with
  | error e =>
    rw [hentry] at h
    cases h
    rfl
  | ok entry =>
    simp only [hentry, ReadM.ofExcept, bind, EStateM.bind, pure, EStateM.pure] at h
    cases hread : Reader.read entry.width.toNat reader with
    | ok low next => simp [hread] at h
    | error e next =>
      rw [hread] at h
      cases h
      exact Reader.unreadBits_of_read_error hread

/-- **A decoding step that fails** leaves the state and the unread bits as they were. -/
theorem kept_of_decodeAt_error {table : DecodeTable} {cursor next : Cursor} {e : Error}
    (h : table.decodeAt cursor = .error e next) :
    next.state = cursor.state ∧ next.reader.unreadBits = cursor.reader.unreadBits := by
  rw [decodeAt_eq] at h
  cases hdecode : table.decode cursor.state cursor.reader with
  | ok found reader => simp [hdecode] at h
  | error e reader =>
    rw [hdecode] at h
    cases h
    exact ⟨rfl, unreadBits_of_decode_error hdecode⟩

end DecodeTable

namespace Reader

/-! ### A reader of any bytes -/

/-- **A reader is a queue of bits.** Bytes have a reader exactly when they end in a byte other than
zero. Whatever fields of up to 57 bits it is asked for, whether it has them or not, and wherever
it is topped up, it answers as the bits below the end mark do and leaves the bits that they leave;
it is exhausted exactly when these are none. A decoding step that fails there, under any table and
in any state, leaves the same state and the same bits. -/
theorem reads_below_mark (stream : List UInt8) :
    ((∃ reader, ofBytes stream = .ok reader) ↔
      ∃ last, stream.getLast? = some last ∧ last ≠ 0) ∧
    ∀ reader, ofBytes stream = .ok reader →
      ∃ bits, Stream.Positional.belowMark stream = .ok bits ∧
        ∀ ops : List Op, (∀ width, .read width ∈ ops → width ≤ 57) →
          ∃ answers next rest, (ops.mapM attempt).run reader = (answers, next) ∧
            (ops.mapM ask).run bits = (answers, rest) ∧
            next.unreadBits = rest ∧ (next.exhausted = true ↔ rest = []) ∧
            ∀ (table : DecodeTable) (state : ℕ) (e : Error) (cursor : Cursor),
              table.decodeAt ⟨state, next⟩ = .error e cursor →
                cursor.state = state ∧ cursor.reader.unreadBits = rest := by
  refine ⟨exists_ofBytes_iff stream, ?_⟩
  intro reader hreader
  refine ⟨_, belowMark_of_ofBytes hreader, ?_⟩
  intro ops hops
  refine ⟨_, _, _, rfl, (map_mapM_attempt hops reader).symm, rfl, exhausted_iff_unreadBits _, ?_⟩
  intro table state e cursor hdecode
  exact DecodeTable.kept_of_decodeAt_error hdecode

/-- Five bits, `01101`. Six cannot be read, but the first three can, and not three again but the
other two. -/
example :
    (ofBytes [0x2D]).map (fun reader =>
        ((([.read 6, .read 3, .reload, .read 3, .read 2] : List Op).mapM attempt).run
          reader).1) =
      .ok [some (.error (.corruptStream .readPastStart)), some (.ok 3), none,
        some (.error (.corruptStream .readPastStart)), some (.ok 1)] := by
  decide +kernel

/-- A wider field may be refused although the stream has it: with 57 bits of 65 loaded, the window
has no room for the last byte. -/
example :
    (ofBytes [0, 0, 0, 0, 0, 0, 0, 0, 3]).map (fun reader =>
        (reader.unreadBits.length, ((attempt (.read 58)).run reader).1)) =
      .ok (65, some (.error (.corruptStream .readPastStart))) := by
  decide +kernel

end Reader

end FiniteStateEntropy
