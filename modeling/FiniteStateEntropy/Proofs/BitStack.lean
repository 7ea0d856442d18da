import FiniteStateEntropy.Proofs.Bits

/-!
# The bit containers are a stack

A writer is given fields, and its caller decides when to flush it. A reader gives the fields back,
the last one first, and its caller decides when to top it up. Neither decision shows: the bytes
are a function of the fields alone, and so are the numbers read.

The two callers are lists of operations here. All that is asked of a list of writes is that every
field finds room where it stands, which is a matter of widths and flushes; `Writer.Fits` says so
without running the writer. The reader's caller is bound to ask for the widths that were written,
and is free to reload wherever it likes, and to stop anywhere.

## Main definitions

* `Writer.Op`, `Writer.run`, `Writer.fieldsOf`: what a caller does with a writer
* `Writer.Fits`: every field finds room
* `Reader.Op`, `Reader.run`, `Reader.widthsOf`: what a caller does with a reader
* `Bits.stack`: the bytes of a list of fields

## Main results

* `Writer.exists_run`: what fits is written, whatever the flushes
* `Reader.exists_run`: fields are read back, whatever the reloads
* `Bits.read_written`: the two together, with the end mark between them
-/

namespace FiniteStateEntropy

open Stream.Plain (Field)

/-- The bytes that end in the given fields and an end mark. -/
def Bits.stack (fields : List Field) : List UInt8 :=
  toBytes (fields.flatMap Field.bits ++ [true])

/-- The field that marks the end of a stream. -/
def endMark : Field := ⟨1, 1⟩

namespace Writer

/-! ### Writing -/

/-- One thing that a caller does with a writer. -/
inductive Op where
  /-- Adds a field. -/
  | add (field : Field)
  /-- Drains the whole bytes. -/
  | flush
  deriving DecidableEq, Repr

/-- What an operation makes of a writer. -/
def apply (writer : Writer) : Op → Except Error Writer
  | .add field => writer.add field.value field.width
  | .flush => .ok writer.flush

/-- Operations one after the other. -/
def run : List Op → Writer → Except Error Writer
  | [], writer => .ok writer
  | op :: ops, writer => do run ops (← writer.apply op)

/-- The fields added by operations, in the order of writing. -/
def fieldsOf : List Op → List Field
  | [] => []
  | .add field :: ops => field :: fieldsOf ops
  | .flush :: ops => fieldsOf ops

/-- Every field finds room, when the container holds `held` bits at first. -/
def Fits : List Op → ℕ → Prop
  | [], _ => True
  | .add field :: ops, held =>
    (field.width ≤ fieldWidthLimit ∧ held < containerBits ∧ held + field.width ≤ containerBits) ∧
      Fits ops (held + field.width)
  | .flush :: ops, held => Fits ops (held % 8)

/-- Whether every field finds room is found out by going through the widths. -/
instance decidableFits : (ops : List Op) → (held : ℕ) → Decidable (Fits ops held)
  | [], _ => isTrue trivial
  | .add field :: ops, held =>
    have := decidableFits ops (held + field.width)
    inferInstanceAs (Decidable ((field.width ≤ fieldWidthLimit ∧ held < containerBits ∧
      held + field.width ≤ containerBits) ∧ Fits ops (held + field.width)))
  | .flush :: ops, held => decidableFits ops (held % 8)

@[simp] theorem fieldsOf_append (ops ops' : List Op) :
    fieldsOf (ops ++ ops') = fieldsOf ops ++ fieldsOf ops' := by
  induction ops with
  | nil => rfl
  | cons op ops ih =>
    cases op with
    | add field => rw [List.cons_append, fieldsOf, ih, fieldsOf, List.cons_append]
    | flush => exact ih

theorem held_flush (writer : Writer) : writer.flush.held = writer.held % 8 := by
  rw [flush, held_drain]
  omega

/-- Fields that fit are no wider than a writer takes. -/
theorem width_le_of_fits {ops : List Op} {held : ℕ} (h : Fits ops held) {field : Field}
    (hmem : field ∈ fieldsOf ops) : field.width ≤ fieldWidthLimit := by
  induction ops generalizing held with
  | nil => simp [fieldsOf] at hmem
  | cons op ops ih =>
    cases op with
    | add added =>
      obtain ⟨⟨hwidth, -, -⟩, hrest⟩ := h
      rw [fieldsOf, List.mem_cons] at hmem
      rcases hmem with rfl | hmem
      · exact hwidth
      · exact ih hrest hmem
    | flush => exact ih h hmem

/-- **What fits is written**, whatever the flushes. -/
theorem exists_run {ops : List Op} {writer : Writer} (h : Fits ops writer.held) :
    ∃ next, run ops writer = .ok next ∧
      next.bits = writer.bits ++ (fieldsOf ops).flatMap Field.bits := by
  induction ops generalizing writer with
  | nil => exact ⟨writer, rfl, (List.append_nil _).symm⟩
  | cons op ops ih =>
    cases op with
    | add field =>
      obtain ⟨⟨hwidth, hheld, hroom⟩, hrest⟩ := h
      obtain ⟨middle, hadd, hbits, hlive⟩ := exists_add field.value hwidth hheld hroom
      rw [← hlive] at hrest
      obtain ⟨next, hrun, hnext⟩ := ih hrest
      refine ⟨next, ?_, ?_⟩
      · simp only [run, apply, hadd, bind, Except.bind, hrun]
      · rw [hnext, hbits, fieldsOf, List.flatMap_cons, List.append_assoc]
        rfl
    | flush =>
      have hrest : Fits ops writer.flush.held := by
        rw [held_flush]
        exact h
      obtain ⟨next, hrun, hnext⟩ := ih hrest
      rw [bits_flush] at hnext
      exact ⟨next, hrun, hnext⟩

end Writer

namespace Reader

/-! ### Reading -/

/-- One thing that a caller does with a reader. -/
inductive Op where
  /-- Reads a field of the given width. -/
  | read (width : ℕ)
  /-- Tops up the window. -/
  | reload
  deriving DecidableEq, Repr

/-- Operations one after the other, with the numbers that they read. -/
def run : List Op → ReadM (List ℕ)
  | [] => return []
  | .read width :: ops => do
    let value ← Reader.read width
    let values ← run ops
    return value :: values
  | .reload :: ops => do
    modify Reader.reload
    run ops

/-- The widths that operations read, in order. -/
def widthsOf : List Op → List ℕ
  | [] => []
  | .read width :: ops => width :: widthsOf ops
  | .reload :: ops => widthsOf ops

/-- **A field on top is read.** -/
theorem exists_read {reader : Reader} {field : Field} {more : List Bool}
    (hwidth : field.width ≤ fieldWidthLimit)
    (h : reader.unreadBits = field.bits.reverse ++ more) :
    ∃ next, read field.width reader = .ok (field.value % 2 ^ field.width) next ∧
      next.unreadBits = more := by
  have hlength : field.bits.reverse.length = field.width := by simp [Field.bits]
  rw [fieldWidthLimit] at hwidth
  have hfront : field.width ≤ reader.unreadBits.length := by
    rw [h, List.length_append, hlength]
    omega
  obtain ⟨next, hread, hnext⟩ := read_of_le (show field.width ≤ 57 by omega) hfront
  rw [h, List.take_left' hlength, List.reverse_reverse, Field.bits, Bits.value_low] at hread
  rw [h, List.drop_left' hlength] at hnext
  have hsmall : field.value % 2 ^ field.width < 2 ^ 32 :=
    Nat.lt_of_lt_of_le (Nat.mod_lt _ (Nat.two_pow_pos _))
      (Nat.pow_le_pow_right (by decide) (by omega))
  rw [Nat.mod_eq_of_lt hsmall] at hread
  exact ⟨next, hread, hnext⟩

/-- **Fields are read back**, whatever the reloads. -/
theorem exists_run {ops : List Op} {fields : List Field} {reader : Reader} {more : List Bool}
    (hops : widthsOf ops = fields.map Field.width)
    (hwidths : ∀ field ∈ fields, field.width ≤ fieldWidthLimit)
    (h : reader.unreadBits = (fields.flatMap fun field => field.bits.reverse) ++ more) :
    ∃ next, run ops reader = .ok (fields.map fun field => field.value % 2 ^ field.width) next ∧
      next.unreadBits = more := by
  induction ops generalizing fields reader with
  | nil =>
    obtain rfl : fields = [] := List.map_eq_nil_iff.mp hops.symm
    exact ⟨reader, rfl, h⟩
  | cons op ops ih =>
    cases op with
    | read width =>
      cases fields with
      | nil => simp [widthsOf] at hops
      | cons field fields =>
        rw [widthsOf, List.map_cons, List.cons.injEq] at hops
        obtain ⟨rfl, hops⟩ := hops
        simp only [List.mem_cons, forall_eq_or_imp] at hwidths
        obtain ⟨hwidth, hrest⟩ := hwidths
        rw [List.flatMap_cons, List.append_assoc] at h
        obtain ⟨middle, hread, hmiddle⟩ := exists_read hwidth h
        obtain ⟨next, hrun, hnext⟩ := ih hops hrest hmiddle
        refine ⟨next, ?_, hnext⟩
        simp only [run, bind, EStateM.bind, hread, hrun]
        rfl
    | reload =>
      rw [← unreadBits_reload] at h
      exact ih hops hwidths h

/-- What is left to read is nothing exactly when all fields left are empty. -/
theorem exhausted_iff_width {reader : Reader} {fields : List Field}
    (h : reader.unreadBits = fields.flatMap fun field => field.bits.reverse) :
    reader.exhausted = true ↔ ∀ field ∈ fields, field.width = 0 := by
  rw [exhausted_iff_unreadBits, h, List.flatMap_eq_nil_iff]
  refine forall₂_congr ?_
  intro field _
  rw [List.reverse_eq_nil_iff, ← List.length_eq_zero_iff, Field.bits, Bits.length_low]

end Reader

namespace Bits

/-! ### Reading what was written -/

/-- A new reader has the fields before it, the last one first. -/
theorem exists_ofBytes_stack (fields : List Field) :
    ∃ reader, Reader.ofBytes (stack fields) = .ok reader ∧
      reader.unreadBits = fields.reverse.flatMap fun field => field.bits.reverse := by
  have hmark := Reader.map_unreadBits_ofBytes (stack fields)
  rw [stack, Stream.Plain.unmark_toBytes, List.reverse_flatMap] at hmark
  rw [stack]
  cases hreader : Reader.ofBytes (toBytes (fields.flatMap Field.bits ++ [true])) with
  | error e =>
    rw [hreader] at hmark
    cases hmark
  | ok reader =>
    rw [hreader] at hmark
    exact ⟨reader, rfl, Except.ok.inj hmark⟩

/-- **The containers are a stack.** Fields that find room, with flushes anywhere between them, are
appended to what is there as bytes that depend on the fields alone. A reader of these bytes gives
the fields back in reverse order, with reloads anywhere between them; stopped at any point, it is
exhausted exactly when no field of positive width is left. -/
theorem read_written (out : Array UInt8) {writes : List Writer.Op}
    (h : Writer.Fits (writes ++ [.add endMark]) 0) :
    (∃ writer, Writer.run (writes ++ [.add endMark]) (.onto out) = .ok writer ∧
      writer.finish.toList = out.toList ++ stack (Writer.fieldsOf writes)) ∧
    ∃ reader, Reader.ofBytes (stack (Writer.fieldsOf writes)) = .ok reader ∧
      ∀ (taken left : List Field) (reads : List Reader.Op),
        (Writer.fieldsOf writes).reverse = taken ++ left →
        Reader.widthsOf reads = taken.map Field.width →
        ∃ next, Reader.run reads reader =
            .ok (taken.map fun field => field.value % 2 ^ field.width) next ∧
          (next.exhausted = true ↔ ∀ field ∈ left, field.width = 0) := by
  constructor
  · obtain ⟨writer, hrun, hbits⟩ :=
      Writer.exists_run (show Writer.Fits _ (Writer.onto out).held from h)
    refine ⟨writer, hrun, Writer.toList_finish ?_⟩
    rw [hbits, Writer.bits_onto, Writer.fieldsOf_append, List.flatMap_append]
    rfl
  · obtain ⟨reader, hreader, hunread⟩ := exists_ofBytes_stack (Writer.fieldsOf writes)
    refine ⟨reader, hreader, ?_⟩
    intro taken left reads hsplit hreads
    have hwidths : ∀ field ∈ taken, field.width ≤ fieldWidthLimit := by
      intro field hmem
      refine Writer.width_le_of_fits h ?_
      rw [Writer.fieldsOf_append, List.mem_append, ← List.mem_reverse, hsplit]
      exact .inl (List.mem_append_left left hmem)
    rw [hsplit, List.flatMap_append] at hunread
    obtain ⟨next, hrun, hnext⟩ := Reader.exists_run hreads hwidths hunread
    exact ⟨next, hrun, Reader.exhausted_iff_width hnext⟩

/-- Four wide fields that fill the container to the last bit, with an empty one among them, and a
narrow field after a flush. -/
def fullWrites : List Writer.Op :=
  [.add ⟨0xBEEF, 16⟩, .add ⟨5, 16⟩, .add ⟨9, 0⟩, .add ⟨1, 16⟩, .add ⟨0xFFF, 16⟩, .flush,
    .add ⟨6, 3⟩]

/-- They are written behind a byte that is there already. With three of them read back, there is
more to read. -/
theorem read_written_full :
    Writer.Fits (fullWrites ++ [.add endMark]) 0 ∧
    (∃ writer, Writer.run (fullWrites ++ [.add endMark]) (.onto #[0xAA]) = .ok writer ∧
      writer.finish.toList = 0xAA :: stack (Writer.fieldsOf fullWrites)) ∧
    ∃ reader next, Reader.ofBytes (stack (Writer.fieldsOf fullWrites)) = .ok reader ∧
      Reader.run [.reload, .read 3, .read 16, .reload, .read 16] reader = .ok [6, 0xFFF, 1] next ∧
      ¬ next.exhausted = true := by
  have hfits : Writer.Fits (fullWrites ++ [.add endMark]) 0 := by decide
  obtain ⟨hwritten, reader, hreader, hread⟩ := read_written #[0xAA] hfits
  obtain ⟨next, hrun, hleft⟩ := hread [⟨6, 3⟩, ⟨0xFFF, 16⟩, ⟨1, 16⟩]
    [⟨9, 0⟩, ⟨5, 16⟩, ⟨0xBEEF, 16⟩] [.reload, .read 3, .read 16, .reload, .read 16] rfl rfl
  refine ⟨hfits, hwritten, reader, next, hreader, hrun, ?_⟩
  rw [hleft]
  decide

end Bits

end FiniteStateEntropy
