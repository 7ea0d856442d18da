import FiniteStateEntropy.Proofs.CheckedTables
import FiniteStateEntropy.Proofs.Encoding

/-!
# Streams are encoded safely

An encoder on the table of a distribution, with its checks. A field is added to a container that has
room for it, a flush leaves less than a byte, a reduced state leads to a place of the state list,
and every state that a symbol leads to is checked to be one of the automaton. The symbols are taken
from the end of the input, two or four at a time, and there has to be one to take.

Two accounts are kept apart, as in the proof that the schedule makes no difference. That the checks
are passed needs only the lanes: `Plain.Turn.Sound` is what one symbol preserves, and a run of them
by induction. Whether there is room for a field is for the writer to say, and it refuses a field
that is too wide; so the checked encoder is first shown to end as the encoder does, in whichever
way, and then the encoder is known not to refuse.

## Main definitions

* `Checked.add`, `Checked.flush`, `Checked.finish`: the bit writer
* `Checked.seed`, `Checked.encode`: the state for a symbol, and one step
* `Checked.start`, `Checked.body`, `Checked.close`: the parts of an encoding
* `Checked.encodeStream`: the stream of an input

## Main results

* `Checked.alike_encode`: a step from a state is safe, and leads to one
* `Checked.alike_pairs`, `Checked.alike_quartets`: so are the two rhythms
* `Checked.exists_encodeStream`: so is a whole stream, which is not refused
-/

namespace FiniteStateEntropy

namespace Checked

/-! ### Writing with checks -/

/-- Appends the `width` lowest bits of `value`. The writer itself refuses a field that is too wide
or has no room. A container of 64 bits has the field shifted by a number of 6, and none of it may be
pushed out. -/
def add (writer : Writer) (value width : ℕ) : Except Stop Writer := do
  let next ← lift (writer.add value width)
  let shift ← fit 6 writer.held
  let _ ← fit containerBits ((value % 2 ^ width) <<< shift)
  return next

/-- Moves every complete byte to the output, which has to leave less than a byte. -/
def flush (writer : Writer) : Except Stop Writer := do
  let _ ← within 8 writer.flush.held
  return writer.flush

/-- The whole output. What is left of the container has to fit the last byte. -/
def finish (writer : Writer) : Except Stop (Array UInt8) := do
  let _ ← within 8 writer.flush.held
  return writer.finish

/-! ### Encoding with checks -/

/-- The state, which has to be one of an automaton with `2 ^ tableLog` states. -/
def ofAutomaton (tableLog state : ℕ) : Except Stop ℕ :=
  if 2 ^ tableLog ≤ state ∧ state < 2 ^ (tableLog + 1) then .ok state else .error .strayState

/-- The place that a sum gives, which has to be a natural number. -/
def natural : ℤ → Except Stop ℕ
  | .ofNat place => .ok place
  | .negSucc _ => .error .underflow

/-- The state that a reduced state, a number of 31 bits, leads to. -/
def next (table : EncodeTable) (transform : Transform) (reduced : ℕ) : Except Stop ℕ := do
  let reduced ← fit 31 reduced
  let place ← natural ((reduced : ℤ) + transform.offset)
  let state ← lookup table.states place
  ofAutomaton table.tableLog state.toNat

/-- The state that stands for `symbol` when nothing is written yet. -/
def seed (table : EncodeTable) (symbol : UInt8) : Except Stop ℕ := do
  let transform ← lookup table.transforms symbol.toNat
  let shift ← fit 5 transform.maxWidth
  next table transform (transform.threshold >>> shift)

/-- Encodes `symbol` from `state`. The number of bits comes from a sum of 32 bits, and a state is
shifted by a number of 5. -/
def encode (table : EncodeTable) (symbol : UInt8) (state : ℕ) (writer : Writer) :
    Except Stop (ℕ × Writer) := do
  let transform ← lookup table.transforms symbol.toNat
  let sum ← fit 32 (state + transform.bias)
  let width ← fit 5 (sum >>> 16)
  let writer ← add writer state width
  let state ← next table transform (state >>> width)
  return (state, writer)

open FiniteStateEntropy.Stream (Run)

/-- Encodes a symbol on the first lane. -/
def onFirst (run : Run) (table : EncodeTable) (symbol : UInt8) : Except Stop Run := do
  let (state, writer) ← encode table symbol run.lanes.first run.writer
  return ⟨⟨state, run.lanes.second⟩, writer⟩

/-- Encodes a symbol on the second lane. -/
def onSecond (run : Run) (table : EncodeTable) (symbol : UInt8) : Except Stop Run := do
  let (state, writer) ← encode table symbol run.lanes.second run.writer
  return ⟨⟨run.lanes.first, state⟩, writer⟩

/-- Encodes two neighbouring symbols, given from the later to the earlier one. -/
def pair (run : Run) (table : EncodeTable) (odd even : UInt8) : Except Stop Run := do
  let run ← onSecond run table odd
  onFirst run table even

/-- Drains the writer. -/
def flushRun (run : Run) : Except Stop Run := do
  let writer ← flush run.writer
  return ⟨run.lanes, writer⟩

/-- Encodes symbols given from the last to the first, two between flushes. There may not be one
symbol without another. -/
def pairs (table : EncodeTable) : List UInt8 → Run → Except Stop Run
  | [], run => return run
  | a :: b :: rest, run => do
    let run ← pair run table a b
    let run ← flushRun run
    pairs table rest run
  | _, _ => .error .underflow

/-- Encodes symbols given from the last to the first, four between flushes. There may not be fewer
than four left unless there is none. -/
def quartets (table : EncodeTable) : List UInt8 → Run → Except Stop Run
  | [], run => return run
  | a :: b :: c :: d :: rest, run => do
    let run ← pair run table a b
    let run ← pair run table c d
    let run ← flushRun run
    quartets table rest run
  | _, _ => .error .underflow

/-- Encodes symbols given from the last to the first, in the rhythm that the table allows. -/
def body (table : EncodeTable) (symbols : List UInt8) (run : Run) : Except Stop Run :=
  if Stream.fitsQuartet table.tableLog then
    if symbols.length % 4 = 2 then
      match symbols with
      | a :: b :: rest => do
        let run ← pair run table a b
        let run ← flushRun run
        quartets table rest run
      | _ => .error .underflow
    else
      quartets table symbols run
  else
    pairs table symbols run

/-- Writes both states and the end mark. -/
def close (table : EncodeTable) (run : Run) : Except Stop (Array UInt8) := do
  let writer ← add run.writer run.lanes.second table.tableLog
  let writer ← add writer run.lanes.first table.tableLog
  let writer ← add writer 1 1
  finish writer

/-- Seeds the lanes with the last two symbols and, if the number of the other ones is odd, encodes
one of them. -/
def start (table : EncodeTable) (last before : UInt8) (rest : List UInt8) (writer : Writer) :
    Except Stop (Run × List UInt8) :=
  if rest.length % 2 = 0 then do
    let second ← seed table last
    let first ← seed table before
    return (⟨⟨first, second⟩, writer⟩, rest)
  else do
    let first ← seed table last
    let second ← seed table before
    match rest with
    | [] => .error .underflow
    | symbol :: rest => do
      let run ← onFirst ⟨⟨first, second⟩, writer⟩ table symbol
      let run ← flushRun run
      return (run, rest)

/-- Appends the stream of `input` to the bytes of `out`. The input has to have two symbols. -/
def encodeStream (table : EncodeTable) (input : List UInt8) (out : Array UInt8) :
    Except Stop (Array UInt8) := do
  let _ ← sub input.length 2
  match input.reverse with
  | last :: before :: rest => do
    let (run, rest) ← start table last before rest (Writer.onto out)
    let run ← body table rest run
    close table run
  | _ => .error .underflow

/-! ### No check of the writer fails -/

/-- **A field that is taken stays in the container.** -/
theorem alike_add (writer : Writer) (value width : ℕ) :
    Alike Error.IsMisuse (fun _ => True) (add writer value width) (writer.add value width) := by
  rw [add, Writer.add]
  split
  · rename_i room
    obtain ⟨-, hheld, hroom⟩ := room
    rw [containerBits] at hheld
    have hfield : value % 2 ^ width < 2 ^ width := Nat.mod_lt _ (Nat.two_pow_pos width)
    have hshifted : (value % 2 ^ width) <<< writer.held < 2 ^ containerBits := by
      rw [Nat.shiftLeft_eq]
      calc value % 2 ^ width * 2 ^ writer.held < 2 ^ width * 2 ^ writer.held :=
            (Nat.mul_lt_mul_right (Nat.two_pow_pos _)).mpr hfield
        _ = 2 ^ (writer.held + width) := by rw [Nat.mul_comm, Nat.pow_add]
        _ ≤ 2 ^ containerBits := Nat.pow_le_pow_right (by decide) hroom
    exact .of_check rfl (.of_check (fit_eq (by omega)) (.of_check (fit_eq hshifted) (.ok trivial)))
  · exact .refused ⟨_, rfl⟩

theorem flush_eq (writer : Writer) : flush writer = .ok writer.flush :=
  pass (within_eq writer.held_flush_lt) rfl

theorem finish_eq (writer : Writer) : finish writer = .ok writer.finish :=
  pass (within_eq writer.held_flush_lt) rfl

theorem flushRun_eq (run : Run) : flushRun run = .ok run.flush :=
  pass (flush_eq run.writer) rfl

/-! ### No check of a step fails -/

open FiniteStateEntropy.Distribution

variable {distribution : Distribution} {symbol : UInt8}

theorem lookup_transforms_eq (hsymbol : distribution.slots symbol.toNat ≠ 0) :
    lookup distribution.encodeTable.transforms symbol.toNat =
      .ok (distribution.transformOf symbol) := by
  have htransform := transform_encodeTable hsymbol
  rw [EncodeTable.transform] at htransform
  split at htransform
  · rename_i transform hfound
    cases htransform
    exact lookup_eq hfound
  · cases htransform

theorem ofAutomaton_eq {state : ℕ} (h : distribution.IsState state) :
    ofAutomaton distribution.tableLog state = .ok state := if_pos ⟨h.1, h.lt_two_pow⟩

/-- A reduced state that leads to a state does so safely. -/
theorem next_eq {transform : Transform} {reduced state : ℕ} (hreduced : reduced < 2 ^ 31)
    (hstate : distribution.IsState state)
    (h : distribution.encodeTable.next transform reduced = .ok state) :
    next distribution.encodeTable transform reduced = .ok state := by
  refine pass (fit_eq hreduced) ?_
  rw [EncodeTable.next] at h
  split at h
  · rename_i place hplace
    split at h
    · rename_i found hfound
      cases h
      rw [hplace]
      exact pass (lookup_eq hfound) (ofAutomaton_eq hstate)
    · cases h
  · cases h

/-- The largest table is one of 16-bit states. -/
theorem two_pow_tableLog_le (distribution : Distribution) :
    2 ^ (distribution.tableLog + 1) ≤ 2 ^ 16 :=
  Nat.pow_le_pow_right (by decide) (Nat.succ_le_succ distribution.tableLog_mem.2)

/-- **A present symbol is seeded safely.** -/
theorem seed_eq (hsymbol : distribution.slots symbol.toNat ≠ 0) :
    seed distribution.encodeTable symbol =
      .ok (distribution.size + distribution.nthSlot symbol 0) := by
  obtain ⟨hseed, hstate⟩ := Stream.exists_seed hsymbol
  have hlog := distribution.tableLog_mem.2
  have hstates := two_pow_tableLog_le distribution
  have hslots := distribution.slots_le_size symbol
  have hthreshold := (Transform.threshold_bounds distribution.tableLog_pos
    (Nat.pos_of_ne_zero hsymbol) hslots).2
  have hwidth : (distribution.transformOf symbol).maxWidth ≤ distribution.tableLog := by
    rw [transformOf, Transform.ofSlots, if_neg hsymbol]
    exact Nat.sub_le _ _
  have hreduced : (distribution.transformOf symbol).threshold >>>
      (distribution.transformOf symbol).maxWidth ≤ 2 ^ (distribution.tableLog + 1) := by
    rw [transformOf, Transform.ofSlots, if_neg hsymbol]
    rw [← Nat.shiftLeft_eq] at hthreshold
    exact Nat.le_trans (Nat.shiftRight_le _ _) hthreshold
  have hnext : distribution.encodeTable.next (distribution.transformOf symbol)
      ((distribution.transformOf symbol).threshold >>>
        (distribution.transformOf symbol).maxWidth) =
      .ok (distribution.size + distribution.nthSlot symbol 0) := by
    rwa [EncodeTable.seed, transform_encodeTable hsymbol] at hseed
  rw [maxTableLog] at hlog
  exact pass (lookup_transforms_eq hsymbol) (pass (fit_eq (by omega))
    (next_eq (by omega) hstate hnext))

/-- **A step of an encoder is safe** in every state, and leads to a state again. -/
theorem alike_encode (hsymbol : distribution.slots symbol.toNat ≠ 0) {state : ℕ}
    (hstate : distribution.IsState state) (writer : Writer) :
    Alike Error.IsMisuse (fun found => distribution.IsState found.1)
      (encode distribution.encodeTable symbol state writer)
      (distribution.encodeTable.encode symbol state writer) := by
  have hlog := distribution.tableLog_mem.2
  have hstates := two_pow_tableLog_le distribution
  have hlt := hstate.lt_two_pow
  have hwidth := widthFrom_le hsymbol hstate
  have hreduced := Nat.shiftRight_le state (distribution.widthFrom symbol state)
  have hnext := next_slotFrom hsymbol hstate
  have hnextState := isState_slotFrom hsymbol hstate
  rw [maxTableLog] at hlog
  rw [widthFrom, Transform.width] at hwidth hreduced hnext
  have hsum : state + (distribution.transformOf symbol).bias < 2 ^ 32 := by
    rw [Nat.shiftRight_eq_div_pow] at hwidth
    omega
  refine .of_found (transform_encodeTable hsymbol) (lookup_transforms_eq hsymbol) ?_
  refine .of_check (fit_eq hsum) (.of_check (fit_eq (by omega)) ?_)
  refine (alike_add writer state _).bind fun writer _ => ?_
  exact .of_found hnext (next_eq (by omega) hnextState hnext) (.ok hnextState)

/-! ### No check of a run fails -/

variable {run : Run}

theorem alike_onFirst (hsymbol : distribution.slots symbol.toNat ≠ 0)
    (hrun : run.turn.Sound distribution) :
    Alike Error.IsMisuse (fun next => next.turn.Sound distribution)
      (onFirst run distribution.encodeTable symbol)
      (run.onFirst distribution.encodeTable symbol) := by
  refine (alike_encode hsymbol hrun.other run.writer).bind ?_
  rintro ⟨state, writer⟩ hstate
  exact .ok ⟨hrun.now, hstate⟩

theorem alike_onSecond (hsymbol : distribution.slots symbol.toNat ≠ 0)
    (hrun : run.turn.Sound distribution) :
    Alike Error.IsMisuse (fun next => next.turn.Sound distribution)
      (onSecond run distribution.encodeTable symbol)
      (run.onSecond distribution.encodeTable symbol) := by
  refine (alike_encode hsymbol hrun.now run.writer).bind ?_
  rintro ⟨state, writer⟩ hstate
  exact .ok ⟨hstate, hrun.other⟩

/-- **Two symbols** keep the lanes in the automaton. -/
theorem alike_pair {a b : UInt8} (ha : distribution.slots a.toNat ≠ 0)
    (hb : distribution.slots b.toNat ≠ 0) (hrun : run.turn.Sound distribution) :
    Alike Error.IsMisuse (fun next => next.turn.Sound distribution)
      (pair run distribution.encodeTable a b) (run.pair distribution.encodeTable a b) :=
  (alike_onSecond ha hrun).bind fun _ hmiddle => alike_onFirst hb hmiddle

/-- **Pairs are encoded safely**, if the symbols can be paired. -/
theorem alike_pairs {symbols : List UInt8} {run : Run}
    (hsymbols : ∀ symbol ∈ symbols, distribution.slots symbol.toNat ≠ 0)
    (heven : symbols.length % 2 = 0) (hrun : run.turn.Sound distribution) :
    Alike Error.IsMisuse (fun next => next.turn.Sound distribution)
      (pairs distribution.encodeTable symbols run)
      (Stream.pairs distribution.encodeTable symbols run) := by
  match symbols with
  | [] => exact .ok hrun
  | [_] => simp at heven
  | a :: b :: rest =>
    simp only [List.mem_cons, forall_eq_or_imp] at hsymbols
    obtain ⟨ha, hb, hrest⟩ := hsymbols
    have hleft : rest.length % 2 = 0 := by
      rw [List.length_cons, List.length_cons] at heven
      omega
    refine (alike_pair ha hb hrun).bind fun next hnext => ?_
    exact .of_check (flushRun_eq next) (alike_pairs hrest hleft hnext)

/-- **Quartets are encoded safely**, if the symbols can be put in fours. -/
theorem alike_quartets {symbols : List UInt8} {run : Run}
    (hsymbols : ∀ symbol ∈ symbols, distribution.slots symbol.toNat ≠ 0)
    (hfour : symbols.length % 4 = 0) (hrun : run.turn.Sound distribution) :
    Alike Error.IsMisuse (fun next => next.turn.Sound distribution)
      (quartets distribution.encodeTable symbols run)
      (Stream.quartets distribution.encodeTable symbols run) := by
  match symbols with
  | [] => exact .ok hrun
  | [_] | [_, _] | [_, _, _] => simp at hfour
  | a :: b :: c :: d :: rest =>
    simp only [List.mem_cons, forall_eq_or_imp] at hsymbols
    obtain ⟨ha, hb, hc, hd, hrest⟩ := hsymbols
    have hleft : rest.length % 4 = 0 := by
      simp only [List.length_cons] at hfour
      omega
    refine (alike_pair ha hb hrun).bind fun half hhalf => ?_
    refine (alike_pair hc hd hhalf).bind fun next hnext => ?_
    exact .of_check (flushRun_eq next) (alike_quartets hrest hleft hnext)

/-- **An even number of symbols is encoded safely**, in either rhythm. -/
theorem alike_body {symbols : List UInt8}
    (hsymbols : ∀ symbol ∈ symbols, distribution.slots symbol.toNat ≠ 0)
    (heven : symbols.length % 2 = 0) (hrun : run.turn.Sound distribution) :
    Alike Error.IsMisuse (fun next => next.turn.Sound distribution)
      (body distribution.encodeTable symbols run)
      (Stream.body distribution.encodeTable symbols run) := by
  unfold body Stream.body
  split
  -- four at a time, an even number of symbols may leave two over, which come first
  · match symbols with
    | [] => exact .ok hrun
    | [_] => simp at heven
    | a :: b :: rest =>
      dsimp only
      split
      · rename_i htwo
        simp only [List.mem_cons, forall_eq_or_imp] at hsymbols
        obtain ⟨ha, hb, hrest⟩ := hsymbols
        have hleft : rest.length % 4 = 0 := by
          simp only [List.length_cons] at htwo
          omega
        refine (alike_pair ha hb hrun).bind fun next hnext => ?_
        exact .of_check (flushRun_eq next) (alike_quartets hrest hleft hnext)
      · exact alike_quartets hsymbols (by omega) hrun
  · exact alike_pairs hsymbols heven hrun

/-- **The seeds and the odd symbol** leave an even number of symbols to encode. -/
theorem alike_start {last before : UInt8} {rest : List UInt8}
    (hlast : distribution.slots last.toNat ≠ 0) (hbefore : distribution.slots before.toNat ≠ 0)
    (hrest : ∀ symbol ∈ rest, distribution.slots symbol.toNat ≠ 0) (writer : Writer) :
    Alike Error.IsMisuse
      (fun found => found.1.turn.Sound distribution ∧ found.2.length % 2 = 0 ∧
        ∀ symbol ∈ found.2, distribution.slots symbol.toNat ≠ 0)
      (start distribution.encodeTable last before rest writer)
      (Stream.start distribution.encodeTable last before rest writer) := by
  obtain ⟨hlastSeed, hlastState⟩ := Stream.exists_seed hlast
  obtain ⟨hbeforeSeed, hbeforeState⟩ := Stream.exists_seed hbefore
  unfold start Stream.start
  split
  · rename_i heven
    exact .of_found hlastSeed (seed_eq hlast) (.of_found hbeforeSeed (seed_eq hbefore)
      (.ok ⟨⟨hlastState, hbeforeState⟩, heven, hrest⟩))
  · rename_i hodd
    refine .of_found hlastSeed (seed_eq hlast) (.of_found hbeforeSeed (seed_eq hbefore) ?_)
    match rest with
    | [] => simp at hodd
    | symbol :: rest =>
      rw [List.forall_mem_cons] at hrest
      have hleft : rest.length % 2 = 0 := by
        rw [List.length_cons] at hodd
        omega
      refine (alike_onFirst hrest.1 (show Stream.Plain.Turn.Sound distribution
        (Run.turn ⟨⟨_, _⟩, writer⟩) from ⟨hbeforeState, hlastState⟩)).bind fun next hnext => ?_
      exact .of_check (flushRun_eq next) (.ok ⟨hnext, hleft, hrest.2⟩)

/-- **Both states and the mark are written safely.** -/
theorem alike_close (table : EncodeTable) (run : Run) :
    Alike Error.IsMisuse (fun _ => True) (close table run) (Stream.close table run) := by
  refine (alike_add run.writer run.lanes.second table.tableLog).bind fun writer _ => ?_
  refine (alike_add writer run.lanes.first table.tableLog).bind fun writer _ => ?_
  refine (alike_add writer 1 1).bind fun writer _ => ?_
  exact .of_eq_ok (finish_eq writer) trivial

/-- **A stream is encoded as it is without checks**, whether there is room for its fields or not. -/
theorem alike_encodeStream {input : List UInt8} (hlength : 2 ≤ input.length)
    (hinput : ∀ symbol ∈ input, distribution.slots symbol.toNat ≠ 0) (out : Array UInt8) :
    Alike Error.IsMisuse (fun _ => True) (encodeStream distribution.encodeTable input out)
      (Stream.encode distribution.encodeTable input out) := by
  obtain ⟨last, before, rest, hreverse, hlast, hbefore, hrest⟩ :=
    Stream.exists_reverse_eq hlength hinput
  rw [encodeStream, Stream.encode]
  refine .of_check (sub_eq hlength) ?_
  rw [hreverse]
  refine (alike_start hlast hbefore hrest (Writer.onto out)).bind ?_
  rintro ⟨run, left⟩ ⟨hrun, heven, hleft⟩
  refine (alike_body hleft heven hrun).bind fun run _ => ?_
  exact alike_close distribution.encodeTable run

/-- **A stream is encoded safely**, and there is room for every field of it. -/
theorem exists_encodeStream {input : List UInt8} (hlength : 2 ≤ input.length)
    (hinput : ∀ symbol ∈ input, distribution.slots symbol.toNat ≠ 0) (out : Array UInt8) :
    ∃ bytes, Stream.encode distribution.encodeTable input out = .ok bytes ∧
      encodeStream distribution.encodeTable input out = .ok bytes := by
  obtain ⟨stream, -, hencode⟩ := Stream.exists_encode hlength hinput
  refine ⟨_, hencode out, ?_⟩
  rw [(alike_encodeStream hlength hinput out).eq, hencode out]
  rfl

end Checked

end FiniteStateEntropy
