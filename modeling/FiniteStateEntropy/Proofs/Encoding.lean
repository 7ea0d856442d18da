import FiniteStateEntropy.Proofs.Transition

/-!
# The schedule of an encoder makes no difference

An encoder takes symbols in pairs and quartets, so as to flush its container as seldom as it can.
What it writes is what it would write one symbol at a time without a container, and it never
asks for more room than there is.

Two things carry every step of a run: both lanes are in states of the automaton, and the bits
written so far are those of the plain encoder. `Stream.Advance` says this of two runs and the
symbols between them. The room is accounted for separately: a flush leaves less than a byte, a
symbol takes at most the table log, and the schedule flushes before the container is full.

## Main results

* `Stream.Plain.symbolFields_append`: fields of a list in two parts
* `Stream.exists_pair`: two symbols that fit, one on each lane
* `Stream.exists_pairs`, `Stream.exists_quartets`: the two rhythms
* `Stream.exists_encode`: the whole stream, appended to some bytes
-/

namespace FiniteStateEntropy

namespace Stream

variable {distribution : Distribution}

/-! ### One symbol without a container -/

namespace Plain

theorem step_eq {symbol : UInt8} {state : ℕ} (hsymbol : distribution.slots symbol.toNat ≠ 0)
    (hstate : distribution.IsState state) :
    step distribution.encodeTable symbol state =
      .ok (⟨state, distribution.widthFrom symbol state⟩,
        distribution.size + distribution.slotFrom symbol state) := by
  have hnext := Distribution.next_slotFrom hsymbol hstate
  rw [Distribution.widthFrom] at hnext
  simp only [step, Distribution.transform_encodeTable hsymbol, hnext, bind, Except.bind, pure,
    Except.pure, Distribution.widthFrom]

theorem symbolFields_cons {symbol : UInt8} {turn : Turn}
    (hsymbol : distribution.slots symbol.toNat ≠ 0) (hstate : distribution.IsState turn.now)
    (rest : List UInt8) :
    symbolFields distribution.encodeTable (symbol :: rest) turn =
      (symbolFields distribution.encodeTable rest
        ⟨turn.other, distribution.size + distribution.slotFrom symbol turn.now⟩).map
          fun (fields, last) =>
            (⟨turn.now, distribution.widthFrom symbol turn.now⟩ :: fields, last) := by
  rw [symbolFields, step_eq hsymbol hstate]
  rfl

/-- The fields of a list in two parts. -/
theorem symbolFields_append (table : EncodeTable) (xs ys : List UInt8) (turn : Turn) :
    symbolFields table (xs ++ ys) turn = (do
      let (fields, middle) ← symbolFields table xs turn
      let (fields', last) ← symbolFields table ys middle
      return (fields ++ fields', last)) := by
  induction xs generalizing turn with
  | nil =>
    rw [List.nil_append, symbolFields]
    exact (bind_pure (symbolFields table ys turn)).symm
  | cons symbol xs ih =>
    rw [List.cons_append, symbolFields, symbolFields]
    simp only [ih, bind_assoc, pure_bind, List.cons_append]

/-- Both lanes are in states of the automaton. -/
structure Turn.Sound (distribution : Distribution) (turn : Turn) : Prop where
  /-- The lane at turn is. -/
  now : distribution.IsState turn.now
  /-- The other lane is. -/
  other : distribution.IsState turn.other

theorem Turn.Sound.next {symbol : UInt8} {turn : Turn} (h : turn.Sound distribution)
    (hsymbol : distribution.slots symbol.toNat ≠ 0) :
    Turn.Sound distribution
      ⟨turn.other, distribution.size + distribution.slotFrom symbol turn.now⟩ :=
  ⟨h.other, Distribution.isState_slotFrom hsymbol h.now⟩

/-- Encoding `symbols` one by one takes the lanes from `turn` to `last`, and writes `bits`. -/
def Emits (distribution : Distribution) (symbols : List UInt8) (turn last : Turn)
    (bits : List Bool) : Prop :=
  ∃ fields, symbolFields distribution.encodeTable symbols turn = .ok (fields, last) ∧
    fields.flatMap Field.bits = bits

theorem Emits.nil (distribution : Distribution) (turn : Turn) :
    Emits distribution [] turn turn [] :=
  ⟨[], rfl, rfl⟩

theorem Emits.append {xs ys : List UInt8} {turn middle last : Turn} {bits bits' : List Bool}
    (hx : Emits distribution xs turn middle bits) (hy : Emits distribution ys middle last bits') :
    Emits distribution (xs ++ ys) turn last (bits ++ bits') := by
  obtain ⟨fields, hfields, rfl⟩ := hx
  obtain ⟨fields', hfields', rfl⟩ := hy
  refine ⟨fields ++ fields', ?_, List.flatMap_append⟩
  rw [symbolFields_append, hfields]
  simp only [bind, Except.bind, hfields']
  rfl

theorem Emits.single {symbol : UInt8} {turn : Turn}
    (hsymbol : distribution.slots symbol.toNat ≠ 0) (hstate : distribution.IsState turn.now) :
    Emits distribution [symbol] turn
      ⟨turn.other, distribution.size + distribution.slotFrom symbol turn.now⟩
      (Bits.low (distribution.widthFrom symbol turn.now) turn.now) := by
  refine ⟨[⟨turn.now, distribution.widthFrom symbol turn.now⟩], ?_, List.append_nil _⟩
  rw [symbolFields_cons hsymbol hstate]
  rfl

end Plain

/-! ### Runs -/

open Plain (Emits Turn)

/-- The lanes by turn; it is the second lane's whenever an even number of symbols is left. -/
def Run.turn (run : Run) : Turn := ⟨run.lanes.second, run.lanes.first⟩

/-- Between two runs, `symbols` were encoded. -/
structure Advance (distribution : Distribution) (symbols : List UInt8) (run next : Run) : Prop where
  /-- The lanes are still in states of the automaton. -/
  sound : next.turn.Sound distribution
  /-- What was written is what the plain encoder writes. -/
  emits : ∃ bits, Emits distribution symbols run.turn next.turn bits ∧
    next.writer.bits = run.writer.bits ++ bits

theorem Advance.refl {run : Run} (h : run.turn.Sound distribution) :
    Advance distribution [] run run :=
  ⟨h, [], Emits.nil distribution _, (List.append_nil _).symm⟩

theorem Advance.trans {xs ys : List UInt8} {run middle last : Run}
    (hx : Advance distribution xs run middle) (hy : Advance distribution ys middle last) :
    Advance distribution (xs ++ ys) run last := by
  obtain ⟨-, bits, hbits, hwriter⟩ := hx
  obtain ⟨hsound, bits', hbits', hwriter'⟩ := hy
  exact ⟨hsound, bits ++ bits', hbits.append hbits', by
    rw [hwriter', hwriter, List.append_assoc]⟩

/-- Flushing is no advance. -/
theorem Advance.flush {symbols : List UInt8} {run next : Run}
    (h : Advance distribution symbols run next) : Advance distribution symbols run next.flush := by
  obtain ⟨hsound, bits, hbits, hwriter⟩ := h
  exact ⟨hsound, bits, hbits, by rw [Run.flush, Writer.bits_flush, hwriter]⟩

theorem held_flush_lt (run : Run) : run.flush.writer.held < 8 :=
  Writer.held_flush_lt run.writer

/-- **Two symbols that fit.** -/
theorem exists_pair {a b : UInt8} {run : Run} (ha : distribution.slots a.toNat ≠ 0)
    (hb : distribution.slots b.toNat ≠ 0) (hrun : run.turn.Sound distribution)
    (hroom : run.writer.held + 2 * distribution.tableLog < containerBits) :
    ∃ next, run.pair distribution.encodeTable a b = .ok next ∧
      Advance distribution [a, b] run next ∧
      next.writer.held ≤ run.writer.held + 2 * distribution.tableLog := by
  have hsecond : distribution.IsState run.lanes.second := hrun.now
  have hfirst : distribution.IsState run.lanes.first := hrun.other
  have hwidtha := Distribution.widthFrom_le ha hsecond
  have hwidthb := Distribution.widthFrom_le hb hfirst
  obtain ⟨middle, hencodea, hbitsa, hhelda⟩ :=
    Distribution.exists_encode ha hsecond (show run.writer.held < containerBits by omega)
      (by omega)
  obtain ⟨writer, hencodeb, hbitsb, hheldb⟩ :=
    Distribution.exists_encode hb hfirst (show middle.held < containerBits by omega) (by omega)
  refine ⟨⟨⟨_, _⟩, writer⟩, ?_, ⟨⟨Distribution.isState_slotFrom ha hsecond,
    Distribution.isState_slotFrom hb hfirst⟩, _,
    (Emits.single ha hsecond).append (Emits.single hb hfirst), ?_⟩, by dsimp only; omega⟩
  · simp only [Run.pair, Run.onSecond, Run.onFirst, hencodea, hencodeb, bind, Except.bind, pure,
      Except.pure]
  · rw [hbitsb, hbitsa, List.append_assoc]
    rfl

/-! ### The two rhythms -/

/-- **Pairs**, flushed one by one. -/
theorem exists_pairs {symbols : List UInt8} {run : Run}
    (hsymbols : ∀ symbol ∈ symbols, distribution.slots symbol.toNat ≠ 0)
    (heven : symbols.length % 2 = 0) (hrun : run.turn.Sound distribution)
    (hheld : run.writer.held < 8) :
    ∃ next, pairs distribution.encodeTable symbols run = .ok next ∧
      Advance distribution symbols run next ∧ next.writer.held < 8 := by
  have hlog := distribution.tableLog_mem.2
  rw [maxTableLog] at hlog
  fun_induction pairs distribution.encodeTable symbols run with
  | case1 run a b rest ih =>
    simp only [List.mem_cons, forall_eq_or_imp] at hsymbols
    obtain ⟨ha, hb, hrest⟩ := hsymbols
    obtain ⟨middle, hpair, hadvance, -⟩ := exists_pair ha hb hrun (by rw [containerBits]; omega)
    have hflush := hadvance.flush
    obtain ⟨next, hpairs, hnext, hlive⟩ := ih middle hrest
      (by rw [List.length_cons, List.length_cons] at heven; omega) hflush.sound
      (held_flush_lt middle)
    exact ⟨next, by simp only [hpair, bind, Except.bind, hpairs], hflush.trans hnext, hlive⟩
  | case2 symbols run hshort =>
    have hnil : symbols = [] := by
      rcases symbols with - | ⟨a, - | ⟨b, rest⟩⟩
      · rfl
      · simp at heven
      · exact absurd rfl (hshort a b rest)
    subst hnil
    exact ⟨run, rfl, Advance.refl hrun, hheld⟩

/-- **Quartets**, where four symbols fit on top of a partial byte. -/
theorem exists_quartets {symbols : List UInt8} {run : Run}
    (hsymbols : ∀ symbol ∈ symbols, distribution.slots symbol.toNat ≠ 0)
    (hfour : symbols.length % 4 = 0) (hfits : 4 * distribution.tableLog + 7 < containerBits)
    (hrun : run.turn.Sound distribution) (hheld : run.writer.held < 8) :
    ∃ next, quartets distribution.encodeTable symbols run = .ok next ∧
      Advance distribution symbols run next ∧ next.writer.held < 8 := by
  fun_induction quartets distribution.encodeTable symbols run with
  | case1 run a b c d rest ih =>
    simp only [List.mem_cons, forall_eq_or_imp] at hsymbols
    obtain ⟨ha, hb, hc, hd, hrest⟩ := hsymbols
    obtain ⟨half, hpair, hadvance, hlive⟩ := exists_pair ha hb hrun (by omega)
    obtain ⟨whole, hpair', hadvance', -⟩ := exists_pair hc hd hadvance.sound (by omega)
    have hflush := (hadvance.trans hadvance').flush
    obtain ⟨next, hquartets, hnext, hlive'⟩ := ih whole hrest
      (by simp only [List.length_cons] at hfour; omega) hflush.sound (held_flush_lt whole)
    exact ⟨next, by simp only [hpair, hpair', bind, Except.bind, hquartets], hflush.trans hnext,
      hlive'⟩
  | case2 symbols run hshort =>
    have hnil : symbols = [] := by
      rcases symbols with - | ⟨a, - | ⟨b, - | ⟨c, - | ⟨d, rest⟩⟩⟩⟩
      · rfl
      · simp at hfour
      · simp at hfour
      · simp at hfour
      · exact absurd rfl (hshort a b c d rest)
    subst hnil
    exact ⟨run, rfl, Advance.refl hrun, hheld⟩

/-- **An even number of symbols**, in the rhythm that the table allows. -/
theorem exists_body {symbols : List UInt8} {run : Run}
    (hsymbols : ∀ symbol ∈ symbols, distribution.slots symbol.toNat ≠ 0)
    (heven : symbols.length % 2 = 0) (hrun : run.turn.Sound distribution)
    (hheld : run.writer.held < 8) :
    ∃ next, body distribution.encodeTable symbols run = .ok next ∧
      Advance distribution symbols run next ∧ next.writer.held < 8 := by
  by_cases hfits : 4 * distribution.tableLog + 7 < containerBits
  · have hquartet : fitsQuartet distribution.encodeTable.tableLog = true := decide_eq_true hfits
    unfold body
    rw [if_pos hquartet]
    rcases symbols with - | ⟨a, - | ⟨b, rest⟩⟩
    · exact exists_quartets hsymbols rfl hfits hrun hheld
    · simp at heven
    · by_cases htwo : (a :: b :: rest).length % 4 = 2
      · -- a first pair makes the number of the other symbols divisible by four
        simp only [List.mem_cons, forall_eq_or_imp] at hsymbols
        obtain ⟨ha, hb, hrest⟩ := hsymbols
        obtain ⟨middle, hpair, hadvance, -⟩ := exists_pair ha hb hrun (by omega)
        have hflush := hadvance.flush
        obtain ⟨next, hquartets, hnext, hlive⟩ := exists_quartets hrest
          (by simp only [List.length_cons] at htwo; omega) hfits hflush.sound
          (held_flush_lt middle)
        refine ⟨next, ?_, hflush.trans hnext, hlive⟩
        simp only [if_pos htwo, hpair, bind, Except.bind, hquartets]
      · simp only [if_neg htwo]
        exact exists_quartets hsymbols (by omega) hfits hrun hheld
  · have hpairs : fitsQuartet distribution.encodeTable.tableLog = false := decide_eq_false hfits
    unfold body
    rw [if_neg (by rw [hpairs]; decide)]
    exact exists_pairs hsymbols heven hrun hheld

/-! ### The whole stream -/

/-- The seed of a present symbol is a state. -/
theorem exists_seed {symbol : UInt8} (hsymbol : distribution.slots symbol.toNat ≠ 0) :
    distribution.encodeTable.seed symbol =
        .ok (distribution.size + distribution.nthSlot symbol 0) ∧
      distribution.IsState (distribution.size + distribution.nthSlot symbol 0) := by
  have hlt := Distribution.nthSlot_lt (Nat.pos_of_ne_zero hsymbol)
  refine ⟨?_, Nat.le_add_right _ _, by omega⟩
  have hreduced : (distribution.transformOf symbol).threshold >>>
      (distribution.transformOf symbol).maxWidth = distribution.slots symbol.toNat := by
    rw [Distribution.transformOf, Transform.ofSlots, if_neg hsymbol]
    simp only [Nat.shiftLeft_eq, Nat.shiftRight_eq_div_pow]
    exact Nat.mul_div_cancel _ (Nat.two_pow_pos _)
  have hnext := Distribution.next_encodeTable (Nat.le_refl (distribution.slots symbol.toNat))
    (by omega)
  rw [Nat.sub_self] at hnext
  simp only [EncodeTable.seed, Distribution.transform_encodeTable hsymbol, bind, Except.bind,
    hreduced, hnext]

/-- The lanes seeded with the last two symbols. -/
def Plain.Turn.seeded (distribution : Distribution) (last before : UInt8) : Turn :=
  ⟨distribution.size + distribution.nthSlot last 0,
    distribution.size + distribution.nthSlot before 0⟩

theorem sound_seeded {last before : UInt8} (hlast : distribution.slots last.toNat ≠ 0)
    (hbefore : distribution.slots before.toNat ≠ 0) :
    (Turn.seeded distribution last before).Sound distribution :=
  ⟨(exists_seed hlast).2, (exists_seed hbefore).2⟩

/-- **The start** brings the plain encoder to an even number of symbols. -/
theorem exists_start {last before : UInt8} {rest : List UInt8}
    (hlast : distribution.slots last.toNat ≠ 0) (hbefore : distribution.slots before.toNat ≠ 0)
    (hrest : ∀ symbol ∈ rest, distribution.slots symbol.toNat ≠ 0) {writer : Writer}
    (hheld : writer.held = 0) :
    ∃ run left done bits, rest = done ++ left ∧ left.length % 2 = 0 ∧
      start distribution.encodeTable last before rest writer = .ok (run, left) ∧
      run.turn.Sound distribution ∧ run.writer.held < 8 ∧
      Emits distribution done (.seeded distribution last before) run.turn bits ∧
      run.writer.bits = writer.bits ++ bits := by
  obtain ⟨hseed, hstate⟩ := exists_seed hlast
  obtain ⟨hseed', hstate'⟩ := exists_seed hbefore
  by_cases heven : rest.length % 2 = 0
  · refine ⟨⟨⟨distribution.size + distribution.nthSlot before 0,
      distribution.size + distribution.nthSlot last 0⟩, writer⟩, rest, [], [], rfl, heven, ?_,
      ⟨hstate, hstate'⟩, by rw [hheld]; decide, Emits.nil distribution _,
      (List.append_nil _).symm⟩
    simp only [start, if_pos heven, hseed, hseed', bind, Except.bind, pure, Except.pure]
  · obtain ⟨symbol, left, rfl⟩ : ∃ symbol left, rest = symbol :: left :=
      List.exists_cons_of_ne_nil (by rintro rfl; simp at heven)
    have hsymbol := hrest symbol List.mem_cons_self
    have hwidth := Distribution.widthFrom_le hsymbol hstate
    have hlog := distribution.tableLog_mem.2
    rw [maxTableLog] at hlog
    obtain ⟨next, hencode, hbits, -⟩ := Distribution.exists_encode hsymbol hstate
      (show writer.held < containerBits by rw [hheld]; decide)
      (by rw [hheld, containerBits]; omega)
    have hleft : left.length % 2 = 0 := by
      rw [List.length_cons] at heven
      omega
    refine ⟨⟨⟨_, distribution.size + distribution.nthSlot before 0⟩, next.flush⟩, left, [symbol],
      _, rfl, hleft, ?_, ⟨hstate', Distribution.isState_slotFrom hsymbol hstate⟩,
      Writer.held_flush_lt next, Emits.single hsymbol hstate,
      (Writer.bits_flush next).trans hbits⟩
    simp only [start, if_neg heven, hseed, hseed', Run.onFirst, hencode, bind, Except.bind, pure,
      Except.pure]
    rfl

/-- **The end** writes both states and the mark. -/
theorem exists_close (distribution : Distribution) {run : Run} {out : List UInt8}
    {bits : List Bool}
    (hbits : run.writer.bits = Bits.ofBytes out ++ bits) (hheld : run.writer.held < 8) :
    ∃ bytes, close distribution.encodeTable run = .ok bytes ∧
      bytes.toList = out ++ Bits.toBytes (bits ++
        Bits.low distribution.tableLog run.lanes.second ++
        Bits.low distribution.tableLog run.lanes.first ++ [true]) := by
  have hlog := distribution.tableLog_mem.2
  rw [maxTableLog] at hlog
  have hwidth : distribution.tableLog ≤ fieldWidthLimit := by rw [fieldWidthLimit]; omega
  obtain ⟨second, hadd, hbits₂, hheld₂⟩ := Writer.exists_add run.lanes.second hwidth
    (show run.writer.held < containerBits by rw [containerBits]; omega)
    (by rw [containerBits]; omega)
  obtain ⟨first, hadd', hbits₁, hheld₁⟩ := Writer.exists_add run.lanes.first hwidth
    (show second.held < containerBits by rw [containerBits]; omega) (by rw [containerBits]; omega)
  obtain ⟨mark, hmark, hbits₀, -⟩ := Writer.exists_add 1 (show 1 ≤ fieldWidthLimit by decide)
    (show first.held < containerBits by rw [containerBits]; omega) (by rw [containerBits]; omega)
  refine ⟨mark.finish, ?_, Writer.toList_finish ?_⟩
  · simp only [close, Distribution.encodeTable, hadd, hadd', hmark, bind, Except.bind, pure,
      Except.pure]
  · rw [hbits₀, hbits₁, hbits₂, hbits]
    simp only [List.append_assoc]
    rfl

/-- An input of at least two symbols, from the last to the first. -/
theorem exists_reverse_eq_cons {input : List UInt8} (hlength : 2 ≤ input.length) :
    ∃ last before rest, input.reverse = last :: before :: rest := by
  rw [← List.length_reverse] at hlength
  rcases hshape : input.reverse with - | ⟨last, - | ⟨before, rest⟩⟩
  · simp [hshape] at hlength
  · simp [hshape] at hlength
  · exact ⟨last, before, rest, rfl⟩

/-- The same of present symbols. -/
theorem exists_reverse_eq {input : List UInt8} (hlength : 2 ≤ input.length)
    (hinput : ∀ symbol ∈ input, distribution.slots symbol.toNat ≠ 0) :
    ∃ last before rest, input.reverse = last :: before :: rest ∧
      distribution.slots last.toNat ≠ 0 ∧ distribution.slots before.toNat ≠ 0 ∧
      ∀ symbol ∈ rest, distribution.slots symbol.toNat ≠ 0 := by
  obtain ⟨last, before, rest, hreverse⟩ := exists_reverse_eq_cons hlength
  have hsymbols : ∀ symbol ∈ input.reverse, distribution.slots symbol.toNat ≠ 0 := by
    intro symbol hmem
    exact hinput symbol (List.mem_reverse.mp hmem)
  simp only [hreverse, List.mem_cons, forall_eq_or_imp] at hsymbols
  exact ⟨last, before, rest, hreverse, hsymbols⟩

/-- The fields of an input are those of its symbols, from seeded lanes, and three more. -/
theorem Plain.fields_of_symbolFields {input rest : List UInt8} {last before : UInt8}
    (hreverse : input.reverse = last :: before :: rest)
    (hlast : distribution.slots last.toNat ≠ 0) (hbefore : distribution.slots before.toNat ≠ 0)
    {turn : Turn} {fields : List Field}
    (h : symbolFields distribution.encodeTable rest (.seeded distribution last before) =
      .ok (fields, turn)) :
    Plain.fields distribution.encodeTable input =
      .ok (fields ++ [⟨turn.now, distribution.tableLog⟩, ⟨turn.other, distribution.tableLog⟩,
        ⟨1, 1⟩]) := by
  rw [Turn.seeded] at h
  simp only [Plain.fields, hreverse, (exists_seed hlast).1, (exists_seed hbefore).1, h, bind,
    Except.bind, pure, Except.pure]
  rfl

/-- What the plain encoder makes of an input. -/
theorem Plain.encode_of_emits {input rest : List UInt8} {last before : UInt8}
    (hreverse : input.reverse = last :: before :: rest)
    (hlast : distribution.slots last.toNat ≠ 0) (hbefore : distribution.slots before.toNat ≠ 0)
    {turn : Turn} {bits : List Bool}
    (h : Emits distribution rest (.seeded distribution last before) turn bits) :
    Plain.encode distribution.encodeTable input =
      .ok (Bits.toBytes (bits ++ Bits.low distribution.tableLog turn.now ++
        Bits.low distribution.tableLog turn.other ++ [true])) := by
  obtain ⟨fields, hfields, rfl⟩ := h
  rw [Plain.encode, fields_of_symbolFields hreverse hlast hbefore hfields]
  simp only [bind, Except.bind, pure, Except.pure, List.flatMap_append, List.append_assoc]
  rfl

/-- An encoder and the plain encoder, side by side over one output. -/
theorem exists_encode_onto {input : List UInt8} (hlength : 2 ≤ input.length)
    (hinput : ∀ symbol ∈ input, distribution.slots symbol.toNat ≠ 0) (out : Array UInt8) :
    ∃ stream, Plain.encode distribution.encodeTable input = .ok stream ∧
      encode distribution.encodeTable input out = .ok (out ++ stream.toArray) := by
  obtain ⟨last, before, rest, hreverse, hlast, hbefore, hrest⟩ := exists_reverse_eq hlength hinput
  obtain ⟨run, left, done, bits, rfl, heven, hstart, hsound, hheld, hemits, hbits⟩ :=
    exists_start hlast hbefore hrest (show (Writer.onto out).held = 0 from rfl)
  have hleft : ∀ symbol ∈ left, distribution.slots symbol.toNat ≠ 0 := by
    intro symbol hmem
    exact hrest symbol (List.mem_append_right done hmem)
  obtain ⟨next, hbody, ⟨-, bits', hemits', hbits'⟩, hheld'⟩ :=
    exists_body hleft heven hsound hheld
  have hwritten : next.writer.bits = Bits.ofBytes out.toList ++ (bits ++ bits') := by
    rw [hbits', hbits, Writer.bits_onto, List.append_assoc]
  obtain ⟨bytes, hclose, hbytes⟩ := exists_close distribution hwritten hheld'
  refine ⟨_, Plain.encode_of_emits hreverse hlast hbefore (hemits.append hemits'), ?_⟩
  simp only [encode, hreverse, hstart, hbody, hclose, bind, Except.bind]
  exact congrArg Except.ok (Array.toList_inj.mp (by rw [hbytes, Array.toList_append]; rfl))

/-- **The schedule makes no difference.** Every input of at least two present symbols has a
stream, that of the plain encoder, and encoding appends it to whatever is there. -/
theorem exists_encode {input : List UInt8} (hlength : 2 ≤ input.length)
    (hinput : ∀ symbol ∈ input, distribution.slots symbol.toNat ≠ 0) :
    ∃ stream, Plain.encode distribution.encodeTable input = .ok stream ∧
      ∀ out : Array UInt8,
        encode distribution.encodeTable input out = .ok (out ++ stream.toArray) := by
  obtain ⟨stream, hstream, -⟩ := exists_encode_onto hlength hinput #[]
  refine ⟨stream, hstream, ?_⟩
  intro out
  obtain ⟨stream', hstream', hout⟩ := exists_encode_onto hlength hinput out
  rw [hstream] at hstream'
  cases hstream'
  exact hout

end Stream

end FiniteStateEntropy
