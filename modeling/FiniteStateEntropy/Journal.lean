import FiniteStateEntropy.Block

/-!
# Journals

What the coder has to say about its own work. An operation has a journal, the list of its events
in the order in which they happened; an event has a level and a text. A reader of a journal asks
for a level, and gets the events of that level and of graver ones.

Journals are computed beside the operations, from the same inputs, and have no influence on them.

## Main definitions

* `Level`, `Event`, `Event.level`, `Event.message`
* `Journal.apportion`, `Journal.tableLog`, `Journal.encodeTable`, `Journal.decodeTable`,
  `Journal.pack`, `Journal.decompress`: the events of the operations
* `Journal.upTo`: the events that matter at a level
-/

namespace FiniteStateEntropy

/-- How much an event matters, from the gravest on. -/
inductive Level where
  /-- Something a caller should look into. -/
  | warn
  /-- A summary of a whole operation. -/
  | debug
  /-- The contents of a table. -/
  | trace
  deriving DecidableEq, Repr

namespace Level

/-- Position in the order from the gravest on. -/
def rank : Level → Nat
  | warn => 0
  | debug => 1
  | trace => 2

/-- The level as written in a journal. -/
def label : Level → String
  | warn => "WARN"
  | debug => "DEBUG"
  | trace => "TRACE"

end Level

/-- What happened. -/
inductive Event where
  /-- A table log was asked for an input that should not be coded. -/
  | shortInput (length : Nat)
  /-- A histogram was apportioned. -/
  | apportioned (distinct : Nat) (distribution : Distribution)
  /-- A compression knows its distribution. -/
  | compressing (length distinct : Nat) (maxSymbol : UInt8) (tableLog : Nat)
  /-- An encode table was built. -/
  | encodeTable (table : EncodeTable)
  /-- A compression is done. -/
  | compressed (length blockLength headerLength : Nat)
  /-- A decode table was built. -/
  | decodeTable (table : DecodeTable)
  /-- A decompression has read the header. -/
  | decompressing (symbolCount blockLength tableLog : Nat)
  deriving DecidableEq, Repr

namespace Event

/-- How much the event matters. -/
def level : Event → Level
  | shortInput _ => .warn
  | apportioned _ _ => .trace
  | compressing _ _ _ _ => .debug
  | encodeTable _ => .trace
  | compressed _ _ _ => .debug
  | decodeTable _ => .trace
  | decompressing _ _ _ => .debug

/-- Texts in brackets, with commas between. -/
def bracketed (texts : List String) : String :=
  "[" ++ ", ".intercalate texts ++ "]"

/-- A decode entry as written in a journal. -/
def entryText (entry : DecodeEntry) : String :=
  "DecodeEntry \x7b baseline: " ++ toString entry.baseline ++
    ", nb_bits: " ++ toString entry.width ++ ", symbol: " ++ toString entry.symbol ++ " \x7d"

/-- The event in words. -/
def message : Event → String
  | shortInput length => s!"input of {length} bytes is too short for entropy coding"
  | apportioned distinct distribution =>
    s!"normalized {distinct} symbols to table log {distribution.tableLog}: " ++
      bracketed (distribution.probabilities.map toString)
  | compressing length distinct maxSymbol tableLog =>
    s!"compressing {length} bytes: {distinct} symbols, max symbol {maxSymbol}, " ++
      s!"table log {tableLog}"
  | encodeTable table =>
    s!"compression state table (log {table.tableLog}): " ++
      bracketed (table.states.toList.map toString)
  | compressed length blockLength headerLength =>
    s!"compressed {length} bytes into {blockLength} ({headerLength} header)"
  | decodeTable table =>
    s!"decompression table (log {table.tableLog}): " ++
      bracketed (table.entries.toList.map entryText)
  | decompressing symbolCount blockLength tableLog =>
    s!"decompressing {symbolCount} symbols from {blockLength} bytes, table log {tableLog}"

end Event

namespace Journal

/-- The events of choosing a table log for an input of `length` bytes. -/
def tableLog (length : Nat) : List Event :=
  if length ≤ 1 then [.shortInput length] else []

/-- The events of apportioning a histogram. -/
def apportion (histogram : Histogram) (tableLog : Nat) : List Event :=
  match histogram.apportion tableLog with
  | .ok distribution => [.apportioned histogram.distinct distribution]
  | .error _ => []

/-- The events of building the encode table of a distribution. -/
def encodeTable (distribution : Distribution) : List Event :=
  [.encodeTable distribution.encodeTable]

/-- The events of building the decode table of a distribution. -/
def decodeTable (distribution : Distribution) : List Event :=
  [.decodeTable distribution.decodeTable]

/-- The events of a compression. One that fails does so before anything happened. -/
def compress (limits : Limits) (input : List UInt8) : List Event :=
  match limits.validate, Block.pack limits input with
  | .ok _, .ok packing =>
    let distribution := packing.header.distribution
    let distinct := packing.histogram.distinct
    [.apportioned distinct distribution,
      .compressing input.length distinct packing.histogram.maxSymbol distribution.tableLog] ++
      encodeTable distribution ++
      [.compressed input.length packing.block.length packing.headerLength]
  | _, _ => []

/-- The events of a decompression. One that fails on the header does so before anything
happened; one that fails on the stream has read the header. -/
def decompress (block : List UInt8) : List Event :=
  match Block.read block with
  | .ok opened =>
    [.decodeTable opened.table,
      .decompressing opened.header.symbolCount block.length opened.table.tableLog]
  | .error _ => []

/-- The events of the given level and of graver ones. -/
def upTo (level : Level) (events : List Event) : List Event :=
  events.filter fun event => event.level.rank ≤ level.rank

end Journal

end FiniteStateEntropy
