import FiniteStateEntropy.Distribution

/-!
# Headers

A block begins with the distribution its stream is coded under, and the number of its symbols:

* one byte: the table log, less the smallest one of the format;
* one byte: the last symbol of the alphabet;
* for every present symbol in ascending order, the symbol and its share;
* four bytes: the number of symbols, lowest byte first.

A share takes one byte when the table is small and two bytes, highest byte first, when the table
log is at least `wideTableLog`. In both widths the pattern with all bits set stands for rare, and
any other one for itself.

Nothing says how many entries there are: the entry of the last symbol is the last one. Parsing
accepts what writing produces and nothing else, so a header has one spelling.

## Main definitions

* `Header`, `Header.bytes`: a header and its bytes
* `Header.parse`: the header at the front of a byte string, and the bytes behind it
-/

namespace FiniteStateEntropy

/-- The smallest table log at which shares are written in two bytes. -/
def wideTableLog : Nat := 8

/-- What is known of a block before its stream is read. -/
structure Header where
  /-- The distribution that the stream is coded under. -/
  distribution : Distribution
  /-- The number of symbols in the block. -/
  symbolCount : Nat
  deriving DecidableEq, Repr

namespace Share

/-- The bytes of a share. -/
def bytes (wide : Bool) (share : Share) : List UInt8 :=
  match wide, share with
  | true, rare => [0xFF, 0xFF]
  | true, share => [(share.slots / 0x100).toUInt8, share.slots.toUInt8]
  | false, rare => [0xFF]
  | false, share => [share.slots.toUInt8]

/-- The share that a number read from a header stands for. -/
def ofField (wide : Bool) (field : Nat) : Share :=
  if field = (if wide then 0xFFFF else 0xFF) then rare else ofSlots field

end Share

namespace Header

/-- Four bytes of a number, lowest byte first. -/
def countBytes (count : Nat) : List UInt8 :=
  [count.toUInt8, (count / 0x100).toUInt8, (count / 0x10000).toUInt8, (count / 0x1000000).toUInt8]

/-- The entries of a distribution. -/
def entryBytes (distribution : Distribution) : List UInt8 :=
  distribution.present.flatMap fun (symbol, share) =>
    symbol :: share.bytes (decide (wideTableLog ≤ distribution.tableLog))

/-- The bytes of a header. The symbol count has to fit its four bytes. -/
def bytes (header : Header) : Except Error (List UInt8) :=
  if header.symbolCount < 0x100000000 then
    let distribution := header.distribution
    .ok ((distribution.tableLog - minTableLog).toUInt8 :: distribution.maxSymbol ::
      (entryBytes distribution ++ countBytes header.symbolCount))
  else
    .error (.inputTooLong header.symbolCount)

/-! ### Parsing -/

/-- The bytes end too early. -/
def truncated {α : Type} : Except Error α := .error (.corruptHeader .truncated)

/-- Ends the entry of `symbol`, whose share is written as `field`: either it is the last one, and
`rest` lies behind the entries, or reading goes on with one more share. -/
def endEntry (wide : Bool) (maxSymbol symbol : UInt8) (shares : List Share) (field : Nat)
    (rest : List UInt8) (goOn : List Share → Except Error (List Share × List UInt8)) :
    Except Error (List Share × List UInt8) :=
  if field = 0 then
    .error (.corruptHeader .emptyEntry)
  else
    let skipped := List.replicate (symbol.toNat - shares.length) Share.absent
    let shares := shares ++ skipped ++ [Share.ofField wide field]
    if symbol = maxSymbol then .ok (shares, rest) else goOn shares

/-- Reads entries up to the one of `maxSymbol`, and gives the shares with the bytes behind. The
shares of all symbols up to the last one read are in `shares`, so a further symbol is out of order
when it is smaller than their number; symbols passed over are absent. -/
def parseEntries (wide : Bool) (maxSymbol : UInt8) :
    List UInt8 → List Share → Except Error (List Share × List UInt8)
  | [], _ => truncated
  | symbol :: input, shares =>
    if maxSymbol < symbol then
      .error (.corruptHeader .symbolAboveMaximum)
    else if symbol.toNat < shares.length then
      .error (.corruptHeader .symbolsOutOfOrder)
    else
      match wide, input with
      | false, field :: rest =>
        endEntry wide maxSymbol symbol shares field.toNat rest (parseEntries wide maxSymbol rest)
      | true, high :: low :: rest =>
        endEntry wide maxSymbol symbol shares (high.toNat * 0x100 + low.toNat) rest
          (parseEntries wide maxSymbol rest)
      | _, _ => truncated

/-- Reads the symbol count, and gives the bytes behind it. -/
def parseCount : List UInt8 → Except Error (Nat × List UInt8)
  | a :: b :: c :: d :: rest =>
    .ok (a.toNat + b.toNat * 0x100 + c.toNat * 0x10000 + d.toNat * 0x1000000, rest)
  | _ => truncated

/-- Reads the header at the front of `input`, and gives the bytes behind it. -/
def parse : List UInt8 → Except Error (Header × List UInt8)
  | [] => truncated
  | excess :: input =>
    let tableLog := excess.toNat + minTableLog
    if maxTableLog < tableLog then
      .error (.corruptHeader .tableLogOutOfRange)
    else
      match input with
      | [] => truncated
      | maxSymbol :: input => do
        let wide := decide (wideTableLog ≤ tableLog)
        let (shares, input) ← parseEntries wide maxSymbol input []
        let (symbolCount, rest) ← parseCount input
        if symbolCount < 2 then
          throw (.corruptHeader .countBelowTwo)
        let distribution ← Distribution.ofShares tableLog shares
        return (⟨distribution, symbolCount⟩, rest)

end Header

end FiniteStateEntropy
