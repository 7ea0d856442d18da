import FiniteStateEntropy.Distribution

/-!
# The spread

Gives every slot of a table a symbol. The slots of a symbol should lie evenly over the table, so
common symbols are dealt out along a *walk* with a fixed odd stride: the stride is coprime to the
size of the table, so the walk meets every slot once before it returns. Rare symbols have the
slots at the high end to themselves, and the walk skips those.

The walk stands at slot `0` when it starts, and it stands there again when every common symbol
has its slots.

## Main definitions

* `Spread.stride`, `Spread.seek`, `Spread.next`: the walk over the slots below a bound
* `Spread.walk`: the slots met in a number of steps
* `Distribution.placements`: the slots with the symbols put there
* `Distribution.spread`: the table of symbols, by slot
-/

namespace FiniteStateEntropy

namespace Spread

/-- The stride of the walk over a table of the given size. -/
def stride (size : Nat) : Nat := size / 2 + size / 8 + 3

/-- Goes on along the walk until a slot below `bound`, for at most `fuel` strides. -/
def seek (size bound : Nat) : Nat → Nat → Nat
  | 0, slot => slot
  | fuel + 1, slot =>
    if slot < bound then slot else seek size bound fuel ((slot + stride size) % size)

/-- The slot below `bound` that the walk meets after `slot`. Once around the table is enough. -/
def next (size bound slot : Nat) : Nat :=
  seek size bound size ((slot + stride size) % size)

/-- The slots that the walk below `bound` meets in `steps` steps from `slot` on. -/
def walk (size bound : Nat) : Nat → Nat → List Nat
  | 0, _ => []
  | steps + 1, slot => slot :: walk size bound steps (next size bound slot)

@[simp] theorem length_walk (size bound steps slot : Nat) :
    (walk size bound steps slot).length = steps := by
  induction steps generalizing slot with
  | zero => rfl
  | succ steps ih => simp [walk, ih]

end Spread

namespace Distribution

open Spread

/-- The rare symbols, in ascending order. -/
def rareSymbols (distribution : Distribution) : List UInt8 :=
  distribution.present.filterMap fun (symbol, share) =>
    if share = .rare then some symbol else none

/-- The common symbols in ascending order, each as often as it has slots. -/
def commonSymbols (distribution : Distribution) : List UInt8 :=
  distribution.present.flatMap fun (symbol, share) => List.replicate share.weight symbol

/-- The slots below this one are for common symbols, the others for rare ones. -/
def rareBound (distribution : Distribution) : Nat :=
  distribution.size - distribution.rareSymbols.length

/-- The slots with the symbols put there: rare symbols from the high end down, common symbols
along the walk below them. -/
def placements (distribution : Distribution) : List (Nat × UInt8) :=
  let rare := distribution.rareSymbols
  let common := distribution.commonSymbols
  let highEnd := (List.range rare.length).map fun i => distribution.size - 1 - i
  highEnd.zip rare ++ (walk distribution.size distribution.rareBound common.length 0).zip common

/-- The symbol of every slot. -/
def spread (distribution : Distribution) : Array UInt8 :=
  distribution.placements.foldl
    (fun table (slot, symbol) => table.setIfInBounds slot symbol)
    (Array.replicate distribution.size 0)

@[simp] theorem size_spread (distribution : Distribution) :
    distribution.spread.size = distribution.size := by
  have key : ∀ (placed : List (Nat × UInt8)) (table : Array UInt8),
      (placed.foldl (fun table (slot, symbol) => table.setIfInBounds slot symbol) table).size =
        table.size := by
    intro placed
    induction placed with
    | nil => intro table; rfl
    | cons head tail ih => intro table; rw [List.foldl_cons, ih]; simp
  simp [spread, key]

end Distribution

end FiniteStateEntropy
