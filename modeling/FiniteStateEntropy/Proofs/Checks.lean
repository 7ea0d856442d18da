import FiniteStateEntropy.Bits.Reader
import Mathlib.Algebra.Ring.Nat

/-!
# Checked computations

The operations that the coder is made of are total: a difference below zero is zero, a slot beyond
the end of a table is not written, a number too large for its field is cut to it. A coder on
machine words has none of these ways out, so what is true of this one is only true of that one if
no such case is ever met.

A *checked* computation meets them with an ending of its own. It has the same steps, but every
subtraction, every field and every lookup is a check, and what fails a check stops with the name
of the check. To say that a computation is safe is then to say that its checked version ends as it
does itself: in the same result, or in the same refusal.

`Alike` says that, together with what the result is and who is blamed for a refusal. It is closed
under sequencing, so that an argument goes through a computation step by step, with the
postcondition of one step as the precondition of the next; a check disappears from the sequence
where it is passed.

## Main definitions

* `Stop`: how a checked computation ends without a result
* `Checked.sub`, `Checked.fit`, `Checked.within`, `Checked.lookup`, `Checked.put`: the checks
* `Alike`: a computation and its checked version end alike
* `CheckM`, `Reads`: the same for reading

## Main results

* `Alike.bind`, `Reads.bind`: sequences end alike when their steps do
* `Alike.eq`: what ends alike differs in the name of the refusal only
-/

namespace FiniteStateEntropy

/-- How a checked computation ends without a result. -/
inductive Stop where
  /-- It refuses, as the computation does that is not checked. -/
  | refused (error : Error)
  /-- A place was looked up or written that does not exist. -/
  | outOfRange
  /-- More was to be taken away than there is. -/
  | underflow
  /-- A number was to be kept in fewer bits than it has. -/
  | truncation
  /-- A coder was to go to a state that its table does not have. -/
  | strayState
  deriving DecidableEq, Repr

namespace Checked

variable {α β : Type}

/-! ### The checks -/

/-- Refuses. -/
def refuse (e : Error) : Except Stop α := .error (.refused e)

/-- A step in which there is nothing to check. -/
def lift (x : Except Error α) : Except Stop α := x.mapError .refused

/-- The difference, which has to be a natural number. -/
def sub (a b : ℕ) : Except Stop ℕ := if b ≤ a then .ok (a - b) else .error .underflow

/-- The number, which has to have no more than `width` bits. -/
def fit (width n : ℕ) : Except Stop ℕ := if n < 2 ^ width then .ok n else .error .truncation

/-- The place, which has to be one of the first `bound`. -/
def within (bound i : ℕ) : Except Stop ℕ := if i < bound then .ok i else .error .outOfRange

/-- What stands at a place, which has to exist. -/
def lookup (xs : Array α) (i : ℕ) : Except Stop α :=
  match xs[i]? with
  | some x => .ok x
  | none => .error .outOfRange

/-- Writes to a place, which has to exist. -/
def put (xs : Array α) (i : ℕ) (x : α) : Except Stop (Array α) :=
  if i < xs.size then .ok (xs.setIfInBounds i x) else .error .outOfRange

/-- The state, which has to be one of a table with `2 ^ tableLog` states. -/
def inTable (tableLog state : ℕ) : Except Stop ℕ :=
  if state < 2 ^ tableLog then .ok state else .error .strayState

theorem sub_eq {a b : ℕ} (h : b ≤ a) : sub a b = .ok (a - b) := if_pos h

theorem fit_eq {width n : ℕ} (h : n < 2 ^ width) : fit width n = .ok n := if_pos h

theorem within_eq {bound i : ℕ} (h : i < bound) : within bound i = .ok i := if_pos h

theorem lookup_eq {xs : Array α} {i : ℕ} {x : α} (h : xs[i]? = some x) :
    lookup xs i = .ok x := by
  rw [lookup, h]

theorem put_eq {xs : Array α} {i : ℕ} (h : i < xs.size) (x : α) :
    put xs i x = .ok (xs.setIfInBounds i x) := if_pos h

theorem inTable_eq {tableLog state : ℕ} (h : state < 2 ^ tableLog) :
    inTable tableLog state = .ok state := if_pos h

/-- A check that is passed gives the rest of a computation what it checked. -/
theorem pass {check : Except Stop β} {b : β} (hcheck : check = .ok b) {f : β → Except Stop α}
    {ended : Except Stop α} (h : f b = ended) : check >>= f = ended := by
  rw [hcheck]
  exact h

/-- A list of checks that are all passed. -/
theorem mapM_eq_ok {xs : List α} {f : α → Except Stop β} {g : α → β}
    (h : ∀ x ∈ xs, f x = .ok (g x)) : xs.mapM f = .ok (xs.map g) := by
  induction xs with
  | nil => rfl
  | cons x xs ih =>
    rw [List.forall_mem_cons] at h
    rw [List.mapM_cons]
    exact pass h.1 (pass (ih h.2) rfl)

end Checked

/-- A computation and its checked version end alike: in one result, of which `post` holds, or in
one refusal, of which `blame` holds. -/
inductive Alike {α : Type} (blame : Error → Prop) (post : α → Prop) :
    Except Stop α → Except Error α → Prop
  /-- Both end in a result. -/
  | ok {a : α} (h : post a) : Alike blame post (.ok a) (.ok a)
  /-- Both refuse. -/
  | refused {e : Error} (h : blame e) : Alike blame post (.error (.refused e)) (.error e)

namespace Alike

variable {α β : Type} {blame : Error → Prop} {post : α → Prop} {post' : β → Prop}
  {checked : Except Stop α} {plain : Except Error α}

/-- Nothing but the name of the refusal is different. -/
theorem eq (h : Alike blame post checked plain) : checked = plain.mapError .refused := by
  cases h with
  | ok h => rfl
  | refused h => rfl

theorem of_eq_ok {a : α} (hchecked : checked = .ok a) (h : post a) :
    Alike blame post checked (.ok a) := by
  rw [hchecked]
  exact ok h

/-- The postcondition of a result. -/
theorem post_of_eq_ok (h : Alike blame post checked plain) {a : α} (hplain : plain = .ok a) :
    post a := by
  subst hplain
  cases h with
  | ok h => exact h

/-- What ends alike ends in a result, or in a refusal for which someone is to blame. -/
theorem outcome (h : Alike blame post checked plain) :
    (∃ a, plain = .ok a ∧ post a) ∨ ∃ e, plain = .error e ∧ blame e := by
  cases h with
  | ok h => exact .inl ⟨_, rfl, h⟩
  | refused h => exact .inr ⟨_, rfl, h⟩

/-- **Sequences end alike** when their steps do. -/
theorem bind {f : α → Except Stop β} {g : α → Except Error β}
    (h : Alike blame post checked plain) (hnext : ∀ a, post a → Alike blame post' (f a) (g a)) :
    Alike blame post' (checked >>= f) (plain >>= g) := by
  cases h with
  | ok h => exact hnext _ h
  | refused h => exact refused h

/-- A check that is passed can be left out. -/
theorem of_check {check : Except Stop β} {b : β} (hcheck : check = .ok b)
    {f : β → Except Stop α} (h : Alike blame post (f b) plain) :
    Alike blame post (check >>= f) plain := by
  rwa [Checked.pass hcheck rfl]

/-- A step with a known result can be left out on both sides. -/
theorem of_found {x : Except Error β} {check : Except Stop β} {b : β} (hx : x = .ok b)
    (hcheck : check = .ok b) {f : β → Except Stop α} {g : β → Except Error α}
    (h : Alike blame post (f b) (g b)) : Alike blame post (check >>= f) (x >>= g) := by
  subst hx
  subst hcheck
  exact h

/-- A result is remembered as the one that was come to. -/
theorem remember (h : Alike blame post checked plain) :
    Alike blame (fun a => post a ∧ plain = .ok a) checked plain := by
  cases h with
  | ok h => exact ok ⟨h, rfl⟩
  | refused h => exact refused h

/-- A step in which there is nothing to check. -/
theorem lift (hok : ∀ a, plain = .ok a → post a) (herror : ∀ e, plain = .error e → blame e) :
    Alike blame post (Checked.lift plain) plain := by
  cases plain with
  | ok a => exact ok (hok a rfl)
  | error e => exact refused (herror e rfl)

end Alike

/-! ### Reading -/

/-- The error is one of the front part of a block. -/
def Error.IsCorruptHeader (e : Error) : Prop := ∃ fault, e = .corruptHeader fault

/-- The error is one of a caller who broke the rules. -/
def Error.IsMisuse (e : Error) : Prop := ∃ cause, e = .misuse cause

/-- The error is one of the stream of a block. -/
def Error.IsCorruptStream (e : Error) : Prop := ∃ fault, e = .corruptStream fault

/-- Checked reading. Of a refused read nobody asks for the reader. -/
abbrev CheckM := StateT Reader (Except Stop)

/-- The end of a reading step, without the reader of a failure. -/
def ending {α : Type} : EStateM.Result Error Reader α → Except Error (α × Reader)
  | .ok a reader => .ok (a, reader)
  | .error e _ => .error e

/-- A reading step and its checked version end alike on every reader. Who is to blame for a
refusal is the stream. -/
def Reads {α : Type} (checked : CheckM α) (plain : ReadM α) (post : α → Prop) :
    Prop :=
  ∀ reader, Alike Error.IsCorruptStream (fun found => post found.1) (checked reader)
    (ending (plain reader))

namespace Reads

variable {α β : Type} {checked : CheckM α} {plain : ReadM α} {post : α → Prop}
  {post' : β → Prop}

theorem pure {a : α} (h : post a) : Reads (Pure.pure a) (Pure.pure a) post := by
  intro reader
  exact Alike.ok h

/-- **Reading in sequence ends alike** when its steps do. -/
theorem bind {f : α → CheckM β} {g : α → ReadM β} (h : Reads checked plain post)
    (hnext : ∀ a, post a → Reads (f a) (g a) post') :
    Reads (checked >>= f) (plain >>= g) post' := by
  intro reader
  have hends : ending ((plain >>= g) reader) =
      ending (plain reader) >>= fun found => ending (g found.1 found.2) := by
    show ending (EStateM.bind plain g reader) = _
    rw [EStateM.bind]
    cases plain reader <;> rfl
  rw [hends]
  exact (h reader).bind fun found hfound => hnext found.1 hfound found.2

/-- The postcondition of what was read. -/
theorem post_of_eq_ok (h : Reads checked plain post) {a : α} {reader next : Reader}
    (hplain : plain reader = .ok a next) : post a :=
  Alike.post_of_eq_ok (h reader) (congrArg ending hplain)

/-- A check that is passed can be left out. -/
theorem of_check {check : Except Stop β} {b : β} (hcheck : check = .ok b) {f : β → CheckM α}
    (h : Reads (f b) plain post) : Reads (liftM check >>= f) plain post := by
  subst hcheck
  exact h

/-- A result may be checked when it is known. -/
theorem andCheck {check : α → Except Stop α} (h : Reads checked plain post)
    (hcheck : ∀ a, post a → check a = .ok a) :
    Reads (checked >>= fun a => liftM (check a)) plain post := by
  intro reader
  have hends : ending (plain reader) = ending (plain reader) >>= .ok := by
    cases plain reader <;> rfl
  rw [hends]
  refine (h reader).bind ?_
  rintro ⟨a, next⟩ ha
  exact .of_check (hcheck a ha) (.ok ha)

/-- A lookup that finds something can be left out on both sides. -/
theorem of_found {x : Except Error β} {check : Except Stop β} {b : β} (hx : x = .ok b)
    (hcheck : check = .ok b) {f : β → CheckM α} {g : β → ReadM α}
    (h : Reads (f b) (g b) post) :
    Reads (liftM check >>= f) (ReadM.ofExcept x >>= g) post := by
  subst hx
  subst hcheck
  exact h

end Reads

end FiniteStateEntropy
