import FiniteStateEntropy.Proofs.Corrections
import Mathlib.Algebra.BigOperators.Fin
import Mathlib.Algebra.Order.BigOperators.Group.List
import Mathlib.Algebra.Order.Group.Nat

/-!
# Slots are taken back down to a level

Slots that were given out in excess are taken back in rounds. A round finds the richest symbol,
the first one of those with the most slots, and takes one slot from it. What comes of it can be said
without the rounds. It is as if water were let off: there is a level, and whoever stands below it
has not been touched. Those that reached it are cut down to it, and the first few of them have given
up one slot more, because a level need not come out even.

The level only ever sinks. While some symbol still has as many slots as the level, the richest one
is the first of these, so the next in line gives up its slot. When all of them have, the level sinks
to what is then the most slots that anybody has. A level never gets below two slots, since nobody is
asked for a last one, so a rare symbol always stands below it and stays rare.

The size of the table determines where that ends. The level is the lowest one up to which the
symbols have more slots than there are, and as many symbols as they have more give up one besides.

## Main definitions

* `Apportionment.IsRichest`, `Apportionment.Repays`: slots are taken back, round by round
* `Apportionment.reaching`, `Apportionment.slotsUpTo`: who reaches a level, and the slots up to it
* `Apportionment.IsLevelled`: shares are cut down to a level

## Main results

* `Apportionment.repays_iff`: the rounds of `Apportionment.repay`, and their number
* `Apportionment.IsLevelled.lower`, `Apportionment.IsLevelled.sink`: one round
* `Apportionment.exists_isLevelled`: all rounds
* `Histogram.excess_levelled`: what becomes of a table of which too much is given out
-/

namespace FiniteStateEntropy

/-- The weight is the share as a number, but for a rare one. -/
theorem Share.natCast_weight (share : Share) : (share.weight : ℤ) = max 0 share.toInt := by
  cases share <;> simp [weight, toInt]

/-- Two slots or more are those of a common symbol. -/
theorem Share.eq_ofSlots {share : Share} (h : 2 ≤ share.slots) : share = .ofSlots share.slots := by
  cases share with
  | absent => simp [slots] at h
  | rare => simp [slots] at h
  | common n pos => exact (ofSlots_of_pos pos).symm

@[simp] theorem Share.weight_ofSlots (n : ℕ) : (ofSlots n).weight = n := by
  rw [ofSlots]
  split
  · rfl
  · simp only [weight]
    omega

namespace Apportionment

variable {shares later settled : List Share} {symbol level lowered : ℕ}

/-! ### Rounds -/

/-- A symbol has the greatest share of all, in numbers of which `-1` is a rare one, and no symbol
before it has as great a share. -/
structure IsRichest (shares : List Share) (symbol : ℕ) : Prop where
  /-- It is a symbol of the alphabet. -/
  mem : symbol < shares.length
  /-- No share is greater. -/
  greatest : ∀ other < shares.length,
    (shareAt shares other).toInt ≤ (shareAt shares symbol).toInt
  /-- No share before it is as great. -/
  first : ∀ other < symbol, (shareAt shares other).toInt < (shareAt shares symbol).toInt

/-- `Repays remaining shares rounds settled`: shares that leave `remaining` slots over, which are
missing if that is negative, are settled in a number of rounds. As long as slots are missing, a
round takes one from the richest symbol, which has to have more than one. -/
inductive Repays : ℤ → List Share → ℕ → List Share → Prop
  /-- No slots are missing. -/
  | done {remaining : ℤ} {shares : List Share} (hnone : 0 ≤ remaining) :
      Repays remaining shares 0 shares
  /-- One more slot is taken back. -/
  | round {remaining : ℤ} {shares settled : List Share} {symbol rounds : ℕ}
      (hmissing : remaining < 0) (hrichest : IsRichest shares symbol)
      (hmore : 1 < (shareAt shares symbol).toInt)
      (hrest : Repays (remaining + 1)
        (shares.set symbol (.ofSlots ((shareAt shares symbol).slots - 1))) rounds settled) :
      Repays remaining shares (rounds + 1) settled

/-- A share of the greatest weight, behind smaller ones, is that of the favourite. -/
theorem favourite_eq (hweight : (shareAt shares symbol).weight = level) (hpos : 0 < level)
    (hle : ∀ other, (shareAt shares other).weight ≤ level)
    (hlt : ∀ other < symbol, (shareAt shares other).weight < level) :
    favourite shares = symbol ∧ greatestWeight shares = level := by
  have hgreatest : greatestWeight shares ≠ 0 := by
    have := weight_shareAt_le shares symbol
    omega
  obtain ⟨pos, hfavourite⟩ := shareAt_favourite hgreatest
  have hlevel : greatestWeight shares = level := by
    refine Nat.le_antisymm ?_ (hweight ▸ weight_shareAt_le shares symbol)
    have := hle (favourite shares)
    rwa [hfavourite, Share.weight_common] at this
  refine ⟨?_, hlevel⟩
  rcases Nat.lt_trichotomy (favourite shares) symbol with hbefore | heq | hbehind
  · have := hlt _ hbefore
    rw [hfavourite, Share.weight_common] at this
    omega
  · exact heq
  · have := weight_shareAt_lt hgreatest hbehind
    omega

theorem shareAt_of_length_le (h : shares.length ≤ symbol) : shareAt shares symbol = .absent :=
  List.getD_eq_default _ _ h

/-- **The richest symbol**, if it has more than one slot, is the favourite. -/
theorem isRichest_iff : IsRichest shares symbol ∧ 1 < (shareAt shares symbol).toInt ↔
    symbol = favourite shares ∧ 1 < greatestWeight shares := by
  constructor
  · rintro ⟨⟨-, hgreatest, hfirst⟩, hmore⟩
    have hsymbol := (shareAt shares symbol).natCast_weight
    have hle : ∀ other, (shareAt shares other).weight ≤ (shareAt shares symbol).weight := by
      intro other
      by_cases hother : other < shares.length
      · have := hgreatest other hother
        have := (shareAt shares other).natCast_weight
        omega
      · rw [shareAt_of_length_le (Nat.not_lt.mp hother)]
        exact Nat.zero_le _
    have hlt : ∀ other < symbol,
        (shareAt shares other).weight < (shareAt shares symbol).weight := by
      intro other hbefore
      have := hfirst other hbefore
      have := (shareAt shares other).natCast_weight
      omega
    obtain ⟨hfavourite, hweight⟩ := favourite_eq rfl (by omega) hle hlt
    exact ⟨hfavourite.symm, by omega⟩
  · rintro ⟨rfl, hmore⟩
    have hgreatest : greatestWeight shares ≠ 0 := by omega
    obtain ⟨pos, hfavourite⟩ := shareAt_favourite hgreatest
    have hle : ∀ other, (shareAt shares other).toInt ≤ (shareAt shares other).weight :=
      fun other => Share.toInt_le_weight _
    refine ⟨⟨?_, ?_, ?_⟩, ?_⟩
    · refine Nat.lt_of_not_le ?_
      intro habsent
      rw [shareAt_of_length_le habsent] at hfavourite
      cases hfavourite
    · intro other _
      have := weight_shareAt_le shares other
      have := hle other
      rw [hfavourite, Share.toInt]
      omega
    · intro other hbefore
      have := weight_shareAt_lt hgreatest hbefore
      have := hle other
      rw [hfavourite, Share.toInt]
      omega
    · rw [hfavourite, Share.toInt]
      omega

theorem set_favourite (h : 1 < greatestWeight shares) :
    shares.set (favourite shares) (.ofSlots ((shareAt shares (favourite shares)).slots - 1)) =
      takeBack shares := by
  obtain ⟨pos, hfavourite⟩ := getElem?_favourite (show greatestWeight shares ≠ 0 by omega)
  rw [takeBack, List.modify_eq_set_getElem?, shareAt, List.getD_eq_getElem?_getD, hfavourite]
  rfl

/-- **The rounds of a repayment.** They come to an end unless somebody would have to give up a last
slot, and then there are as many as there are slots missing. -/
theorem repays_iff {excess rounds : ℕ} :
    Repays (-(excess : ℤ)) shares rounds settled ↔
      rounds = excess ∧ repay excess shares = some settled := by
  induction excess generalizing shares rounds with
  | zero =>
    constructor
    · intro h
      cases h with
      | done _ => exact ⟨rfl, rfl⟩
      | round hmissing _ _ _ => exact absurd hmissing (by simp)
    · rintro ⟨rfl, hsettled⟩
      cases hsettled
      exact .done (by simp)
  | succ excess ih =>
    -- what is missing is the excess with its sign changed, so a round takes one off both
    have hremaining : -((excess + 1 : ℕ) : ℤ) + 1 = -(excess : ℤ) := by omega
    constructor
    · intro h
      cases h with
      | done hnone => exact absurd hnone (by omega)
      | round hmissing hrichest hmore hrest =>
        obtain ⟨rfl, hgreatest⟩ := isRichest_iff.mp ⟨hrichest, hmore⟩
        rw [hremaining, set_favourite hgreatest] at hrest
        obtain ⟨rfl, hsettled⟩ := ih.mp hrest
        refine ⟨rfl, ?_⟩
        rw [repay, if_neg (by omega)]
        exact hsettled
    · rintro ⟨rfl, hsettled⟩
      rw [repay] at hsettled
      split at hsettled
      · cases hsettled
      · rename_i hgreatest
        have hgreatest : 1 < greatestWeight shares := by omega
        obtain ⟨hrichest, hmore⟩ := isRichest_iff.mpr ⟨rfl, hgreatest⟩
        refine .round (by omega) hrichest hmore ?_
        rw [hremaining, set_favourite hgreatest]
        exact ih.mpr ⟨rfl, hsettled⟩

/-! ### Levels -/

/-- The symbols with at least `level` slots, in ascending order. -/
def reaching (level : ℕ) (shares : List Share) : List ℕ :=
  (List.range shares.length).filter fun symbol => level ≤ (shareAt shares symbol).slots

/-- The slots that the symbols have up to a level, all together. -/
def slotsUpTo (level : ℕ) (shares : List Share) : ℕ :=
  (shares.map fun share => min share.slots level).sum

/-- The symbols that reach a level are cut down to it, and the first `lowered` of them by one slot
more. The others keep their shares. -/
structure IsLevelled (level lowered : ℕ) (shares settled : List Share) : Prop where
  /-- Nobody has to give up a last slot. -/
  two_le : 2 ≤ level
  /-- There are as many symbols that reach the level. -/
  lowered_le : lowered ≤ (reaching level shares).length
  /-- A symbol below the level keeps its share. -/
  below : ∀ symbol, (shareAt shares symbol).slots < level →
    shareAt settled symbol = shareAt shares symbol
  /-- The first ones that reach the level end up with one slot less. -/
  first : ∀ symbol ∈ (reaching level shares).take lowered,
    shareAt settled symbol = .ofSlots (level - 1)
  /-- The ones behind them end up with just as many slots. -/
  others : ∀ symbol ∈ (reaching level shares).drop lowered,
    shareAt settled symbol = .ofSlots level

theorem mem_reaching (h : 0 < level) :
    symbol ∈ reaching level shares ↔ level ≤ (shareAt shares symbol).slots := by
  rw [reaching, List.mem_filter, List.mem_range, decide_eq_true_eq, and_iff_right_iff_imp]
  intro hslots
  refine Nat.lt_of_not_le ?_
  intro habsent
  rw [shareAt_of_length_le habsent, Share.slots] at hslots
  omega

theorem pairwise_reaching (level : ℕ) (shares : List Share) :
    (reaching level shares).Pairwise (· < ·) :=
  List.pairwise_lt_range.filter _

/-- A level that is higher than every share changes none. -/
theorem isLevelled_self (h : 2 ≤ level) (hgreatest : greatestWeight shares < level) :
    IsLevelled level 0 shares shares := by
  have hnone : reaching level shares = [] := by
    refine List.eq_nil_iff_forall_not_mem.mpr ?_
    intro symbol hmem
    have hslots := (mem_reaching (by omega)).mp hmem
    have := weight_shareAt_le shares symbol
    have := (shareAt shares symbol).slots_le_max_weight
    omega
  exact ⟨h, Nat.zero_le _, fun _ _ => rfl, by simp [hnone], by simp [hnone]⟩

/-- **The next in line** stands behind those that have given up a slot more, and before the rest. -/
theorem exists_next (h : lowered < (reaching level shares).length) :
    ∃ next, (reaching level shares).take (lowered + 1) =
        (reaching level shares).take lowered ++ [next] ∧
      (reaching level shares).drop lowered =
        next :: (reaching level shares).drop (lowered + 1) ∧
      ∀ symbol ∈ (reaching level shares).drop (lowered + 1), next < symbol := by
  have hdrop := List.drop_eq_getElem_cons h
  have hascending := (pairwise_reaching level shares).sublist (List.drop_sublist lowered _)
  rw [hdrop, List.pairwise_cons] at hascending
  exact ⟨_, List.take_succ_eq_append_getElem h, hdrop, hascending.1⟩

namespace IsLevelled

theorem level_pos (h : IsLevelled level lowered shares later) : 0 < level :=
  Nat.lt_of_succ_lt h.two_le

/-- A symbol stands below the level, or it is one of the first that reach it, or one of the others
that do. -/
theorem share_cases (h : IsLevelled level lowered shares later) (symbol : ℕ) :
    ((shareAt shares symbol).slots < level ∧ symbol ∉ (reaching level shares).take lowered ∧
      shareAt later symbol = shareAt shares symbol) ∨
    (level ≤ (shareAt shares symbol).slots ∧ symbol ∈ (reaching level shares).take lowered ∧
      shareAt later symbol = .ofSlots (level - 1)) ∨
    (level ≤ (shareAt shares symbol).slots ∧ symbol ∉ (reaching level shares).take lowered ∧
      symbol ∈ (reaching level shares).drop lowered ∧ shareAt later symbol = .ofSlots level) := by
  have hmem := @mem_reaching shares symbol level h.level_pos
  by_cases hfirst : symbol ∈ (reaching level shares).take lowered
  · exact .inr (.inl ⟨hmem.mp (List.mem_of_mem_take hfirst), hfirst, h.first symbol hfirst⟩)
  rcases Nat.lt_or_ge (shareAt shares symbol).slots level with hlt | hle
  · exact .inl ⟨hlt, hfirst, h.below symbol hlt⟩
  · have hother := hmem.mpr hle
    rw [← List.take_append_drop lowered (reaching level shares), List.mem_append] at hother
    have hother := hother.resolve_left hfirst
    exact .inr (.inr ⟨hle, hfirst, hother, h.others symbol hother⟩)

/-- Nobody has more slots than the level, and who has as many is still in line. -/
theorem weight_lt_or_mem (h : IsLevelled level lowered shares later) (symbol : ℕ) :
    (shareAt later symbol).weight < level ∨ symbol ∈ (reaching level shares).drop lowered := by
  rcases h.share_cases symbol with ⟨hlt, -, hshare⟩ | ⟨-, -, hshare⟩ | ⟨-, -, hother, -⟩
  · rw [hshare]
    exact .inl (Nat.lt_of_le_of_lt (Share.weight_le_slots _) hlt)
  · rw [hshare, Share.weight_ofSlots]
    exact .inl (Nat.sub_one_lt h.level_pos.ne')
  · exact .inr hother

/-- **One round at a level.** The next in line is the one who gives up a slot. -/
theorem lower (h : IsLevelled level lowered shares later)
    (hlowered : lowered < (reaching level shares).length) :
    IsLevelled level (lowered + 1) shares (takeBack later) := by
  obtain ⟨next, htake, hdrop, hbehind⟩ := exists_next hlowered
  have hnext : next ∈ (reaching level shares).drop lowered := hdrop ▸ List.mem_cons_self
  have hweight : ∀ symbol ∈ (reaching level shares).drop lowered,
      (shareAt later symbol).weight = level := by
    intro symbol hsymbol
    rw [h.others symbol hsymbol, Share.weight_ofSlots]
  have hle : ∀ other, (shareAt later other).weight ≤ level := by
    intro other
    rcases h.weight_lt_or_mem other with hlt | hmem
    · exact Nat.le_of_lt hlt
    · exact Nat.le_of_eq (hweight other hmem)
  have hlt : ∀ other < next, (shareAt later other).weight < level := by
    intro other hbefore
    refine (h.weight_lt_or_mem other).resolve_right ?_
    rw [hdrop, List.mem_cons]
    rintro (rfl | hmem)
    · omega
    · have := hbehind other hmem
      omega
  -- so the next in line is the richest, and nobody else's share changes
  obtain ⟨hfavourite, hgreatest⟩ := favourite_eq (hweight next hnext) h.level_pos hle hlt
  have hshare : ∀ symbol, shareAt (takeBack later) symbol =
      if symbol = next then .ofSlots (level - 1) else shareAt later symbol := by
    intro symbol
    rw [takeBack, shareAt_modify (· - 1) (hgreatest ▸ h.level_pos.ne'), hfavourite, hgreatest]
  refine ⟨h.two_le, hlowered, ?_, ?_, ?_⟩
  · intro symbol hsymbol
    have hne : symbol ≠ next := by
      rintro rfl
      have := (mem_reaching h.level_pos).mp (List.mem_of_mem_drop hnext)
      omega
    rw [hshare, if_neg hne, h.below symbol hsymbol]
  · intro symbol hsymbol
    rw [htake, List.mem_append, List.mem_singleton] at hsymbol
    rw [hshare]
    split
    · rfl
    · exact h.first symbol (hsymbol.resolve_right ‹_›)
  · intro symbol hsymbol
    rw [hshare, if_neg (Nat.ne_of_gt (hbehind symbol hsymbol))]
    exact h.others symbol (hdrop ▸ List.mem_cons_of_mem _ hsymbol)

/-- **A level sinks** when all symbols that reach it have given up a slot more. The next level is
the greatest number of slots that is left to anybody. -/
theorem sink (h : IsLevelled level (reaching level shares).length shares later)
    (hmore : 1 < greatestWeight later) :
    IsLevelled (greatestWeight later) 0 shares later ∧
      0 < (reaching (greatestWeight later) shares).length := by
  have hcases : ∀ symbol, (shareAt shares symbol).slots < level ∧
        shareAt later symbol = shareAt shares symbol ∨
      level ≤ (shareAt shares symbol).slots ∧ shareAt later symbol = .ofSlots (level - 1) := by
    intro symbol
    rcases h.share_cases symbol with ⟨hlt, -, hshare⟩ | ⟨hle, -, hshare⟩ | ⟨-, -, hother, -⟩
    · exact .inl ⟨hlt, hshare⟩
    · exact .inr ⟨hle, hshare⟩
    · rw [List.drop_length] at hother
      cases hother
  have hle := weight_shareAt_le later
  obtain ⟨pos, hfavourite⟩ := shareAt_favourite (show greatestWeight later ≠ 0 by omega)
  have hpos := h.level_pos
  generalize greatestWeight later = greatest at *
  -- whoever has the greatest number of slots has kept them or was cut down to just below the level
  have hreaches : greatest < level ∧ greatest ≤ (shareAt shares (favourite later)).slots := by
    rcases hcases (favourite later) with ⟨hslots, hshare⟩ | ⟨hslots, hshare⟩
    · rw [hfavourite] at hshare
      rw [← hshare, Share.slots] at hslots ⊢
      omega
    · have := congrArg Share.weight (hfavourite.symm.trans hshare)
      rw [Share.weight_common, Share.weight_ofSlots] at this
      omega
  refine ⟨⟨hmore, Nat.zero_le _, ?_, ?_, ?_⟩,
    List.length_pos_of_mem ((mem_reaching pos).mpr hreaches.2)⟩
  · intro symbol hsymbol
    rcases hcases symbol with ⟨-, hshare⟩ | ⟨hslots, -⟩
    · exact hshare
    · omega
  · simp
  · intro symbol hsymbol
    have hslots := (mem_reaching pos).mp hsymbol
    have hweight := hle symbol
    rcases hcases symbol with ⟨-, hshare⟩ | ⟨-, hshare⟩
    · rw [hshare] at hweight ⊢
      have := (shareAt shares symbol).slots_le_max_weight
      have := (shareAt shares symbol).weight_le_slots
      rw [Share.eq_ofSlots (show 2 ≤ (shareAt shares symbol).slots by omega)]
      congr 1
      omega
    · rw [hshare, Share.weight_ofSlots] at hweight
      rw [hshare]
      congr 1
      omega

/-- **One round**, at the level that was reached or at the one below it. -/
theorem exists_round (h : IsLevelled level lowered shares later)
    (hmore : 1 < greatestWeight later) :
    ∃ level lowered, 0 < lowered ∧ IsLevelled level lowered shares (takeBack later) := by
  rcases Nat.lt_or_eq_of_le h.lowered_le with hlt | rfl
  · exact ⟨level, lowered + 1, lowered.succ_pos, h.lower hlt⟩
  · obtain ⟨hsunk, hpos⟩ := h.sink hmore
    exact ⟨greatestWeight later, 1, Nat.one_pos, hsunk.lower hpos⟩

end IsLevelled

/-- **All rounds.** Shares that slots are taken back from are cut down to a level, and if there is a
round at all, somebody gives up a slot more. -/
theorem exists_isLevelled {excess : ℕ} (h : repay (excess + 1) shares = some settled) :
    ∃ level lowered, 0 < lowered ∧ IsLevelled level lowered shares settled := by
  rw [repay] at h
  split at h
  · cases h
  have hmore : 1 < greatestWeight shares := Nat.lt_of_not_le ‹_›
  refine repay_induction (P := fun later =>
    ∃ level lowered, 0 < lowered ∧ IsLevelled level lowered shares later) h ?_ ?_
  · exact (isLevelled_self (Nat.lt_succ_of_lt hmore) (Nat.lt_succ_self _)).exists_round hmore
  · rintro later hmore ⟨level, lowered, -, hlevelled⟩
    exact hlevelled.exists_round hmore

/-! ### The sum of a level -/

theorem sum_map_eq_sum_shareAt (f : Share → ℕ) (shares : List Share) :
    (shares.map f).sum = ∑ symbol ∈ Finset.range shares.length, f (shareAt shares symbol) := by
  rw [Finset.sum_range, ← Fin.sum_univ_fun_getElem]
  refine Finset.sum_congr rfl ?_
  intro symbol _
  rw [shareAt, List.getD_eq_getElem]

/-- A slot for each of the first symbols that reach a level. -/
theorem sum_take_reaching (h : lowered ≤ (reaching level shares).length) :
    (∑ symbol ∈ Finset.range shares.length,
      if symbol ∈ (reaching level shares).take lowered then 1 else 0) = lowered := by
  have hsub := List.take_sublist lowered (reaching level shares)
  have hnodup : ((reaching level shares).take lowered).Nodup :=
    ((pairwise_reaching level shares).sublist hsub).imp Nat.ne_of_lt
  have hfilter : (Finset.range shares.length).filter
      (· ∈ (reaching level shares).take lowered) =
        ((reaching level shares).take lowered).toFinset := by
    ext symbol
    rw [Finset.mem_filter, List.mem_toFinset, and_iff_right_iff_imp, Finset.mem_range]
    intro hmem
    exact List.mem_range.mp (List.mem_filter.mp (hsub.subset hmem)).1
  rw [Finset.sum_boole, hfilter, List.toFinset_card_of_nodup hnodup, List.length_take_of_le h,
    Nat.cast_id]

/-- From one level to the next there is a slot for each symbol that reaches it. -/
theorem slotsUpTo_add_one (level : ℕ) (shares : List Share) :
    slotsUpTo (level + 1) shares =
      slotsUpTo level shares + (reaching (level + 1) shares).length := by
  have hcount := sum_take_reaching (Nat.le_refl (reaching (level + 1) shares).length)
  rw [List.take_length] at hcount
  rw [slotsUpTo, slotsUpTo, sum_map_eq_sum_shareAt, sum_map_eq_sum_shareAt, ← hcount,
    ← Finset.sum_add_distrib]
  refine Finset.sum_congr rfl ?_
  intro symbol _
  have hmem := @mem_reaching shares symbol (level + 1) level.succ_pos
  split
  · have := hmem.mp ‹_›
    omega
  · have := mt hmem.mpr ‹_›
    omega

/-- **The sum of a level.** What the symbols have up to the level is what is left to them, and the
slots that the first ones have given up besides. -/
theorem IsLevelled.sum_slots_add (h : IsLevelled level lowered shares settled)
    (hlength : settled.length = shares.length) :
    (settled.map Share.slots).sum + lowered = slotsUpTo level shares := by
  have hslots : ∀ symbol, (shareAt settled symbol).slots +
      (if symbol ∈ (reaching level shares).take lowered then 1 else 0) =
        min (shareAt shares symbol).slots level := by
    intro symbol
    rcases h.share_cases symbol with ⟨hlt, hfirst, hshare⟩ | ⟨hle, hfirst, hshare⟩ |
      ⟨hle, hfirst, -, hshare⟩
    · rw [if_neg hfirst, hshare, Nat.add_zero, Nat.min_eq_left (Nat.le_of_lt hlt)]
    · rw [if_pos hfirst, hshare, Share.slots_ofSlots, Nat.sub_add_cancel h.level_pos,
        Nat.min_eq_right hle]
    · rw [if_neg hfirst, hshare, Share.slots_ofSlots, Nat.add_zero, Nat.min_eq_right hle]
  calc (settled.map Share.slots).sum + lowered
      = ∑ symbol ∈ Finset.range shares.length, ((shareAt settled symbol).slots +
          if symbol ∈ (reaching level shares).take lowered then 1 else 0) := by
        rw [Finset.sum_add_distrib, sum_take_reaching h.lowered_le, sum_map_eq_sum_shareAt,
          hlength]
    _ = ∑ symbol ∈ Finset.range shares.length, min (shareAt shares symbol).slots level :=
        Finset.sum_congr rfl fun symbol _ => hslots symbol
    _ = slotsUpTo level shares := by rw [slotsUpTo, sum_map_eq_sum_shareAt]

end Apportionment

namespace Histogram

open Apportionment (initial initialShare Repays slotsUpTo IsLevelled)

variable {histogram : Histogram} {tableLog : ℕ}

/-- Where nothing occurs, nothing is given out. -/
theorem total_ne_zero_of_remainder_neg (h : histogram.remainder tableLog < 0) :
    histogram.total ≠ 0 := by
  intro htotal
  have hzero : ((initial tableLog histogram).map Share.slots).sum = 0 := by
    rw [initial, List.map_map]
    refine List.sum_eq_zero (List.forall_mem_map.mpr ?_)
    intro count hcount
    have hcountle : count ≤ histogram.total := List.le_sum_of_mem hcount
    rw [Function.comp_apply, initialShare, if_pos (by omega)]
    rfl
  rw [remainder, Apportionment.leftover, hzero, Int.natCast_zero, Int.sub_zero] at h
  exact absurd h (Int.not_lt.mpr (Int.natCast_nonneg _))

/-- **What becomes of a table of which too much is given out**, for every histogram that has no more
symbols than the table has slots. Slots are taken back in as many rounds as there are slots missing,
no more and no less, and the distribution is what they leave. It is the first division cut down to a
level of at least two slots: a symbol below the level keeps its share, be it rare or common; of the
symbols that reach the level, some first ones end up with one slot less, and all others with just as
many slots. The level is the lowest one up to which the symbols have more slots than there are in
the table, and what they have more is the number of the first ones. -/
theorem excess_levelled (hlog : minTableLog ≤ tableLog ∧ tableLog ≤ maxTableLog)
    (hdistinct : histogram.distinct ≤ 2 ^ tableLog) (hexcess : histogram.remainder tableLog < 0) :
    ∃ distribution, histogram.apportion tableLog = .ok distribution ∧
      (∀ rounds settled,
        Repays (histogram.remainder tableLog) (initial tableLog histogram) rounds settled ↔
          (rounds : ℤ) = -histogram.remainder tableLog ∧ settled = distribution.shares) ∧
      ∃ level lowered, 0 < lowered ∧
        IsLevelled level lowered (initial tableLog histogram) distribution.shares ∧
        slotsUpTo (level - 1) (initial tableLog histogram) ≤ 2 ^ tableLog ∧
        2 ^ tableLog + lowered = slotsUpTo level (initial tableLog histogram) := by
  obtain ⟨distribution, happortion, htableLog, hkind⟩ :=
    exists_apportion hlog (total_ne_zero_of_remainder_neg hexcess) hdistinct
  have hlength : distribution.shares.length = (initial tableLog histogram).length := by
    have := congrArg List.length hkind
    rwa [List.length_map, List.length_map, ← List.length_map (initialShare tableLog _)] at this
  have hsettle := settle_of_apportion happortion
  generalize histogram.remainder tableLog = remainder at *
  obtain ⟨excess, rfl⟩ := Int.eq_negSucc_of_lt_zero hexcess
  have hrepay : Apportionment.repay (excess + 1) (initial tableLog histogram) =
    some distribution.shares := hsettle
  obtain ⟨level, lowered, hpos, hlevelled⟩ := Apportionment.exists_isLevelled hrepay
  have hsum := hlevelled.sum_slots_add hlength
  rw [distribution.sum_slots, htableLog] at hsum
  refine ⟨distribution, happortion, ?_, level, lowered, hpos, hlevelled, ?_, hsum⟩
  · intro rounds settled
    rw [Int.negSucc_eq, ← Int.natCast_succ, Apportionment.repays_iff, hrepay, Option.some.injEq,
      Int.neg_neg, Int.natCast_inj, eq_comm (a := distribution.shares)]
  · -- from the level below there is one slot for each symbol that may have to give one up
    have hnext := Apportionment.slotsUpTo_add_one (level - 1) (initial tableLog histogram)
    rw [Nat.sub_add_cancel hlevelled.level_pos] at hnext
    have := hlevelled.lowered_le
    omega

/-- Three symbols of which one occurs twice as often as the others, among many that are rare. -/
def crowded : Histogram :=
  ⟨[60, 30, 30] ++ List.replicate 13 1, by decide, by decide, by decide⟩

/-- The three have fourteen, seven and seven slots at first, and nine slots are missing. The first
one sinks to the others, and then two of the three give up one slot more. -/
theorem excess_levelled_crowded :
    crowded.distinct ≤ 2 ^ 5 ∧ crowded.remainder 5 = -9 ∧
      initial 5 crowded = [.common 14 (by decide), .common 7 (by decide), .common 7 (by decide)] ++
        List.replicate 13 .rare ∧
      ∃ distribution, crowded.apportion 5 = .ok distribution ∧
        distribution.shares = [.common 6 (by decide), .common 6 (by decide),
          .common 7 (by decide)] ++ List.replicate 13 .rare ∧
        Repays (-9) (initial 5 crowded) 9 distribution.shares ∧
        ∃ level lowered, 0 < lowered ∧
          IsLevelled level lowered (initial 5 crowded) distribution.shares := by
  have hdistinct : crowded.distinct ≤ 2 ^ 5 := by decide
  have hremainder : crowded.remainder 5 = -9 := by decide +kernel
  have hshares : (crowded.apportion 5).map Distribution.shares =
      .ok ([.common 6 (by decide), .common 6 (by decide), .common 7 (by decide)] ++
        List.replicate 13 .rare) := by decide +kernel
  obtain ⟨distribution, happortion, hrounds, level, lowered, hpos, hlevelled, -⟩ :=
    @excess_levelled crowded 5 (by decide) hdistinct (by rw [hremainder]; decide)
  rw [happortion] at hshares
  rw [hremainder] at hrounds
  exact ⟨hdistinct, hremainder, by decide +kernel, distribution, happortion, Except.ok.inj hshares,
    (hrounds 9 _).mpr ⟨rfl, rfl⟩, level, lowered, hpos, hlevelled⟩

end Histogram

end FiniteStateEntropy
